import Oxidalloc.Ownership

/-!
The steps that operations are made of, and what they do to the layout: a step that
touches no block, a write outside the headers and the metadata, a write to the header
of a block that is in no cache, and blocks that leave a cache or enter one. An operation
keeps the invariant because each of its steps does.
-/
namespace Oxidalloc

open ByteMemory HeadPacking LinkedChain Programs VaBitmap

section Mono

variable {w w' : World} {g g' : Layout} {h t cls b k : ℕ} {pl : Place}

/-- The record of a block and its bytes are as before. -/
structure SameBlock (w w' : World) (g g' : Layout) (h : ℕ) : Prop where
  header : ∀ x, h ≤ x → x < h + 16 → w'.mem x = w.mem x
  big : w'.big.get h = w.big.get h
  own : ∀ x, g.own x = .block h → g'.own x = .block h

theorem SameBlock.cls_eq (hs : SameBlock w w' g g' h) :
    OxHeader.cls w'.mem h = OxHeader.cls w.mem h :=
  (OxHeader.fields_congr hs.header).2.1

theorem SameBlock.next_eq (hs : SameBlock w w' g g' h) :
    OxHeader.next w'.mem h = OxHeader.next w.mem h :=
  (OxHeader.fields_congr hs.header).1

theorem SameBlock.capacity_eq (hs : SameBlock w w' g g' h) : w'.capacity h = w.capacity h := by
  unfold World.capacity World.bigSize
  rw [hs.cls_eq, hs.big]

theorem Solo.mono {base : ℕ} (hsolo : Solo w g h base) (hext : Extends w.va w'.va)
    (hs : SameBlock w w' g g' h) : Solo w' g' h base where
  aligned := hsolo.aligned
  offset := by
    rw [hs.cls_eq]
    exact hsolo.offset
  fits := by
    rw [hs.capacity_eq]
    exact hsolo.fits.extends hext
  own := by
    intro x hlo hhi
    rw [hs.capacity_eq] at hhi
    exact hs.own x (hsolo.own x hlo hhi)

theorem BlockOk.mono (hb : BlockOk w g h) (hext : Extends w.va w'.va)
    (hs : SameBlock w w' g g' h) : BlockOk w' g' h where
  isBlock := hb.isBlock
  extent := by
    intro x hlo hhi
    rw [hs.capacity_eq] at hhi
    exact hs.own x (hb.extent x hlo hhi)
  next := by
    rw [hs.next_eq]
    exact hb.next
  cls := by
    unfold IsBig
    rw [hs.cls_eq, hs.big]
    exact hb.cls
  solo := by
    rw [hs.cls_eq]
    intro hcls
    obtain ⟨base, hsolo⟩ := hb.solo hcls
    exact ⟨base, hsolo.mono hext hs⟩

theorem PlaceOk.mono (hp : PlaceOk w h pl) (hmagic : w'.magic = w.magic)
    (hfreed : w'.freedMagic = w.freedMagic)
    (hheader : ∀ x, h ≤ x → x < h + 16 → w'.mem x = w.mem x) : PlaceOk w' h pl := by
  obtain ⟨_, hcls, hmag⟩ := OxHeader.fields_congr hheader
  cases pl with
  | held =>
    show OxHeader.magic w'.mem h = w'.magic
    rw [hmag, hmagic]
    exact hp
  | loose c =>
    show c < 34 ∧ OxHeader.cls w'.mem h = c ∧ OxHeader.magic w'.mem h = w'.freedMagic
    rw [hcls, hmag, hfreed]
    exact hp
  | cached k =>
    show k.cls < 34 ∧ OxHeader.cls w'.mem h = k.cls ∧ OxHeader.magic w'.mem h = w'.freedMagic
    rw [hcls, hmag, hfreed]
    exact hp

theorem Area.mono (ha : Area w g t cls b k) (hext : Extends w.va w'.va)
    (hmeta : ∀ x, b ≤ x → x < b + 32 → w'.mem x = w.mem x)
    (hown : ∀ x, g.own x = .metaData b → g'.own x = .metaData b)
    (hraw : ∀ x, g.own x = .pending t cls → g'.own x = .pending t cls) :
    Area w' g' t cls b k := by
  obtain ⟨hnext, hstop⟩ := MetaData.fields_congr hmeta
  exact ⟨ha.cls_lt, ha.le, ha.fits.extends hext, hnext.trans ha.next, hstop.trans ha.stop,
    fun x hlo hhi => hown x (ha.metaOwn x hlo hhi), fun x hlo hhi => hraw x (ha.rawOwn x hlo hhi)⟩

theorem Inv.blocks_keep (hinv : Inv w g) (hext : Extends w.va w'.va) (hmem : w'.mem = w.mem)
    (hbig : w'.big = w.big) (hmagic : w'.magic = w.magic) (hfreed : w'.freedMagic = w.freedMagic) :
    ∀ h pl, g.place h = some pl → BlockOk w' g h ∧ PlaceOk w' h pl := by
  intro h pl hplace
  obtain ⟨hb, hp⟩ := hinv.blocks h pl hplace
  have hsame : SameBlock w w' g g h := ⟨fun _ _ _ => by rw [hmem], by rw [hbig], fun _ hx => hx⟩
  exact ⟨hb.mono hext hsame, hp.mono hmagic hfreed hsame.header⟩

theorem Area.keep (ha : Area w g t cls b k) (hext : Extends w.va w'.va) (hmem : w'.mem = w.mem) :
    Area w' g t cls b k :=
  ha.mono hext (fun _ _ _ => by rw [hmem]) (fun _ hx => hx) fun _ hx => hx

end Mono

section SameHeap

/-- The caches, the pending slabs and the statics are as before. -/
structure SameCaches (w w' : World) : Prop where
  heads : ∀ k, w'.headOf k = w.headOf k
  usages : ∀ k, w'.usageOf k = w.usageOf k
  pending : ∀ t cls, w'.pendingOf t cls = w.pendingOf t cls
  slabs : w'.slabs = w.slabs
  magic : w'.magic = w.magic
  freedMagic : w'.freedMagic = w.freedMagic
  booted : w'.booted = w.booted
  hotReady : w'.hotReady = w.hotReady
  thp : w.ThpOff → w'.ThpOff

/-- A step that touches no block, no cache and no page. -/
structure SameHeap (w w' : World) : Prop extends SameCaches w w' where
  mem : w'.mem = w.mem
  va : Keeps w.va w'.va
  big : w'.big = w.big

variable {w w' w'' : World} {g g' : Layout}

theorem SameCaches.trans (h : SameCaches w w') (h' : SameCaches w' w'') : SameCaches w w'' :=
  ⟨fun k => (h'.heads k).trans (h.heads k), fun k => (h'.usages k).trans (h.usages k),
    fun t cls => (h'.pending t cls).trans (h.pending t cls), h'.slabs.trans h.slabs,
    h'.magic.trans h.magic, h'.freedMagic.trans h.freedMagic, h'.booted.trans h.booted,
    h'.hotReady.trans h.hotReady, fun hthp => h'.thp (h.thp hthp)⟩

/-- Bytes, pages, records, access rights and hints are none of these. -/
theorem sameCaches_update (w : World) (m : Memory) (va : VaBitmap) (big : Hashmap.BigAllocMap)
    (access : ℕ → Bool) (batchHints : ℕ → ℕ) :
    SameCaches w { w with
      mem := m, va := va, big := big, access := access, batchHints := batchHints } :=
  ⟨fun k => by cases k <;> rfl, fun k => by cases k <;> rfl, fun _ _ => rfl, rfl, rfl, rfl, rfl,
    rfl, id⟩

theorem SameHeap.refl (h : Wf w.va) : SameHeap w w :=
  ⟨sameCaches_update .., rfl, Keeps.refl h, rfl⟩

theorem SameHeap.trans (h : SameHeap w w') (h' : SameHeap w' w'') : SameHeap w w'' :=
  ⟨h.toSameCaches.trans h'.toSameCaches, h'.mem.trans h.mem, h.va.trans h'.va,
    h'.big.trans h.big⟩

theorem SlabOk.keep {b cls : ℕ} (h : SlabOk w g b cls) (hmem : w'.mem = w.mem)
    (hpending : ∀ t cls, w'.pendingOf t cls = w.pendingOf t cls) (hslabs : w'.slabs = w.slabs)
    (hown : g'.own = g.own) (hplace : ∀ h, g.place h ≠ none → g'.place h ≠ none) :
    SlabOk w' g' b cls := by
  obtain ⟨hcls, haligned, hmeta, hslots⟩ := h
  refine ⟨hcls, haligned, by rwa [hown], fun i hi => ?_⟩
  unfold Uncarved
  rw [hmem, hslabs]
  simp only [hpending]
  exact (hslots i hi).imp_left fun h => ⟨hplace _ h.1, h.2⟩

/-- The invariant reads the bytes, the caches, the pending slabs and the slabs made so far.
The magic numbers are read from the headers of blocks only. -/
theorem Inv.keep (hinv : Inv w g) (hmem : w'.mem = w.mem) (hbig : w'.big = w.big)
    (hslabs : w'.slabs = w.slabs) (hheads : ∀ k, w'.headOf k = w.headOf k)
    (husages : ∀ k, w'.usageOf k = w.usageOf k)
    (hpending : ∀ t cls, w'.pendingOf t cls = w.pendingOf t cls) (hwf : Wf w'.va)
    (hext : Extends w.va w'.va) (htaken : ∀ x, g.own x ≠ .free → Taken w'.va (x / 4096))
    (hmagic : (w'.magic = w.magic ∧ w'.freedMagic = w.freedMagic) ∨ ∀ h, g.place h = none)
    (hboot : w'.booted = true ∨ w'.hotReady = false ∧ ∀ h, g.place h = none) : Inv w' g where
  wf := hwf
  taken := htaken
  chains := by
    intro k
    obtain ⟨l, hchain, husage, hmembers⟩ := hinv.chains k
    refine ⟨l, ?_, (husages k).trans husage, hmembers⟩
    unfold Chain
    rw [hmem, hheads k]
    exact hchain
  blocks := by
    intro h pl hplace
    rcases hmagic with ⟨hm, hf⟩ | hnone
    · exact hinv.blocks_keep hext hmem hbig hm hf h pl hplace
    · rw [hnone h] at hplace
      exact absurd hplace nofun
  pendings := by
    intro t cls hne
    rw [hpending] at hne ⊢
    obtain ⟨k, harea⟩ := hinv.pendings t cls hne
    exact ⟨k, harea.keep hext hmem⟩
  slabs := fun b cls hmade =>
    (hinv.slabs b cls (hslabs ▸ hmade)).keep hmem hpending hslabs rfl fun _ => id
  lost := by
    rw [hslabs]
    exact hinv.lost
  big := by
    rw [hbig]
    exact hinv.big
  boot := hboot

theorem Inv.sameHeap (hinv : Inv w g) (h : SameHeap w w') : Inv w' g :=
  hinv.keep h.mem h.big h.slabs h.heads h.usages h.pending h.va.wf h.va.grows
    (fun x hx => (h.va.taken _).mpr (hinv.taken x hx)) (Or.inl ⟨h.magic, h.freedMagic⟩)
    (by rw [h.booted, h.hotReady]; exact hinv.boot)

/-- The bitmap changes, but no owned page is given back. -/
theorem Inv.setVa {va' : VaBitmap} (hinv : Inv w g) (hwf : Wf va') (hext : Extends w.va va')
    (htaken : ∀ x, g.own x ≠ .free → Taken va' (x / 4096)) : Inv { w with va := va' } g :=
  hinv.keep rfl rfl rfl (fun _ => rfl) (fun _ => rfl) (fun _ _ => rfl) hwf hext htaken
    (Or.inl ⟨rfl, rfl⟩) hinv.boot

theorem Inv.claims {va' : VaBitmap} {addr n : ℕ} (hinv : Inv w g)
    (hclaims : Claims w.va addr n va') : Inv { w with va := va' } g :=
  hinv.setVa hclaims.wf hclaims.grows fun x hx =>
    (hclaims.taken _).mpr (Or.inl (hinv.taken x hx))

/-- A page that was not taken has no owner. -/
theorem Inv.free_of_not_taken (hinv : Inv w g) {x : ℕ} (hx : ¬ Taken w.va (x / 4096)) :
    g.own x = .free :=
  Classical.byContradiction fun hne => hx (hinv.taken x hne)

end SameHeap

section Frame

/-- What a step leaves alone: the blocks that the user holds, apart from the touched ones. -/
structure Frame (w : World) (g : Layout) (w' : World) (g' : Layout) (touched : Set ℕ) : Prop where
  held : ∀ h, h ∉ touched → (g'.place h = some .held ↔ g.place h = some .held)
  bytes : ∀ h x, h ∉ touched → g.place h = some .held → g.own x = .block h →
    g'.own x = .block h ∧ w'.mem x = w.mem x
  big : ∀ h, h ∉ touched → w'.big.get h = w.big.get h
  booted : w.booted = true → w'.booted = true
  thp : w.ThpOff → w'.ThpOff
  placed : ∀ h, h ∉ touched → g.place h ≠ none → g'.place h ≠ none
  lost : w'.slabs.lost = w.slabs.lost
  magics : w.booted = true → w'.magic = w.magic ∧ w'.freedMagic = w.freedMagic

variable {w w₁ w' : World} {g g₁ g' : Layout} {touched : Set ℕ}

theorem Frame.trans (h : Frame w g w₁ g₁ touched) (h' : Frame w₁ g₁ w' g' touched) :
    Frame w g w' g' touched where
  held := fun x hx => (h'.held x hx).trans (h.held x hx)
  bytes := by
    intro header x hx hheld hown
    obtain ⟨hown₁, hmem₁⟩ := h.bytes header x hx hheld hown
    obtain ⟨hown', hmem'⟩ := h'.bytes header x hx ((h.held header hx).mpr hheld) hown₁
    exact ⟨hown', hmem'.trans hmem₁⟩
  big := fun x hx => (h'.big x hx).trans (h.big x hx)
  booted := fun hb => h'.booted (h.booted hb)
  thp := fun ht => h'.thp (h.thp ht)
  placed := fun x hx hplace => h'.placed x hx (h.placed x hx hplace)
  lost := h'.lost.trans h.lost
  magics := by
    intro hb
    obtain ⟨hmagic, hfreed⟩ := h.magics hb
    obtain ⟨hmagic', hfreed'⟩ := h'.magics (h.booted hb)
    exact ⟨hmagic'.trans hmagic, hfreed'.trans hfreed⟩

theorem Frame.mono (h : Frame w g w' g' ∅) : Frame w g w' g' touched where
  held := fun x _ => h.held x nofun
  bytes := fun header x _ => h.bytes header x nofun
  big := fun x _ => h.big x nofun
  booted := h.booted
  thp := h.thp
  placed := fun x _ => h.placed x nofun
  lost := h.lost
  magics := h.magics

theorem frame_of_eq (hmem : w'.mem = w.mem) (hbig : w'.big = w.big)
    (hlost : w'.slabs.lost = w.slabs.lost) (hbooted : w.booted = true → w'.booted = true)
    (hthp : w.ThpOff → w'.ThpOff)
    (hmagics : w.booted = true → w'.magic = w.magic ∧ w'.freedMagic = w.freedMagic) :
    Frame w g w' g touched where
  held := fun _ _ => Iff.rfl
  bytes := fun _ _ _ _ hown => ⟨hown, by rw [hmem]⟩
  big := fun _ _ => by rw [hbig]
  booted := hbooted
  thp := hthp
  placed := fun _ _ => id
  lost := hlost
  magics := hmagics

theorem frame_refl : Frame w g w g touched :=
  frame_of_eq rfl rfl rfl id id fun _ => ⟨rfl, rfl⟩

theorem frame_va {va' : VaBitmap} : Frame w g { w with va := va' } g touched :=
  frame_of_eq rfl rfl rfl id id fun _ => ⟨rfl, rfl⟩

theorem SameHeap.frame (h : SameHeap w w') : Frame w g w' g touched :=
  frame_of_eq h.mem h.big (by rw [h.slabs]) (by rw [h.booted]; exact id) h.thp
    fun _ => ⟨h.magic, h.freedMagic⟩

end Frame

section Write

variable {w : World} {g : Layout} {m' : Memory} {h : ℕ} {pl pl' : Place}

/-- The bytes that the invariant reads: headers and metadata. -/
def Control (g : Layout) (x : ℕ) : Prop :=
  (∃ h, g.own x = .block h ∧ x < h + 16) ∨ ∃ b, g.own x = .metaData b

theorem Inv.sameBlock_of_control (hinv : Inv w g) (hm : ∀ x, Control g x → m' x = w.mem x)
    (hplace : g.place h = some pl) : SameBlock w { w with mem := m' } g g h :=
  ⟨fun x hlo hhi => hm x (Or.inl ⟨h, hinv.own_header hplace hlo hhi, hhi⟩), rfl, fun _ hx => hx⟩

/-- A write that spares the headers and the metadata. -/
theorem Inv.writeBytes (hinv : Inv w g) (hm : ∀ x, Control g x → m' x = w.mem x) :
    Inv { w with mem := m' } g where
  wf := hinv.wf
  taken := hinv.taken
  chains := by
    intro k
    obtain ⟨l, hchain, husage, hmem⟩ := hinv.chains k
    refine ⟨l, hchain.congr fun x hx => ?_, husage, hmem⟩
    exact (hinv.sameBlock_of_control hm ((hmem x).mp hx)).next_eq
  blocks := by
    intro header pl hplace
    obtain ⟨hb, hp⟩ := hinv.blocks header pl hplace
    have hsame := hinv.sameBlock_of_control hm hplace
    exact ⟨hb.mono (Extends.refl w.va) hsame, hp.mono rfl rfl hsame.header⟩
  pendings := by
    intro t cls hne
    obtain ⟨k, harea⟩ := hinv.pendings t cls hne
    refine ⟨k, harea.mono (Extends.refl w.va) ?_ (fun _ hx => hx) fun _ hx => hx⟩
    exact fun x hlo hhi => hm x (Or.inr ⟨_, harea.metaOwn x hlo hhi⟩)
  slabs := by
    intro b cls hmem
    obtain ⟨hcls, haligned, hmeta, hslots⟩ := hinv.slabs b cls hmem
    refine ⟨hcls, haligned, hmeta, fun i hi => ?_⟩
    rcases hslots i hi with ⟨hplaced, hfixed⟩ | ⟨t, hpending, hb, hnext⟩ | hlost
    · left
      obtain ⟨pl, hpl⟩ := Option.ne_none_iff_exists'.mp hplaced
      refine ⟨hplaced, fun hone => ?_⟩
      rw [(hinv.sameBlock_of_control hm hpl).cls_eq]
      exact hfixed hone
    · right; left
      refine ⟨t, hpending, hb, ?_⟩
      have hsame := MetaData.fields_congr fun x hlo hhi => hm x (Or.inr ⟨b, hmeta x hlo hhi⟩)
      rw [hsame.1]
      exact hnext
    · exact Or.inr (Or.inr hlost)
  lost := hinv.lost
  big := hinv.big
  boot := hinv.boot

theorem Layout.move_self (hplace : g.place h = some pl) : g.move [h] pl = g := by
  unfold Layout.move
  congr 1
  funext x
  by_cases hx : x = h
  · rw [if_pos (List.mem_singleton.mpr hx), hx, hplace]
  · rw [if_neg (fun hmem => hx (List.mem_singleton.mp hmem))]

theorem Layout.move_place {l : List ℕ} {x : ℕ} :
    (g.move l pl).place x = if x ∈ l then some pl else g.place x := rfl

/-- A step that concerns one block, which is in no cache before or after: whatever the
others own is as before. -/
structure BlockStep (w : World) (g : Layout) (w' : World) (g' : Layout) (h : ℕ) : Prop where
  own : ∀ x, g.own x ≠ .free → g.own x ≠ .block h → g'.own x = g.own x ∧ w'.mem x = w.mem x
  place : ∀ x, x ≠ h → g'.place x = g.place x
  uncached : ∀ k, g.place h ≠ some (.cached k) ∧ g'.place h ≠ some (.cached k)
  big : ∀ x, x ≠ h → w'.big.get x = w.big.get x
  heads : ∀ k, w'.headOf k = w.headOf k
  usages : ∀ k, w'.usageOf k = w.usageOf k
  pending : ∀ t cls, w'.pendingOf t cls = w.pendingOf t cls
  slabs : w'.slabs = w.slabs
  magic : w'.magic = w.magic
  freedMagic : w'.freedMagic = w.freedMagic

theorem BlockStep.sameBlock {w' : World} {g' : Layout} (hs : BlockStep w g w' g' h) (hinv : Inv w g)
    {x : ℕ} (hplace : g.place x = some pl) (hne : x ≠ h) : SameBlock w w' g g' x := by
  have hother : ∀ {y}, g.own y = .block x → g.own y ≠ .free ∧ g.own y ≠ .block h := by
    intro y hy
    rw [hy]
    exact ⟨nofun, fun heq => hne (Owner.block.inj heq)⟩
  refine ⟨fun y hlo hhi => ?_, hs.big x hne, fun y hy => ?_⟩
  · obtain ⟨hfree, hblock⟩ := hother (hinv.own_header hplace hlo hhi)
    exact (hs.own y hfree hblock).2
  · rw [(hs.own y (hother hy).1 (hother hy).2).1, hy]

theorem BlockStep.metaData {w' : World} {g' : Layout} (hs : BlockStep w g w' g' h) {b x : ℕ}
    (hx : g.own x = .metaData b) : g'.own x = .metaData b ∧ w'.mem x = w.mem x := by
  have hown := hs.own x (by rw [hx]; exact nofun) (by rw [hx]; exact nofun)
  rw [hx] at hown
  exact hown

theorem BlockStep.slab {w' : World} {g' : Layout} {b cls : ℕ} (hs : BlockStep w g w' g' h)
    (hinv : Inv w g) (hslab : SlabOk w g b cls)
    (hslot : ∀ i < slabBlocks cls, slot b cls i = h → g.place h ≠ none →
      (slabBlocks cls ≠ 1 → OxHeader.cls w.mem h = cls) →
      g'.place h ≠ none ∧ (slabBlocks cls ≠ 1 → OxHeader.cls w'.mem h = cls)) :
    SlabOk w' g' b cls := by
  obtain ⟨hlt, haligned, hmeta, hslots⟩ := hslab
  refine ⟨hlt, haligned, fun x hlo hhi => (hs.metaData (hmeta x hlo hhi)).1, fun i hi => ?_⟩
  rcases hslots i hi with ⟨hplaced, hfixed⟩ | ⟨t, hpending, hb, hnext⟩ | hlost
  · left
    by_cases hthis : slot b cls i = h
    · rw [hthis] at hplaced hfixed ⊢
      exact hslot i hi hthis hplaced hfixed
    · obtain ⟨pl, hpl⟩ := Option.ne_none_iff_exists'.mp hplaced
      rw [hs.place _ hthis, (hs.sameBlock hinv hpl hthis).cls_eq]
      exact ⟨hplaced, hfixed⟩
  · right; left
    refine ⟨t, (hs.pending t cls).trans hpending, hb, ?_⟩
    have hsame := MetaData.fields_congr fun x hlo hhi => (hs.metaData (hmeta x hlo hhi)).2
    rw [hsame.1]
    exact hnext
  · right; right
    rwa [hs.slabs]

theorem Inv.blockStep {w' : World} {g' : Layout} (hinv : Inv w g) (hs : BlockStep w g w' g' h)
    (hwf : Wf w'.va) (hext : Extends w.va w'.va)
    (htaken : ∀ x, g'.own x ≠ .free → Taken w'.va (x / 4096))
    (hblock : ∀ pl, g'.place h = some pl → BlockOk w' g' h ∧ PlaceOk w' h pl)
    (hslots : ∀ b cls, (b, cls) ∈ w.slabs.made → ∀ i < slabBlocks cls, slot b cls i = h →
      g.place h ≠ none → (slabBlocks cls ≠ 1 → OxHeader.cls w.mem h = cls) →
      g'.place h ≠ none ∧ (slabBlocks cls ≠ 1 → OxHeader.cls w'.mem h = cls))
    (hbig : ∃ f, HashmapRefinement.Sound w'.big f)
    (hboot : w'.booted = true ∨ w'.hotReady = false ∧ ∀ x, g'.place x = none) : Inv w' g' where
  wf := hwf
  taken := htaken
  chains := by
    intro k
    obtain ⟨l, hchain, husage, hmem⟩ := hinv.chains k
    have hnot : h ∉ l := fun hin => (hs.uncached k).1 ((hmem h).mp hin)
    refine ⟨l, ?_, (hs.usages k).trans husage, fun x => ?_⟩
    · unfold Chain
      rw [hs.heads k]
      exact hchain.congr fun x hx =>
        (hs.sameBlock hinv ((hmem x).mp hx) fun heq => hnot (heq ▸ hx)).next_eq
    · by_cases hx : x = h
      · rw [hx]
        exact ⟨fun hin => absurd hin hnot, fun hin => absurd hin (hs.uncached k).2⟩
      · rw [hs.place x hx]
        exact hmem x
  blocks := by
    intro x pl hx
    by_cases hxh : x = h
    · subst hxh
      exact hblock pl hx
    · rw [hs.place x hxh] at hx
      obtain ⟨hb, hp⟩ := hinv.blocks x pl hx
      have hsame := hs.sameBlock hinv hx hxh
      exact ⟨hb.mono hext hsame, hp.mono hs.magic hs.freedMagic hsame.header⟩
  pendings := by
    intro t cls hne
    rw [hs.pending] at hne ⊢
    obtain ⟨k, harea⟩ := hinv.pendings t cls hne
    refine ⟨k, harea.mono hext (fun x hlo hhi => (hs.metaData (harea.metaOwn x hlo hhi)).2)
      (fun x hx => (hs.metaData hx).1) fun x hx => ?_⟩
    have hown := (hs.own x (by rw [hx]; exact nofun) (by rw [hx]; exact nofun)).1
    rw [hown, hx]
  slabs := by
    intro b cls hmem
    rw [hs.slabs] at hmem
    exact hs.slab hinv (hinv.slabs b cls hmem) (hslots b cls hmem)
  lost := by
    intro x hx
    rw [hs.slabs] at hx
    have hold := hinv.lost x hx
    rw [(hs.own x (by rw [hold]; exact nofun) (by rw [hold]; exact nofun)).1, hold]
  big := hbig
  boot := hboot

/-- A block step is none of the business of the other blocks of the user. -/
theorem BlockStep.frame {w' : World} {g' : Layout} (hs : BlockStep w g w' g' h)
    (hbooted : w.booted = true → w'.booted = true) (hthp : w.ThpOff → w'.ThpOff) :
    Frame w g w' g' {h} where
  held := fun x hx => by rw [hs.place x hx]
  bytes := by
    intro x y hx _ hown
    have hkeep := hs.own y (by rw [hown]; exact nofun)
      (by rw [hown]; exact fun heq => hx (Owner.block.inj heq))
    rw [hown] at hkeep
    exact hkeep
  big := fun x hx => hs.big x hx
  booted := hbooted
  thp := hthp
  placed := fun x hx hplace => by rw [hs.place x hx]; exact hplace
  lost := by rw [hs.slabs]
  magics := fun _ => ⟨hs.magic, hs.freedMagic⟩

theorem Inv.blockStep_header (hinv : Inv w g) (hplace : g.place h = some pl)
    (hpl : ∀ k, pl ≠ .cached k) (hpl' : ∀ k, pl' ≠ .cached k)
    (hm : OxHeader.Elsewhere h w.mem m') :
    BlockStep w g { w with mem := m' } (g.move [h] pl') h := by
  refine ⟨fun x _ hother => ⟨rfl, hm x ?_⟩, fun x hx => ?_, fun k => ⟨?_, ?_⟩, fun _ _ => rfl,
    fun k => by cases k <;> rfl, fun k => by cases k <;> rfl, fun _ _ => rfl, rfl, rfl, rfl⟩
  · by_contra hin
    exact hother (hinv.own_header hplace (by omega) (by omega))
  · rw [Layout.move_place, if_neg fun hmem => hx (List.mem_singleton.mp hmem)]
  · rw [hplace]
    exact fun heq => hpl k (Option.some.inj heq)
  · rw [Layout.move_place, if_pos List.mem_cons_self]
    exact fun heq => hpl' k (Option.some.inj heq)

/-- A write to the header of a block that is in no cache before or after. -/
theorem Inv.writeHeader (hinv : Inv w g) (hplace : g.place h = some pl)
    (hpl : ∀ k, pl ≠ .cached k) (hpl' : ∀ k, pl' ≠ .cached k)
    (hm : OxHeader.Elsewhere h w.mem m') (hcls : OxHeader.cls m' h = OxHeader.cls w.mem h)
    (hnext : 16 ∣ OxHeader.next m' h) (hok : PlaceOk { w with mem := m' } h pl') :
    Inv { w with mem := m' } (g.move [h] pl') := by
  have hhere : (g.move [h] pl').place h = some pl' := by
    rw [Layout.move_place, if_pos List.mem_cons_self]
  have hs := hinv.blockStep_header hplace hpl hpl' hm
  refine hinv.blockStep hs hinv.wf (Extends.refl w.va) hinv.taken (fun pl₁ hpl₁ => ?_)
    (fun b cls _ i _ _ _ hfixed => ?_) hinv.big (Or.inl ?_)
  · rw [hhere] at hpl₁
    have heq := Option.some.inj hpl₁
    subst heq
    have hb := (hinv.blocks h pl hplace).1
    have hcap : ({ w with mem := m' } : World).capacity h = w.capacity h := by
      unfold World.capacity World.bigSize
      rw [hcls]
    refine ⟨⟨hb.isBlock, ?_, hnext, ?_, ?_⟩, hok⟩
    · rw [hcap]
      exact hb.extent
    · rw [hcls]
      exact hb.cls
    · rw [hcls]
      intro hsolo
      obtain ⟨base, halign, hoff, hfits, hown⟩ := hb.solo hsolo
      exact ⟨base, halign, by rw [hcls]; exact hoff, by rw [hcap]; exact hfits,
        by rw [hcap]; exact hown⟩
  · rw [hhere]
    exact ⟨nofun, fun hone => hcls.trans (hfixed hone)⟩
  · refine hinv.boot.resolve_right fun hboot => ?_
    rw [hboot.2 h] at hplace
    contradiction

theorem Inv.frame_header (hinv : Inv w g) (hplace : g.place h = some pl)
    (hpl : ∀ k, pl ≠ .cached k) (hpl' : ∀ k, pl' ≠ .cached k)
    (hm : OxHeader.Elsewhere h w.mem m') : Frame w g { w with mem := m' } (g.move [h] pl') {h} :=
  (hinv.blockStep_header hplace hpl hpl' hm).frame id id

/-- The statics change. -/
theorem Inv.statics {w' : World} (hinv : Inv w g) (hmem : w'.mem = w.mem) (hva : w'.va = w.va)
    (hbig : w'.big = w.big) (hicc : w'.icc = w.icc) (hengines : w'.engines = w.engines)
    (hslabs : w'.slabs = w.slabs)
    (hmagic : (w'.magic = w.magic ∧ w'.freedMagic = w.freedMagic) ∨ ∀ h, g.place h = none)
    (hboot : w'.booted = true ∨ w'.hotReady = false ∧ ∀ h, g.place h = none) : Inv w' g := by
  refine hinv.keep hmem hbig hslabs (fun k => ?_) (fun k => ?_) (fun t cls => ?_)
    (by rw [hva]; exact hinv.wf) (by rw [hva]; exact Extends.refl w.va)
    (by rw [hva]; exact hinv.taken) hmagic hboot
  · unfold World.headOf World.binOf
    rw [hicc, hengines]
  · unfold World.usageOf World.binOf
    rw [hicc, hengines]
  · unfold World.pendingOf
    rw [hengines]

end Write

section Rehead

/-- A step that gives one cache a new head and a new counter. -/
structure Reheads (w w' : World) (k : Cache) (a n : ℕ) : Prop where
  mem : w'.mem = w.mem
  va : w'.va = w.va
  big : w'.big = w.big
  pending : ∀ t cls, w'.pendingOf t cls = w.pendingOf t cls
  slabs : w'.slabs = w.slabs
  magic : w'.magic = w.magic
  freedMagic : w'.freedMagic = w.freedMagic
  booted : w'.booted = w.booted
  hotReady : w'.hotReady = w.hotReady
  thp : w.ThpOff → w'.ThpOff
  head : w'.headOf k = a
  usage : w'.usageOf k = n
  others : ∀ k', k' ≠ k → w'.headOf k' = w.headOf k' ∧ w'.usageOf k' = w.usageOf k'

variable {w w' : World} {g : Layout} {k : Cache} {a : ℕ} {l r : List ℕ} {pl' : Place}

theorem Inv.rehead (hinv : Inv w g) (hw : Reheads w w' k a r.length)
    (hr : Linked 0 (OxHeader.next w.mem) a r 0)
    (hplaced : ∀ h ∈ l, ∃ pl, g.place h = some pl ∧ PlaceOk w h pl')
    (hk : ∀ h, h ∈ r ↔ (g.move l pl').place h = some (.cached k))
    (hothers : ∀ k', k' ≠ k → ∀ h,
      (g.move l pl').place h = some (.cached k') ↔ g.place h = some (.cached k')) :
    Inv w' (g.move l pl') := by
  have hsame : ∀ h, SameBlock w w' g (g.move l pl') h := fun h =>
    ⟨fun _ _ _ => by rw [hw.mem], by rw [hw.big], fun _ hx => hx⟩
  have hext : Extends w.va w'.va := by
    rw [hw.va]
    exact Extends.refl w.va
  refine ⟨by rw [hw.va]; exact hinv.wf, by rw [hw.va]; exact hinv.taken, ?_, ?_, ?_, ?_,
    by rw [hw.slabs]; exact hinv.lost, by rw [hw.big]; exact hinv.big, ?_⟩
  · intro k'
    by_cases hk' : k' = k
    · subst hk'
      refine ⟨r, ?_, hw.usage, hk⟩
      unfold Chain
      rw [hw.mem, hw.head]
      exact hr
    · obtain ⟨l', hchain, husage, hmem⟩ := hinv.chains k'
      obtain ⟨hhead, husage'⟩ := hw.others k' hk'
      refine ⟨l', ?_, husage'.trans husage, fun h => (hmem h).trans (hothers k' hk' h).symm⟩
      unfold Chain
      rw [hw.mem, hhead]
      exact hchain
  · intro h pl hplace
    rw [Layout.move_place] at hplace
    split at hplace
    · rename_i hin
      have heq := Option.some.inj hplace
      subst heq
      obtain ⟨pl, hold, hok⟩ := hplaced h hin
      exact ⟨(hinv.blocks h pl hold).1.mono hext (hsame h),
        hok.mono hw.magic hw.freedMagic (hsame h).header⟩
    · obtain ⟨hb, hp⟩ := hinv.blocks h pl hplace
      exact ⟨hb.mono hext (hsame h), hp.mono hw.magic hw.freedMagic (hsame h).header⟩
  · intro t cls hne
    rw [hw.pending] at hne ⊢
    obtain ⟨i, harea⟩ := hinv.pendings t cls hne
    exact ⟨i, harea.mono hext (fun _ _ _ => by rw [hw.mem]) (fun _ hx => hx) fun _ hx => hx⟩
  · intro b cls hmade
    refine (hinv.slabs b cls (hw.slabs ▸ hmade)).keep hw.mem hw.pending hw.slabs rfl fun h hh => ?_
    rw [Layout.move_place]
    split
    · exact nofun
    · exact hh
  · rw [hw.booted, hw.hotReady]
    refine hinv.boot.imp_right fun hboot => ⟨hboot.1, fun h => ?_⟩
    rw [Layout.move_place]
    split
    · rename_i hin
      obtain ⟨pl, hold, _⟩ := hplaced h hin
      rw [hboot.2 h] at hold
      contradiction
    · exact hboot.2 h

/-- The first blocks of a cache are taken out. -/
theorem Inv.take (hinv : Inv w g) (hchain : Chain w k (l ++ r))
    (hmem : ∀ h, h ∈ l ++ r ↔ g.place h = some (.cached k))
    (hr : Linked 0 (OxHeader.next w.mem) a r 0) (hw : Reheads w w' k a r.length) :
    Inv w' (g.move l (.loose k.cls)) := by
  have hnodup := Linked.nodup hchain
  apply hinv.rehead hw hr
  · intro h hh
    have hcached := (hmem h).mp (List.mem_append_left r hh)
    exact ⟨_, hcached, (hinv.blocks h _ hcached).2⟩
  · intro h
    rw [Layout.move_place]
    split
    · rename_i hin
      constructor
      · intro hright
        exact absurd hright (List.disjoint_of_nodup_append hnodup hin)
      · exact nofun
    · rename_i hout
      rw [← hmem, List.mem_append]
      exact ⟨Or.inr, fun hor => hor.resolve_left hout⟩
  · intro k' hk' h
    rw [Layout.move_place]
    split
    · rename_i hin
      rw [(hmem h).mp (List.mem_append_left r hin)]
      constructor
      · exact nofun
      · intro heq
        exact absurd (Place.cached.inj (Option.some.inj heq)).symm hk'
    · exact Iff.rfl

/-- A chain of loose blocks that leads to the head of a cache is put in front of it. -/
theorem Inv.give (hinv : Inv w g) (hloose : ∀ h ∈ l, g.place h = some (.loose k.cls))
    (hl : Linked 0 (OxHeader.next w.mem) a l (w.headOf k))
    (hw : Reheads w w' k a (w.usageOf k + l.length)) : Inv w' (g.move l (.cached k)) := by
  obtain ⟨r, hchain, husage, hmem⟩ := hinv.chains k
  have hlen : w.usageOf k + l.length = (l ++ r).length := by
    rw [husage, List.length_append, Nat.add_comm]
  rw [hlen] at hw
  apply hinv.rehead hw (linked_append.mpr ⟨_, hl, hchain⟩)
  · intro h hh
    exact ⟨_, hloose h hh, (hinv.blocks h _ (hloose h hh)).2⟩
  · intro h
    rw [Layout.move_place, List.mem_append, hmem]
    split
    · rename_i hin
      exact ⟨fun _ => rfl, fun _ => Or.inl hin⟩
    · rename_i hout
      exact ⟨fun hor => hor.resolve_left hout, Or.inr⟩
  · intro k' hk' h
    rw [Layout.move_place]
    split
    · rename_i hin
      rw [hloose h hin]
      constructor
      · intro heq
        exact absurd (Place.cached.inj (Option.some.inj heq)).symm hk'
      · exact nofun
    · exact Iff.rfl

end Rehead

end Oxidalloc
