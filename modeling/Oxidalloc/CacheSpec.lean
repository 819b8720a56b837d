import Oxidalloc.OwnershipSteps

/-!
The operations on the caches: `pop_from_thread`, `push_to_thread_tailed` and the push
and pop of the shared cache. Each of them keeps the invariant, moves the blocks it says
it moves, and writes only to headers of blocks that the user does not hold. `LooseAre`
lists the blocks that are in the hands of the running operation.
-/
namespace Oxidalloc

open ByteMemory HeadPacking LinkedChain Programs VaBitmap Function

section CacheStep

/-- A step of the caches, as the rest of the heap sees it. -/
structure CacheStep (w : World) (g : Layout) (w' : World) (g' : Layout) : Prop where
  own : g'.own = g.own
  mem : ∀ x, w'.mem x = w.mem x ∨
    ∃ h, g.own x = .block h ∧ x < h + 16 ∧ g.place h ≠ some .held
  held : ∀ h, g'.place h = some .held ↔ g.place h = some .held
  blocks : ∀ h, g.place h ≠ none →
    g'.place h ≠ none ∧ OxHeader.cls w'.mem h = OxHeader.cls w.mem h
  va : Keeps w.va w'.va
  big : w'.big = w.big
  pending : ∀ t cls, w'.pendingOf t cls = w.pendingOf t cls
  slabs : w'.slabs = w.slabs
  magic : w'.magic = w.magic
  freedMagic : w'.freedMagic = w.freedMagic
  booted : w'.booted = w.booted
  hotReady : w'.hotReady = w.hotReady
  thp : w.ThpOff → w'.ThpOff

variable {w w₁ w' : World} {g g₁ g' : Layout} {t cls b k : ℕ}

theorem CacheStep.trans (h : CacheStep w g w₁ g₁) (h' : CacheStep w₁ g₁ w' g') :
    CacheStep w g w' g' where
  own := h'.own.trans h.own
  mem := by
    intro x
    rcases h'.mem x with heq | ⟨header, hown, hlt, hheld⟩
    · rw [heq]
      exact h.mem x
    · exact Or.inr ⟨header, h.own ▸ hown, hlt, fun hh => hheld ((h.held header).mpr hh)⟩
  held := fun header => (h'.held header).trans (h.held header)
  blocks := by
    intro header hplace
    obtain ⟨hplace₁, hcls₁⟩ := h.blocks header hplace
    obtain ⟨hplace', hcls'⟩ := h'.blocks header hplace₁
    exact ⟨hplace', hcls'.trans hcls₁⟩
  va := h.va.trans h'.va
  big := h'.big.trans h.big
  pending := fun t cls => (h'.pending t cls).trans (h.pending t cls)
  slabs := h'.slabs.trans h.slabs
  magic := h'.magic.trans h.magic
  freedMagic := h'.freedMagic.trans h.freedMagic
  booted := h'.booted.trans h.booted
  hotReady := h'.hotReady.trans h.hotReady
  thp := fun hthp => h'.thp (h.thp hthp)

theorem SameHeap.cacheStep (h : SameHeap w w') : CacheStep w g w' g :=
  ⟨rfl, fun _ => Or.inl (by rw [h.mem]), fun _ => Iff.rfl,
    fun _ hplace => ⟨hplace, by rw [h.mem]⟩, h.va, h.big, h.pending, h.slabs, h.magic,
    h.freedMagic, h.booted, h.hotReady, h.thp⟩

theorem CacheStep.frame (h : CacheStep w g w' g') : Frame w g w' g' ∅ where
  held := fun header _ => h.held header
  bytes := by
    intro header x _ hheld hown
    rw [h.own]
    refine ⟨hown, (h.mem x).resolve_right fun hchanged => ?_⟩
    obtain ⟨header', hown', _, hnot⟩ := hchanged
    rw [hown, Owner.block.injEq] at hown'
    exact hnot (hown' ▸ hheld)
  big := fun _ _ => by rw [h.big]
  booted := by
    rw [h.booted]
    exact id
  thp := h.thp
  placed := fun header _ hplace => (h.blocks header hplace).1
  lost := by rw [h.slabs]
  magics := fun _ => ⟨h.magic, h.freedMagic⟩

/-- The metadata and the uncarved part of a slab are no business of the caches. -/
theorem Area.cacheStep (ha : Area w g t cls b k) (h : CacheStep w g w' g') :
    Area w' g' t cls b k := by
  refine ha.mono h.va.grows (fun x hlo hhi => ?_) (fun x hx => by rw [h.own, hx])
    fun x hx => by rw [h.own, hx]
  rcases h.mem x with heq | ⟨header, hown, _, _⟩
  · exact heq
  · rw [ha.metaOwn x hlo hhi] at hown
    contradiction

/-- The loose blocks are those of the list, all of one class. -/
def LooseAre (g : Layout) (cls : ℕ) (l : List ℕ) : Prop :=
  ∀ h c, g.place h = some (.loose c) ↔ c = cls ∧ h ∈ l

theorem LooseAre.place {l : List ℕ} {h : ℕ} (hl : LooseAre g cls l) (hh : h ∈ l) :
    g.place h = some (.loose cls) :=
  (hl h cls).mpr ⟨rfl, hh⟩

theorem LooseAre.congr {l l' : List ℕ} (hl : LooseAre g cls l) (h : ∀ x, x ∈ l' ↔ x ∈ l) :
    LooseAre g cls l' := fun x c => by rw [hl x c, h x]

theorem LooseAre.moveIn {l m : List ℕ} (hl : LooseAre g cls l) :
    LooseAre (g.move m (.loose cls)) cls (m ++ l) := by
  intro h c
  rw [Layout.move_place, List.mem_append]
  split
  · rename_i hin
    rw [Option.some.injEq, Place.loose.injEq]
    exact ⟨fun heq => ⟨heq.symm, Or.inl hin⟩, fun heq => heq.1.symm⟩
  · rename_i hout
    rw [hl h c]
    exact ⟨fun hh => ⟨hh.1, Or.inr hh.2⟩, fun hh => ⟨hh.1, hh.2.resolve_left hout⟩⟩

theorem LooseAre.moveOut {l m : List ℕ} {pl : Place} (hl : LooseAre g cls (m ++ l))
    (hdisjoint : ∀ h ∈ m, h ∉ l) (hpl : ∀ c, pl ≠ .loose c) : LooseAre (g.move m pl) cls l := by
  intro h c
  rw [Layout.move_place]
  split
  · rename_i hin
    constructor
    · intro heq
      exact absurd (Option.some.inj heq) (hpl c)
    · intro hh
      exact absurd hh.2 (hdisjoint h hin)
  · rename_i hout
    rw [hl h c, List.mem_append]
    exact ⟨fun hh => ⟨hh.1, hh.2.resolve_left hout⟩, fun hh => ⟨hh.1, Or.inr hh.2⟩⟩

/-- Loose blocks that are chained from head to tail, beside those of l. The link of the
tail may lead anywhere. -/
structure Batch (w : World) (g : Layout) (cls head : ℕ) (m : List ℕ) (tail : ℕ) (l : List ℕ) :
    Prop where
  loose : LooseAre g cls (m ++ [tail] ++ l)
  linked : ∃ b, Linked 0 (OxHeader.next w.mem) head (m ++ [tail]) b
  nodup : (m ++ [tail]).Nodup
  disjoint : ∀ h ∈ m ++ [tail], h ∉ l

theorem Batch.place {head tail : ℕ} {m l : List ℕ} (hb : Batch w g cls head m tail l) {h : ℕ}
    (hh : h ∈ m ++ [tail]) : g.place h = some (.loose cls) :=
  hb.loose.place (List.mem_append_left l hh)

/-- The links of the blocks of a list are as before. -/
def SameLinks (w w' : World) (l : List ℕ) : Prop :=
  ∀ h ∈ l, OxHeader.next w'.mem h = OxHeader.next w.mem h

/-- A step of the caches after which the given blocks are loose, with the links they
had. -/
structure LeavesAt (w : World) (g : Layout) (w' : World) (g' : Layout) (cls : ℕ) (l : List ℕ) :
    Prop where
  inv : Inv w' g'
  step : CacheStep w g w' g'
  loose : LooseAre g' cls l
  links : SameLinks w w' l

def Leaves (w : World) (g : Layout) (w' : World) (cls : ℕ) (l : List ℕ) : Prop :=
  ∃ g', LeavesAt w g w' g' cls l

theorem SameHeap.leavesAt {l : List ℕ} (h : SameHeap w w₁) (h' : LeavesAt w₁ g w' g' cls l) :
    LeavesAt w g w' g' cls l := by
  refine ⟨h'.inv, h.cacheStep.trans h'.step, h'.loose, fun x hx => ?_⟩
  rw [h'.links x hx, h.mem]

end CacheStep

section Kernel

variable {w w' : World} {g : Layout}

theorem runs_onVa {α : Type} {x : VaM α} {a : α} :
    Runs (onVa x) w a w' ↔ ∃ va', Runs x w.va a va' ∧ w' = { w with va := va' } :=
  runs_zoom

theorem sameHeap_of_va {va' : VaBitmap} (h : Keeps w.va va') : SameHeap w { w with va := va' } :=
  ⟨sameCaches_update .., rfl, h, rfl⟩

theorem sameHeap_of_quiet {α : Type} {x : VaM α} {a : α} (hwf : Wf w.va)
    (hx : ∀ {a va'}, Runs x w.va a va' → Quiet w.va va') (h : Runs (onVa x) w a w') :
    SameHeap w w' := by
  obtain ⟨va', hrun, hw⟩ := runs_onVa.mp h
  rw [hw]
  exact sameHeap_of_va (hwf.keeps_of_quiet (hx hrun))

theorem draw_sameHeap {a : ℕ} (hwf : Wf w.va) (h : Runs draw w a w') : SameHeap w w' :=
  sameHeap_of_quiet hwf draw_quiet h

theorem mmapMemory_sameHeap {len : ℕ} {r : Option ℕ} (hwf : Wf w.va)
    (h : Runs (onVa (mmapMemory len)) w r w') : SameHeap w w' :=
  sameHeap_of_quiet hwf (fun hrun => (mmapMemory_spec hrun).1) h

/-- A thread without an engine has the caches of an empty one. -/
theorem getOrInit_sameHeap {t : ℕ} {u : Unit} (hwf : Wf w.va) (h : Runs (getOrInit t) w u w') :
    SameHeap w w' ∧ ∃ e, w'.engines t = some e := by
  rw [getOrInit, runs_get_bind] at h
  split at h
  · rename_i e he
    rw [(runs_pure.mp h).2]
    exact ⟨SameHeap.refl hwf, e, he⟩
  · rename_i hnone
    rw [runs_bind] at h
    obtain ⟨r, w₁, hmap, h⟩ := h
    obtain ⟨va', hrun, hw₁⟩ := runs_onVa.mp hmap
    have hkeep := hwf.keeps_of_quiet (mmapMemory_spec hrun).1
    cases r with
    | none => exact absurd h runs_throw
    | some ptr =>
      rw [runs_modify] at h
      have hengine : ∀ t', w'.engines t' = if t' = t then some .new else w.engines t' := by
        intro t'
        rw [h, hw₁]
        exact update_apply w.engines t (some .new) t'
      have hbin : ∀ t' cls, w'.binOf t' cls = w.binOf t' cls := by
        intro t' cls
        unfold World.binOf
        rw [hengine]
        by_cases ht : t' = t
        · rw [if_pos ht, ht, hnone]
          rfl
        · rw [if_neg ht]
      have hpending : ∀ t' cls, w'.pendingOf t' cls = w.pendingOf t' cls := by
        intro t' cls
        unfold World.pendingOf
        rw [hengine]
        by_cases ht : t' = t
        · rw [if_pos ht, ht, hnone]
          rfl
        · rw [if_neg ht]
      refine ⟨⟨⟨?_, ?_, hpending, by rw [h, hw₁], by rw [h, hw₁], by rw [h, hw₁], by rw [h, hw₁],
        by rw [h, hw₁], by rw [h, hw₁]; exact id⟩, by rw [h, hw₁], by rw [h, hw₁]; exact hkeep,
        by rw [h, hw₁]⟩, .new, ?_⟩
      · intro k
        cases k with
        | bin t' cls => exact congrArg TlsBin.head (hbin t' cls)
        | shard cpu cls =>
          rw [h, hw₁]
          rfl
      · intro k
        cases k with
        | bin t' cls => exact congrArg TlsBin.usage (hbin t' cls)
        | shard cpu cls =>
          rw [h, hw₁]
          rfl
      · rw [hengine, if_pos rfl]

end Kernel

section Move

variable {w w' : World} {g : Layout} {k : Cache} {a cls h tail v : ℕ} {l m : List ℕ}

theorem Inv.head_ok (hinv : Inv w g) (k : Cache) : 16 ∣ w.headOf k ∧ w.headOf k < usizeBound := by
  obtain ⟨l, hchain, _, hmem⟩ := hinv.chains k
  by_cases hnull : w.headOf k = 0
  · rw [hnull]
    exact ⟨Nat.dvd_zero 16, by decide⟩
  · have hblock := (hinv.blocks _ _ ((hmem _).mp (hchain.head_mem hnull))).1.isBlock
    exact ⟨hblock.aligned, hblock.lt⟩

/-- A write to the header of a loose block that keeps its class and its magic. -/
theorem Inv.touch {m' : Memory} (hinv : Inv w g) (hloose : g.place h = some (.loose cls))
    (hm : OxHeader.Elsewhere h w.mem m') (hcls : OxHeader.cls m' h = OxHeader.cls w.mem h)
    (hmagic : OxHeader.magic m' h = OxHeader.magic w.mem h) (hv : 16 ∣ OxHeader.next m' h) :
    Inv { w with mem := m' } g ∧ CacheStep w g { w with mem := m' } g ∧
      ∀ x pl, g.place x = some pl → x ≠ h → OxHeader.next m' x = OxHeader.next w.mem x := by
  have hother : ∀ x pl, g.place x = some pl → x ≠ h → ∀ y, x ≤ y → y < x + 16 →
      m' y = w.mem y := fun x pl hx hne y hlo hhi =>
    hm y (hinv.header_ne hloose hne (hinv.own_header hx hlo hhi))
  refine ⟨?_, ⟨rfl, ?_, fun _ => Iff.rfl, fun x hx => ⟨hx, ?_⟩, Keeps.refl hinv.wf, rfl,
    fun _ _ => rfl, rfl, rfl, rfl, rfl, rfl, id⟩, ?_⟩
  · have hok : PlaceOk { w with mem := m' } h (.loose cls) := by
      have hold := (hinv.blocks h _ hloose).2
      show cls < 34 ∧ OxHeader.cls m' h = cls ∧ OxHeader.magic m' h = w.freedMagic
      rw [hcls, hmagic]
      exact hold
    have hwrite : Inv { w with mem := m' } (g.move [h] (.loose cls)) :=
      hinv.writeHeader hloose (fun _ => nofun) (fun _ => nofun) hm hcls hv hok
    rwa [Layout.move_self hloose] at hwrite
  · intro x
    by_cases hx : x < h ∨ h + 16 ≤ x
    · exact Or.inl (hm x hx)
    · refine Or.inr ⟨h, hinv.own_header hloose (by omega) (by omega), by omega, ?_⟩
      rw [hloose]
      exact nofun
  · obtain ⟨pl, hpl⟩ := Option.ne_none_iff_exists'.mp hx
    by_cases hxh : x = h
    · rw [hxh]
      exact hcls
    · exact (OxHeader.fields_congr (hother x pl hpl hxh)).2.1
  · intro x pl hx hne
    exact (OxHeader.fields_congr (hother x pl hx hne)).1

/-- A loose block is linked to another address. -/
theorem Inv.setNext (hinv : Inv w g) (hloose : g.place h = some (.loose cls)) (hv : 16 ∣ v)
    (hlt : v < usizeBound) :
    Inv { w with mem := OxHeader.setNext w.mem h v } g ∧
      CacheStep w g { w with mem := OxHeader.setNext w.mem h v } g ∧
      ∀ x pl, g.place x = some pl → x ≠ h →
        OxHeader.next (OxHeader.setNext w.mem h v) x = OxHeader.next w.mem x := by
  have hnext : 16 ∣ OxHeader.next (OxHeader.setNext w.mem h v) h := by
    rw [OxHeader.next_setNext hlt]
    exact hv
  exact hinv.touch hloose OxHeader.setNext_elsewhere OxHeader.cls_setNext OxHeader.magic_setNext
    hnext

theorem Reheads.cacheStep {a n : ℕ} {pl : Place} (hwf : Wf w.va) (hw : Reheads w w' k a n)
    (hpl : pl ≠ .held) (hl : ∀ h ∈ l, g.place h ≠ some .held) :
    CacheStep w g w' (g.move l pl) := by
  refine ⟨rfl, fun _ => Or.inl (by rw [hw.mem]), fun h => ?_, fun h hplace => ⟨?_, by rw [hw.mem]⟩,
    by rw [hw.va]; exact Keeps.refl hwf, hw.big, hw.pending, hw.slabs, hw.magic, hw.freedMagic,
    hw.booted, hw.hotReady, hw.thp⟩
  · rw [Layout.move_place]
    split
    · rename_i hin
      constructor
      · intro heq
        exact absurd (Option.some.inj heq) hpl
      · intro heq
        exact absurd heq (hl h hin)
    · exact Iff.rfl
  · rw [Layout.move_place]
    split
    · exact nofun
    · exact hplace

/-- A chain of loose blocks goes into a cache: its last block is linked to the old head,
and its first block becomes the new one. -/
theorem Inv.push (hinv : Inv w g) (hbatch : Batch w g k.cls a m tail l)
    (hw : Reheads { w with mem := OxHeader.setNext w.mem tail (w.headOf k) } w' k a
      (w.usageOf k + (m ++ [tail]).length)) :
    LeavesAt w g w' (g.move (m ++ [tail]) (.cached k)) k.cls l := by
  obtain ⟨hl, hm, hnodup, hdisjoint⟩ := hbatch
  have hloose : ∀ h ∈ m ++ [tail], g.place h = some (.loose k.cls) := fun h hh =>
    hl.place (List.mem_append_left l hh)
  have hlast := hloose tail (List.mem_append_right m List.mem_cons_self)
  obtain ⟨hv, hlt⟩ := hinv.head_ok k
  obtain ⟨hinv₁, hstep₁, hnext⟩ := hinv.setNext hlast hv hlt
  obtain ⟨b, hlinked⟩ := hm
  obtain ⟨hfirst, hnull, _⟩ := linked_concat.mp hlinked
  have hlinked₁ : Linked 0 (OxHeader.next (OxHeader.setNext w.mem tail (w.headOf k))) a
      (m ++ [tail]) (w.headOf k) := by
    refine linked_concat.mpr ⟨hfirst.congr fun x hx => ?_, hnull, OxHeader.next_setNext hlt⟩
    refine hnext x _ (hloose x (List.mem_append_left _ hx)) fun heq => ?_
    exact List.disjoint_of_nodup_append hnodup hx (List.mem_singleton.mpr heq)
  have hinv' := hinv₁.give hloose hlinked₁ hw
  have hstep' : CacheStep _ g w' (g.move (m ++ [tail]) (.cached k)) :=
    Reheads.cacheStep hinv₁.wf hw nofun fun h hh => by rw [hloose h hh]; exact nofun
  refine ⟨hinv', hstep₁.trans hstep', hl.moveOut hdisjoint nofun, fun x hx => ?_⟩
  rw [hw.mem]
  refine hnext x _ (hl.place (List.mem_append_right _ hx)) fun heq => ?_
  exact hdisjoint x (List.mem_append_right m (List.mem_singleton.mpr heq)) hx

/-- The last block of a chain of loose blocks is cut off from what follows. -/
theorem Inv.terminate {b : ℕ} (hinv : Inv w g) (hl : LooseAre g cls (m ++ [tail] ++ l))
    (hlinked : Linked 0 (OxHeader.next w.mem) a (m ++ [tail]) b)
    (hnodup : (m ++ [tail] ++ l).Nodup) :
    Inv { w with mem := OxHeader.setNext w.mem tail 0 } g ∧
      CacheStep w g { w with mem := OxHeader.setNext w.mem tail 0 } g ∧
      Linked 0 (OxHeader.next (OxHeader.setNext w.mem tail 0)) a (m ++ [tail]) 0 ∧
      SameLinks w { w with mem := OxHeader.setNext w.mem tail 0 } l := by
  have hlast := hl.place (h := tail) (by simp)
  obtain ⟨hinv₁, hstep₁, hnext⟩ := hinv.setNext hlast (Nat.dvd_zero 16) (by decide)
  obtain ⟨hfirst, hnull, _⟩ := linked_concat.mp hlinked
  obtain ⟨hbatch, _, hdisjoint⟩ := List.nodup_append.mp hnodup
  refine ⟨hinv₁, hstep₁, linked_concat.mpr ⟨hfirst.congr fun x hx => ?_, hnull,
    OxHeader.next_setNext (by decide)⟩, fun x hx => ?_⟩
  · refine hnext x _ (hl.place (by simp [hx])) fun heq => ?_
    exact List.disjoint_of_nodup_append hbatch hx (List.mem_singleton.mpr heq)
  · exact hnext x _ (hl.place (List.mem_append_right _ hx)) fun heq =>
      hdisjoint tail (by simp) x hx heq.symm

end Move

section Thread

variable {w w' : World} {g : Layout} {e : ThreadLocalEngine} {t cls : ℕ} {l m : List ℕ}

theorem runs_engine : Runs (engine t) w e w' ↔ w.engines t = some e ∧ w' = w := by
  rw [engine, runs_get_bind]
  cases w.engines t with
  | none => simp
  | some e' =>
    show Runs (pure e') w e w' ↔ _
    rw [runs_pure, Option.some.injEq, eq_comm (a := e)]

theorem bin_eq_ok {bin : TlsBin} : e.bin cls = .ok bin ↔ cls < 34 ∧ bin = e.tls cls := by
  unfold ThreadLocalEngine.bin
  show (if cls < 34 then _ else _) = _ ↔ _
  split
  · rename_i hlt
    rw [Except.ok.injEq, eq_comm]
    exact ⟨fun h => ⟨hlt, h⟩, fun h => h.2⟩
  · rename_i hlt
    exact ⟨nofun, fun h => absurd h.1 hlt⟩

/-- A new bin in the engine of a thread is a new entry in the table of all bins. -/
theorem binOf_setEngine (he : w.engines t = some e) (a n : ℕ) :
    World.binOf { w with engines := update w.engines t (some (e.setBin cls a n)) } =
      put w.binOf t cls ⟨a, n⟩ := by
  funext t' cls'
  rw [put_apply]
  unfold World.binOf
  by_cases ht : t' = t
  · subst ht
    simp only [update_self, he, ThreadLocalEngine.setBin, update_apply, true_and]
  · simp only [update_of_ne ht, ht, false_and, if_false]

theorem setEngine_reheads (he : w.engines t = some e) (a n : ℕ) :
    Reheads w { w with engines := update w.engines t (some (e.setBin cls a n)) }
      (.bin t cls) a n := by
  have hbin : ∀ t' cls', World.binOf
      { w with engines := update w.engines t (some (e.setBin cls a n)) } t' cls' =
        if t' = t ∧ cls' = cls then ⟨a, n⟩ else w.binOf t' cls' := by
    intro t' cls'
    rw [binOf_setEngine he, put_apply]
  refine ⟨rfl, rfl, rfl, fun t' cls' => ?_, rfl, rfl, rfl, rfl, rfl, id, ?_, ?_, fun k' hk' => ?_⟩
  · unfold World.pendingOf
    by_cases ht : t' = t
    · subst ht
      simp only [update_self, he, ThreadLocalEngine.setBin]
    · simp only [update_of_ne ht]
  · show (World.binOf _ t cls).head = a
    rw [hbin, if_pos ⟨rfl, rfl⟩]
  · show (World.binOf _ t cls).usage = n
    rw [hbin, if_pos ⟨rfl, rfl⟩]
  · cases k' with
    | bin t' cls' =>
      have hne : ¬ (t' = t ∧ cls' = cls) := fun heq => hk' (by rw [heq.1, heq.2])
      constructor
      · show (World.binOf _ t' cls').head = _
        rw [hbin, if_neg hne]
        rfl
      · show (World.binOf _ t' cls').usage = _
        rw [hbin, if_neg hne]
        rfl
    | shard cpu cls' => exact ⟨rfl, rfl⟩

theorem binOf_eq (he : w.engines t = some e) : w.binOf t cls = e.tls cls := by
  unfold World.binOf
  rw [he]

/-- The counter of a bin is positive whenever it has a head, so the subtraction does
not underflow. -/
theorem popFromThread_spec {r : ℕ} (hinv : Inv w g) (hl : LooseAre g cls l)
    (h : Runs (popFromThread t cls) w r w') :
    (r = 0 ∧ w' = w) ∨ (r ≠ 0 ∧ Leaves w g w' cls (r :: l)) := by
  rw [popFromThread, runs_bind] at h
  obtain ⟨e, w₁, he, h⟩ := h
  obtain ⟨he, hw₁⟩ := runs_engine.mp he
  subst hw₁
  obtain ⟨bin, hbin, h⟩ := runs_attempt_bind.mp h
  obtain ⟨hcls, hbin⟩ := bin_eq_ok.mp hbin
  subst hbin
  split at h
  · obtain ⟨hr, hw'⟩ := runs_pure.mp h
    exact Or.inl ⟨hr, hw'⟩
  · rename_i hhead
    rw [runs_get_bind] at h
    split at h
    · exact absurd h runs_throw
    · rename_i husage
      rw [setEngine, runs_modify_bind] at h
      obtain ⟨hr, hw'⟩ := runs_pure.mp h
      obtain ⟨chain, hchain, hlen, hmem⟩ := hinv.chains (.bin t cls)
      have hheadOf : w₁.headOf (.bin t cls) = (e.tls cls).head := by
        show (w₁.binOf t cls).head = _
        rw [binOf_eq he]
      have husageOf : w₁.usageOf (.bin t cls) = (e.tls cls).usage := by
        show (w₁.binOf t cls).usage = _
        rw [binOf_eq he]
      cases chain with
      | nil => exact absurd (hheadOf ▸ hchain) hhead
      | cons x rest =>
        obtain ⟨hx, hnull, hrest⟩ := hchain
        have hxr : x = r := by rw [← hx, hheadOf, hr]
        subst hxr
        rw [husageOf, List.length_cons] at hlen
        have hre := @setEngine_reheads w₁ e t cls he (OxHeader.next w₁.mem x) rest.length
        have hw : w' = { w₁ with
            engines := update w₁.engines t
              (some (e.setBin cls (OxHeader.next w₁.mem x) rest.length)) } := by
          rw [hw', ← hr, hlen, Nat.add_sub_cancel]
        rw [← hw] at hre
        have hcached := (hmem x).mp List.mem_cons_self
        have htake := hinv.take (l := [x]) (r := rest) ⟨hx, hnull, hrest⟩ hmem hrest hre
        refine Or.inr ⟨hnull, _, ⟨htake, Reheads.cacheStep hinv.wf hre ?_ ?_, hl.moveIn, ?_⟩⟩
        · exact nofun
        · intro h hh
          rw [List.mem_singleton.mp hh, hcached]
          exact nofun
        · intro h _
          rw [hre.mem]

theorem pushToThreadTailed_spec {u : Unit} {head tail batchSize : ℕ} (hinv : Inv w g)
    (hbatch : Batch w g cls head m tail l) (hsize : batchSize = (m ++ [tail]).length)
    (h : Runs (pushToThreadTailed t cls head tail batchSize) w u w') : Leaves w g w' cls l := by
  rw [pushToThreadTailed, runs_bind] at h
  obtain ⟨e, w₁, he, h⟩ := h
  obtain ⟨he, hw₁⟩ := runs_engine.mp he
  subst hw₁
  obtain ⟨bin, hbin, h⟩ := runs_attempt_bind.mp h
  obtain ⟨_, hbin⟩ := bin_eq_ok.mp hbin
  subst hbin
  rw [runs_modify_bind] at h
  split at h
  · exact absurd h runs_throw
  · rw [setEngine, runs_modify] at h
    have hbinOf : w₁.binOf t cls = e.tls cls := binOf_eq he
    have hhead : w₁.headOf (.bin t cls) = (e.tls cls).head := congrArg TlsBin.head hbinOf
    have husage : w₁.usageOf (.bin t cls) = (e.tls cls).usage := congrArg TlsBin.usage hbinOf
    rw [hsize, ← hhead, ← husage] at h
    rw [h]
    refine ⟨_, hinv.push (k := .bin t cls) hbatch ?_⟩
    exact @setEngine_reheads { w₁ with mem := OxHeader.setNext w₁.mem tail _ } e t cls he head _

end Thread

section Shared

variable {w w' : World} {g : Layout} {cls cpu : ℕ} {l m : List ℕ}

theorem ensureCache_sameHeap {u : Unit} (hwf : Wf w.va) (h : Runs ensureCache w u w') :
    SameHeap w w' := by
  have hmap : ∀ {w w' : World} {len : ℕ} {u : Unit}, Wf w.va → Runs (mapIccTable len) w u w' →
      SameHeap w w' := by
    intro w w' len u hwf h
    rw [mapIccTable, runs_bind] at h
    obtain ⟨r, w₁, hmmap, h⟩ := h
    cases r with
    | none => exact absurd h runs_throw
    | some ptr =>
      rw [(runs_pure.mp h).2]
      exact mmapMemory_sameHeap hwf hmmap
  rw [ensureCache, runs_get_bind] at h
  split at h
  · rw [(runs_pure.mp h).2]
    exact SameHeap.refl hwf
  · rw [runs_bind] at h
    obtain ⟨_, w₁, h₁, h⟩ := h
    have hs₁ := hmap hwf h₁
    rw [runs_bind] at h
    obtain ⟨_, w₂, h₂, h⟩ := h
    have hs₂ := hs₁.trans (hmap hs₁.va.wf h₂)
    rw [runs_modify] at h
    refine hs₂.trans ?_
    rw [h]
    refine ⟨⟨?_, ?_, fun _ _ => rfl, rfl, rfl, rfl, rfl, rfl, id⟩, rfl, Keeps.refl hs₂.va.wf, rfl⟩
    · intro k
      cases k <;> rfl
    · intro k
      cases k <;> rfl

theorem getCpuId_sameHeap {r : ℕ} (hwf : Wf w.va) (h : Runs getCpuId w r w') : SameHeap w w' := by
  rw [getCpuId, runs_bind] at h
  obtain ⟨a, w₁, hdraw, h⟩ := h
  rw [(runs_pure.mp h).2]
  exact draw_sameHeap hwf hdraw

theorem checkShard_spec {u : Unit} (h : Runs (checkShard cpu cls) w u w') :
    w' = w ∧ cpu < w.icc.ncpu := by
  rw [checkShard, runs_get_bind] at h
  split at h
  · exact absurd h runs_throw
  · rename_i hcpu
    split at h
    · exact absurd h runs_throw
    · exact ⟨(runs_pure.mp h).2, Nat.lt_of_not_le hcpu⟩

theorem setShard_reheads (w : World) (cpu cls word n : ℕ) :
    Reheads w
      { w with
        icc := { w.icc with
          list := put w.icc.list cpu cls word, usage := put w.icc.usage cpu cls n } }
      (.shard cpu cls) (headPtr word) n := by
  refine ⟨rfl, rfl, rfl, fun _ _ => rfl, rfl, rfl, rfl, rfl, rfl, id, ?_, ?_, fun k' hk' => ?_⟩
  · show headPtr (put w.icc.list cpu cls word cpu cls) = headPtr word
    rw [put_apply, if_pos ⟨rfl, rfl⟩]
  · show put w.icc.usage cpu cls n cpu cls = n
    rw [put_apply, if_pos ⟨rfl, rfl⟩]
  · cases k' with
    | bin t' cls' => exact ⟨rfl, rfl⟩
    | shard cpu' cls' =>
      have hne : ¬ (cpu' = cpu ∧ cls' = cls) := fun heq => hk' (by rw [heq.1, heq.2])
      constructor
      · show headPtr (put w.icc.list cpu cls word cpu' cls') = _
        rw [put_apply, if_neg hne]
        rfl
      · show put w.icc.usage cpu cls n cpu' cls' = _
        rw [put_apply, if_neg hne]
        rfl

/-- The chain goes to the shard of some CPU. -/
theorem tryPush_shard {u : Unit} {head tail batchSize : ℕ} (hinv : Inv w g)
    (hbatch : Batch w g cls head m tail l) (hsize : batchSize = (m ++ [tail]).length)
    (h : Runs (tryPush cls head tail batchSize) w u w') :
    ∃ cpu < w'.icc.ncpu,
      LeavesAt w g w' (g.move (m ++ [tail]) (.cached (.shard cpu cls))) cls l := by
  rw [tryPush, runs_bind] at h
  obtain ⟨_, w₁, hensure, h⟩ := h
  rw [runs_bind] at h
  obtain ⟨cpu, w₂, hcpu, h⟩ := h
  have hs₁ := ensureCache_sameHeap hinv.wf hensure
  have hs₂ := hs₁.trans (getCpuId_sameHeap hs₁.va.wf hcpu)
  have hinv₂ := hinv.sameHeap hs₂
  obtain ⟨hl, hm, hnodup, hdisjoint⟩ := hbatch
  rw [← hs₂.mem] at hm
  rw [runs_bind] at h
  obtain ⟨_, w₃, hcheck, h⟩ := h
  obtain ⟨hw₃, hshard⟩ := checkShard_spec hcheck
  subst hw₃
  rw [runs_get_bind, runs_modify_bind, setShard, runs_modify] at h
  -- the counter does not wrap: the cached blocks and the new ones are distinct blocks
  obtain ⟨chain, hchain, husage, hmem⟩ := hinv₂.chains (.shard cpu cls)
  have hlen : (m ++ [tail] ++ chain).length < usizeBound := by
    refine length_lt_of_blocks (List.Nodup.append hnodup hchain.nodup ?_) ?_
    · intro x hx hx'
      rw [hmem, hl.place (List.mem_append_left l hx)] at hx'
      exact absurd (Option.some.inj hx') nofun
    · intro x hx
      rcases List.mem_append.mp hx with hnew | hold
      · exact (hinv₂.blocks x _ (hl.place (List.mem_append_left l hnew))).1.isBlock
      · exact (hinv₂.blocks x _ ((hmem x).mp hold)).1.isBlock
  rw [List.length_append, ← husage] at hlen
  have hsum : (w₃.icc.usage cpu cls + batchSize) % usizeBound =
      w₃.usageOf (.shard cpu cls) + (m ++ [tail]).length := by
    rw [hsize, Nat.add_comm]
    exact (Nat.mod_eq_of_lt hlen).trans (Nat.add_comm _ _)
  obtain ⟨b, hlinked⟩ := hm
  have hfirst : 16 ∣ head ∧ head < usizeBound := by
    have hhead : head ∈ m ++ [tail] := by
      cases m with
      | nil => exact hlinked.1 ▸ List.mem_cons_self
      | cons x rest => exact hlinked.1 ▸ List.mem_cons_self
    have hblock := (hinv₂.blocks head _ (hl.place (List.mem_append_left l hhead))).1.isBlock
    exact ⟨hblock.aligned, hblock.lt⟩
  refine ⟨cpu, by rw [h]; exact hshard, hs₂.leavesAt ?_⟩
  rw [h, hsum]
  refine hinv₂.push (k := .shard cpu cls) ⟨hl, ⟨b, hlinked⟩, hnodup, hdisjoint⟩ ?_
  have hre := setShard_reheads
    { w₃ with mem := OxHeader.setNext w₃.mem tail (headPtr (w₃.icc.list cpu cls)) } cpu cls
    (headPack head ((headTag (w₃.icc.list cpu cls) + 1) % usizeBound))
    (w₃.usageOf (.shard cpu cls) + (m ++ [tail]).length)
  rw [headPtr_headPack hfirst.1 hfirst.2] at hre
  exact hre

theorem tryPush_spec {u : Unit} {head tail batchSize : ℕ} (hinv : Inv w g)
    (hbatch : Batch w g cls head m tail l) (hsize : batchSize = (m ++ [tail]).length)
    (h : Runs (tryPush cls head tail batchSize) w u w') : Leaves w g w' cls l := by
  obtain ⟨cpu, _, hleaves⟩ := tryPush_shard hinv hbatch hsize h
  exact ⟨_, hleaves⟩

/-- A batch is the beginning of the chain, and the count is its length. -/
theorem batchTail_spec {mem : Memory} {x : ℕ} {rest : List ℕ} (n count : ℕ)
    (h : Linked 0 (OxHeader.next mem) x (x :: rest) 0) :
    ∃ m r, x :: rest = m ++ [(batchTail mem n x count).1] ++ r ∧ m.length ≤ n ∧
      (batchTail mem n x count).2 = count + m.length ∧ (r = [] ∨ m.length = n) := by
  induction n generalizing x rest count with
  | zero => exact ⟨[], rest, rfl, Nat.le_refl 0, rfl, Or.inr rfl⟩
  | succ n ih =>
    obtain ⟨_, _, hrest⟩ := h
    rw [batchTail]
    split
    · rename_i hnull
      rw [hnull] at hrest
      rw [hrest.eq_nil]
      exact ⟨[], [], rfl, Nat.zero_le _, rfl, Or.inl rfl⟩
    · rename_i hnull
      cases rest with
      | nil => exact absurd hrest hnull
      | cons y rest =>
        have hy : OxHeader.next mem x = y := hrest.1
        rw [hy] at hrest ⊢
        obtain ⟨m, r, hsplit, hlen, hcount, hend⟩ := ih (count + 1) hrest
        refine ⟨x :: m, r, by rw [hsplit]; rfl, by rw [List.length_cons]; omega, ?_, ?_⟩
        · rw [hcount, List.length_cons]
          omega
        · rw [List.length_cons]
          exact hend.imp_right (congrArg (· + 1))

/-- The result of a pop: a null-terminated chain of loose blocks. -/
def Popped (w : World) (g : Layout) (w' : World) (cls head n : ℕ) (l : List ℕ) : Prop :=
  ∃ m g', Inv w' g' ∧ CacheStep w g w' g' ∧ LooseAre g' cls (m ++ l) ∧
    Linked 0 (OxHeader.next w'.mem) head m 0 ∧ m ≠ [] ∧ m.length ≤ n ∧ (∀ h ∈ m, h ∉ l) ∧
    SameLinks w w' l

theorem SameHeap.popped {w₁ : World} {head n : ℕ} (h : SameHeap w w₁)
    (h' : Popped w₁ g w' cls head n l) : Popped w g w' cls head n l := by
  obtain ⟨m, g', hinv, hstep, hl, hlinked, hne, hlen, hdisjoint, hlinks⟩ := h'
  refine ⟨m, g', hinv, h.cacheStep.trans hstep, hl, hlinked, hne, hlen, hdisjoint, fun x hx => ?_⟩
  rw [hlinks x hx, h.mem]

theorem Popped.mono {head n n' : ℕ} (h : Popped w g w' cls head n l) (hle : n ≤ n') :
    Popped w g w' cls head n' l := by
  obtain ⟨m, g', hinv, hstep, hl, hlinked, hne, hlen, hdisjoint, hlinks⟩ := h
  exact ⟨m, g', hinv, hstep, hl, hlinked, hne, hlen.trans hle, hdisjoint, hlinks⟩

/-- The blocks at the head of a cache leave it, and then the last one is cut off. -/
theorem Inv.takeBatch {k : Cache} {tail : ℕ} {r : List ℕ} (hinv : Inv w g)
    (hl : LooseAre g k.cls l) (hchain : Chain w k (m ++ [tail] ++ r))
    (hmem : ∀ h, h ∈ m ++ [tail] ++ r ↔ g.place h = some (.cached k))
    (hw : Reheads w w' k (OxHeader.next w.mem tail) r.length) :
    Popped w g { w' with mem := OxHeader.setNext w'.mem tail 0 } k.cls (w.headOf k) (m.length + 1)
      l := by
  obtain ⟨b, hbatch, hr⟩ := linked_append.mp hchain
  obtain ⟨hfirst, hnull, hb⟩ := linked_concat.mp hbatch
  subst hb
  have hcached : ∀ y ∈ m ++ [tail], g.place y = some (.cached k) := fun y hy =>
    (hmem y).mp (List.mem_append_left r hy)
  have hnotHeld : ∀ y ∈ m ++ [tail], g.place y ≠ some .held := by
    intro y hy
    rw [hcached y hy]
    exact nofun
  have hinv₂ := hinv.take hchain hmem hr hw
  have hstep₂ := Reheads.cacheStep hinv.wf hw (show Place.loose k.cls ≠ .held from nofun) hnotHeld
  have hloose₂ := hl.moveIn (m := m ++ [tail])
  obtain ⟨hinv₃, hstep₃, hnext₃⟩ := hinv₂.setNext (hloose₂.place (h := tail) (by simp))
    (Nat.dvd_zero 16) (by decide)
  rw [hw.mem] at hnext₃
  have hnodup := (List.nodup_append.mp hchain.nodup).1
  have hlink : Linked 0 (OxHeader.next (OxHeader.setNext w.mem tail 0)) (w.headOf k) (m ++ [tail])
      0 := by
    refine linked_concat.mpr ⟨hfirst.congr fun y hy => ?_, hnull,
      OxHeader.next_setNext (by decide)⟩
    refine hnext₃ y _ (hloose₂.place (by simp [hy])) fun heq => ?_
    exact List.disjoint_of_nodup_append hnodup hy (List.mem_singleton.mpr heq)
  have hdisjoint : ∀ y ∈ m ++ [tail], y ∉ l := by
    intro y hy hyl
    have hcy := hcached y hy
    rw [hl.place hyl] at hcy
    exact absurd (Option.some.inj hcy) nofun
  refine ⟨m ++ [tail], _, hinv₃, hstep₂.trans hstep₃, hloose₂, ?_, by simp, by simp, hdisjoint,
    fun y hy => ?_⟩
  · show Linked 0 (OxHeader.next (OxHeader.setNext w'.mem tail 0)) _ _ 0
    rw [hw.mem]
    exact hlink
  · show OxHeader.next (OxHeader.setNext w'.mem tail 0) y = _
    rw [hw.mem]
    refine hnext₃ y _ (hloose₂.place (List.mem_append_right _ hy)) fun heq => ?_
    exact hdisjoint tail (by simp) (heq ▸ hy)

/-- The wrapping subtraction from a counter that is large enough. -/
theorem sub_usage {count rest : ℕ} (h : count + rest < usizeBound) :
    (count + rest + (usizeBound - count)) % usizeBound = rest := by
  rw [show count + rest + (usizeBound - count) = rest + usizeBound by omega, Nat.add_mod_right,
    Nat.mod_eq_of_lt (by omega)]

/-- A batch has no more blocks than the shard. -/
theorem pop_spec {r : Option ℕ} {batchSize : ℕ} (hinv : Inv w g) (hl : LooseAre g cls l)
    (hbatch : 0 < batchSize) (h : Runs (pop cls batchSize cpu) w r w') :
    (r = none ∧ SameHeap w w') ∨
      ∃ head, r = some head ∧ head ≠ 0 ∧
        Popped w g w' cls head (min batchSize (w.usageOf (.shard cpu cls))) l := by
  rw [pop, runs_bind] at h
  obtain ⟨_, w₁, hensure, h⟩ := h
  have hs := ensureCache_sameHeap hinv.wf hensure
  have hinv₁ := hinv.sameHeap hs
  rw [runs_bind] at h
  obtain ⟨_, w₂, hcheck, h⟩ := h
  obtain ⟨hw₂, _⟩ := checkShard_spec hcheck
  subst hw₂
  rw [runs_get_bind] at h
  split at h
  · obtain ⟨hr, hw'⟩ := runs_pure.mp h
    exact Or.inl ⟨hr, hw' ▸ hs⟩
  · dsimp only at h
    split at h
    · obtain ⟨hr, hw'⟩ := runs_pure.mp h
      exact Or.inl ⟨hr, hw' ▸ hs⟩
    · rename_i hhead
      rw [setShard, runs_modify_bind, runs_modify_bind] at h
      obtain ⟨hr, hw'⟩ := runs_pure.mp h
      refine Or.inr ⟨_, hr, hhead, hs.popped ?_⟩
      rw [← hs.usages]
      obtain ⟨chain, hchain, husage, hmem⟩ := hinv₁.chains (.shard cpu cls)
      have hlt : chain.length < usizeBound :=
        length_lt_of_blocks hchain.nodup fun x hx => (hinv₁.blocks x _ ((hmem x).mp hx)).1.isBlock
      cases chain with
      | nil => exact absurd hchain hhead
      | cons x rest =>
        have hx : headPtr (w₂.icc.list cpu cls) = x := hchain.1
        have hchain' : Linked 0 (OxHeader.next w₂.mem) x (x :: rest) 0 := hx ▸ hchain
        obtain ⟨m, r', hsplit, hlen, hcount, _⟩ := batchTail_spec (batchSize - 1) 1 hchain'
        rw [← hx] at hsplit hcount
        generalize (batchTail w₂.mem (batchSize - 1) (headPtr (w₂.icc.list cpu cls)) 1).1 = tail
          at hsplit hw'
        generalize (batchTail w₂.mem (batchSize - 1) (headPtr (w₂.icc.list cpu cls)) 1).2 = count
          at hcount hw'
        rw [hx] at hsplit
        rw [hsplit] at hchain hmem hlt husage
        simp only [List.length_append, List.length_singleton] at hlt husage
        have hsum : w₂.icc.usage cpu cls = count + r'.length := by
          rw [hcount, Nat.add_comm 1]
          exact husage
        have htail := (hinv₁.blocks tail (.cached (.shard cpu cls)) ((hmem tail).mp (by simp))).1
        have hre := setShard_reheads w₂ cpu cls
          (headPack (OxHeader.next w₂.mem tail) ((headTag (w₂.icc.list cpu cls) + 1) % usizeBound))
          r'.length
        rw [headPtr_headPack htail.next (load_lt w₂.mem tail 8)] at hre
        rw [hsum, sub_usage (by omega)] at hw'
        rw [hw']
        refine (hinv₁.takeBatch (k := .shard cpu cls) hl hchain hmem hre).mono ?_
        rw [husage]
        omega

theorem popVictims_spec {r batchSize : ℕ} {victims : List ℕ} (hinv : Inv w g)
    (hl : LooseAre g cls l) (hbatch : 0 < batchSize)
    (h : Runs (popVictims cls batchSize victims) w r w') :
    (r = 0 ∧ SameHeap w w') ∨
      (r ≠ 0 ∧ ∃ cpu, Popped w g w' cls r (min batchSize (w.usageOf (.shard cpu cls))) l) := by
  induction victims generalizing w with
  | nil =>
    obtain ⟨hr, hw'⟩ := runs_pure.mp h
    rw [hw']
    exact Or.inl ⟨hr, SameHeap.refl hinv.wf⟩
  | cons victim rest ih =>
    rw [popVictims, runs_bind] at h
    obtain ⟨found, w₁, hpop, h⟩ := h
    rcases pop_spec hinv hl hbatch hpop with ⟨hnone, hs⟩ | ⟨head, hsome, hhead, hpopped⟩
    · rw [hnone] at h
      rcases ih (hinv.sameHeap hs) h with ⟨hr, hs'⟩ | ⟨hr, cpu, hpopped⟩
      · exact Or.inl ⟨hr, hs.trans hs'⟩
      · exact Or.inr ⟨hr, cpu, hs.usages _ ▸ hs.popped hpopped⟩
    · rw [hsome] at h
      obtain ⟨hr, hw'⟩ := runs_pure.mp h
      rw [hr, hw']
      exact Or.inr ⟨hhead, victim, hpopped⟩

theorem tryPop_spec {r batchSize : ℕ} (hinv : Inv w g) (hl : LooseAre g cls l)
    (hbatch : 0 < batchSize) (h : Runs (tryPop cls batchSize) w r w') :
    (r = 0 ∧ SameHeap w w') ∨
      (r ≠ 0 ∧ ∃ cpu, Popped w g w' cls r (min batchSize (w.usageOf (.shard cpu cls))) l) := by
  rw [tryPop, runs_bind] at h
  obtain ⟨cpu, w₁, hcpu, h⟩ := h
  have hs₁ := getCpuId_sameHeap hinv.wf hcpu
  have hinv₁ := hinv.sameHeap hs₁
  rw [runs_get_bind, runs_bind] at h
  obtain ⟨found, w₂, hpop, h⟩ := h
  rcases pop_spec hinv₁ hl hbatch hpop with ⟨hnone, hs₂⟩ | ⟨head, hsome, hhead, hpopped⟩
  · rw [hnone] at h
    have hs := hs₁.trans hs₂
    rcases popVictims_spec (hinv₁.sameHeap hs₂) hl hbatch h with ⟨hr, hs₃⟩ | ⟨hr, victim, hpopped⟩
    · exact Or.inl ⟨hr, hs.trans hs₃⟩
    · exact Or.inr ⟨hr, victim, hs.usages _ ▸ hs.popped hpopped⟩
  · rw [hsome] at h
    obtain ⟨hr, hw'⟩ := runs_pure.mp h
    rw [hr, hw']
    exact Or.inr ⟨hhead, cpu, hs₁.usages _ ▸ hs₁.popped hpopped⟩

end Shared

end Oxidalloc
