import Oxidalloc.AbiSpec
import Oxidalloc.OwnedCalls

/-!
Blocks that have their pages for themselves, with the real bitmap, map and headers. A step
on such a block changes bytes, pages and the record of this block only; `big_malloc` gives
the user a block of as many pages as it needs, and `big_free` returns exactly those.
-/
namespace Oxidalloc

open ByteMemory HeadPacking Hashmap Programs VaBitmap Function

variable {w w₁ w' : World} {g : Layout} {h lo hi t size : ℕ}

section Caches

/-- A step that writes bytes of a range and changes nothing else. -/
structure Touches (w w' : World) (lo hi : ℕ) : Prop where
  caches : SameCaches w w'
  big : w'.big = w.big
  va : Keeps w.va w'.va
  mem : ∀ x, x < lo ∨ hi ≤ x → w'.mem x = w.mem x

theorem SameHeap.touches (h : SameHeap w w') : Touches w w' lo hi :=
  ⟨h.toSameCaches, h.big, h.va, fun x _ => by rw [h.mem]⟩

theorem Touches.trans (h : Touches w w₁ lo hi) (h' : Touches w₁ w' lo hi) : Touches w w' lo hi :=
  ⟨h.caches.trans h'.caches, h'.big.trans h.big, h.va.trans h'.va,
    fun x hx => (h'.mem x hx).trans (h.mem x hx)⟩

theorem touches_write {m' : Memory} (hwf : Wf w.va)
    (hm : ∀ x, x < lo ∨ hi ≤ x → m' x = w.mem x) : Touches w { w with mem := m' } lo hi :=
  ⟨sameCaches_update .., rfl, Keeps.refl hwf, hm⟩

/-- The record of a block is set or removed. -/
structure Files (w w' : World) (h : ℕ) (info : Option BigAllocMeta) : Prop where
  caches : SameCaches w w'
  mem : w'.mem = w.mem
  va : Keeps w.va w'.va
  sound : ∃ f, HashmapRefinement.Sound w'.big f
  get : w'.big.get = update w.big.get h info

end Caches

section Kernel

theorem protectMemory_sameHeap {addr len : ℕ} {allowed r : Bool} (hwf : Wf w.va)
    (hrun : Runs (protectMemory addr len allowed) w r w') : SameHeap w w' := by
  rw [protectMemory, runs_bind] at hrun
  obtain ⟨answer, w₁, hdraw, hrun⟩ := hrun
  have hs := draw_sameHeap hwf hdraw
  split at hrun
  · rw [(runs_pure.mp hrun).2]
    exact hs
  · rw [runs_modify_bind] at hrun
    rw [(runs_pure.mp hrun).2]
    exact hs.trans ⟨sameCaches_update .., rfl, Keeps.refl hs.va.wf, rfl⟩

theorem madvise_touches {addr len : ℕ} {advice : Advice} {r : Bool} (hwf : Wf w.va)
    (hrun : Runs (madvise addr len advice) w r w') :
    Touches w w' addr (addr + pagesOf len * 4096) ∧ (r = false → SameHeap w w') := by
  rw [madvise, runs_bind] at hrun
  obtain ⟨answer, w₁, hdraw, hrun⟩ := hrun
  have hs := draw_sameHeap hwf hdraw
  split at hrun
  · rw [(runs_pure.mp hrun).2]
    exact ⟨hs.touches, fun _ => hs⟩
  · cases advice with
    | dontNeed =>
      rw [runs_modify_bind] at hrun
      obtain ⟨rfl, rfl⟩ := runs_pure.mp hrun
      refine ⟨hs.touches.trans (touches_write hs.va.wf fun x hx => fill_of_not_mem hx), ?_⟩
      simp
    | hugepage =>
      rw [(runs_pure.mp hrun).2]
      exact ⟨hs.touches, fun _ => hs⟩
    | normal =>
      rw [(runs_pure.mp hrun).2]
      exact ⟨hs.touches, fun _ => hs⟩

theorem mmapFixed_touches {addr len : ℕ} {r : Bool} (hwf : Wf w.va)
    (hrun : Runs (mmapFixed addr len) w r w') :
    Touches w w' addr (addr + pagesOf len * 4096) ∧ (r = false → SameHeap w w') := by
  obtain ⟨w₁, hs, hw'⟩ := mmapFixed_spec hwf hrun
  rcases hw' with ⟨_, hw'⟩ | ⟨hr, _, hw'⟩
  · rw [hw']
    exact ⟨hs.touches, fun _ => hs⟩
  · rw [hw', hr, ← hs.mem]
    refine ⟨hs.touches.trans (touches_write hs.va.wf fun x hx => fill_of_not_mem hx), ?_⟩
    simp

theorem adviseIfHuge_sameHeap {addr total : ℕ} {advice : Advice} {u : Unit} (hwf : Wf w.va)
    (hadvice : advice ≠ .dontNeed) (hrun : Runs (adviseIfHuge addr total advice) w u w') :
    SameHeap w w' := by
  rw [adviseIfHuge, CInterface.adviseIfHuge] at hrun
  split at hrun
  · rw [runs_bind] at hrun
    obtain ⟨_, w₁, hadvise, hrun⟩ := hrun
    obtain ⟨w₂, hs, hw₁⟩ := madvise_spec hwf hadvise
    rw [(runs_pure.mp hrun).2, hw₁.resolve_right fun hnot => hadvice hnot.1]
    exact hs
  · rw [(runs_pure.mp hrun).2]
    exact SameHeap.refl hwf

theorem commit_touches {hint total : ℕ} {r : Bool} (hwf : Wf w.va)
    (hrun : Runs (commit hint total) w r w') :
    Touches w w' hint (hint + pagesOf total * 4096) ∧ (r = false → SameHeap w w') := by
  rw [commit, CInterface.commit, runs_bind] at hrun
  obtain ⟨allowed, w₁, hprotect, hrun⟩ := hrun
  have hs := protectMemory_sameHeap hwf hprotect
  cases allowed with
  | true =>
    obtain ⟨rfl, rfl⟩ := runs_pure.mp hrun
    exact ⟨hs.touches, fun _ => hs⟩
  | false =>
    obtain ⟨htouches, hfailed⟩ := mmapFixed_touches hs.va.wf hrun
    exact ⟨hs.touches.trans htouches, fun hr => hs.trans (hfailed hr)⟩

theorem forbid_sameHeap {addr len : ℕ} {u : Unit} (hwf : Wf w.va)
    (hrun : Runs (machine.forbid addr len) w u w') : SameHeap w w' := by
  dsimp only at hrun
  rw [runs_bind] at hrun
  obtain ⟨_, w₁, hprotect, hrun⟩ := hrun
  rw [(runs_pure.mp hrun).2]
  exact protectMemory_sameHeap hwf hprotect

theorem wipe_touches {addr total : ℕ} {u : Unit} (hwf : Wf w.va)
    (hrun : Runs (wipe addr total) w u w') : Touches w w' addr (addr + pagesOf total * 4096) := by
  rw [wipe, CInterface.wipe, runs_bind] at hrun
  obtain ⟨taken, w₁, hadvise, hrun⟩ := hrun
  dsimp only at hadvise
  have htouches := (madvise_touches hwf hadvise).1
  cases taken with
  | true =>
    rw [(runs_pure.mp hrun).2]
    exact htouches
  | false =>
    have hle : total ≤ pagesOf total * 4096 := by
      unfold pagesOf
      omega
    rw [runs_modify.mp hrun]
    exact htouches.trans (touches_write htouches.va.wf fun x hx => fill_of_not_mem (by omega))

theorem bigInsert_files {u : Unit} (hwf : Wf w.va)
    (hsound : ∃ f, HashmapRefinement.Sound w.big f) (hrun : Runs (bigInsert h size) w u w') :
    Files w w' h (some ⟨size, 100, 0, 0⟩) := by
  rw [bigInsert, runs_bind] at hrun
  obtain ⟨answer, w₁, hdraw, hrun⟩ := hrun
  have hs := draw_sameHeap hwf hdraw
  rw [runs_get_bind] at hrun
  obtain ⟨big, hinsert, hrun⟩ := runs_attempt_bind.mp hrun
  rw [hs.big] at hinsert
  obtain ⟨hsound', hget⟩ := Records.insert_get hsound hinsert
  rw [runs_set.mp hrun]
  exact ⟨hs.toSameCaches.trans (sameCaches_update ..), hs.mem, hs.va, hsound', hget⟩

theorem bigRemove_files {info : Option BigAllocMeta} (hwf : Wf w.va)
    (hsound : ∃ f, HashmapRefinement.Sound w.big f) (hrun : Runs (bigRemove h) w info w') :
    Files w w' h none ∧ info = w.big.get h := by
  rw [bigRemove, runs_get_bind, runs_set_bind] at hrun
  obtain ⟨hinfo, hw'⟩ := runs_pure.mp hrun
  obtain ⟨hsound', hget, hfound⟩ := Records.remove_get hsound h
  rw [hw', hinfo]
  exact ⟨⟨sameCaches_update .., rfl, Keeps.refl hwf, hsound', hget⟩, hfound⟩

end Kernel

section Reseat

/-- The block with header h takes the bytes from there up to `stop`, and no others. -/
def Layout.reseat (g : Layout) (h stop : ℕ) (p : Option Place) : Layout where
  place := update g.place h p
  own := fun x =>
    if h ≤ x ∧ x < stop then .block h else if g.own x = .block h then .free else g.own x

variable {stop x : ℕ} {p : Option Place}

theorem Layout.reseat_place_self : (g.reseat h stop p).place h = p := update_self ..

theorem Layout.reseat_place_ne (hne : x ≠ h) : (g.reseat h stop p).place x = g.place x :=
  update_of_ne hne ..

theorem Layout.reseat_own_self (hlo : h ≤ x) (hhi : x < stop) :
    (g.reseat h stop p).own x = .block h := if_pos ⟨hlo, hhi⟩

/-- A byte that has an owner afterwards is one of the new ones, or one of another owner. -/
theorem Layout.reseat_own_ne_free (hown : (g.reseat h stop p).own x ≠ .free) :
    (h ≤ x ∧ x < stop) ∨ (g.own x ≠ .free ∧ g.own x ≠ .block h) := by
  by_cases hin : h ≤ x ∧ x < stop
  · exact Or.inl hin
  · right
    dsimp only [Layout.reseat] at hown
    rw [if_neg hin] at hown
    split at hown
    · contradiction
    · rename_i hother
      exact ⟨hown, hother⟩

theorem Layout.noLoose_reseat (hno : NoLoose g) (hpl : ∀ c, p ≠ some (.loose c)) :
    NoLoose (g.reseat h stop p) := by
  intro x c
  by_cases hx : x = h
  · rw [hx, Layout.reseat_place_self]
    exact hpl c
  · rw [Layout.reseat_place_ne hx]
    exact hno x c

/-- A step after which the block with header h has the bytes up to `stop`: bytes, pages and
records of the others are as before. -/
structure Reseats (w : World) (g : Layout) (w' : World) (h stop : ℕ) : Prop where
  caches : SameCaches w w'
  room : ∀ x, h ≤ x → x < stop → g.own x = .free ∨ g.own x = .block h
  mem : ∀ x, g.own x ≠ .free → g.own x ≠ .block h → w'.mem x = w.mem x
  big : ∀ x, x ≠ h → w'.big.get x = w.big.get x
  sound : ∃ f, HashmapRefinement.Sound w'.big f
  wf : Wf w'.va
  grows : Extends w.va w'.va
  others : ∀ x, g.own x ≠ .free → g.own x ≠ .block h → Taken w'.va (x / 4096)
  seat : ∀ x, h ≤ x → x < stop → Taken w'.va (x / 4096)

theorem Reseats.blockStep (hr : Reseats w g w' h stop)
    (huncached : ∀ k, g.place h ≠ some (.cached k)) (hpl : ∀ k, p ≠ some (.cached k)) :
    BlockStep w g w' (g.reseat h stop p) h where
  own := by
    intro x hfree hother
    refine ⟨?_, hr.mem x hfree hother⟩
    have hout : ¬ (h ≤ x ∧ x < stop) := fun hin =>
      (hr.room x hin.1 hin.2).elim hfree hother
    exact (if_neg hout).trans (if_neg hother)
  place := fun x hx => Layout.reseat_place_ne hx
  uncached := by
    intro k
    rw [Layout.reseat_place_self]
    exact ⟨huncached k, hpl k⟩
  big := hr.big
  heads := hr.caches.heads
  usages := hr.caches.usages
  pending := hr.caches.pending
  slabs := hr.caches.slabs
  magic := hr.caches.magic
  freedMagic := hr.caches.freedMagic

/-- The slots of slabs that are carved stay carved, with the class of the slab if it has
more than one. -/
def KeepsSlots (w w' : World) (h : ℕ) (p : Option Place) : Prop :=
  ∀ b cls, (b, cls) ∈ w.slabs.made → ∀ i < slabBlocks cls, slot b cls i = h →
    (slabBlocks cls ≠ 1 → OxHeader.cls w.mem h = cls) →
      p ≠ none ∧ (slabBlocks cls ≠ 1 → OxHeader.cls w'.mem h = cls)

theorem Reseats.reaches (hr : Reseats w g w' h stop) (hinv : Inv w g) (hno : NoLoose g)
    (huncached : ∀ k, g.place h ≠ some (.cached k)) (hpl : p = none ∨ p = some .held)
    (hbooted : w.booted = true) (hslots : g.place h ≠ none → KeepsSlots w w' h p)
    (hblock : p = some .held →
      BlockOk w' (g.reseat h stop p) h ∧ OxHeader.magic w'.mem h = w'.magic) :
    Reaches w g w' (g.reseat h stop p) {h} := by
  have hnot : ∀ k, p ≠ some (.cached k) := by
    intro k
    rcases hpl with rfl | rfl <;> simp
  have hloose : ∀ c, p ≠ some (.loose c) := by
    intro c
    rcases hpl with rfl | rfl <;> simp
  have hstep := hr.blockStep huncached hnot
  refine ⟨hinv.blockStep hstep hr.wf hr.grows ?_ ?_ ?_ hr.sound (Or.inl ?_),
    Layout.noLoose_reseat hno hloose, hstep.frame ?_ hr.caches.thp⟩
  · intro x hx
    rcases Layout.reseat_own_ne_free hx with hin | hother
    · exact hr.seat x hin.1 hin.2
    · exact hr.others x hother.1 hother.2
  · intro q hq
    rw [Layout.reseat_place_self] at hq
    have hheld : p = some .held := hpl.resolve_left (by simp [hq])
    obtain rfl : Place.held = q := Option.some.inj (hheld.symm.trans hq)
    exact hblock hheld
  · intro b cls hmem i hi hslot hplaced hfixed
    rw [Layout.reseat_place_self]
    exact hslots hplaced b cls hmem i hi hslot hfixed
  · rw [hr.caches.booted, hbooted]
  · rw [hr.caches.booted]
    exact id

/-- A block with pages of its own is well formed if its record fits its pages. -/
theorem blockOk_reseat {base : ℕ} (hwf : Wf w.va) (halign : base % 4096 = 0)
    (hoffset : h = base ∨ h = base + 32 ∧ OxHeader.cls w.mem h ≠ 100)
    (hfits : Fits w.va base (pagesOf (w.capacity h + 16)))
    (hstop : stop = base + pagesOf (w.capacity h + 16) * 4096)
    (hnext : 16 ∣ OxHeader.next w.mem h)
    (hcls : OxHeader.cls w.mem h < 34 ∨ OxHeader.cls w.mem h = 100 ∧ IsBig w h) :
    BlockOk w (g.reseat h stop p) h := by
  have hbase := hwf.addr_ne_zero hfits
  have hend := hwf.end_lt_of_fits hfits
  have hpages : w.capacity h + 16 ≤ pagesOf (w.capacity h + 16) * 4096 := by
    unfold pagesOf
    omega
  -- behind the header of a slab the payload still ends within the pages
  have hroom : h + 16 + w.capacity h ≤ stop := by
    rcases hoffset with heq | ⟨heq, hslab⟩
    · omega
    · have hlt := hcls.resolve_right fun hbig => hslab hbig.1
      have hcap : w.capacity h = payload (OxHeader.cls w.mem h) := if_neg hslab
      have hpage := (Records.payload_page hlt).2.2
      rw [Records.headerSize_standard] at hpage
      rw [hcap] at hstop ⊢
      rw [← hpage] at hstop
      unfold pagesOf at hstop
      omega
  refine ⟨⟨by omega, by omega, by omega⟩, ?_, hnext, hcls, ?_⟩
  · intro x hlo hhi
    exact Layout.reseat_own_self hlo (by omega)
  · intro _
    refine ⟨base, halign, hoffset, hfits, fun x hlo hhi => ?_⟩
    exact Layout.reseat_own_self hlo (by omega)

end Reseat

section Big

theorem runs_bigTotal {total : ℕ} (hthp : w.ThpOff) (hrun : Runs (bigTotal size) w total w') :
    total = pagesOf (size + 16) * 4096 ∧ w' = w := by
  rw [bigTotal, CInterface.bigTotal, runs_read_bind, hthp.1, if_neg Bool.false_ne_true] at hrun
  dsimp only at hrun
  obtain ⟨halign, hw'⟩ := runs_attempt.mp hrun
  exact ⟨Records.alignTo_page halign, hw'⟩

theorem blocksOf_pages {n k : ℕ} (hblocks : blocksOf (n * 4096) = .ok k) : k = n := by
  have hk := (Segment.blocksOf_eq_ok.mp hblocks).2
  unfold blockSize at hk
  omega

theorem blocksOf_fits {va : VaBitmap} {addr n : ℕ} (hwf : Wf va) (hfits : Fits va addr n) :
    blocksOf (n * 4096) = .ok n := by
  have hne := hwf.addr_ne_zero hfits
  have hend := hwf.end_lt_of_fits hfits
  have halign := hfits.1
  unfold blockSize at halign
  refine Segment.blocksOf_eq_ok.mpr ⟨?_, ?_⟩
  · unfold blockSize
    omega
  · unfold blockSize
    omega

theorem pages_ne_zero (size : ℕ) : pagesOf (size + 16) * 4096 ≠ 0 := by
  unfold pagesOf
  omega

theorem VaBitmap.Claims.keeps {va va₁ va' : VaBitmap} {addr n : ℕ} (hclaims : Claims va addr n va₁)
    (hkeeps : Keeps va₁ va') : Claims va addr n va' where
  wf := hkeeps.wf
  grows := hclaims.grows.trans hkeeps.grows
  fits := hclaims.fits.extends hkeeps.grows
  free := hclaims.free
  taken := fun q => (hkeeps.taken q).trans (hclaims.taken q)

/-- Pages that were free have no owner. -/
theorem Inv.claimed_free {va' : VaBitmap} {addr n x : ℕ} (hinv : Inv w g)
    (hclaims : Claims w.va addr n va') (hlo : addr ≤ x) (hhi : x < addr + n * 4096) :
    g.own x = .free :=
  hinv.free_of_not_taken (hclaims.free _ (inPages_of_mem hclaims.fits.1 hlo hhi))

/-- The pages of a new big block with its header and its record. -/
theorem newBig_reseats {w₁ w₂ : World} {va₁ : VaBitmap} {n : ℕ} (hinv : Inv w g)
    (hclaims : Claims w.va h n va₁) (htouches : Touches { w with va := va₁ } w₁ h (h + n * 4096))
    (hfiles : Files w₁ w₂ h (some ⟨size, 100, 0, 0⟩)) : Reseats w g w₂ h (h + n * 4096) := by
  have hclaims₂ := hclaims.keeps (htouches.va.trans hfiles.va)
  have hmem : ∀ x, g.own x ≠ .free → w₂.mem x = w.mem x := by
    intro x hx
    rw [hfiles.mem]
    refine htouches.mem x ?_
    by_contra hin
    exact hx (hinv.claimed_free hclaims (by omega) (by omega))
  refine ⟨?_, ?_, fun x hx _ => hmem x hx, ?_, hfiles.sound, hclaims₂.wf, hclaims₂.grows, ?_, ?_⟩
  · exact (sameCaches_update ..).trans (htouches.caches.trans hfiles.caches)
  · intro x hlo hhi
    exact Or.inl (hinv.claimed_free hclaims hlo hhi)
  · intro x hx
    rw [hfiles.get, update_of_ne hx, htouches.big]
  · intro x hx _
    exact (hclaims₂.taken _).mpr (Or.inl (hinv.taken x hx))
  · intro x hlo hhi
    exact (hclaims₂.taken _).mpr (Or.inr (inPages_of_mem hclaims.fits.1 hlo hhi))

/-- A new big block with its header and its record is handed out. -/
theorem newBig_hands {w₁ : World} {va₁ : VaBitmap} {m : Memory} (hinv : Inv w g) (hno : NoLoose g)
    (hbooted : w.booted = true) (hsize : matchSizeClass size = none)
    (hclaims : Claims w.va h (pagesOf (size + 16)) va₁)
    (htouches : Touches { w with va := va₁ } w₁ h (h + pagesOf (size + 16) * 4096))
    (hmem : w₁.mem = OxHeader.write m h 0 100 w₁.magic 0)
    (hfiles : Files w₁ w' h (some ⟨size, 100, 0, 0⟩)) :
    ∃ g', Hands w g w' g' h ∧ w'.capacity h = size := by
  have hreseats := newBig_reseats hinv hclaims htouches hfiles
  have hcls : OxHeader.cls w'.mem h = 100 := by
    rw [hfiles.mem, hmem]
    exact OxHeader.cls_write (by decide)
  have hget : w'.big.get h = some ⟨size, 100, 0, 0⟩ := by
    rw [hfiles.get, update_self]
  have hcap : w'.capacity h = size := by
    rw [World.capacity, if_pos hcls, World.bigSize, hget]
  have hnone : g.place h = none := by
    by_contra hplaced
    obtain ⟨pl, hpl⟩ := Option.ne_none_iff_exists'.mp hplaced
    have hown := hinv.own_header hpl (Nat.le_refl h) (by omega)
    have hpos := pages_ne_zero size
    rw [hinv.claimed_free hclaims (Nat.le_refl h) (by omega)] at hown
    exact absurd hown (by simp)
  have hreach := hreseats.reaches (p := some .held) hinv hno (by simp [hnone]) (Or.inr rfl)
    hbooted (fun hplaced => absurd hnone hplaced) fun _ => ⟨?_, ?_⟩
  · exact ⟨_, ⟨hreach, by simp [hnone], Layout.reseat_place_self⟩, hcap⟩
  · refine blockOk_reseat hreseats.wf hclaims.fits.1 (Or.inl rfl) ?_ ?_ ?_
      (Or.inr ⟨hcls, _, hget, matchSizeClass_none hsize⟩)
    · rw [hcap]
      exact hclaims.fits.extends (htouches.va.trans hfiles.va).grows
    · rw [hcap]
    · rw [hfiles.mem, hmem, OxHeader.next_write (by decide)]
      exact Nat.dvd_zero 16
  · rw [hfiles.mem, hfiles.caches.magic, hmem]
    exact OxHeader.magic_write

/-- `big_malloc` hands out a block with the pages it needs, or gives all of them back. -/
theorem bigMalloc_spec {r : ℕ} (hinv : Inv w g) (hno : NoLoose g) (hthp : w.ThpOff)
    (hbooted : w.booted = true) (hsize : matchSizeClass size = none)
    (hrun : Runs (bigMalloc size) w r w') :
    Allocates w g w' r fun h => w'.capacity h = size := by
  rw [bigMalloc, CInterface.bigMalloc, runs_bind] at hrun
  obtain ⟨total, w₀, htotal, hrun⟩ := hrun
  obtain ⟨rfl, rfl⟩ := runs_bigTotal hthp htotal
  rw [runs_bind] at hrun
  obtain ⟨found, w₁, halloc, hrun⟩ := hrun
  obtain ⟨va₁, hva₁, rfl⟩ := runs_onVa.mp halloc
  obtain ⟨n, hn, hresult⟩ := alloc_result hinv.wf (pages_ne_zero size) hva₁
  obtain rfl := blocksOf_pages hn
  cases found with
  | none =>
    obtain ⟨hr, rfl⟩ := runs_pure.mp hrun
    have hs := sameHeap_of_va (w := w₀) hresult
    exact Or.inl ⟨hr, g, hinv.sameHeap hs, hno, hs.frame⟩
  | some hint =>
    have hclaims : Claims w₀.va hint (pagesOf (size + 16)) va₁ := hresult
    rw [runs_bind] at hrun
    obtain ⟨committed, w₂, hcommit, hrun⟩ := hrun
    have hwf₁ : Wf { w₀ with va := va₁ }.va := hclaims.wf
    obtain ⟨htouches, hfailed⟩ := commit_touches hwf₁ hcommit
    rw [Records.pagesOf_mul] at htouches
    cases committed with
    | false =>
      have hs := hfailed rfl
      rw [if_neg Bool.false_ne_true, runs_bind] at hrun
      obtain ⟨_, w₃, hfree, hrun⟩ := hrun
      obtain ⟨va', hva', rfl⟩ := runs_onVa.mp hfree
      obtain ⟨hr, rfl⟩ := runs_pure.mp hrun
      have hreleases := free_releases hs.va.wf (pages_ne_zero size) hn
        (hclaims.fits.extends hs.va.grows) hva'
      obtain ⟨g', hinv', hframe, hloose⟩ : Settles w₀ g { w₂ with va := va' } 0 :=
        unmapped_settles hinv hclaims hs hreleases (looseAre_nil.mpr hno)
      exact Or.inl ⟨hr, g', hinv', looseAre_nil.mp hloose, hframe⟩
    | true =>
      rw [if_pos rfl, runs_bind] at hrun
      obtain ⟨_, w₃, hadvise, hrun⟩ := hrun
      have hs := adviseIfHuge_sameHeap htouches.va.wf (by simp) hadvise
      have htouches₃ := htouches.trans hs.touches
      rw [runs_modify_bind, runs_bind] at hrun
      obtain ⟨_, w₄, hinsert, hrun⟩ := hrun
      obtain ⟨hr, rfl⟩ := runs_pure.mp hrun
      have hheader : Touches w₃ { w₃ with mem := OxHeader.write w₃.mem hint 0 100 w₃.magic 0 } hint
          (hint + pagesOf (size + 16) * 4096) := by
        refine touches_write htouches₃.va.wf fun x hx => OxHeader.write_elsewhere x ?_
        unfold pagesOf at hx
        omega
      have hsound : ∃ f, HashmapRefinement.Sound w₃.big f := by
        rw [htouches₃.big]
        exact hinv.big
      have hwritten := htouches₃.trans hheader
      obtain ⟨g', hhands, hcap⟩ := newBig_hands hinv hno hbooted hsize hclaims hwritten rfl
        (bigInsert_files hwritten.va.wf hsound hinsert)
      exact Or.inr ⟨hint, g', hr, hhands, hcap⟩

/-- A block of a slab with pages of its own may get another class. -/
theorem Inv.keepsSlots_solo (hinv : Inv w g)
    (hsolo : OxHeader.cls w.mem h = 100 ∨ slabBlocks (OxHeader.cls w.mem h) = 1) :
    KeepsSlots w w' h (some .held) := by
  intro b cls hmem i hi hslot hfixed
  refine ⟨by simp, fun hmany => ?_⟩
  have hlt := (hinv.slabs b cls hmem).cls_lt
  have hcls := hfixed hmany
  rcases hsolo with hbig | hone
  · omega
  · rw [hcls] at hone
    contradiction

/-- A big block is no slot of a slab. -/
theorem Inv.keepsSlots_big {p : Option Place} (hinv : Inv w g)
    (hbig : OxHeader.cls w.mem h = 100) (halign : h % 4096 = 0) : KeepsSlots w w' h p := by
  intro b cls hmem i hi hslot hfixed
  exfalso
  obtain ⟨hlt, hbase, _, _⟩ := hinv.slabs b cls hmem
  by_cases hone : slabBlocks cls = 1
  · have hi0 : i = 0 := by omega
    rw [slot, hi0] at hslot
    omega
  · have hcls := hfixed hone
    omega

theorem Inv.big_solo (hinv : Inv w g) (hheld : g.place h = some .held)
    (hbig : OxHeader.cls w.mem h = 100) :
    Solo w g h h ∧ ∃ info, w.big.get h = some info ∧ w.capacity h = info.size := by
  have hblock := (hinv.blocks h _ hheld).1
  obtain ⟨base, hsolo⟩ := hblock.solo (Or.inl hbig)
  have hbase : h = base := hsolo.offset.resolve_right fun hslab => hslab.2 hbig
  obtain ⟨info, hget, _⟩ := (hblock.cls.resolve_left (by omega)).2
  refine ⟨hbase ▸ hsolo, info, hget, ?_⟩
  rw [World.capacity, if_pos hbig, World.bigSize, hget]

/-- `big_free` gives back the pages of the block, all of them and no others. -/
theorem bigFree_spec {u : Unit} (hinv : Inv w g) (hno : NoLoose g) (hthp : w.ThpOff)
    (hheld : g.place h = some .held) (hbig : OxHeader.cls w.mem h = 100)
    (hrun : Runs (bigFree h) w u w') :
    ∃ g', Reaches w g w' g' {h} ∧ g'.place h ≠ some .held := by
  obtain ⟨hsolo, info, hget, hcap⟩ := hinv.big_solo hheld hbig
  have hbooted : w.booted = true := hinv.boot.resolve_right fun hboot => by
    rw [hboot.2 h] at hheld
    contradiction
  have hown := hsolo.own
  have hfits := hsolo.fits
  rw [hcap] at hown hfits
  rw [bigFree, CInterface.bigFree, runs_bind] at hrun
  obtain ⟨found, w₁, hremove, hrun⟩ := hrun
  obtain ⟨hfiles, rfl⟩ := bigRemove_files hinv.wf hinv.big hremove
  rw [hget] at hrun
  dsimp only at hrun
  rw [runs_bind] at hrun
  obtain ⟨total, w₂, htotal, hrun⟩ := hrun
  obtain ⟨rfl, rfl⟩ := runs_bigTotal (hfiles.caches.thp hthp) htotal
  rw [runs_bind] at hrun
  obtain ⟨_, w₃, hadvise, hrun⟩ := hrun
  have hs₃ := adviseIfHuge_sameHeap hfiles.va.wf (by simp) hadvise
  rw [runs_modify_bind, runs_bind] at hrun
  obtain ⟨_, w₄, hwipe, hrun⟩ := hrun
  have hmark : Touches w₃ { w₃ with mem := OxHeader.setMagic w₃.mem h w₃.freedMagic } h
      (h + pagesOf (info.size + 16) * 4096) := by
    refine touches_write hs₃.va.wf fun x hx => OxHeader.setMagic_elsewhere x ?_
    unfold pagesOf at hx
    omega
  have hwiped := wipe_touches hmark.va.wf hwipe
  rw [Records.pagesOf_mul] at hwiped
  rw [runs_bind] at hrun
  obtain ⟨_, w₅, hprotect, hrun⟩ := hrun
  have hs₅ := forbid_sameHeap hwiped.va.wf hprotect
  have htouches := hs₃.touches.trans (hmark.trans (hwiped.trans hs₅.touches))
  obtain ⟨va', hva', rfl⟩ := runs_onVa.mp hrun
  have hkeeps := hfiles.va.trans htouches.va
  have hfits' := hfits.extends hkeeps.grows
  have hreleases := free_releases hkeeps.wf (pages_ne_zero _) (blocksOf_fits hkeeps.wf hfits')
    hfits' hva'
  have hreseats : Reseats w g { w₅ with va := va' } h h := by
    refine ⟨?_, fun x hlo hhi => by omega, ?_, ?_, ?_, hreleases.wf,
      hkeeps.grows.trans hreleases.grows, ?_, fun x hlo hhi => by omega⟩
    · exact hfiles.caches.trans (htouches.caches.trans (sameCaches_update ..))
    · intro x _ hother
      show w₅.mem x = w.mem x
      rw [htouches.mem x, hfiles.mem]
      by_contra hin
      exact hother (hown x (by omega) (by omega))
    · intro x hx
      show w₅.big.get x = w.big.get x
      rw [htouches.big, hfiles.get, update_of_ne hx]
    · show ∃ f, HashmapRefinement.Sound w₅.big f
      rw [htouches.big]
      exact hfiles.sound
    · intro x hfree hother
      refine (hreleases.taken _).mpr ⟨(hkeeps.taken _).mpr (hinv.taken x hfree), fun hin => ?_⟩
      have halign := hsolo.aligned
      unfold InPages blockSize at hin
      exact hother (hown x (by omega) (by omega))
  refine ⟨_, hreseats.reaches (p := none) hinv hno (by simp [hheld]) (Or.inl rfl) hbooted
    (fun _ => hinv.keepsSlots_big hbig hsolo.aligned) (by simp), ?_⟩
  rw [Layout.reseat_place_self]
  simp

end Big

section Calls

/-- `malloc` hands out a block that holds the request. -/
theorem malloc_spec {r : ℕ} (hinv : Inv w g) (hno : NoLoose g) (hthp : w.ThpOff)
    (hrun : Runs (malloc t size) w r w') :
    Allocates w g w' r fun h => size ≤ w'.capacity h := by
  cases hcls : matchSizeClass size with
  | some cls =>
    rw [malloc_of_class hcls] at hrun
    rcases allocateClass_spec hinv hno hrun with hnull | ⟨header, g', hr, hhands, hlt, hclass⟩
    · exact Or.inl hnull
    · refine Or.inr ⟨header, g', hr, hhands, ?_⟩
      dsimp only
      rw [World.capacity, hclass, if_neg (by omega)]
      exact (matchSizeClass_some hcls).2.1
  | none =>
    have hnone := matchSizeClass_none hcls
    rw [malloc, CInterface.malloc, if_neg (by omega)] at hrun
    split at hrun
    · dsimp only at hrun
      rw [setErrno, runs_modify_bind] at hrun
      obtain ⟨hr, rfl⟩ := runs_pure.mp hrun
      have hstatics : Inv { w with errno := enomem } g :=
        hinv.statics rfl rfl rfl rfl rfl rfl (Or.inl ⟨rfl, rfl⟩) hinv.boot
      exact Or.inl ⟨hr, g, hstatics, hno, frame_of_eq rfl rfl rfl id id fun _ => ⟨rfl, rfl⟩⟩
    · rw [hcls] at hrun
      dsimp only at hrun
      rw [CInterface.allocateCold, runs_bind] at hrun
      obtain ⟨_, w₁, hboot, hrun⟩ := hrun
      obtain ⟨hinv₁, hframe, hbooted⟩ := bootStrap_spec hinv hboot
      have hbig := bigMalloc_spec hinv₁ hno (hframe.thp hthp) hbooted hcls hrun
      rcases hframe.allocates hbig with hnull | ⟨header, g', hr, hhands, hcap⟩
      · exact Or.inl hnull
      · exact Or.inr ⟨header, g', hr, hhands, Nat.le_of_eq hcap.symm⟩

/-- `free_internal` takes back a block of the user, whatever its class is. -/
theorem freeInternal_spec {u : Unit} (hinv : Inv w g) (hno : NoLoose g) (hthp : w.ThpOff)
    (hheld : g.place h = some .held) (hrun : Runs (freeInternal t (h + 16)) w u w') :
    ∃ g', Reaches w g w' g' {h} ∧ g'.place h ≠ some .held := by
  obtain ⟨hblock, hplace⟩ := hinv.blocks h _ hheld
  rcases hblock.cls with hlt | ⟨hbig, _⟩
  · obtain ⟨g', hreach, hgone, _⟩ :=
      slabFree_spec hinv hno hheld rfl hlt (freeInternal_slab hinv hheld hlt hrun)
    exact ⟨g', hreach, hgone⟩
  · have hmagic : OxHeader.magic w.mem h = w.magic := hplace
    have hheader : h + 16 - headerSize = h := Nat.add_sub_cancel h 16
    rw [freeInternal, CInterface.freeInternal] at hrun
    dsimp only at hrun
    rw [hheader, runs_bind] at hrun
    obtain ⟨_, w₁, hvalid, hrun⟩ := hrun
    rw [validatePtrForAbi, runs_get_bind, if_pos hmagic] at hvalid
    rw [(runs_pure.mp hvalid).2, runs_read_bind, if_pos hbig] at hrun
    exact bigFree_spec hinv hno hthp hheld hbig hrun

end Calls

end Oxidalloc
