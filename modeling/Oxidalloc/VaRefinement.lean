import Mathlib.Data.List.Pairwise
import Oxidalloc.VaRanges

/-!
`VaBitmap` refines a set of disjoint live ranges. A run is a sequence of calls of
`alloc`, `free` and `realloc_inplace`, the latter two on live ranges; `live` is the
list of the ranges with their current sizes. The bits of the segments are at all
times the blocks of the live ranges, and each call changes them by its own blocks.
-/
namespace Oxidalloc.VaBitmap

open Interleaving Programs Segment WordBitmap

structure LiveRange where
  addr : ℕ
  size : ℕ
  deriving DecidableEq, Repr

def ceilBlocks (size : ℕ) : ℕ := (size + blockSize - 1) / blockSize

def LiveRange.blocks (r : LiveRange) : ℕ := ceilBlocks r.size

def LiveRange.Covers (r : LiveRange) (q : ℕ) : Prop := InPages r.addr r.blocks q

structure System where
  va : VaBitmap
  live : List LiveRange

inductive Op where
  | alloc (size : ℕ)
  | free (r : LiveRange)
  | reallocInplace (r : LiveRange) (newSize : ℕ)

/-- One call with its result; a call outside of its contract, or one that ends the
process, is not part of a run. -/
def perform (sys : System) : Op → Option (Option ℕ × System)
  | .alloc size =>
    if 0 < size ∧ size < 2 ^ 63 then
      match VaBitmap.alloc size sys.va with
      | .ok (some addr, va) => some (some addr, ⟨va, ⟨addr, size⟩ :: sys.live⟩)
      | .ok (none, va) => some (none, ⟨va, sys.live⟩)
      | .error _ => none
    else none
  | .free r =>
    if r ∈ sys.live then
      match VaBitmap.free r.addr r.size sys.va with
      | .ok (_, va) => some (none, ⟨va, sys.live.erase r⟩)
      | .error _ => none
    else none
  | .reallocInplace r newSize =>
    if r ∈ sys.live ∧ 0 < newSize then
      match VaBitmap.reallocInplace r.addr r.size newSize sys.va with
      | .ok (some n, va) => some (some n, ⟨va, ⟨r.addr, newSize⟩ :: sys.live.erase r⟩)
      | .ok (none, va) => some (none, ⟨va, sys.live⟩)
      | .error _ => none
    else none

def step (sys : System) (op : Op) : Option System := (perform sys op).map Prod.snd

def Apart (a b : LiveRange) : Prop := ∀ q, a.Covers q → ¬ b.Covers q

/-- The bits set are the blocks of the live ranges, which are disjoint and lie each
in one segment; the `claim` words are zero. -/
structure IsSetOfRanges (sys : System) : Prop where
  bits : ∀ s ∈ sys.va.segments, ∀ i, bit s.map i = true ↔
    i < s.maxBits ∧ ∃ r ∈ sys.live, r.Covers (firstPage s + i)
  claims : ∀ s ∈ sys.va.segments, ∀ i, s.claim i = 0#64
  apart : sys.live.Pairwise Apart
  fits : ∀ r ∈ sys.live, Fits sys.va r.addr r.blocks

/-- What a call does to the set of taken pages. -/
def Effect (sys : System) (sys' : System) : Op → Option ℕ → Prop
  | .alloc size, some addr =>
    Fits sys'.va addr (ceilBlocks size) ∧
      (∀ r ∈ sys.live, ∀ q, InPages addr (ceilBlocks size) q → ¬ r.Covers q) ∧
      ∀ q, Taken sys'.va q ↔ Taken sys.va q ∨ InPages addr (ceilBlocks size) q
  | .alloc _, none => ∀ q, Taken sys'.va q ↔ Taken sys.va q
  | .free r, _ => ∀ q, Taken sys'.va q ↔ Taken sys.va q ∧ ¬ r.Covers q
  | .reallocInplace r newSize, some _ =>
    (ceilBlocks newSize ≤ r.blocks → ∀ q, Taken sys'.va q ↔ Taken sys.va q ∧
      ¬ InPages (r.addr + ceilBlocks newSize * blockSize) (r.blocks - ceilBlocks newSize) q) ∧
    (r.blocks < ceilBlocks newSize → ∀ q, Taken sys'.va q ↔ Taken sys.va q ∨
      InPages (r.addr + r.blocks * blockSize) (ceilBlocks newSize - r.blocks) q)
  | .reallocInplace r newSize, none =>
    r.blocks < ceilBlocks newSize ∧ sys'.va.segments = sys.va.segments

/-- The invariant of a run. -/
structure Refines (sys : System) : Prop where
  wf : Wf sys.va
  taken : ∀ q, Taken sys.va q ↔ ∃ r ∈ sys.live, r.Covers q
  apart : sys.live.Pairwise Apart
  fits : ∀ r ∈ sys.live, Fits sys.va r.addr r.blocks
  sizes : ∀ r ∈ sys.live, r.size ≠ 0 ∧ blocksOf r.size = .ok r.blocks

theorem refines_new (maxReservation : ℕ) (sys : ℕ → ℕ) : Refines ⟨new maxReservation sys, []⟩ := by
  refine ⟨wf_new maxReservation sys, ?_, List.Pairwise.nil, ?_, ?_⟩
  all_goals try (intro s hs; contradiction)
  intro q
  constructor
  · intro htaken
    obtain ⟨s, hs, _⟩ := htaken
    contradiction
  · intro hlive
    obtain ⟨r, hr, _⟩ := hlive
    contradiction

section Steps

variable {sys sys' : System}

theorem Refines.isSetOfRanges (h : Refines sys) : IsSetOfRanges sys := by
  refine ⟨?_, ?_, h.apart, h.fits⟩
  · intro s hs i
    constructor
    · intro hbit
      have hi := h.wf.inside s hs i hbit
      exact ⟨hi, (h.taken _).mp ((h.wf.taken_iff_bit hs hi).mpr hbit)⟩
    · intro hlive
      exact (h.wf.taken_iff_bit hs hlive.1).mp ((h.taken _).mpr hlive.2)
  · intro s hs i
    rw [h.wf.claims s hs]
    rfl

theorem blocksOf_eq_ceilBlocks {size n : ℕ} (h : blocksOf size = .ok n) : n = ceilBlocks size :=
  (blocksOf_eq_ok.mp h).2

theorem apart_symm {a b : LiveRange} (h : Apart a b) : Apart b a :=
  fun q hb ha => h q ha hb

/-- A live range and the others. -/
theorem Refines.erase (h : Refines sys) {r : LiveRange} (hr : r ∈ sys.live) :
    (∀ t ∈ sys.live.erase r, Apart r t) ∧ (sys.live.erase r).Pairwise Apart ∧
      ∀ q, Taken sys.va q ↔ r.Covers q ∨ ∃ t ∈ sys.live.erase r, t.Covers q := by
  have hperm := List.perm_cons_erase hr
  have hpair := (hperm.pairwise_iff apart_symm).mp h.apart
  rw [List.pairwise_cons] at hpair
  refine ⟨hpair.1, hpair.2, fun q => ?_⟩
  rw [h.taken q]
  constructor
  · intro hlive
    obtain ⟨t, ht, hq⟩ := hlive
    rcases List.mem_cons.mp (hperm.mem_iff.mp ht) with heq | hrest
    · exact Or.inl (heq ▸ hq)
    · exact Or.inr ⟨t, hrest, hq⟩
  · intro hlive
    rcases hlive with hq | ⟨t, ht, hq⟩
    · exact ⟨r, hr, hq⟩
    · exact ⟨t, List.mem_of_mem_erase ht, hq⟩

theorem Refines.keeps (h : Refines sys) {va : VaBitmap} (hkeeps : Keeps sys.va va) :
    Refines ⟨va, sys.live⟩ := by
  refine ⟨hkeeps.wf, fun q => (hkeeps.taken q).trans (h.taken q), h.apart, ?_, h.sizes⟩
  intro r hr
  exact (h.fits r hr).extends hkeeps.grows

theorem Refines.alloc (h : Refines sys) {va : VaBitmap} {addr size : ℕ} (hsize : size ≠ 0)
    (hblocks : blocksOf size = .ok (ceilBlocks size))
    (hclaims : Claims sys.va addr (ceilBlocks size) va) :
    Refines ⟨va, ⟨addr, size⟩ :: sys.live⟩ := by
  refine ⟨hclaims.wf, fun q => ?_, ?_, ?_, ?_⟩
  · rw [hclaims.taken q, h.taken q]
    constructor
    · intro hq
      rcases hq with ⟨r, hr, hq⟩ | hq
      · exact ⟨r, List.mem_cons_of_mem _ hr, hq⟩
      · exact ⟨⟨addr, size⟩, List.mem_cons_self, hq⟩
    · intro hq
      obtain ⟨r, hr, hq⟩ := hq
      rcases List.mem_cons.mp hr with heq | hold
      · rw [heq] at hq
        exact Or.inr hq
      · exact Or.inl ⟨r, hold, hq⟩
  · refine List.pairwise_cons.mpr ⟨fun r hr q hq hrq => ?_, h.apart⟩
    exact hclaims.free q hq ((h.taken q).mpr ⟨r, hr, hrq⟩)
  · intro r hr
    rcases List.mem_cons.mp hr with heq | hold
    · rw [heq]
      exact hclaims.fits
    · exact (h.fits r hold).extends hclaims.grows
  · intro r hr
    rcases List.mem_cons.mp hr with heq | hold
    · rw [heq]
      exact ⟨hsize, hblocks⟩
    · exact h.sizes r hold

theorem Refines.free (h : Refines sys) {va : VaBitmap} {r : LiveRange} (hr : r ∈ sys.live)
    (hreleases : Releases sys.va r.addr r.blocks va) : Refines ⟨va, sys.live.erase r⟩ := by
  obtain ⟨hapart, hpair, htaken⟩ := h.erase hr
  refine ⟨hreleases.wf, fun q => ?_, hpair, ?_, ?_⟩
  · rw [hreleases.taken q, htaken q]
    constructor
    · intro hq
      exact hq.1.resolve_left hq.2
    · intro hq
      obtain ⟨t, ht, hq⟩ := hq
      exact ⟨Or.inr ⟨t, ht, hq⟩, fun hrq => hapart t ht q hrq hq⟩
  · intro t ht
    exact (h.fits t (List.mem_of_mem_erase ht)).extends hreleases.grows
  · intro t ht
    exact h.sizes t (List.mem_of_mem_erase ht)

/-- A live range gets a new size, and its pages change with it. -/
theorem Refines.resize (h : Refines sys) {va : VaBitmap} {r : LiveRange} {newSize : ℕ}
    (hr : r ∈ sys.live) (hsize : newSize ≠ 0)
    (hblocks : blocksOf newSize = .ok (ceilBlocks newSize)) (hwf : Wf va)
    (hgrows : Extends sys.va va) (hfits : Fits va r.addr (ceilBlocks newSize))
    (htaken : ∀ q, Taken va q ↔
      InPages r.addr (ceilBlocks newSize) q ∨ (Taken sys.va q ∧ ¬ r.Covers q))
    (hfree : ∀ q, InPages r.addr (ceilBlocks newSize) q → r.Covers q ∨ ¬ Taken sys.va q) :
    Refines ⟨va, ⟨r.addr, newSize⟩ :: sys.live.erase r⟩ := by
  obtain ⟨hapart, hpair, hold⟩ := h.erase hr
  have hothers : ∀ q, Taken sys.va q ∧ ¬ r.Covers q ↔ ∃ t ∈ sys.live.erase r, t.Covers q := by
    intro q
    rw [hold q]
    constructor
    · intro hq
      exact hq.1.resolve_left hq.2
    · intro hq
      obtain ⟨t, ht, hq⟩ := hq
      exact ⟨Or.inr ⟨t, ht, hq⟩, fun hrq => hapart t ht q hrq hq⟩
  refine ⟨hwf, fun q => ?_, ?_, ?_, ?_⟩
  · rw [htaken q, hothers q]
    constructor
    · intro hq
      rcases hq with hq | ⟨t, ht, hq⟩
      · exact ⟨⟨r.addr, newSize⟩, List.mem_cons_self, hq⟩
      · exact ⟨t, List.mem_cons_of_mem _ ht, hq⟩
    · intro hq
      obtain ⟨t, ht, hq⟩ := hq
      rcases List.mem_cons.mp ht with heq | hrest
      · rw [heq] at hq
        exact Or.inl hq
      · exact Or.inr ⟨t, hrest, hq⟩
  · refine List.pairwise_cons.mpr ⟨fun t ht q hq htq => ?_, hpair⟩
    rcases hfree q hq with hrq | hnot
    · exact hapart t ht q hrq htq
    · exact hnot ((hold q).mpr (Or.inr ⟨t, ht, htq⟩))
  · intro t ht
    rcases List.mem_cons.mp ht with heq | hrest
    · rw [heq]
      exact hfits
    · exact (h.fits t (List.mem_of_mem_erase hrest)).extends hgrows
  · intro t ht
    rcases List.mem_cons.mp ht with heq | hrest
    · rw [heq]
      exact ⟨hsize, hblocks⟩
    · exact h.sizes t (List.mem_of_mem_erase hrest)

theorem inPages_shift {addr k n q : ℕ} : InPages (addr + k * blockSize) n q ↔
    addr / blockSize + k ≤ q ∧ q < addr / blockSize + k + n := by
  unfold InPages
  rw [Nat.add_mul_div_right _ _ (show 0 < blockSize by decide)]

theorem Refines.shrink (h : Refines sys) {va : VaBitmap} {r : LiveRange} {newSize : ℕ}
    (hr : r ∈ sys.live) (hsize : newSize ≠ 0)
    (hblocks : blocksOf newSize = .ok (ceilBlocks newSize)) (hle : ceilBlocks newSize ≤ r.blocks)
    (hreleases : Releases sys.va (r.addr + ceilBlocks newSize * blockSize)
      (r.blocks - ceilBlocks newSize) va) :
    Refines ⟨va, ⟨r.addr, newSize⟩ :: sys.live.erase r⟩ := by
  have hown : ∀ q, r.Covers q → Taken sys.va q := fun q hq => (h.taken q).mpr ⟨r, hr, hq⟩
  have hfits : Fits va r.addr (ceilBlocks newSize) := by
    obtain ⟨haligned, s, hs, hlo, hhi⟩ := (h.fits r hr).extends hreleases.grows
    refine ⟨haligned, s, hs, hlo, ?_⟩
    have := Nat.mul_le_mul_right blockSize hle
    omega
  refine h.resize hr hsize hblocks hreleases.wf hreleases.grows hfits ?_ ?_
  · intro q
    rw [hreleases.taken q, inPages_shift]
    constructor
    · intro hq
      by_cases hrq : r.Covers q
      · refine Or.inl ⟨hrq.1, ?_⟩
        have := hrq.1
        have := hrq.2
        have := hq.2
        omega
      · exact Or.inr ⟨hq.1, hrq⟩
    · intro hq
      rcases hq with hq | ⟨htaken, hrq⟩
      · have := hq.1
        have := hq.2
        exact ⟨hown q ⟨hq.1, by omega⟩, by omega⟩
      · refine ⟨htaken, fun hin => hrq ⟨?_, ?_⟩⟩
        · omega
        · omega
  · intro q hq
    exact Or.inl ⟨hq.1, by have := hq.2; omega⟩

theorem Refines.extend (h : Refines sys) {va : VaBitmap} {r : LiveRange} {newSize : ℕ}
    (hr : r ∈ sys.live) (hsize : newSize ≠ 0)
    (hblocks : blocksOf newSize = .ok (ceilBlocks newSize)) (hlt : r.blocks < ceilBlocks newSize)
    (hclaims : Claims sys.va (r.addr + r.blocks * blockSize) (ceilBlocks newSize - r.blocks) va)
    (hfits : Fits va r.addr (ceilBlocks newSize)) :
    Refines ⟨va, ⟨r.addr, newSize⟩ :: sys.live.erase r⟩ := by
  have hown : ∀ q, r.Covers q → Taken sys.va q := fun q hq => (h.taken q).mpr ⟨r, hr, hq⟩
  have hsplit : ∀ q, InPages r.addr (ceilBlocks newSize) q ↔ r.Covers q ∨
      InPages (r.addr + r.blocks * blockSize) (ceilBlocks newSize - r.blocks) q := by
    intro q
    rw [inPages_shift]
    unfold LiveRange.Covers InPages
    omega
  refine h.resize hr hsize hblocks hclaims.wf hclaims.grows hfits ?_ ?_
  · intro q
    rw [hclaims.taken q, hsplit q]
    constructor
    · intro hq
      by_cases hrq : r.Covers q
      · exact Or.inl (Or.inl hrq)
      · rcases hq with htaken | hnew
        · exact Or.inr ⟨htaken, hrq⟩
        · exact Or.inl (Or.inr hnew)
    · intro hq
      rcases hq with (hrq | hnew) | ⟨htaken, _⟩
      · exact Or.inl (hown q hrq)
      · exact Or.inr hnew
      · exact Or.inl htaken
  · intro q hq
    rcases (hsplit q).mp hq with hrq | hnew
    · exact Or.inl hrq
    · exact Or.inr (hclaims.free q hnew)

theorem alloc_refines (h : Refines sys) {size : ℕ} {result : Option ℕ}
    (hop : perform sys (.alloc size) = some (result, sys')) :
    Refines sys' ∧ Effect sys sys' (.alloc size) result := by
  simp only [perform] at hop
  split at hop
  · rename_i hsize
    have hne : size ≠ 0 := by omega
    split at hop
    · rename_i addr va hrun
      obtain ⟨n, hn, hclaims⟩ := alloc_result h.wf hne hrun
      have hceil := blocksOf_eq_ceilBlocks hn
      rw [hceil] at hn hclaims
      rw [Option.some.injEq, Prod.mk.injEq] at hop
      rw [← hop.1, ← hop.2]
      refine ⟨h.alloc hne hn hclaims, hclaims.fits, ?_, hclaims.taken⟩
      intro r hr q hq hrq
      exact hclaims.free q hq ((h.taken q).mpr ⟨r, hr, hrq⟩)
    · rename_i va hrun
      obtain ⟨n, hn, hkeeps⟩ := alloc_result h.wf hne hrun
      rw [Option.some.injEq, Prod.mk.injEq] at hop
      rw [← hop.1, ← hop.2]
      exact ⟨h.keeps hkeeps, hkeeps.taken⟩
    · exact nomatch hop
  · exact nomatch hop

theorem free_refines (h : Refines sys) {r : LiveRange} {result : Option ℕ}
    (hop : perform sys (.free r) = some (result, sys')) :
    Refines sys' ∧ Effect sys sys' (.free r) result := by
  simp only [perform] at hop
  split at hop
  · rename_i hr
    obtain ⟨hsize, hblocks⟩ := h.sizes r hr
    split at hop
    · rename_i u va hrun
      have hreleases := free_releases h.wf hsize hblocks (h.fits r hr) hrun
      rw [Option.some.injEq, Prod.mk.injEq] at hop
      rw [← hop.2]
      exact ⟨h.free hr hreleases, hreleases.taken⟩
    · exact nomatch hop
  · exact nomatch hop

theorem reallocInplace_refines (h : Refines sys) {r : LiveRange} {newSize : ℕ} {result : Option ℕ}
    (hop : perform sys (.reallocInplace r newSize) = some (result, sys')) :
    Refines sys' ∧ Effect sys sys' (.reallocInplace r newSize) result := by
  simp only [perform] at hop
  split at hop
  · rename_i hcall
    obtain ⟨hr, hpos⟩ := hcall
    have hne : newSize ≠ 0 := by omega
    obtain ⟨hsize, hblocks⟩ := h.sizes r hr
    have hcases := fun {res va} => @reallocInplace_result sys.va va r.addr r.size newSize r.blocks
      res h.wf hsize hblocks (h.fits r hr)
    split at hop
    · rename_i n va hrun
      rw [Option.some.injEq, Prod.mk.injEq] at hop
      rw [← hop.1, ← hop.2]
      obtain ⟨newBlocks, hnew, hcases⟩ := hcases hrun
      have hceil := blocksOf_eq_ceilBlocks hnew
      rw [hceil] at hnew hcases
      rcases hcases with ⟨heq, _, hva⟩ | ⟨hlt, _, hreleases⟩ | ⟨hlt, _, hclaims, hfits⟩ | ⟨_, hr, _⟩
      · have hnone : ∀ q, ¬ InPages (r.addr + ceilBlocks newSize * blockSize)
            (r.blocks - ceilBlocks newSize) q := by
          intro q
          rw [inPages_shift]
          omega
        have hreleases : Releases sys.va (r.addr + ceilBlocks newSize * blockSize)
            (r.blocks - ceilBlocks newSize) va := by
          rw [hva]
          exact ⟨h.wf, Extends.refl _, fun q => ⟨fun hq => ⟨hq, hnone q⟩, And.left⟩⟩
        refine ⟨h.shrink hr hne hnew (by omega) hreleases, fun _ => hreleases.taken, fun hlt => ?_⟩
        omega
      · refine ⟨h.shrink hr hne hnew (by omega) hreleases, fun _ => hreleases.taken, fun hgt => ?_⟩
        omega
      · refine ⟨h.extend hr hne hnew hlt hclaims hfits, fun hle => ?_, fun _ => hclaims.taken⟩
        omega
      · exact nomatch hr
    · rename_i va hrun
      rw [Option.some.injEq, Prod.mk.injEq] at hop
      rw [← hop.1, ← hop.2]
      obtain ⟨newBlocks, hnew, hcases⟩ := hcases hrun
      have hceil := blocksOf_eq_ceilBlocks hnew
      rw [hceil] at hcases
      rcases hcases with ⟨_, hr, _⟩ | ⟨_, hr, _⟩ | ⟨_, hr, _⟩ | ⟨hlt, _, hva⟩
      · exact nomatch hr
      · exact nomatch hr
      · exact nomatch hr
      · rw [hva]
        exact ⟨h, hlt, rfl⟩
    · exact nomatch hop
  · exact nomatch hop

theorem perform_refines (h : Refines sys) {op : Op} {result : Option ℕ}
    (hop : perform sys op = some (result, sys')) : Refines sys' ∧ Effect sys sys' op result := by
  cases op with
  | alloc size => exact alloc_refines h hop
  | free r => exact free_refines h hop
  | reallocInplace r newSize => exact reallocInplace_refines h hop

theorem step_refines (h : Refines sys) {op : Op} (hstep : step sys op = some sys') :
    Refines sys' := by
  obtain ⟨⟨result, mid⟩, hop, heq⟩ := Option.map_eq_some_iff.mp hstep
  rw [← heq]
  exact (perform_refines h hop).1

end Steps

/-- Along every run the bitmap is the set of its live ranges, and every call changes
the set by exactly its own blocks. -/
theorem vaBitmap_refines_ranges (maxReservation : ℕ) (sysCalls : ℕ → ℕ) (ops : List Op)
    (op : Op) (sys sys' : System) (result : Option ℕ)
    (hrun : run step ⟨new maxReservation sysCalls, []⟩ ops = some sys)
    (hop : perform sys op = some (result, sys')) :
    IsSetOfRanges sys ∧ IsSetOfRanges sys' ∧ Effect sys sys' op result := by
  have hrefines : Refines sys :=
    @run_invariant _ _ step (fun _ _ => True) Refines
      (fun _ _ _ h _ hstep => step_refines h hstep) _ _ _ (refines_new maxReservation sysCalls)
      (guarded_trivial _) hrun
  obtain ⟨hrefines', heffect⟩ := perform_refines hrefines hop
  exact ⟨hrefines.isSetOfRanges, hrefines'.isSetOfRanges, heffect⟩

/-- Answers of a kernel that grants every request at a page boundary. -/
def pageAnswers (n : ℕ) : ℕ := 4096 * (n + 1)

/-- A block of 5000 bytes, shrunk to 3000 bytes. -/
def shrinkRun : Option (System × Option ℕ × System) :=
  (run step ⟨new 0 pageAnswers, []⟩ [.alloc 5000]).bind fun sys =>
    (perform sys (.reallocInplace ⟨2281709568, 5000⟩ 3000)).map fun r => (sys, r)

theorem shrinkRun_result :
    shrinkRun.map (fun r => (r.1.live, r.2.1)) = some ([⟨2281709568, 5000⟩], some 4096) := by
  decide +kernel

/-- Two blocks are allocated and the second is given back. -/
theorem vaBitmap_refines_shrink :
    ∃ sys sys', run step ⟨new 0 pageAnswers, []⟩ [.alloc 5000] = some sys ∧
      sys.live = [⟨2281709568, 5000⟩] ∧
      perform sys (.reallocInplace ⟨2281709568, 5000⟩ 3000) = some (some 4096, sys') ∧
      IsSetOfRanges sys ∧ IsSetOfRanges sys' ∧
      Effect sys sys' (.reallocInplace ⟨2281709568, 5000⟩ 3000) (some 4096) := by
  obtain ⟨⟨sys, result, sys'⟩, hshrink, heq⟩ := Option.map_eq_some_iff.mp shrinkRun_result
  obtain ⟨hlive, hresult⟩ := Prod.mk.inj heq
  rw [show result = some 4096 from hresult] at hshrink
  rw [shrinkRun, Option.bind_eq_some_iff] at hshrink
  obtain ⟨sys₁, hrun, hrest⟩ := hshrink
  rw [Option.map_eq_some_iff] at hrest
  obtain ⟨r, hop, hpair⟩ := hrest
  rw [Prod.mk.injEq] at hpair
  rw [hpair.1] at hrun hop
  rw [hpair.2] at hop
  exact ⟨sys, sys', hrun, hlive, hop,
    vaBitmap_refines_ranges 0 pageAnswers [.alloc 5000] _ sys sys' _ hrun hop⟩

end Oxidalloc.VaBitmap
