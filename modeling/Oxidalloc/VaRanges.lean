import Oxidalloc.VaLookup

/-!
`VaBitmap` as a set of pages. `Taken va q` says that the bit of page q is set in
its segment. In a well-formed bitmap (the `claim` words are zero and the set bits
lie inside the segments) a page belongs to at most one segment, so every operation
on one segment can be read as an operation on the set: `alloc` adds a run of pages
that were free, `free` and the shrinking `realloc_inplace` remove pages, and a failed
attempt changes nothing.
-/
namespace Oxidalloc.VaBitmap

open Programs Segment WordBitmap

/-- The number of the first page of a segment. -/
def firstPage (s : Segment) : ℕ := s.vaStart / blockSize

structure Wf (va : VaBitmap) : Prop where
  registered : Registered va
  claims : ∀ s ∈ va.segments, s.claim = zeros
  start_ne : ∀ s ∈ va.segments, s.vaStart ≠ 0
  aligned : ∀ s ∈ va.segments, s.vaStart % blockSize = 0
  inside : ∀ s ∈ va.segments, ∀ i, bit s.map i = true → i < s.maxBits
  hints : ∀ s ∈ va.segments, s.hint * 64 ≤ s.maxBits

def Taken (va : VaBitmap) (q : ℕ) : Prop :=
  ∃ s ∈ va.segments, ∃ i, q = firstPage s + i ∧ bit s.map i = true

theorem wf_new (maxReservation : ℕ) (sys : ℕ → ℕ) : Wf (new maxReservation sys) :=
  ⟨registered_new maxReservation sys, nofun, nofun, nofun, nofun, nofun⟩

/-- The sum from which a search starts does not overflow. -/
theorem Wf.start_lt {va : VaBitmap} {s : Segment} (h : Wf va) (hs : s ∈ va.segments)
    (random : ℕ) : s.hint * 64 + (random &&& (maxRandomBlocks - 1)) < usizeBound := by
  have hhint := h.hints s hs
  have hend := (h.registered.bounds s hs).2
  have hrandom : random &&& (maxRandomBlocks - 1) ≤ maxRandomBlocks - 1 := Nat.and_le_right
  unfold maxRandomBlocks maxRandomBytes blockSize at *
  unfold Segment.maxBits blockSize at hhint
  unfold usizeBound at *
  omega

/-- Every segment of va is still there, with the same bounds. -/
def Extends (va va' : VaBitmap) : Prop :=
  ∀ s ∈ va.segments, ∃ s' ∈ va'.segments, s'.vaStart = s.vaStart ∧ s'.vaEnd = s.vaEnd

theorem Extends.refl (va : VaBitmap) : Extends va va := fun s hs => ⟨s, hs, rfl, rfl⟩

theorem Extends.trans {va va₁ va₂ : VaBitmap} (h : Extends va va₁) (h' : Extends va₁ va₂) :
    Extends va va₂ := by
  intro s hs
  obtain ⟨s₁, hs₁, hstart₁, hend₁⟩ := h s hs
  obtain ⟨s₂, hs₂, hstart₂, hend₂⟩ := h' s₁ hs₁
  exact ⟨s₂, hs₂, hstart₂.trans hstart₁, hend₂.trans hend₁⟩

/-- The n blocks at addr lie in one segment, on block boundaries. -/
def Fits (va : VaBitmap) (addr n : ℕ) : Prop :=
  addr % blockSize = 0 ∧ ∃ s ∈ va.segments, s.vaStart ≤ addr ∧ addr + n * blockSize ≤ s.vaEnd

theorem Fits.extends {va va' : VaBitmap} {addr n : ℕ} (h : Fits va addr n)
    (hext : Extends va va') : Fits va' addr n := by
  obtain ⟨haligned, s, hs, hlo, hhi⟩ := h
  obtain ⟨s', hs', hstart, hend⟩ := hext s hs
  exact ⟨haligned, s', hs', hstart ▸ hlo, hend ▸ hhi⟩

/-- The pages of n blocks at addr. -/
def InPages (addr n q : ℕ) : Prop := addr / blockSize ≤ q ∧ q < addr / blockSize + n

section Pages

variable {va va' : VaBitmap} {s s' t : Segment} {q i : ℕ}

/-- A page of a segment is an address of the segment. -/
theorem Wf.page_inSegment (h : Wf va) (hs : s ∈ va.segments) (hi : i < s.maxBits) :
    InSegment s ((firstPage s + i) * blockSize) := by
  have haligned := h.aligned s hs
  have hbounds := (h.registered.bounds s hs).1
  unfold Segment.maxBits firstPage InSegment blockSize at *
  omega

/-- Within a segment, the taken pages are the set bits. -/
theorem Wf.taken_iff_bit (h : Wf va) (hs : s ∈ va.segments) (hi : i < s.maxBits) :
    Taken va (firstPage s + i) ↔ bit s.map i = true := by
  constructor
  · intro htaken
    obtain ⟨t, ht, j, hq, hbit⟩ := htaken
    have hj := h.inside t ht j hbit
    have hst := h.registered.inSegment_unique hs ht (h.page_inSegment hs hi)
      (hq ▸ h.page_inSegment ht hj)
    subst hst
    have hij : i = j := by omega
    rwa [hij]
  · intro hbit
    exact ⟨s, hs, i, rfl, hbit⟩

theorem mem_putSegment (hs : s ∈ va.segments) (hptr : s'.ptr = s.ptr) :
    t ∈ (va.putSegment s').segments ↔ t = s' ∨ (t ∈ va.segments ∧ t.ptr ≠ s.ptr) := by
  show t ∈ va.segments.map (fun t => if t.ptr = s'.ptr then s' else t) ↔ _
  rw [List.mem_map]
  constructor
  · intro hmem
    obtain ⟨u, hu, heq⟩ := hmem
    split at heq
    · exact Or.inl heq.symm
    · rename_i hne
      rw [← heq]
      exact Or.inr ⟨hu, hptr ▸ hne⟩
  · intro hmem
    rcases hmem with heq | ⟨ht, hne⟩
    · exact ⟨s, hs, by rw [if_pos hptr.symm, heq]⟩
    · exact ⟨t, ht, by rw [hptr, if_neg hne]⟩

theorem Registered.putSegment (h : Registered va) (hs : s ∈ va.segments) (hsame : Same s s') :
    Registered (va.putSegment s') := by
  have hmem := fun t => @mem_putSegment va s s' t hs hsame.ptr
  have hchunk : ∀ k, InChunk s' k ↔ InChunk s k := by
    intro k
    unfold InChunk
    rw [hsame.vaStart, hsame.vaEnd]
  refine ⟨?_, ?_, ?_, ?_, ?_⟩
  · intro t ht
    rcases (hmem t).mp ht with heq | ⟨hold, _⟩
    · rw [heq, hsame.ptr]
      exact h.ptr_ne s hs
    · exact h.ptr_ne t hold
  · have hptrs : (va.putSegment s').segments.map (·.ptr) = va.segments.map (·.ptr) := by
      show (va.segments.map fun t => if t.ptr = s'.ptr then s' else t).map (·.ptr) = _
      rw [List.map_map]
      apply List.map_congr_left
      intro t _
      show (if t.ptr = s'.ptr then s' else t).ptr = t.ptr
      split
      · rename_i heq
        exact heq.symm
      · rfl
    rw [hptrs]
    exact h.nodup
  · intro t ht
    rcases (hmem t).mp ht with heq | ⟨hold, _⟩
    · rw [heq, hsame.vaStart, hsame.vaEnd]
      exact h.bounds s hs
    · exact h.bounds t hold
  · intro hnone
    rw [h.empty hnone] at hs
    contradiction
  · intro r hr k p
    rw [h.chunks r hr k p]
    constructor
    · intro hex
      obtain ⟨t, ht, hp, hk⟩ := hex
      by_cases hts : t.ptr = s.ptr
      · have heq := h.ptr_injective ht hs hts
        subst heq
        exact ⟨s', (hmem s').mpr (Or.inl rfl), hsame.ptr.trans hp, (hchunk k).mpr hk⟩
      · exact ⟨t, (hmem t).mpr (Or.inr ⟨ht, hts⟩), hp, hk⟩
    · intro hex
      obtain ⟨t, ht, hp, hk⟩ := hex
      rcases (hmem t).mp ht with heq | ⟨hold, _⟩
      · subst heq
        exact ⟨s, hs, hsame.ptr.symm.trans hp, (hchunk k).mp hk⟩
      · exact ⟨t, hold, hp, hk⟩

/-- A write to the bits of one segment keeps the bitmap well formed and the pages
of the other segments as they are. -/
theorem Wf.putSegment (h : Wf va) (hs : s ∈ va.segments) (hsame : Same s s')
    (hinside : ∀ i, bit s'.map i = true → i < s.maxBits) :
    Wf (va.putSegment s') ∧ Extends va (va.putSegment s') ∧
      ∀ q, Taken (va.putSegment s') q ↔
        (∃ i, q = firstPage s + i ∧ bit s'.map i = true) ∨
          (Taken va q ∧ ∀ i < s.maxBits, q ≠ firstPage s + i) := by
  have hmem := fun t => @mem_putSegment va s s' t hs hsame.ptr
  have hfirst : firstPage s' = firstPage s := by
    unfold firstPage
    rw [hsame.vaStart]
  refine ⟨⟨h.registered.putSegment hs hsame, ?_, ?_, ?_, ?_, ?_⟩, ?_, ?_⟩
  · intro t ht
    rcases (hmem t).mp ht with heq | ⟨hold, _⟩
    · rw [heq, hsame.claim]
      exact h.claims s hs
    · exact h.claims t hold
  · intro t ht
    rcases (hmem t).mp ht with heq | ⟨hold, _⟩
    · rw [heq, hsame.vaStart]
      exact h.start_ne s hs
    · exact h.start_ne t hold
  · intro t ht
    rcases (hmem t).mp ht with heq | ⟨hold, _⟩
    · rw [heq, hsame.vaStart]
      exact h.aligned s hs
    · exact h.aligned t hold
  · intro t ht i hbit
    rcases (hmem t).mp ht with heq | ⟨hold, _⟩
    · subst heq
      rw [hsame.maxBits]
      exact hinside i hbit
    · exact h.inside t hold i hbit
  · intro t ht
    rcases (hmem t).mp ht with heq | ⟨hold, _⟩
    · rw [heq, hsame.maxBits]
      have hold := h.hints s hs
      have hnew := hsame.hint
      omega
    · exact h.hints t hold
  · intro t ht
    by_cases hts : t.ptr = s.ptr
    · have heq := h.registered.ptr_injective ht hs hts
      subst heq
      exact ⟨s', (hmem s').mpr (Or.inl rfl), hsame.vaStart, hsame.vaEnd⟩
    · exact ⟨t, (hmem t).mpr (Or.inr ⟨ht, hts⟩), rfl, rfl⟩
  · intro q
    constructor
    · intro htaken
      obtain ⟨t, ht, i, hq, hbit⟩ := htaken
      rcases (hmem t).mp ht with heq | ⟨hold, hne⟩
      · subst heq
        exact Or.inl ⟨i, hfirst ▸ hq, hbit⟩
      · refine Or.inr ⟨⟨t, hold, i, hq, hbit⟩, fun j hj hqj => hne ?_⟩
        have hin := h.page_inSegment hold (h.inside t hold i hbit)
        rw [← hq, hqj] at hin
        rw [h.registered.inSegment_unique hold hs hin (h.page_inSegment hs hj)]
    · intro htaken
      rcases htaken with ⟨i, hq, hbit⟩ | ⟨⟨t, ht, i, hq, hbit⟩, hout⟩
      · exact ⟨s', (hmem s').mpr (Or.inl rfl), i, hfirst ▸ hq, hbit⟩
      · refine ⟨t, (hmem t).mpr (Or.inr ⟨ht, fun hts => ?_⟩), i, hq, hbit⟩
        have heq := h.registered.ptr_injective ht hs hts
        subst heq
        exact hout i (h.inside t ht i hbit) hq

end Pages

/-- The step changes no bit. -/
structure Keeps (va va' : VaBitmap) : Prop where
  wf : Wf va'
  grows : Extends va va'
  taken : ∀ q, Taken va' q ↔ Taken va q

/-- The step takes n blocks at addr, all of them free before. -/
structure Claims (va : VaBitmap) (addr n : ℕ) (va' : VaBitmap) : Prop where
  wf : Wf va'
  grows : Extends va va'
  fits : Fits va' addr n
  free : ∀ q, InPages addr n q → ¬ Taken va q
  taken : ∀ q, Taken va' q ↔ Taken va q ∨ InPages addr n q

/-- The step gives back those of the n blocks at addr that lie in its segment. -/
structure Releases (va : VaBitmap) (addr n : ℕ) (va' : VaBitmap) : Prop where
  wf : Wf va'
  grows : Extends va va'
  taken : ∀ q, Taken va' q ↔ Taken va q ∧ ¬ InPages addr n q

section Segments

variable {va va₁ va' : VaBitmap} {s s' : Segment} {addr n start count : ℕ}

theorem Keeps.refl (h : Wf va) : Keeps va va := ⟨h, Extends.refl va, fun _ => Iff.rfl⟩

theorem Keeps.trans (h : Keeps va va₁) (h' : Keeps va₁ va') : Keeps va va' :=
  ⟨h'.wf, h.grows.trans h'.grows, fun q => (h'.taken q).trans (h.taken q)⟩

theorem Keeps.claims (h : Keeps va va₁) (h' : Claims va₁ addr n va') : Claims va addr n va' := by
  refine ⟨h'.wf, h.grows.trans h'.grows, h'.fits, ?_, ?_⟩
  · intro q hq htaken
    exact h'.free q hq ((h.taken q).mpr htaken)
  · intro q
    rw [h'.taken q, h.taken q]

/-- A claim of blocks in one segment is a claim of its pages. -/
theorem Wf.claims_of_took (h : Wf va) (hs : s ∈ va.segments) (htook : Took s start count s')
    (haddr : addr = s.vaStart + start * blockSize) :
    Claims va addr count (va.putSegment s') := by
  have hinside : ∀ i, bit s'.map i = true → i < s.maxBits := by
    intro i hbit
    rw [htook.bits, Bool.or_eq_true, decide_eq_true_iff] at hbit
    rcases hbit with hold | hnew
    · exact h.inside s hs i hold
    · exact Nat.lt_of_lt_of_le hnew.2 htook.fits
  obtain ⟨hwf, hext, htaken⟩ := h.putSegment hs htook.same hinside
  have haligned := h.aligned s hs
  have hpage : addr / blockSize = firstPage s + start := by
    rw [haddr, firstPage]
    unfold blockSize
    omega
  have hfits : addr + count * blockSize ≤ s.vaEnd := by
    have hle := blocks_le_vaEnd (Nat.le_of_lt (h.registered.bounds s hs).1) htook.fits
    rw [Nat.add_mul] at hle
    omega
  refine ⟨hwf, hext, ⟨?_, s', ?_, ?_, ?_⟩, ?_, ?_⟩
  · rw [haddr]
    unfold blockSize at *
    omega
  · exact (mem_putSegment hs htook.same.ptr).mpr (Or.inl rfl)
  · rw [htook.same.vaStart, haddr]
    exact Nat.le_add_right _ _
  · rwa [htook.same.vaEnd]
  · intro q hq hold
    unfold InPages at hq
    obtain ⟨i, hi⟩ : ∃ i, q = firstPage s + i := ⟨q - firstPage s, by omega⟩
    have hclear := htook.clear i (by omega) (by omega)
    have hlt : i < s.maxBits := by
      have := htook.fits
      omega
    rw [hi, h.taken_iff_bit hs hlt, hclear] at hold
    contradiction
  · intro q
    rw [htaken q]
    constructor
    · intro hcases
      rcases hcases with ⟨i, hq, hbit⟩ | ⟨hold, _⟩
      · rw [htook.bits, Bool.or_eq_true, decide_eq_true_iff] at hbit
        rcases hbit with hold | hnew
        · exact Or.inl ⟨s, hs, i, hq, hold⟩
        · refine Or.inr ⟨?_, ?_⟩
          · omega
          · omega
      · exact Or.inl hold
    · intro hcases
      by_cases hin : ∃ i, i < s.maxBits ∧ q = firstPage s + i
      · obtain ⟨i, hi, hq⟩ := hin
        refine Or.inl ⟨i, hq, ?_⟩
        rw [htook.bits, Bool.or_eq_true, decide_eq_true_iff]
        rcases hcases with hold | hnew
        · exact Or.inl ((h.taken_iff_bit hs hi).mp (hq ▸ hold))
        · refine Or.inr ⟨?_, ?_⟩
          · have := hnew.1
            omega
          · have := hnew.2
            omega
      · rcases hcases with hold | hnew
        · exact Or.inr ⟨hold, fun i hi hq => hin ⟨i, hi, hq⟩⟩
        · refine absurd ⟨q - firstPage s, ?_, ?_⟩ hin
          · have := hnew.1
            have := hnew.2
            have := htook.fits
            omega
          · have := hnew.1
            omega

/-- A release of blocks in one segment is a release of its pages. -/
theorem Wf.releases_of_dropped (h : Wf va) (hs : s ∈ va.segments)
    (hdropped : Dropped s start count s') (hfits : start + count ≤ s.maxBits)
    (hpage : addr / blockSize = firstPage s + start) :
    Releases va addr count (va.putSegment s') := by
  have hbits : ∀ i, bit s'.map i = true ↔
      bit s.map i = true ∧ ¬ (start ≤ i ∧ i < start + count) := by
    intro i
    rw [hdropped.bits, Bool.and_eq_true, Bool.not_eq_true', decide_eq_false_iff_not]
    constructor
    · intro hbit
      exact ⟨hbit.1, fun hin => hbit.2 ⟨hin.1, hin.2, by omega⟩⟩
    · intro hbit
      exact ⟨hbit.1, fun hin => hbit.2 ⟨hin.1, hin.2.1⟩⟩
  have hinside : ∀ i, bit s'.map i = true → i < s.maxBits := fun i hbit =>
    h.inside s hs i ((hbits i).mp hbit).1
  obtain ⟨hwf, hext, htaken⟩ := h.putSegment hs hdropped.same hinside
  refine ⟨hwf, hext, fun q => ?_⟩
  rw [htaken q]
  constructor
  · intro hcases
    rcases hcases with ⟨i, hq, hbit⟩ | ⟨hold, hout⟩
    · obtain ⟨hold, hnot⟩ := (hbits i).mp hbit
      refine ⟨⟨s, hs, i, hq, hold⟩, fun hin => hnot ?_⟩
      unfold InPages at hin
      omega
    · refine ⟨hold, fun hin => ?_⟩
      unfold InPages at hin
      exact hout (q - firstPage s) (by omega) (by omega)
  · intro hcases
    obtain ⟨hold, hnot⟩ := hcases
    by_cases hin : ∃ i, i < s.maxBits ∧ q = firstPage s + i
    · obtain ⟨i, hi, hq⟩ := hin
      refine Or.inl ⟨i, hq, (hbits i).mpr ⟨(h.taken_iff_bit hs hi).mp (hq ▸ hold),
        fun hrange => ?_⟩⟩
      apply hnot
      unfold InPages
      omega
    · exact Or.inr ⟨hold, fun i hi hq => hin ⟨i, hi, hq⟩⟩

theorem putSegment_self (h : Registered va) (hs : s ∈ va.segments) : va.putSegment s = va := by
  have hmap : va.segments.map (fun t => if t.ptr = s.ptr then s else t) = va.segments := by
    rw [List.map_congr_left (g := id), List.map_id]
    intro t ht
    show (if t.ptr = s.ptr then s else t) = t
    split
    · rename_i heq
      exact (h.ptr_injective ht hs heq).symm
    · rfl
  rw [VaBitmap.putSegment, hmap]

theorem Wf.keeps_of_segments (h : Wf va) (hregistered : Registered va')
    (hsegments : va'.segments = va.segments) : Keeps va va' := by
  refine ⟨⟨hregistered, ?_, ?_, ?_, ?_, ?_⟩, ?_, ?_⟩
  · rw [hsegments]
    exact h.claims
  · rw [hsegments]
    exact h.start_ne
  · rw [hsegments]
    exact h.aligned
  · rw [hsegments]
    exact h.inside
  · rw [hsegments]
    exact h.hints
  · intro s hs
    exact ⟨s, hsegments ▸ hs, rfl, rfl⟩
  · intro q
    unfold Taken
    rw [hsegments]

theorem Wf.keeps_of_quiet (h : Wf va) (hq : Quiet va va') : Keeps va va' :=
  h.keeps_of_segments (h.registered.quiet hq) hq.segments

/-- A new segment is empty. -/
theorem Wf.keeps_of_grown {base size ptr : ℕ} (h : Wf va) (hsize : 0 < size)
    (haligned : base % blockSize = 0) (hfits : base + size < usizeBound)
    (hgrown : Grown va base size ptr va') : Keeps va va' := by
  obtain ⟨hint, mapLen, hhint, hsegments⟩ := hgrown.segments
  have hnew : ∀ i, bit zeros i ≠ true := by
    intro i
    rw [bit_zeros]
    decide
  refine ⟨⟨hgrown.registered h.registered hsize hfits, ?_, ?_, ?_, ?_, ?_⟩, ?_, ?_⟩
  · rw [hsegments]
    intro s hs
    rcases List.mem_cons.mp hs with heq | hold
    · rw [heq]
    · exact h.claims s hold
  · rw [hsegments]
    intro s hs
    rcases List.mem_cons.mp hs with heq | hold
    · rw [heq]
      exact hgrown.base_ne
    · exact h.start_ne s hold
  · rw [hsegments]
    intro s hs
    rcases List.mem_cons.mp hs with heq | hold
    · rw [heq]
      exact haligned
    · exact h.aligned s hold
  · rw [hsegments]
    intro s hs i hbit
    rcases List.mem_cons.mp hs with heq | hold
    · rw [heq] at hbit
      exact absurd hbit (hnew i)
    · exact h.inside s hold i hbit
  · rw [hsegments]
    intro s hs
    rcases List.mem_cons.mp hs with heq | hold
    · rw [heq]
      show hint * 64 ≤ (base + size - base) / blockSize
      rwa [Nat.add_sub_cancel_left]
    · exact h.hints s hold
  · intro s hs
    exact ⟨s, hsegments ▸ List.mem_cons_of_mem _ hs, rfl, rfl⟩
  · intro q
    constructor
    · intro htaken
      obtain ⟨s, hs, i, hq, hbit⟩ := htaken
      rw [hsegments] at hs
      rcases List.mem_cons.mp hs with heq | hold
      · rw [heq] at hbit
        exact absurd hbit (hnew i)
      · exact ⟨s, hold, i, hq, hbit⟩
    · intro htaken
      obtain ⟨s, hs, i, hq, hbit⟩ := htaken
      exact ⟨s, hsegments ▸ List.mem_cons_of_mem _ hs, i, hq, hbit⟩

end Segments

section Alloc

variable {va va' : VaBitmap} {ptr needed : ℕ}

/-- The result of an attempt to allocate n blocks. -/
def AllocResult (va : VaBitmap) (n : ℕ) (r : Option ℕ) (va' : VaBitmap) : Prop :=
  match r with
  | none => Keeps va va'
  | some addr => Claims va addr n va'

theorem Keeps.allocResult {va₁ : VaBitmap} {r : Option ℕ} (h : Keeps va va₁)
    (h' : AllocResult va₁ needed r va') : AllocResult va needed r va' := by
  cases r with
  | none => exact h.trans h'
  | some addr => exact h.claims h'

theorem grow_keeps {r : Option ℕ} (h : Wf va) (hrun : Runs grow va r va') : Keeps va va' := by
  rw [grow, runs_bind] at hrun
  obtain ⟨_, va₁, hinit, hrun⟩ := hrun
  have hradix := initRadix_registered h.registered hinit
  obtain ⟨hlist, _⟩ := initRadix_spec hinit
  have hkeep₁ := h.keeps_of_segments hradix hlist.segments
  rw [runs_bind] at hrun
  obtain ⟨res, va₂, hsearch, hrun⟩ := hrun
  obtain ⟨hquiet, hres⟩ := getVaFromKernel_spec hsearch
  have hkeep₂ := hkeep₁.trans (hkeep₁.wf.keeps_of_quiet hquiet)
  rcases hres with hnull | ⟨base, size, heq, haligned, hsize, hfits⟩
  · rw [hnull] at hrun
    exact hkeep₂.trans (hkeep₂.wf.keeps_of_quiet (growWith_null hrun).2)
  · rw [heq] at hrun
    rcases growWith_spec hrun with ⟨_, hq⟩ | ⟨ptr, _, hgrown⟩
    · exact hkeep₂.trans (hkeep₂.wf.keeps_of_quiet hq)
    · exact hkeep₂.trans (hkeep₂.wf.keeps_of_grown hsize haligned hfits hgrown)

theorem allocIn_result {r : Option ℕ} (h : Wf va) (hrun : Runs (allocIn ptr needed) va r va') :
    AllocResult va needed r va' := by
  rw [allocIn, runs_get_bind] at hrun
  split at hrun
  · exact absurd hrun runs_throw
  · rename_i s hfind
    have hs := (h.registered.segmentAt_iff.mp hfind).1
    rw [runs_bind] at hrun
    obtain ⟨random, va₁, hdraw, hrun⟩ := hrun
    have hquiet := draw_quiet hdraw
    have hkeep := h.keeps_of_quiet hquiet
    have hs₁ : s ∈ va₁.segments := hquiet.segments ▸ hs
    have hout := alloc_outcome (hkeep.wf.claims s hs₁) needed random
    simp only [runs_modify_bind, runs_pure] at hrun
    rw [hrun.2]
    apply hkeep.allocResult
    rcases hres : s.alloc needed random with ⟨addr, s'⟩
    rw [hres] at hrun hout
    rw [hrun.1]
    cases addr with
    | none =>
      rw [show s' = s from hout, putSegment_self hkeep.wf.registered hs₁]
      exact Keeps.refl hkeep.wf
    | some addr =>
      obtain ⟨start, haddr, htook⟩ := hout
      exact hkeep.wf.claims_of_took hs₁ htook haddr

theorem Wf.keeps_of_same {s s' : Segment} (h : Wf va) (hs : s ∈ va.segments)
    (hsame : Same s s') (hmap : s'.map = s.map) : Keeps va (va.putSegment s') := by
  obtain ⟨hwf, hext, htaken⟩ := h.putSegment hs hsame (hmap ▸ h.inside s hs)
  refine ⟨hwf, hext, fun q => ?_⟩
  rw [htaken q, hmap]
  constructor
  · intro hcases
    rcases hcases with ⟨i, hq, hbit⟩ | ⟨hold, _⟩
    · exact ⟨s, hs, i, hq, hbit⟩
    · exact hold
  · intro hold
    by_cases hin : ∃ i, i < s.maxBits ∧ q = firstPage s + i
    · obtain ⟨i, hi, hq⟩ := hin
      exact Or.inl ⟨i, hq, (h.taken_iff_bit hs hi).mp (hq ▸ hold)⟩
    · exact Or.inr ⟨hold, fun i hi hq => hin ⟨i, hi, hq⟩⟩

theorem noteFailure_keeps {u : Unit} (h : Wf va) (hrun : Runs (noteFailure ptr) va u va') :
    Keeps va va' := by
  rw [noteFailure, runs_get_bind] at hrun
  split at hrun
  · exact absurd hrun runs_throw
  · rename_i s hfind
    rw [runs_set] at hrun
    rw [hrun]
    exact h.keeps_of_same (h.registered.segmentAt_iff.mp hfind).1
      ⟨rfl, rfl, rfl, rfl, Or.inl le_rfl⟩ rfl

theorem isFull_quiet {full : Bool} (hrun : Runs (isFull ptr) va full va') : va' = va := by
  rw [isFull, runs_get_bind] at hrun
  split at hrun
  · exact absurd hrun runs_throw
  · exact (runs_pure.mp hrun).2

theorem allocWalk_result {r : Option ℕ} {ptrs : List ℕ} (h : Wf va)
    (hrun : Runs (allocWalk needed ptrs) va r va') : AllocResult va needed r va' := by
  induction ptrs generalizing va with
  | nil =>
    obtain ⟨hr, hva⟩ := runs_pure.mp hrun
    rw [hr, hva]
    exact Keeps.refl h
  | cons ptr rest ih =>
    rw [allocWalk, runs_bind] at hrun
    obtain ⟨full, va₁, hfull, hrun⟩ := hrun
    rw [isFull_quiet hfull] at hrun
    split at hrun
    · exact ih h hrun
    · rw [runs_bind] at hrun
      obtain ⟨found, va₂, halloc, hrun⟩ := hrun
      have hfound := allocIn_result h halloc
      cases found with
      | some addr =>
        simp only [runs_modify_bind, runs_pure] at hrun
        rw [hrun.1, hrun.2]
        have hclaims : Claims va addr needed va₂ := hfound
        exact ⟨(hclaims.wf.keeps_of_segments
            (hclaims.wf.registered.latest ptr) rfl).wf, hclaims.grows, hclaims.fits,
          hclaims.free, hclaims.taken⟩
      | none =>
        have hkeep : Keeps va va₂ := hfound
        rw [runs_bind] at hrun
        obtain ⟨_, va₃, hnote, hrun⟩ := hrun
        have hkeep := hkeep.trans (noteFailure_keeps hkeep.wf hnote)
        exact hkeep.allocResult (ih hkeep.wf hrun)

theorem growRetry_keeps {r : Option ℕ} {n : ℕ} (h : Wf va) (hrun : Runs (growRetry n) va r va') :
    Keeps va va' := by
  induction n generalizing va with
  | zero =>
    rw [(runs_pure.mp hrun).2]
    exact Keeps.refl h
  | succ n ih =>
    rw [growRetry, runs_bind] at hrun
    obtain ⟨found, va₁, hgrow, hrun⟩ := hrun
    have hkeep := grow_keeps h hgrow
    cases found with
    | some ptr => exact (runs_pure.mp hrun).2 ▸ hkeep
    | none => exact hkeep.trans (ih hkeep.wf hrun)

theorem allocHinted_result {r : Option ℕ} (h : Wf va) (hrun : Runs (allocHinted needed) va r va') :
    AllocResult va needed r va' := by
  rw [allocHinted, runs_get_bind] at hrun
  split at hrun
  · obtain ⟨hr, hva⟩ := runs_pure.mp hrun
    rw [hr, hva]
    exact Keeps.refl h
  · exact allocIn_result h hrun

theorem growFirst_keeps {u : Unit} (h : Wf va) (hrun : Runs growFirst va u va') : Keeps va va' := by
  rw [growFirst, runs_get_bind] at hrun
  split at hrun
  · rw [runs_bind] at hrun
    obtain ⟨found, va₁, hgrow, hrun⟩ := hrun
    have hkeep := grow_keeps h hgrow
    cases found with
    | some ptr =>
      rw [runs_modify] at hrun
      rw [hrun]
      exact hkeep.trans (hkeep.wf.keeps_of_segments hkeep.wf.registered.once rfl)
    | none => exact absurd hrun runs_throw
  · rw [(runs_pure.mp hrun).2]
    exact Keeps.refl h

theorem allocGrown_result {r : Option ℕ} (h : Wf va) (hrun : Runs (allocGrown needed) va r va') :
    AllocResult va needed r va' := by
  rw [allocGrown, runs_bind] at hrun
  obtain ⟨found, va₁, hgrow, hrun⟩ := hrun
  have hkeep := growRetry_keeps h hgrow
  cases found with
  | none =>
    obtain ⟨hr, hva⟩ := runs_pure.mp hrun
    rw [hr, hva]
    exact hkeep
  | some ptr =>
    rw [runs_modify_bind] at hrun
    have hlatest := hkeep.trans
      (hkeep.wf.keeps_of_segments (hkeep.wf.registered.latest ptr) rfl)
    exact hlatest.allocResult (allocIn_result hlatest.wf hrun)

/-- `VaBitmap::alloc` takes the blocks of the size in one segment, all of them
free before, or changes no bit. -/
theorem alloc_result {size : ℕ} {r : Option ℕ} (h : Wf va) (hsize : size ≠ 0)
    (hrun : Runs (alloc size) va r va') :
    ∃ n, blocksOf size = .ok n ∧ AllocResult va n r va' := by
  rw [alloc, if_neg hsize] at hrun
  obtain ⟨n, hn, hrun⟩ := runs_attempt_bind.mp hrun
  refine ⟨n, hn, ?_⟩
  rw [runs_bind] at hrun
  obtain ⟨hinted, va₁, hhint, hrun⟩ := hrun
  have hfirst := allocHinted_result h hhint
  cases hinted with
  | some addr =>
    obtain ⟨hr, hva⟩ := runs_pure.mp hrun
    rw [hr, hva]
    exact hfirst
  | none =>
    have hkeep₁ : Keeps va va₁ := hfirst
    rw [runs_bind] at hrun
    obtain ⟨_, va₂, hgrow, hrun⟩ := hrun
    have hkeep₂ := hkeep₁.trans (growFirst_keeps hkeep₁.wf hgrow)
    rw [runs_get_bind, runs_bind] at hrun
    obtain ⟨walked, va₃, hwalk, hrun⟩ := hrun
    have hsecond := hkeep₂.allocResult (allocWalk_result hkeep₂.wf hwalk)
    cases walked with
    | some addr =>
      obtain ⟨hr, hva⟩ := runs_pure.mp hrun
      rw [hr, hva]
      exact hsecond
    | none =>
      have hkeep₃ : Keeps va va₃ := hsecond
      exact hkeep₃.allocResult (allocGrown_result hkeep₃.wf hrun)

end Alloc

section Release

variable {va va' : VaBitmap} {addr size n : ℕ}

/-- The segment of a nonempty run of blocks is the one that `free` and
`realloc_inplace` find. -/
theorem Wf.locate_of_fits (h : Wf va) (hfits : Fits va addr n) (hn : 0 < n) :
    ∃ s ∈ va.segments, va.locate addr = .ok (some s) ∧ InSegment s addr ∧
      addr + n * blockSize ≤ s.vaEnd ∧
        addr = s.vaStart + (addr - s.vaStart) / blockSize * blockSize ∧
      addr / blockSize = firstPage s + (addr - s.vaStart) / blockSize ∧
      (addr - s.vaStart) / blockSize + n ≤ s.maxBits := by
  obtain ⟨haligned, s, hs, hlo, hhi⟩ := hfits
  have hstart := h.aligned s hs
  have hin : InSegment s addr := by
    refine ⟨hlo, ?_⟩
    unfold blockSize at hhi
    omega
  have hlook := h.registered.radixLookup_iff.mpr ⟨hs, hin⟩
  refine ⟨s, hs, ?_, hin, hhi, ?_, ?_, ?_⟩
  · rw [locate, hlook]
    rfl
  · unfold blockSize at *
    omega
  · unfold firstPage blockSize at *
    omega
  · unfold Segment.maxBits blockSize at *
    omega

theorem Wf.addr_ne_zero (h : Wf va) (hfits : Fits va addr n) : addr ≠ 0 := by
  obtain ⟨_, s, hs, hlo, _⟩ := hfits
  have := h.start_ne s hs
  omega

/-- `VaBitmap::free` gives back exactly the blocks of the size. -/
theorem free_releases {u : Unit} (h : Wf va) (hsize : size ≠ 0) (hblocks : blocksOf size = .ok n)
    (hfits : Fits va addr n) (hrun : Runs (free addr size) va u va') :
    Releases va addr n va' := by
  have hn : 0 < n := by
    have := (blocksOf_eq_ok.mp hblocks).2
    unfold blockSize at this
    omega
  obtain ⟨s, hs, hlocate, hin, _, _, hpage, hbits⟩ := h.locate_of_fits hfits hn
  have haddr := h.addr_ne_zero hfits
  rw [free, if_neg (by omega), runs_get_bind] at hrun
  obtain ⟨found, hfound, hrun⟩ := runs_attempt_bind.mp hrun
  rw [hlocate] at hfound
  have heq := Except.ok.inj hfound
  subst heq
  dsimp only at hrun
  obtain ⟨s', hfree, hrun⟩ := runs_attempt_bind.mp hrun
  rw [runs_modify] at hrun
  obtain ⟨count, hcount, hdropped⟩ := free_dropped hin.1 hin.2 (by omega) hfree
  rw [hblocks] at hcount
  have heq := Except.ok.inj hcount
  subst heq
  rw [hrun]
  exact h.releases_of_dropped hs hdropped hbits hpage

/-- The ways `VaBitmap::realloc_inplace` can end on a run of blocks. -/
theorem reallocInplace_result {oldSize newSize oldBlocks : ℕ} {r : Option ℕ} (h : Wf va)
    (hsize : oldSize ≠ 0) (hold : blocksOf oldSize = .ok oldBlocks)
    (hfits : Fits va addr oldBlocks)
    (hrun : Runs (reallocInplace addr oldSize newSize) va r va') :
    ∃ newBlocks, blocksOf newSize = .ok newBlocks ∧
      ((newBlocks = oldBlocks ∧ r = some (newBlocks * blockSize) ∧ va' = va) ∨
        (newBlocks < oldBlocks ∧ r = some (newBlocks * blockSize) ∧
          Releases va (addr + newBlocks * blockSize) (oldBlocks - newBlocks) va') ∨
        (oldBlocks < newBlocks ∧ r = some (newBlocks * blockSize) ∧
          Claims va (addr + oldBlocks * blockSize) (newBlocks - oldBlocks) va' ∧
          Fits va' addr newBlocks) ∨
        (oldBlocks < newBlocks ∧ r = none ∧ va' = va)) := by
  have hn : 0 < oldBlocks := by
    have := (blocksOf_eq_ok.mp hold).2
    unfold blockSize at this
    omega
  obtain ⟨s, hs, hlocate, hin, _, haddr, hpage, hbits⟩ := h.locate_of_fits hfits hn
  have hzero := h.claims s hs
  have hself := putSegment_self h.registered hs
  rw [reallocInplace, runs_get_bind] at hrun
  obtain ⟨found, hfound, hrun⟩ := runs_attempt_bind.mp hrun
  rw [hlocate] at hfound
  have heq := Except.ok.inj hfound
  subst heq
  dsimp only at hrun
  obtain ⟨res, hres, hrun⟩ := runs_attempt_bind.mp hrun
  obtain ⟨r', s'⟩ := res
  simp only [runs_modify_bind, runs_pure] at hrun
  obtain ⟨hr, hva⟩ := hrun
  subst hr
  obtain ⟨oldBlocks', newBlocks, hold', hnew, hcases⟩ := reallocInplace_cases hres
  rw [hold] at hold'
  have heq := Except.ok.inj hold'
  subst heq
  refine ⟨newBlocks, hnew, ?_⟩
  generalize hidx : (addr - s.vaStart) / blockSize = idx at haddr hpage hbits hcases
  rcases hcases with ⟨hlt, hr, hs'⟩ | ⟨hlt, hr, hs'⟩ | ⟨hlt, hr, htook⟩ | ⟨hlt, hr, hs'⟩
  · exact Or.inl ⟨hlt, hr, by rw [hva, hs', hself]⟩
  · refine Or.inr (Or.inl ⟨hlt, hr, ?_⟩)
    have hdropped : Dropped s (idx + newBlocks) (oldBlocks - newBlocks) s' := by
      rw [hs']
      refine ⟨⟨rfl, rfl, rfl, rfl, Or.inl le_rfl⟩, fun i => ?_⟩
      have hrange : (idx + newBlocks ≤ i ∧ i < idx + newBlocks + (oldBlocks - newBlocks)) ↔
          (idx + newBlocks ≤ i ∧ i < idx + newBlocks + (oldBlocks - newBlocks) ∧
            i < s.maxBits) := by
        omega
      rw [rollback_bits, decide_eq_decide.mpr hrange]
    rw [hva]
    apply h.releases_of_dropped hs hdropped (by omega)
    rw [Nat.add_mul_div_right _ _ (show 0 < blockSize by decide), hpage, Nat.add_assoc]
  · have htook := htook hzero
    have hmem := (mem_putSegment hs htook.same.ptr).mpr (Or.inl rfl)
    refine Or.inr (Or.inr (Or.inl ⟨hlt, hr, ?_, hfits.1, s', hva ▸ hmem, ?_, ?_⟩))
    · rw [hva]
      apply h.claims_of_took hs htook
      rw [Nat.add_mul, ← Nat.add_assoc, ← haddr]
    · rw [htook.same.vaStart]
      exact hin.1
    · have hend : idx + newBlocks ≤ s.maxBits := by
        have := htook.fits
        omega
      have hle := blocks_le_vaEnd (Nat.le_of_lt (h.registered.bounds s hs).1) hend
      rw [Nat.add_mul] at hle
      rw [htook.same.vaEnd]
      omega
  · exact Or.inr (Or.inr (Or.inr ⟨hlt, hr, by rw [hva, hs' hzero, hself]⟩))

end Release

end Oxidalloc.VaBitmap
