import Oxidalloc.VaSegmentSpec

/-!
The search of a `Segment` misses nothing. `alloc_single` looks at every word from the start
chunk on and then at those before it. `alloc_multi` scans the two ranges on the two sides
of the start bit; a run of clear bits that crosses the start bit is found by joining the last
run of the second range with the clear bits behind it.
-/
namespace Oxidalloc.Segment

open WordBitmap

section Single

variable {s : Segment} {i j fuel totalBits : ℕ} {chunk : Word}

theorem trailingZeros_spec (w : Word) (h : w.getLsbD j = true) (hj : j < 64) :
    trailingZeros w ≤ j ∧ w.getLsbD (trailingZeros w) = true := by
  unfold trailingZeros
  cases hfind : (List.range 64).find? fun i => w.getLsbD i with
  | none =>
    have hnone := List.find?_eq_none.mp hfind j (List.mem_range.mpr hj)
    exact absurd h hnone
  | some k =>
    have hfirst := List.find?_range_eq_some.mp hfind
    refine ⟨?_, hfirst.1⟩
    rw [Option.getD_some]
    by_contra hlt
    have hbefore := hfirst.2.2 j (by omega)
    rw [h] at hbefore
    exact absurd hbefore (by decide)

/-- A word with a clear bit inside the segment is enough. -/
theorem scanWord_isSome (hzero : s.claim = zeros)
    (hchunk : ∀ k < 64, chunk.getLsbD k = false → i * 64 + k < s.maxBits →
      bit s.map (i * 64 + k) = false)
    (hj : j < 64) (hclear : chunk.getLsbD j = false) (hbits : i * 64 + j < s.maxBits) :
    (scanWord s.maxBits i (fuel + 1) chunk s).1.isSome := by
  have hnot : (~~~chunk).getLsbD j = true := by
    rw [BitVec.getLsbD_not, hclear]
    simp [hj]
  obtain ⟨hle, hlow⟩ := trailingZeros_spec (~~~chunk) hnot hj
  have hones : chunk ≠ BitVec.allOnes 64 := by
    rintro rfl
    rw [BitVec.getLsbD_allOnes] at hclear
    exact of_decide_eq_false hclear hj
  rw [BitVec.getLsbD_not, Bool.and_eq_true, Bool.not_eq_true'] at hlow
  have hfree := hchunk _ (by omega) hlow.2 (by omega)
  have hrange : Clear s.map (i * 64 + trailingZeros (~~~chunk)) 1 := by
    intro k hlo hhi
    obtain rfl : k = i * 64 + trailingZeros (~~~chunk) := by omega
    exact hfree
  unfold scanWord
  rw [if_neg hones, if_neg (by omega), tryClaim_of_clear hrange (clear_claim hzero)]
  rfl

theorem bit_word (map : Words) (hj : j < 64) : bit map (i * 64 + j) = (map i).getLsbD j := by
  have hdiv : (i * 64 + j) / 64 = i := by omega
  have hmod : (i * 64 + j) % 64 = j := by omega
  rw [bit, hdiv, hmod]

/-- The mask of the last word leaves the bits of the segment as they are. -/
theorem scanned_getLsbD (hbits : i * 64 + j < totalBits) (hj : j < 64) :
    (if i = (totalBits + 63) / 64 - 1 ∧ totalBits % 64 ≠ 0 then
        chunk ||| ~~~(1#64 <<< (totalBits % 64) - 1#64)
      else chunk).getLsbD j = chunk.getLsbD j := by
  split
  · rename_i hlast
    have hmod := Nat.mod_lt totalBits (show 0 < 64 by decide)
    have hinside : j < totalBits % 64 := by omega
    rw [BitVec.getLsbD_or, BitVec.getLsbD_not, getLsbD_one_shift_sub hmod, decide_eq_true hinside,
      Bool.not_true, Bool.and_false, Bool.or_false]
  · rfl

theorem scanWords_isSome (hzero : s.claim = zeros) {words : List ℕ} (hi : i ∈ words) (hj : j < 64)
    (hclear : bit s.map (i * 64 + j) = false) (hbits : i * 64 + j < s.maxBits) :
    (scanWords s.maxBits words s).1.isSome := by
  induction words with
  | nil => exact absurd hi List.not_mem_nil
  | cons k rest ih =>
    unfold scanWords
    dsimp only
    split
    · rfl
    · rename_i s' hscan
      have hsame : Outcome s 1 (none, s') := by
        rw [← hscan]
        exact scanWord_outcome hzero k 65 _
      rw [show s' = s from hsame]
      refine ih ((List.mem_cons.mp hi).resolve_left ?_)
      rintro rfl
      have hsome := @scanWord_isSome s i j 64 _ hzero
        (fun k hk hfree hin => by
          rw [scanned_getLsbD hin hk] at hfree
          rw [bit_word s.map hk, hfree]) hj
        (by rw [scanned_getLsbD hbits hj, ← bit_word s.map hj, hclear]) hbits
      rw [hscan] at hsome
      exact absurd hsome Bool.false_ne_true

theorem allocSingle_isSome_iff (hzero : s.claim = zeros) (random : ℕ) :
    (s.allocSingle random).1.isSome ↔ ∃ i < s.maxBits, bit s.map i = false := by
  constructor
  · intro hsome
    have hout := allocSingle_outcome hzero random
    obtain ⟨addr, haddr⟩ := Option.isSome_iff_exists.mp hsome
    rw [← Prod.eta (s.allocSingle random), haddr] at hout
    obtain ⟨start, _, htook⟩ := hout
    have hfits := htook.fits
    exact ⟨start, by omega, htook.clear start (by omega) (by omega)⟩
  · rintro ⟨i, hi, hclear⟩
    have hmod := Nat.mod_lt i (show 0 < 64 by decide)
    have hsplit : i / 64 * 64 + i % 64 = i := Nat.div_add_mod' i 64
    unfold allocSingle
    dsimp only
    rw [if_neg (by omega)]
    refine scanWords_isSome hzero ?_ hmod (by rwa [hsplit]) (by rwa [hsplit])
    have hstart := Nat.mod_lt ((s.hint * 64 + (random &&& (maxRandomBlocks - 1))) / 64)
      (show 0 < (s.maxBits + 63) / 64 by omega)
    simp only [List.mem_append, List.mem_range'_1]
    omega

end Single

/-- The start of the run that clear bits at `global_bit` extend. -/
def Search.head (q : Search) : ℕ := if q.currentRun = 0 then q.globalBit else q.runStart

/-- The bits of a range before `global_bit` have been scanned: no run among them is long
enough, and no clear run that ends there is longer than the current one. -/
structure Search.Scanned (map : Words) (first rangeEnd count : ℕ) (q : Search) : Prop where
  short : q.currentRun < count
  run : 0 < q.currentRun → q.runStart + q.currentRun = q.globalBit ∧ q.globalBit ≤ rangeEnd ∧
    Clear map q.runStart q.currentRun
  longest : ∀ a, first ≤ a → Clear map a (min q.globalBit rangeEnd - a) →
    min q.globalBit rangeEnd ≤ a + q.currentRun
  missing : ∀ a, first ≤ a → a + count ≤ min q.globalBit rangeEnd → ¬ Clear map a count

section Multi

variable {s s' : Segment} {map : Words} {first rangeEnd count fuel start len k : ℕ} {q q' : Search}

theorem Clear.mono {start' len' : ℕ} (h : Clear map start len) (hlo : start ≤ start')
    (hhi : start' + len' ≤ start + len) : Clear map start' len' :=
  fun i hi hi' => h i (by omega) (by omega)

theorem Clear.append (h : Clear map start len) (h' : Clear map (start + len) k) :
    Clear map start (len + k) := by
  intro i hlo hhi
  by_cases hi : i < start + len
  · exact h i hlo hi
  · exact h' i (by omega) (by omega)

theorem scanned_start (hcount : 0 < count) (r : ℕ) :
    Search.Scanned map first rangeEnd count ⟨0, r, first⟩ where
  short := hcount
  run := fun h => absurd h (Nat.lt_irrefl 0)
  longest := fun a ha _ => by dsimp only; omega
  missing := fun a ha h => by dsimp only at h; omega

theorem Search.Scanned.joined (h : q.Scanned map first rangeEnd count)
    (hclear : Clear map q.globalBit k) :
    q.head + q.currentRun = q.globalBit ∧ Clear map q.head (q.currentRun + k) := by
  unfold Search.head
  split
  · rename_i hrun
    rw [hrun, Nat.zero_add]
    exact ⟨rfl, hclear⟩
  · obtain ⟨hsum, _, hbits⟩ := h.run (by omega)
    exact ⟨hsum, hbits.append (hsum ▸ hclear)⟩

theorem Search.Scanned.extend (h : q.Scanned map first rangeEnd count)
    (hclear : Clear map q.globalBit k) (hend : q.globalBit + k ≤ rangeEnd)
    (hshort : q.currentRun + k < count) :
    Search.Scanned map first rangeEnd count ⟨q.currentRun + k, q.head, q.globalBit + k⟩ := by
  obtain ⟨hsum, hjoined⟩ := h.joined hclear
  have hold : min q.globalBit rangeEnd = q.globalBit := by omega
  have hnew : min (q.globalBit + k) rangeEnd = q.globalBit + k := by omega
  have hlongest := h.longest
  have hmissing := h.missing
  rw [hold] at hlongest hmissing
  refine ⟨hshort, fun _ => ⟨by dsimp only; omega, hend, hjoined⟩, ?_, ?_⟩
  · dsimp only
    rw [hnew]
    intro a ha hbits
    have hbefore := hlongest a ha (hbits.mono le_rfl (by omega))
    omega
  · dsimp only
    rw [hnew]
    intro a ha hfits hbits
    have hcross : ¬ a + count ≤ q.globalBit := fun hfits' => hmissing a ha hfits' hbits
    have hbefore := hlongest a ha (hbits.mono le_rfl (by omega))
    omega

theorem Search.Scanned.reset {next : ℕ} (h : q.Scanned map first rangeEnd count)
    (hbit : q.globalBit < rangeEnd) (hnext : q.globalBit < next)
    (hset : ∀ i, q.globalBit ≤ i → i < next → bit map i = true) (r : ℕ) :
    Search.Scanned map first rangeEnd count ⟨0, r, next⟩ := by
  have hold : min q.globalBit rangeEnd = q.globalBit := by omega
  have hcount := h.short
  have hmissing := h.missing
  rw [hold] at hmissing
  -- a clear range cannot reach into the bits that are set
  have hstop : ∀ {a len : ℕ}, Clear map a len → q.globalBit < a + len →
      a + len ≤ next → len = 0 := by
    intro a len hbits hlo hhi
    by_contra hlen
    have hlast := hbits (a + len - 1) (by omega) (by omega)
    rw [hset _ (by omega) (by omega)] at hlast
    exact Bool.noConfusion hlast
  refine ⟨by dsimp only; omega, fun hrun => absurd hrun (Nat.lt_irrefl 0), ?_, ?_⟩
  · dsimp only
    intro a ha hbits
    by_contra hlt
    have hempty := hstop hbits (by omega) (by omega)
    omega
  · dsimp only
    intro a ha hfits hbits
    by_cases hbefore : a + count ≤ q.globalBit
    · exact hmissing a ha hbefore hbits
    · have hempty := hstop hbits (by omega) (by omega)
      omega

theorem claimRun_of_clear (hzero : s.claim = zeros) (h : Clear s.map start count) :
    ∃ addr s', s.claimRun start count = (some addr, s') := by
  unfold claimRun
  rw [tryClaim_of_clear h (clear_claim hzero)]
  exact ⟨_, _, rfl⟩

theorem searchRun_ended (hzero : s.claim = zeros) (hq : q.Scanned s.map first rangeEnd count)
    (hfuel : rangeEnd ≤ fuel + q.globalBit)
    (h : searchRun count rangeEnd fuel q s = .ended q' s') :
    s' = s ∧ q'.Scanned s.map first rangeEnd count ∧ rangeEnd ≤ q'.globalBit := by
  induction fuel generalizing q with
  | zero =>
    obtain ⟨rfl, rfl⟩ := Found.ended.inj h
    exact ⟨rfl, hq, by omega⟩
  | succ fuel ih =>
    unfold searchRun at h
    split at h
    · rename_i hend
      obtain ⟨rfl, rfl⟩ := Found.ended.inj h
      exact ⟨rfl, hq, hend⟩
    · rename_i hbit
      dsimp only at h
      have hfull : ∀ {k : ℕ}, Clear s.map q.globalBit k → count ≤ q.currentRun + k →
          ∃ addr s₁, s.claimRun (if q.currentRun = 0 then q.globalBit else q.runStart) count =
            (some addr, s₁) := fun hclear hcount =>
        claimRun_of_clear hzero ((hq.joined hclear).2.mono le_rfl (Nat.add_le_add_left hcount _))
      by_cases hword : q.globalBit % 64 = 0 ∧ s.map (q.globalBit / 64) = 0#64
      · rw [if_pos hword] at h
        have hclear : Clear s.map q.globalBit (min 64 (rangeEnd - q.globalBit)) := by
          intro i hlo hhi
          have hsame : i / 64 = q.globalBit / 64 := by omega
          rw [bit, hsame, hword.2, BitVec.getLsbD_zero]
        by_cases hcount : count ≤ q.currentRun + min 64 (rangeEnd - q.globalBit)
        · obtain ⟨addr, s₁, hclaim⟩ := hfull hclear hcount
          rw [if_pos hcount, hclaim] at h
          exact Found.noConfusion h
        · rw [if_neg hcount] at h
          exact ih (hq.extend hclear (by omega) (by omega)) (by dsimp only; omega) h
      rw [if_neg hword] at h
      by_cases hones : s.map (q.globalBit / 64) = BitVec.allOnes 64
      · rw [if_pos hones] at h
        refine ih (hq.reset (by omega) (by omega) (fun i hlo hhi => ?_) _) (by dsimp only; omega) h
        have hsame : i / 64 = q.globalBit / 64 := by omega
        rw [bit, hsame, hones, BitVec.getLsbD_allOnes]
        exact decide_eq_true (Nat.mod_lt _ (by decide))
      rw [if_neg hones] at h
      by_cases hset : (s.map (q.globalBit / 64)).getLsbD (q.globalBit % 64) = true
      · rw [if_pos hset] at h
        refine ih (hq.reset (by omega) (by omega) (fun i hlo hhi => ?_) _) (by dsimp only; omega) h
        obtain rfl : i = q.globalBit := by omega
        exact hset
      rw [if_neg hset] at h
      have hclear : Clear s.map q.globalBit 1 := by
        intro i hlo hhi
        obtain rfl : i = q.globalBit := by omega
        exact Bool.eq_false_of_not_eq_true hset
      have hshort := hq.short
      by_cases hcount : q.currentRun + 1 = count
      · obtain ⟨addr, s₁, hclaim⟩ := hfull hclear hcount.ge
        rw [if_pos hcount, hclaim] at h
        exact Found.noConfusion h
      · rw [if_neg hcount] at h
        exact ih (hq.extend hclear (by omega) (by omega)) (by dsimp only; omega) h

theorem extendRun_of_clear {totalBits need b extend : ℕ} (hle : extend ≤ need)
    (hfuel : need ≤ fuel + extend) (hfits : b + (need - extend) ≤ totalBits)
    (h : Clear map b (need - extend)) : extendRun map totalBits need fuel b extend = need := by
  induction fuel generalizing b extend with
  | zero =>
    show extend = need
    omega
  | succ fuel ih =>
    unfold extendRun
    split
    · have hbit : (map (b / 64)).getLsbD (b % 64) = false := h b le_rfl (by omega)
      rw [hbit, if_neg Bool.false_ne_true]
      exact ih (by omega) (by omega) (by omega) (h.mono (by omega) (by omega))
    · omega

/-- A range without a claim has no run of the length, and the range before the start bit has
none that goes on behind it. -/
theorem searchRange_none {startBit : ℕ} (hzero : s.claim = zeros) (hcount : 0 < count)
    (h : (s.searchRange count startBit s.maxBits first rangeEnd).1 = none) :
    (∀ a, first ≤ a → a + count ≤ rangeEnd → ¬ Clear s.map a count) ∧
      (first = 0 → rangeEnd = startBit → ∀ a < startBit, startBit < a + count →
        a + count ≤ s.maxBits → ¬ Clear s.map a count) := by
  unfold searchRange at h
  split at h
  · exact absurd h (Option.some_ne_none _)
  · rename_i q s' hended
    obtain ⟨rfl, hq, hend⟩ := searchRun_ended hzero (scanned_start hcount 0)
      (by dsimp only; omega) hended
    have hmin : min q.globalBit rangeEnd = rangeEnd := Nat.min_eq_right hend
    have hlongest := hq.longest
    have hmissing := hq.missing
    rw [hmin] at hlongest hmissing
    refine ⟨hmissing, ?_⟩
    rintro rfl rfl a ha hcross hfits hclear
    have hbefore := hlongest a (Nat.zero_le a) (hclear.mono le_rfl (by omega))
    have hshort := hq.short
    obtain ⟨hsum, hle, hrun⟩ := hq.run (by omega)
    have hbehind : Clear s'.map rangeEnd (count - q.currentRun) := hclear.mono ha.le (by omega)
    have hextend := @extendRun_of_clear s'.map (count - q.currentRun) s'.maxBits
      (count - q.currentRun) rangeEnd 0 (Nat.zero_le _) le_rfl (by omega) hbehind
    have hjoined : Clear s'.map q.runStart count := by
      refine Clear.mono (hrun.append (k := count - q.currentRun) ?_) le_rfl (by omega)
      exact hbehind.mono (by omega) (by omega)
    obtain ⟨addr, s₁, hclaim⟩ := claimRun_of_clear hzero hjoined
    dsimp only at h
    rw [if_pos ⟨rfl, rfl, by omega⟩, if_pos (show 0 < count - q.currentRun by omega), hextend,
      if_pos (by omega), hclaim] at h
    exact Option.some_ne_none _ h

theorem allocMulti_isSome_iff (hzero : s.claim = zeros) (hcount : 0 < count) (random : ℕ) :
    (s.allocMulti count random).1.isSome ↔
      ∃ start, start + count ≤ s.maxBits ∧ Clear s.map start count := by
  constructor
  · intro hsome
    have hout := allocMulti_outcome hzero count random
    obtain ⟨addr, haddr⟩ := Option.isSome_iff_exists.mp hsome
    rw [← Prod.eta (s.allocMulti count random), haddr] at hout
    obtain ⟨start, _, htook⟩ := hout
    exact ⟨start, htook.fits, htook.clear⟩
  · rintro ⟨start, hfits, hclear⟩
    by_contra hnone
    rw [Option.not_isSome_iff_eq_none] at hnone
    unfold allocMulti at hnone
    dsimp only at hnone
    rw [if_neg (by omega)] at hnone
    generalize hstart : (s.hint * 64 + (random &&& (maxRandomBlocks - 1))) % s.maxBits = startBit
      at hnone
    have hlt : startBit < s.maxBits := hstart ▸ Nat.mod_lt _ (by omega)
    split at hnone
    · exact absurd hnone (Option.some_ne_none _)
    · rename_i s' hfirst
      have hsame : Outcome s count (none, s') := by
        rw [← hfirst]
        exact searchRange_outcome hzero hlt.le le_rfl
      obtain rfl : s' = s := hsame
      obtain ⟨hbehind, _⟩ := searchRange_none hzero hcount (congrArg Prod.fst hfirst)
      obtain ⟨hbefore, hcross⟩ := searchRange_none hzero hcount hnone
      by_cases hside : startBit ≤ start
      · exact hbehind start hside hfits hclear
      by_cases hother : start + count ≤ startBit
      · exact hbefore start (Nat.zero_le _) hother hclear
      · exact hcross rfl rfl start (by omega) (by omega) hfits hclear

/-- The segment has a clear run of the length. -/
def HasRun (s : Segment) (count : ℕ) : Prop :=
  ∃ start, start + count ≤ s.maxBits ∧ Clear s.map start count

theorem alloc_isSome_iff (hzero : s.claim = zeros) (hcount : 0 < count) (random : ℕ) :
    (s.alloc count random).1.isSome ↔ s.HasRun count := by
  unfold alloc
  split
  · rename_i hone
    rw [allocSingle_isSome_iff hzero, hone]
    constructor
    · rintro ⟨i, hi, hclear⟩
      refine ⟨i, hi, fun j hlo hhi => ?_⟩
      obtain rfl : j = i := by omega
      exact hclear
    · rintro ⟨start, hfits, hclear⟩
      exact ⟨start, by omega, hclear start le_rfl (by omega)⟩
  · exact allocMulti_isSome_iff hzero hcount random

/-- The search of a segment is complete: it fails only if there is no clear run of the wanted
length, wherever the start is, and it never returns a run that leaves the segment. -/
theorem segment_search_is_complete (s : Segment) (hzero : s.claim = zeros) (random : ℕ) :
    ((s.allocSingle random).1.isSome ↔ ∃ i < s.maxBits, bit s.map i = false) ∧
      ∀ count, 1 ≤ count →
        ((s.allocMulti count random).1.isSome ↔
          ∃ start, start + count ≤ s.maxBits ∧ Clear s.map start count) ∧
        ∀ addr, (s.allocMulti count random).1 = some addr →
          ∃ start, addr = s.vaStart + start * blockSize ∧ start + count ≤ s.maxBits ∧
            Clear s.map start count := by
  refine ⟨allocSingle_isSome_iff hzero random, fun count hcount => ?_⟩
  refine ⟨allocMulti_isSome_iff hzero hcount random, fun addr haddr => ?_⟩
  have hout := allocMulti_outcome hzero count random
  rw [← Prod.eta (s.allocMulti count random), haddr] at hout
  obtain ⟨start, heq, htook⟩ := hout
  exact ⟨start, heq, htook.fits, htook.clear⟩

/-- A segment of 100 blocks in which only the blocks from 40 to 79 are free. -/
def middleFree : Segment where
  ptr := 1
  vaStart := 4096
  vaEnd := 413696
  map := fun i => if i = 0 then 0xffffffffff#64 else 0xffffffffffff0000#64
  claim := zeros
  hint := 0
  mapLen := 2
  full := false
  failedTrys := 0

theorem segment_search_is_complete_across :
    (middleFree.allocMulti 40 60).1.isSome ∧ ¬ (middleFree.allocMulti 41 60).1.isSome := by
  obtain ⟨_, hmulti⟩ := segment_search_is_complete middleFree rfl 60
  have hlow : ∀ i < 40, bit middleFree.map i = true := by decide +kernel
  have hmiddle : ∀ i < 80, 40 ≤ i → bit middleFree.map i = false := by decide +kernel
  have hhigh : ∀ i < 100, 80 ≤ i → bit middleFree.map i = true := by decide +kernel
  refine ⟨(hmulti 40 (by decide)).1.mpr ⟨40, by decide, fun i hlo hhi => hmiddle i hhi hlo⟩, ?_⟩
  rw [(hmulti 41 (by decide)).1]
  rintro ⟨start, hfits, hclear⟩
  have hbits : middleFree.maxBits = 100 := by decide
  by_cases hstart : start < 40
  · have hset := hlow start hstart
    rw [hclear start le_rfl (by omega)] at hset
    exact Bool.noConfusion hset
  · have hset := hhigh (start + 40) (by omega) (by omega)
    rw [hclear (start + 40) (by omega) (by omega)] at hset
    exact Bool.noConfusion hset

end Multi

end Oxidalloc.Segment
