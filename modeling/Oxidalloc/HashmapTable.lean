import Oxidalloc.Hashmap

/-!
The slots of the table behind `BIG_ALLOC_MAP`. The invariant of the table is the
probe-chain condition: going round from the home slot of a stored key, no EMPTY
slot comes before the key's own slot. It survives tombstone reuse, overwriting
behind a tombstone, a table without any EMPTY slot, and the rehash of `grow`.
-/
namespace Oxidalloc.HashmapRefinement

open CyclicProbe Hashmap Function

def OccupiedBy (table : Table) (key i : ℕ) : Prop :=
  (table i).state = .occupied ∧ (table i).key = key

/-- No EMPTY slot lies between the home slot and slot i, going round. -/
def Anchored (table : Table) (cap home i : ℕ) : Prop :=
  ∀ j, j < distance cap home i → (table (position cap home j)).state ≠ .empty

/-- The probe-chain invariant of a table of the given capacity. -/
structure Chained (table : Table) (cap : ℕ) : Prop where
  unique : ∀ i j key, i < cap → j < cap →
    OccupiedBy table key i → OccupiedBy table key j → i = j
  anchored : ∀ i key, i < cap → OccupiedBy table key i →
    Anchored table cap (homeSlot cap key) i

/-- The table stores exactly the bindings of the finite map f. -/
def Stores (table : Table) (cap : ℕ) (f : ℕ → Option BigAllocMeta) : Prop :=
  ∀ key info, f key = some info ↔
    ∃ i, i < cap ∧ OccupiedBy table key i ∧ (table i).info = info

def countState (table : Table) (cap : ℕ) (state : State) : ℕ :=
  ((Finset.range cap).filter fun i => (table i).state = state).card

section Slots

variable {table : Table} {cap : ℕ}

theorem homeSlot_lt (hcap : ∃ n, cap = 2 ^ n) (key : ℕ) : homeSlot cap key < cap := by
  obtain ⟨n, rfl⟩ := hcap
  unfold homeSlot
  rw [Nat.and_two_pow_sub_one_eq_mod]
  exact Nat.mod_lt _ (Nat.two_pow_pos n)

theorem nextSlot_eq (hcap : ∃ n, cap = 2 ^ n) (home j : ℕ) :
    (position cap home j + 1) &&& (cap - 1) = position cap home (j + 1) := by
  rw [and_mask_eq_mod cap _ hcap, position_succ]

/-- What one slot tells the loop of `get` and `remove`. -/
def findTest (table : Table) (key idx : ℕ) : Option (Option ℕ) :=
  match (table idx).state with
  | .empty => some none
  | .occupied => if (table idx).key = key then some (some idx) else none
  | .tombstone => none

theorem findSlot_eq_firstHit (hcap : ∃ n, cap = 2 ^ n) (key fuel idx : ℕ) :
    findSlot table cap key fuel idx = (firstHit cap (findTest table key) fuel idx).join := by
  induction fuel generalizing idx with
  | zero => rfl
  | succ fuel ih =>
    have hnext := and_mask_eq_mod cap (idx + 1) hcap
    unfold findSlot firstHit findTest
    cases hstate : (table idx).state with
    | empty => rfl
    | occupied =>
      by_cases hkey : (table idx).key = key
      · simp [hkey]
      · simp only [hkey, if_false, hnext]
        exact ih _
    | tombstone =>
      simp only [hnext]
      exact ih _

theorem findTest_occupied {key i : ℕ} (h : OccupiedBy table key i) :
    findTest table key i = some (some i) := by
  simp [findTest, h.1, h.2]

theorem findTest_eq_some_some {key i idx : ℕ} (h : findTest table key i = some (some idx)) :
    idx = i ∧ OccupiedBy table key i := by
  unfold findTest at h
  cases hstate : (table i).state with
  | empty => simp [hstate] at h
  | tombstone => simp [hstate] at h
  | occupied =>
    by_cases hkey : (table i).key = key
    · simp only [hstate, hkey, if_true, Option.some.injEq] at h
      exact ⟨h.symm, hstate, hkey⟩
    · simp [hstate, hkey] at h

/-- Under the probe-chain invariant the loop finds the slot of the key, and
nothing when the key is absent. -/
theorem findSlot_eq_some_iff (hcap : ∃ n, cap = 2 ^ n) (hc : Chained table cap) (key idx : ℕ) :
    findSlot table cap key cap (homeSlot cap key) = some idx ↔
      idx < cap ∧ OccupiedBy table key idx := by
  have hhome := homeSlot_lt hcap key
  rw [findSlot_eq_firstHit hcap]
  constructor
  · intro h
    have hhit : firstHit cap (findTest table key) cap (homeSlot cap key) = some (some idx) :=
      Option.join_eq_some_iff.mp h
    obtain ⟨j, hj, htest, _⟩ := (firstHit_eq_some_iff _ hhome _).mp hhit
    obtain ⟨hidx, hocc⟩ := findTest_eq_some_some htest
    subst hidx
    exact ⟨position_lt cap _ j (by omega), hocc⟩
  · rintro ⟨hidx, hocc⟩
    have hhit : firstHit cap (findTest table key) cap (homeSlot cap key) = some (some idx) := by
      refine (firstHit_eq_some_iff _ hhome _).mpr
        ⟨distance cap (homeSlot cap key) idx, distance_lt cap _ idx (by omega), ?_, ?_⟩
      · rw [position_distance cap _ idx hidx]
        exact findTest_occupied hocc
      · intro i hi
        have hne := hc.anchored idx key hidx hocc i hi
        have hdist := distance_lt cap (homeSlot cap key) idx (by omega)
        unfold findTest
        cases hstate : (table (position cap (homeSlot cap key) i)).state with
        | empty => exact absurd hstate hne
        | tombstone => rfl
        | occupied =>
          by_cases hkey : (table (position cap (homeSlot cap key) i)).key = key
          · have heq := hc.unique _ idx key (position_lt cap _ i (by omega)) hidx
              ⟨hstate, hkey⟩ hocc
            have hpos := position_distance cap (homeSlot cap key) idx hidx
            have := position_injective cap _ i _ (by omega) hdist (heq.trans hpos.symm)
            omega
          · simp [hkey]
    rw [hhit]
    rfl

theorem findSlot_eq_none_iff (hcap : ∃ n, cap = 2 ^ n) (hc : Chained table cap) (key : ℕ) :
    findSlot table cap key cap (homeSlot cap key) = none ↔
      ∀ i, i < cap → ¬ OccupiedBy table key i := by
  constructor
  · intro h i hi hocc
    rw [(findSlot_eq_some_iff hcap hc key i).mpr ⟨hi, hocc⟩] at h
    contradiction
  · intro h
    cases hfind : findSlot table cap key cap (homeSlot cap key) with
    | none => rfl
    | some idx =>
      obtain ⟨hidx, hocc⟩ := (findSlot_eq_some_iff hcap hc key idx).mp hfind
      exact absurd hocc (h idx hidx)

end Slots

/-- What the loop of `insert` knows after testing the first k slots: none of
them is EMPTY or holds the key, and the tombstone it remembers is among them. -/
structure Scanned (table : Table) (cap home key k : ℕ) (firstTomb : Option ℕ) : Prop where
  passed : ∀ i, i < k → (table (position cap home i)).state ≠ .empty ∧
    ¬ OccupiedBy table key (position cap home i)
  tomb : ∀ t, firstTomb = some t → ∃ i, i < k ∧
    t = position cap home i ∧ (table t).state = .tombstone
  noTomb : firstTomb = none → ∀ i, i < k →
    (table (position cap home i)).state = .occupied

/-- A slot the insertion may fill: it lies on the probe path of the key behind
non-EMPTY slots only, and the probe met no slot occupied by the key before an
EMPTY slot or the end of the round. -/
structure Fillable (table : Table) (cap home key idx : ℕ) (reuse : Bool) : Prop where
  onPath : ∃ j, j < cap ∧ idx = position cap home j ∧
    ∀ i, i < j → (table (position cap home i)).state ≠ .empty
  state : (table idx).state = if reuse then .tombstone else .empty
  absent : ∃ e, e ≤ cap ∧
    (e < cap → (table (position cap home e)).state = .empty) ∧
    ∀ i, i < e → ¬ OccupiedBy table key (position cap home i)

def Decided (table : Table) (cap home key : ℕ) : Placement → Prop
  | .overwrite idx => idx < cap ∧ OccupiedBy table key idx
  | .fill idx reuse => Fillable table cap home key idx reuse
  | .full => ∀ i, i < cap → (table i).state = .occupied

section Insertion

variable {table : Table} {cap home key : ℕ}

theorem scanned_zero : Scanned table cap home key 0 none :=
  ⟨by omega, by simp, by omega⟩

/-- The remembered tombstone may be reused once the probe has met an EMPTY slot
or has gone all the way round. -/
theorem fillable_of_tomb {k t : ℕ} (hs : Scanned table cap home key k (some t)) (hk : k ≤ cap)
    (hstop : k < cap → (table (position cap home k)).state = .empty) :
    Fillable table cap home key t true := by
  obtain ⟨i, hi, ht, hstate⟩ := hs.tomb t rfl
  refine ⟨⟨i, by omega, ht, ?_⟩, by simpa using hstate, ⟨k, hk, hstop, ?_⟩⟩
  · intro j hj
    exact (hs.passed j (by omega)).1
  · intro j hj
    exact (hs.passed j hj).2

theorem scanned_tombstone {k : ℕ} {firstTomb : Option ℕ}
    (hs : Scanned table cap home key k firstTomb)
    (hstate : (table (position cap home k)).state = .tombstone) :
    Scanned table cap home key (k + 1)
      (some (firstTomb.getD (position cap home k))) := by
  refine ⟨?_, ?_, nofun⟩
  · intro i hi
    rcases Nat.lt_succ_iff_lt_or_eq.mp hi with hlt | rfl
    · exact hs.passed i hlt
    · refine ⟨by rw [hstate]; exact nofun, fun hocc => ?_⟩
      have h := hocc.1
      rw [hstate] at h
      contradiction
  · intro t ht
    cases firstTomb with
    | none =>
      simp only [Option.getD_none, Option.some.injEq] at ht
      subst ht
      exact ⟨k, by omega, rfl, hstate⟩
    | some first =>
      simp only [Option.getD_some, Option.some.injEq] at ht
      subst ht
      obtain ⟨i, hi, hpos, htomb⟩ := hs.tomb first rfl
      exact ⟨i, by omega, hpos, htomb⟩

theorem scanned_occupied {k : ℕ} {firstTomb : Option ℕ}
    (hs : Scanned table cap home key k firstTomb)
    (hstate : (table (position cap home k)).state = .occupied)
    (hkey : (table (position cap home k)).key ≠ key) :
    Scanned table cap home key (k + 1) firstTomb := by
  refine ⟨?_, ?_, ?_⟩
  · intro i hi
    rcases Nat.lt_succ_iff_lt_or_eq.mp hi with hlt | rfl
    · exact hs.passed i hlt
    · exact ⟨by simp [hstate], fun hocc => hkey hocc.2⟩
  · intro t ht
    obtain ⟨i, hi, hpos, htomb⟩ := hs.tomb t ht
    exact ⟨i, by omega, hpos, htomb⟩
  · intro hnone i hi
    rcases Nat.lt_succ_iff_lt_or_eq.mp hi with hlt | rfl
    · exact hs.noTomb hnone i hlt
    · exact hstate

/-- The loop of `insert`, by induction on the slots that are left in the round. -/
theorem insertLoop_decided (hcap : ∃ n, cap = 2 ^ n) (fuel k : ℕ) (firstTomb : Option ℕ)
    (hround : k + fuel = cap) (hs : Scanned table cap home key k firstTomb) :
    Decided table cap home key
      (insertLoop table cap key fuel (position cap home k) firstTomb) := by
  induction fuel generalizing k firstTomb with
  | zero =>
    have hk : k = cap := by omega
    subst hk
    cases firstTomb with
    | some t => exact fillable_of_tomb hs (Nat.le_refl _) (by omega)
    | none =>
      intro i hi
      have hocc := hs.noTomb rfl (distance k home i) (distance_lt k _ i (by omega))
      rwa [position_distance k _ i hi] at hocc
  | succ fuel ih =>
    unfold insertLoop
    cases hstate : (table (position cap home k)).state with
    | empty =>
      cases firstTomb with
      | some t => exact fillable_of_tomb hs (by omega) (fun _ => hstate)
      | none =>
        refine ⟨⟨k, by omega, rfl, fun i hi => (hs.passed i hi).1⟩, by simpa using hstate, ?_⟩
        exact ⟨k, by omega, fun _ => hstate, fun i hi => (hs.passed i hi).2⟩
    | tombstone =>
      simp only [nextSlot_eq hcap]
      exact ih (k + 1) _ (by omega) (scanned_tombstone hs hstate)
    | occupied =>
      by_cases hkey : (table (position cap home k)).key = key
      · simp only [hkey, if_true]
        exact ⟨position_lt cap _ k (by omega), hstate, hkey⟩
      · simp only [hkey, if_false, nextSlot_eq hcap]
        exact ih (k + 1) _ (by omega) (scanned_occupied hs hstate hkey)

theorem insertLoop_spec (hcap : ∃ n, cap = 2 ^ n) (hhome : home < cap) :
    Decided table cap home key (insertLoop table cap key cap home none) := by
  have h := @insertLoop_decided table cap home key hcap cap 0 none (by omega) scanned_zero
  rwa [position_zero, Nat.mod_eq_of_lt hhome] at h

/-- A fillable slot is the proof that the key is stored nowhere. -/
theorem Fillable.notStored {idx : ℕ} {reuse : Bool} (hc : Chained table cap)
    (hf : Fillable table cap (homeSlot cap key) key idx reuse) (i : ℕ) (hi : i < cap) :
    ¬ OccupiedBy table key i := by
  intro hocc
  obtain ⟨e, he, hempty, hpassed⟩ := hf.absent
  have hpos := position_distance cap (homeSlot cap key) i hi
  have hdist := distance_lt cap (homeSlot cap key) i (by omega)
  rcases Nat.lt_or_ge (distance cap (homeSlot cap key) i) e with hlt | hge
  · exact hpassed _ hlt (by rwa [hpos])
  · rcases Nat.eq_or_lt_of_le hge with heq | hgt
    · have hstate := hempty (by omega)
      rw [heq, hpos] at hstate
      rw [hocc.1] at hstate
      contradiction
    · exact hc.anchored i key hi hocc e hgt (hempty (by omega))

end Insertion

section Writing

variable {table : Table} {cap idx key : ℕ} {info : BigAllocMeta} {entry : Entry}
  {state : State} {f : ℕ → Option BigAllocMeta}

theorem anchored_of_onPath {home j : ℕ} (hj : j < cap) (hidx : idx = position cap home j)
    (hpath : ∀ i, i < j → (table (position cap home i)).state ≠ .empty) :
    Anchored table cap home idx := by
  intro i hi
  have hlt : idx < cap := by
    rw [hidx]
    exact position_lt cap home j (by omega)
  have hdist : distance cap home idx = j := by
    apply position_injective cap home _ _ (distance_lt cap home idx (by omega)) hj
    rw [position_distance cap home idx hlt, hidx]
  rw [hdist] at hi
  exact hpath i hi

/-- Writing a non-EMPTY entry leaves no new EMPTY slot on any probe path. -/
theorem anchored_update {home i : ℕ} (h : Anchored table cap home i)
    (hentry : entry.state ≠ .empty) :
    Anchored (update table idx entry) cap home i := by
  intro j hj
  by_cases heq : position cap home j = idx
  · rw [heq, update_self]
    exact hentry
  · rw [update_of_ne heq]
    exact h j hj

theorem occupiedBy_update {i k : ℕ} (h : OccupiedBy (update table idx entry) k i) :
    (i = idx ∧ entry.state = .occupied ∧ entry.key = k) ∨ (i ≠ idx ∧ OccupiedBy table k i) := by
  by_cases heq : i = idx
  · subst heq
    rw [OccupiedBy, update_self] at h
    exact Or.inl ⟨rfl, h⟩
  · rw [OccupiedBy, update_of_ne heq] at h
    exact Or.inr ⟨heq, h⟩

theorem occupiedBy_update_of_ne {i k : ℕ} (h : OccupiedBy table k i) (hne : i ≠ idx) :
    OccupiedBy (update table idx entry) k i := by
  rw [OccupiedBy, update_of_ne hne]
  exact h

theorem occupiedBy_update_self (hstate : entry.state = .occupied) :
    OccupiedBy (update table idx entry) entry.key idx := by
  rw [OccupiedBy, update_self]
  exact ⟨hstate, rfl⟩

theorem chained_fill (hc : Chained table cap) (hidx : idx < cap)
    (hanch : Anchored table cap (homeSlot cap key) idx)
    (habsent : ∀ i, i < cap → ¬ OccupiedBy table key i) :
    Chained (update table idx ⟨key, info, .occupied⟩) cap := by
  constructor
  · intro i j k hi hj hik hjk
    rcases occupiedBy_update hik with ⟨hieq, _, hkey⟩ | ⟨_, hik'⟩
    · rcases occupiedBy_update hjk with ⟨hjeq, _, _⟩ | ⟨_, hjk'⟩
      · exact hieq.trans hjeq.symm
      · change key = k at hkey
        subst hkey
        exact absurd hjk' (habsent j hj)
    · rcases occupiedBy_update hjk with ⟨_, _, hkey⟩ | ⟨_, hjk'⟩
      · change key = k at hkey
        subst hkey
        exact absurd hik' (habsent i hi)
      · exact hc.unique i j k hi hj hik' hjk'
  · intro i k hi hik
    apply anchored_update _ State.noConfusion
    rcases occupiedBy_update hik with ⟨rfl, _, hkey⟩ | ⟨_, hik⟩
    · rw [← hkey]
      exact hanch
    · exact hc.anchored i k hi hik

theorem stores_fill (hs : Stores table cap f) (hidx : idx < cap)
    (hfree : (table idx).state ≠ .occupied)
    (habsent : ∀ i, i < cap → ¬ OccupiedBy table key i) :
    Stores (update table idx ⟨key, info, .occupied⟩) cap
      (update f key (some info)) := by
  intro k m
  by_cases hk : k = key
  · subst hk
    rw [update_self]
    constructor
    · intro hm
      exact ⟨idx, hidx, occupiedBy_update_self rfl, by simpa using hm⟩
    · rintro ⟨i, hi, hocc, hinfo⟩
      rcases occupiedBy_update hocc with ⟨rfl, _, _⟩ | ⟨_, hocc⟩
      · simpa using hinfo
      · exact absurd hocc (habsent i hi)
  · rw [update_of_ne hk, hs k m]
    constructor
    · rintro ⟨i, hi, hocc, hinfo⟩
      have hne : i ≠ idx := by
        intro heq
        exact hfree (heq ▸ hocc.1)
      exact ⟨i, hi, occupiedBy_update_of_ne hocc hne, by rwa [update_of_ne hne]⟩
    · rintro ⟨i, hi, hocc, hinfo⟩
      rcases occupiedBy_update hocc with ⟨_, _, hkey⟩ | ⟨hne, hocc⟩
      · exact absurd hkey.symm hk
      · exact ⟨i, hi, hocc, by rwa [update_of_ne hne] at hinfo⟩

theorem countState_gain (hidx : idx < cap) (hold : (table idx).state ≠ state)
    (hnew : entry.state = state) :
    countState (update table idx entry) cap state = countState table cap state + 1 := by
  have hset : ((Finset.range cap).filter
      fun i => (update table idx entry i).state = state) =
        insert idx ((Finset.range cap).filter fun i => (table i).state = state) := by
    ext i
    by_cases heq : i = idx
    · subst heq
      simp [hidx, hnew]
    · simp [heq]
  unfold countState
  rw [hset, Finset.card_insert_of_notMem]
  simp [hold]

theorem countState_lose (hidx : idx < cap) (hold : (table idx).state = state)
    (hnew : entry.state ≠ state) :
    countState table cap state = countState (update table idx entry) cap state + 1 := by
  have h := @countState_gain (update table idx entry) cap idx (table idx) state
    hidx (by rwa [update_self]) hold
  rwa [update_idem, update_eq_self] at h

theorem countState_keep (hsame : (table idx).state = state ↔ entry.state = state) :
    countState (update table idx entry) cap state = countState table cap state := by
  unfold countState
  congr 1
  ext i
  by_cases heq : i = idx
  · subst heq
    simp [hsame]
  · simp [heq]

/-- A table with fewer occupied slots than its capacity has a slot to spare. -/
theorem exists_free (h : countState table cap .occupied < cap) :
    ∃ i, i < cap ∧ (table i).state ≠ .occupied := by
  by_contra hnone
  have hall : ∀ i, i < cap → (table i).state = .occupied := by
    intro i hi
    by_contra hne
    exact hnone ⟨i, hi, hne⟩
  have hset : ((Finset.range cap).filter fun i => (table i).state = .occupied) =
      Finset.range cap := by
    apply Finset.filter_true_of_mem
    intro i hi
    exact hall i (Finset.mem_range.mp hi)
  unfold countState at h
  rw [hset, Finset.card_range] at h
  omega

theorem countState_succ (n : ℕ) :
    countState table (n + 1) state =
      countState table n state + if (table n).state = state then 1 else 0 := by
  unfold countState
  rw [Finset.range_add_one, Finset.filter_insert]
  split
  · rw [Finset.card_insert_of_notMem (by simp)]
  · rfl

end Writing

/-- What one slot tells the loop of `reinsert`. -/
def freeTest (table : Table) (idx : ℕ) : Option ℕ :=
  if (table idx).state = .occupied then none else some idx

section Rehash

variable {table old : Table} {cap key : ℕ} {info : BigAllocMeta}

theorem freeSlot_eq_firstHit (hcap : ∃ n, cap = 2 ^ n) (fuel idx : ℕ) :
    freeSlot table cap fuel idx = firstHit cap (freeTest table) fuel idx := by
  induction fuel generalizing idx with
  | zero => rfl
  | succ fuel ih =>
    unfold freeSlot firstHit freeTest
    split
    · rw [and_mask_eq_mod cap (idx + 1) hcap]
      exact ih _
    · rfl

/-- With a slot to spare, `reinsert` finds one that keeps the probe chain. -/
theorem freeSlot_spec (hcap : ∃ n, cap = 2 ^ n) {home : ℕ} (hhome : home < cap)
    (hspare : countState table cap .occupied < cap) :
    ∃ idx, freeSlot table cap cap home = some idx ∧ idx < cap ∧
      (table idx).state ≠ .occupied ∧ Anchored table cap home idx := by
  rw [freeSlot_eq_firstHit hcap]
  cases hres : firstHit cap (freeTest table) cap home with
  | none =>
    obtain ⟨i, hi, hfree⟩ := exists_free hspare
    have hall := (firstHit_eq_none_iff home hhome).mp hres i hi
    simp [freeTest, hfree] at hall
  | some idx =>
    obtain ⟨j, hj, htest, hbefore⟩ := (firstHit_eq_some_iff home hhome idx).mp hres
    have hpos : idx = position cap home j ∧ (table idx).state ≠ .occupied := by
      unfold freeTest at htest
      split at htest
      · contradiction
      · rename_i hstate
        have heq := Option.some.inj htest
        exact ⟨heq.symm, heq ▸ hstate⟩
    refine ⟨idx, rfl, ?_, hpos.2, anchored_of_onPath hj hpos.1 ?_⟩
    · rw [hpos.1]
      exact position_lt cap home j (by omega)
    · intro i hi hempty
      have hnone := hbefore i hi
      simp [freeTest, hempty] at hnone

/-- The state of `grow` after copying the first i slots of the old table. -/
structure Copied (old : Table) (newCap i : ℕ) (table : Table) : Prop where
  chained : Chained table newCap
  noTomb : ∀ j, j < newCap → (table j).state ≠ .tombstone
  stored : ∀ k m, (∃ j, j < newCap ∧ OccupiedBy table k j ∧ (table j).info = m) ↔
    ∃ j, j < i ∧ OccupiedBy old k j ∧ (old j).info = m
  count : countState table newCap .occupied = countState old i .occupied

theorem copied_zero (newCap : ℕ) : Copied old newCap 0 zeroedTable := by
  have hempty : ∀ i, (zeroedTable i).state = .empty := fun _ => rfl
  have hocc : ∀ k i, ¬ OccupiedBy zeroedTable k i := fun k i h => by
    rw [OccupiedBy, hempty] at h
    exact State.noConfusion h.1
  refine ⟨⟨?_, ?_⟩, ?_, ?_, ?_⟩
  · intro i j k _ _ hi
    exact absurd hi (hocc k i)
  · intro i k _ hi
    exact absurd hi (hocc k i)
  · intro j _
    rw [hempty]
    exact State.noConfusion
  · intro k m
    constructor
    · rintro ⟨j, _, hj, _⟩
      exact absurd hj (hocc k j)
    · rintro ⟨j, hj, _⟩
      omega
  · simp [countState, hempty]

theorem countState_le (n : ℕ) (state : State) : countState table n state ≤ n := by
  unfold countState
  exact (Finset.card_filter_le _ _).trans_eq (Finset.card_range n)

theorem copied_skip {newCap i : ℕ} (hc : Copied old newCap i table)
    (hstate : (old i).state ≠ .occupied) : Copied old newCap (i + 1) table := by
  refine ⟨hc.chained, hc.noTomb, ?_, ?_⟩
  · intro k m
    rw [hc.stored k m]
    constructor
    · rintro ⟨j, hj, h⟩
      exact ⟨j, by omega, h⟩
    · rintro ⟨j, hj, hocc, hinfo⟩
      have hne : j ≠ i := by
        intro heq
        exact hstate (heq ▸ hocc.1)
      exact ⟨j, by omega, hocc, hinfo⟩
  · rw [hc.count, countState_succ]
    simp [hstate]

/-- Copying one occupied slot. The keys of the old table are distinct, so the
new table cannot hold this key yet. -/
theorem copied_reinsert {oldCap newCap i : ℕ} (hcap : ∃ n, newCap = 2 ^ n)
    (hold : Chained old oldCap) (hi : i < oldCap) (hlt : oldCap < newCap)
    (hc : Copied old newCap i table) (hstate : (old i).state = .occupied) :
    ∃ table', reinsert table newCap (old i).key (old i).info = .ok table' ∧
      Copied old newCap (i + 1) table' := by
  have hspare : countState table newCap .occupied < newCap := by
    have := @countState_le old i .occupied
    rw [hc.count]
    omega
  obtain ⟨idx, hfree, hidx, hnot, hanch⟩ :=
    freeSlot_spec hcap (homeSlot_lt hcap (old i).key) hspare
  have habsent : ∀ j, j < newCap → ¬ OccupiedBy table (old i).key j := by
    intro j hj hocc
    obtain ⟨j', hj', hocc', _⟩ := (hc.stored (old i).key (table j).info).mp ⟨j, hj, hocc, rfl⟩
    have := hold.unique j' i (old i).key (by omega) hi hocc' ⟨hstate, rfl⟩
    omega
  refine ⟨update table idx ⟨(old i).key, (old i).info, .occupied⟩,
    by simp only [reinsert, hfree], chained_fill hc.chained hidx hanch habsent, ?_, ?_, ?_⟩
  · intro j hj
    by_cases heq : j = idx
    · subst heq
      simp
    · rw [update_of_ne heq]
      exact hc.noTomb j hj
  · intro k m
    constructor
    · rintro ⟨j, hj, hocc, hinfo⟩
      rcases occupiedBy_update hocc with ⟨rfl, _, hkey⟩ | ⟨hne, hocc⟩
      · rw [update_self] at hinfo
        exact ⟨i, by omega, ⟨hstate, hkey⟩, hinfo⟩
      · rw [update_of_ne hne] at hinfo
        obtain ⟨j', hj', h⟩ := (hc.stored k m).mp ⟨j, hj, hocc, hinfo⟩
        exact ⟨j', by omega, h⟩
    · rintro ⟨j, hj, hocc, hinfo⟩
      by_cases heq : j = i
      · subst heq
        refine ⟨idx, hidx, ?_, by rw [update_self]; exact hinfo⟩
        rw [← hocc.2]
        exact occupiedBy_update_self rfl
      · obtain ⟨j', hj', hocc', hinfo'⟩ := (hc.stored k m).mpr ⟨j, by omega, hocc, hinfo⟩
        have hne : j' ≠ idx := by
          intro h
          exact hnot (h ▸ hocc'.1)
        exact ⟨j', hj', occupiedBy_update_of_ne hocc' hne, by rwa [update_of_ne hne]⟩
  · rw [countState_gain hidx hnot rfl, hc.count, countState_succ]
    simp [hstate]

/-- The copying loop never runs full, by induction on the slots left to copy. -/
theorem growLoop_spec {oldCap newCap : ℕ} (hcap : ∃ n, newCap = 2 ^ n)
    (hold : Chained old oldCap) (hlt : oldCap < newCap) (n i : ℕ) (hin : i + n = oldCap)
    (hc : Copied old newCap i table) :
    ∃ table', growLoop old newCap n i table = .ok table' ∧ Copied old newCap oldCap table' := by
  induction n generalizing i table with
  | zero => exact ⟨table, rfl, by rwa [show oldCap = i by omega]⟩
  | succ n ih =>
    by_cases hstate : (old i).state = .occupied
    · obtain ⟨table', hre, hc'⟩ := copied_reinsert hcap hold (by omega) hlt hc hstate
      obtain ⟨table'', hloop, hc''⟩ := ih (i + 1) (by omega) hc'
      refine ⟨table'', ?_, hc''⟩
      simp only [growLoop, hstate, if_true, hre, Except.bind]
      exact hloop
    · obtain ⟨table', hloop, hc'⟩ := ih (i + 1) (by omega) (copied_skip hc hstate)
      refine ⟨table', ?_, hc'⟩
      simp only [growLoop, hstate, if_false]
      exact hloop

end Rehash

end Oxidalloc.HashmapRefinement
