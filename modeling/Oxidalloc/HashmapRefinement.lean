import Oxidalloc.HashmapTable

/-!
`BIG_ALLOC_MAP` behaves as a finite map. The operations keep the probe chains of the
table, and the counters `len` and `tombstones` count their slots, which is why neither
"table full" abort is reachable: an operation fails only if a table cannot be mapped.
-/
namespace Oxidalloc.HashmapRefinement

open CyclicProbe Hashmap Function

/-- The whole map stores the bindings of f, and its counters are exact. -/
structure Sound (s : BigAllocMap) (f : ℕ → Option BigAllocMeta) : Prop where
  cap : s.cap = 0 ∨ ∃ n, s.cap = 2 ^ n
  chained : Chained s.table s.cap
  stores : Stores s.table s.cap f
  len : s.len = countState s.table s.cap .occupied
  tombstones : s.tombstones = countState s.table s.cap .tombstone

theorem sound_new : Sound .new fun _ => none := by
  refine ⟨Or.inl rfl, ⟨?_, ?_⟩, ?_, rfl, rfl⟩
  · intro i j k hi
    exact absurd hi (Nat.not_lt_zero i)
  · intro i k hi
    exact absurd hi (Nat.not_lt_zero i)
  · intro k m
    constructor
    · intro h
      contradiction
    · rintro ⟨i, hi, _⟩
      exact absurd hi (Nat.not_lt_zero i)

/-- The capacity of the table that an insertion asks for, if it needs a new one. -/
def wantedCap (s : BigAllocMap) : Option ℕ :=
  if s.cap = 0 then some INITIAL_CAP
  else if (s.len + 1) * LOAD_DEN ≤ s.cap * LOAD_NUM ∧ s.tombstones * 2 ≤ s.cap then none
  else some (max (min (s.cap * 2) (usizeBound - 1)) INITIAL_CAP)

/-- A table of this capacity has more bytes than a word can count, or the kernel does not map
it. -/
def Unmapped (cap : ℕ) (mmapOk : Bool) (e : Halt) : Prop :=
  (usizeBound ≤ cap * entrySize ∧ e = .panic) ∨
    (mmapOk = false ∧ e = .abort .outOfMemory "Cannot allocate BigAllocMap")

/-- The insertion needs a new table and cannot have it. -/
def Refused (s : BigAllocMap) (mmapOk : Bool) (e : Halt) : Prop :=
  ∃ cap, wantedCap s = some cap ∧ Unmapped cap mmapOk e

section Operations

variable {s : BigAllocMap} {f : ℕ → Option BigAllocMeta} {mmapOk : Bool} {e : Halt}

theorem allocRaw_cases (mmapOk : Bool) (cap : ℕ) :
    (∃ e, allocRaw mmapOk cap = .error e ∧ Unmapped cap mmapOk e) ∨
      (allocRaw mmapOk cap = .ok zeroedTable ∧ cap * entrySize < usizeBound) := by
  unfold allocRaw
  split
  · rename_i hlarge
    exact Or.inl ⟨_, rfl, Or.inl ⟨hlarge, rfl⟩⟩
  · rename_i hfit
    cases mmapOk with
    | true => exact Or.inr ⟨rfl, by omega⟩
    | false => exact Or.inl ⟨_, rfl, Or.inr ⟨rfl, rfl⟩⟩

theorem wantedCap_le {cap : ℕ} (h : wantedCap s = some cap) :
    cap ≤ max (s.cap * 2) INITIAL_CAP := by
  unfold wantedCap at h
  split at h
  · rw [← Option.some.inj h]
    exact le_max_right ..
  · split at h
    · contradiction
    · rw [← Option.some.inj h]
      omega

/-- No mapping is refused to a small table by a kernel that grants them all. -/
theorem not_refused (hfit : max (s.cap * 2) INITIAL_CAP * entrySize < usizeBound) :
    ¬ Refused s true e := by
  rintro ⟨cap, hcap, ⟨hlarge, _⟩ | ⟨hfalse, _⟩⟩
  · have hmul := Nat.mul_le_mul_right entrySize (wantedCap_le hcap)
    omega
  · contradiction

theorem zeroed_sound {cap : ℕ} (hcap : ∃ n, cap = 2 ^ n) :
    Sound ⟨zeroedTable, cap, 0, 0⟩ fun _ => none := by
  have hc := @copied_zero zeroedTable cap
  refine ⟨Or.inr hcap, hc.chained, ?_, ?_, ?_⟩
  · intro k m
    constructor
    · intro h
      contradiction
    · intro h
      obtain ⟨j, hj, _⟩ := (hc.stored k m).mp h
      omega
  · simp [countState, zeroedTable]
  · simp [countState, zeroedTable]

/-- `grow` rehashes every binding into the table of twice the size. -/
theorem grow_sound (hs : Sound s f) (hcap : s.cap ≠ 0) :
    (∃ e, s.grow mmapOk = .error e ∧
        Unmapped (max (min (s.cap * 2) (usizeBound - 1)) INITIAL_CAP) mmapOk e) ∨
      ∃ s', s.grow mmapOk = .ok s' ∧ Sound s' f ∧ s.cap < s'.cap ∧ s'.len = s.len := by
  unfold BigAllocMap.grow
  generalize hnew : max (min (s.cap * 2) (usizeBound - 1)) INITIAL_CAP = newCap
  rcases allocRaw_cases mmapOk newCap with ⟨e, herr, hunmapped⟩ | ⟨hok, hfit⟩
  · exact Or.inl ⟨e, by simp only [herr, Except.bind], hunmapped⟩
  · obtain ⟨n, hn⟩ := hs.cap.resolve_left hcap
    have hdouble : newCap = max (s.cap * 2) INITIAL_CAP := by
      unfold entrySize usizeBound at hfit
      unfold usizeBound at hnew
      omega
    have hpow : ∃ m, newCap = 2 ^ m := by
      rcases Nat.le_total (s.cap * 2) INITIAL_CAP with hle | hle
      · exact ⟨14, by rw [hdouble, Nat.max_eq_right hle]; rfl⟩
      · exact ⟨n + 1, by rw [hdouble, Nat.max_eq_left hle, hn, Nat.pow_succ]⟩
    have hlt : s.cap < newCap := by
      rw [hdouble]
      omega
    obtain ⟨table, hloop, hc⟩ :=
      growLoop_spec hpow hs.chained hlt s.cap 0 (by omega) (copied_zero newCap)
    refine Or.inr ⟨{ s with table := table, cap := newCap, tombstones := 0 }, ?_, ?_, hlt, rfl⟩
    · simp only [hok, hloop, Except.bind]
    · refine ⟨Or.inr hpow, hc.chained, ?_, ?_, ?_⟩
      · intro k m
        rw [hs.stores k m]
        exact (hc.stored k m).symm
      · rw [hs.len]
        exact hc.count.symm
      · have hnone : ((Finset.range newCap).filter
            fun i => (table i).state = .tombstone) = ∅ := by
          apply Finset.filter_false_of_mem
          intro i hi
          exact hc.noTomb i (Finset.mem_range.mp hi)
        simp only [countState, hnone, Finset.card_empty]

/-- After `ensure_capacity` the table has a slot that is not occupied. -/
theorem ensureCapacity_sound (hs : Sound s f) :
    (∃ e, s.ensureCapacity mmapOk = .error e ∧ Refused s mmapOk e) ∨
      ∃ s', s.ensureCapacity mmapOk = .ok s' ∧ Sound s' f ∧ s'.cap ≠ 0 ∧ s'.len < s'.cap := by
  unfold BigAllocMap.ensureCapacity
  split
  · rename_i hzero
    have hnone : f = fun _ => none := by
      funext k
      cases hk : f k with
      | none => rfl
      | some m =>
        obtain ⟨i, hi, _⟩ := (hs.stores k m).mp hk
        omega
    rcases allocRaw_cases mmapOk INITIAL_CAP with ⟨e, herr, hunmapped⟩ | ⟨hok, _⟩
    · exact Or.inl ⟨e, by rw [herr]; rfl, INITIAL_CAP, if_pos hzero, hunmapped⟩
    · refine Or.inr ⟨⟨zeroedTable, INITIAL_CAP, 0, 0⟩, by rw [hok]; rfl, ?_, by decide, by decide⟩
      rw [hnone]
      exact zeroed_sound ⟨14, rfl⟩
  · rename_i hcap
    split
    · rename_i hload
      refine Or.inr ⟨s, rfl, hs, hcap, ?_⟩
      have hload1 := hload.1
      unfold LOAD_DEN LOAD_NUM at hload1
      omega
    · rename_i hload
      rcases grow_sound hs hcap with ⟨e, herr, hunmapped⟩ | ⟨s', hok, hs', hlt, hlen⟩
      · exact Or.inl ⟨e, herr, _, by rw [wantedCap, if_neg hcap, if_neg hload], hunmapped⟩
      · refine Or.inr ⟨s', hok, hs', by omega, ?_⟩
        have := @countState_le s.table s.cap .occupied
        rw [hlen, hs.len]
        omega

theorem overwrite_sound {idx key : ℕ} {info : BigAllocMeta} (hs : Sound s f)
    (hidx : idx < s.cap) (hocc : OccupiedBy s.table key idx) :
    Sound { s with table := update s.table idx { s.table idx with info := info } }
      (update f key (some info)) := by
  have hkeep : ∀ k i, OccupiedBy (update s.table idx
      { s.table idx with info := info }) k i ↔ OccupiedBy s.table k i := by
    intro k i
    by_cases heq : i = idx
    · subst heq
      simp [OccupiedBy]
    · simp [OccupiedBy, heq]
  refine ⟨hs.cap, ⟨?_, ?_⟩, ?_, ?_, ?_⟩
  · intro i j k hi hj hik hjk
    exact hs.chained.unique i j k hi hj ((hkeep k i).mp hik) ((hkeep k j).mp hjk)
  · intro i k hi hik
    apply anchored_update (hs.chained.anchored i k hi ((hkeep k i).mp hik))
    rw [hocc.1]
    exact State.noConfusion
  · intro k m
    by_cases hk : k = key
    · subst hk
      rw [update_self]
      constructor
      · intro hm
        exact ⟨idx, hidx, (hkeep k idx).mpr hocc, by simpa using hm⟩
      · rintro ⟨i, hi, hik, hm⟩
        have heq := hs.chained.unique i idx k hi hidx ((hkeep k i).mp hik) hocc
        subst heq
        simpa using hm
    · rw [update_of_ne hk, hs.stores k m]
      apply exists_congr
      intro i
      rw [hkeep k i]
      apply and_congr_right
      intro _
      apply and_congr_right
      intro hik
      have hne : i ≠ idx := by
        intro heq
        exact hk (by rw [← hik.2, heq, hocc.2])
      simp only [update_of_ne hne]
  · exact hs.len.trans (@countState_keep s.table s.cap idx { s.table idx with info := info }
      .occupied Iff.rfl).symm
  · exact hs.tombstones.trans (@countState_keep s.table s.cap idx
      { s.table idx with info := info } .tombstone Iff.rfl).symm

theorem fill_sound {idx key : ℕ} {info : BigAllocMeta} {reuse : Bool} (hs : Sound s f)
    (hf : Fillable s.table s.cap (homeSlot s.cap key) key idx reuse) :
    Sound { s with
      table := update s.table idx ⟨key, info, .occupied⟩
      len := s.len + 1
      tombstones := if reuse then s.tombstones - 1 else s.tombstones }
      (update f key (some info)) := by
  obtain ⟨j, hj, hidx, hpath⟩ := hf.onPath
  have hlt : idx < s.cap := by
    rw [hidx]
    exact position_lt _ _ j (by omega)
  have habsent := Fillable.notStored hs.chained hf
  have hfree : (s.table idx).state ≠ .occupied := by
    rw [hf.state]
    cases reuse <;> exact State.noConfusion
  refine ⟨hs.cap, chained_fill hs.chained hlt (anchored_of_onPath hj hidx hpath) habsent,
    stores_fill hs.stores hlt hfree habsent, ?_, ?_⟩
  · rw [hs.len]
    exact (countState_gain hlt hfree rfl).symm
  · have hstate := hf.state
    cases reuse with
    | true =>
      have h := @countState_lose s.table s.cap idx ⟨key, info, .occupied⟩ .tombstone hlt
        hstate State.noConfusion
      simp only [if_true, hs.tombstones]
      omega
    | false =>
      simp only [Bool.false_eq_true, if_false, hs.tombstones]
      apply (countState_keep _).symm
      rw [hstate]
      simp

/-- `insert` binds the key, and aborts only when the table cannot be mapped. -/
theorem insert_sound (hs : Sound s f) (key : ℕ) (info : BigAllocMeta) :
    (∃ e, s.insert mmapOk key info = .error e ∧ Refused s mmapOk e) ∨
      ∃ s', s.insert mmapOk key info = .ok s' ∧ Sound s' (update f key (some info)) := by
  rcases @ensureCapacity_sound s f mmapOk hs with ⟨e, herr, he⟩ | ⟨t, hok, ht, hcap, hspare⟩
  · exact Or.inl ⟨e, by simp only [BigAllocMap.insert, herr, Except.bind], he⟩
  · have hpow := ht.cap.resolve_left hcap
    have hdec := @insertLoop_spec t.table t.cap (homeSlot t.cap key) key hpow (homeSlot_lt hpow key)
    refine Or.inr ?_
    simp only [BigAllocMap.insert, hok, Except.bind]
    cases hplace : insertLoop t.table t.cap key t.cap (homeSlot t.cap key) none with
    | overwrite idx =>
      rw [hplace] at hdec
      exact ⟨_, rfl, overwrite_sound ht hdec.1 hdec.2⟩
    | fill idx reuse =>
      rw [hplace] at hdec
      exact ⟨_, rfl, fill_sound ht hdec⟩
    | full =>
      rw [hplace] at hdec
      obtain ⟨i, hi, hfree⟩ := exists_free (ht.len ▸ hspare)
      exact absurd (hdec i hi) hfree

theorem get_sound (hs : Sound s f) (key : ℕ) : s.get key = f key := by
  unfold BigAllocMap.get
  split
  · rename_i hzero
    cases hk : f key with
    | none => rfl
    | some m =>
      obtain ⟨i, hi, _⟩ := (hs.stores key m).mp hk
      omega
  · rename_i hcap
    have hpow := hs.cap.resolve_left hcap
    cases hfind : findSlot s.table s.cap key s.cap (homeSlot s.cap key) with
    | none =>
      have hnone := (findSlot_eq_none_iff hpow hs.chained key).mp hfind
      cases hk : f key with
      | none => rfl
      | some m =>
        obtain ⟨i, hi, hocc, _⟩ := (hs.stores key m).mp hk
        exact absurd hocc (hnone i hi)
    | some idx =>
      obtain ⟨hidx, hocc⟩ := (findSlot_eq_some_iff hpow hs.chained key idx).mp hfind
      exact ((hs.stores key _).mpr ⟨idx, hidx, hocc, rfl⟩).symm

theorem tombstone_sound {idx key : ℕ} (hs : Sound s f) (hidx : idx < s.cap)
    (hocc : OccupiedBy s.table key idx) :
    Sound { s with
      table := update s.table idx { s.table idx with state := .tombstone }
      len := s.len - 1
      tombstones := s.tombstones + 1 } (update f key none) := by
  have hold : ∀ k i, OccupiedBy (update s.table idx
      { s.table idx with state := .tombstone }) k i → i ≠ idx ∧ OccupiedBy s.table k i := by
    intro k i h
    rcases occupiedBy_update h with ⟨_, hstate, _⟩ | h
    · contradiction
    · exact h
  refine ⟨hs.cap, ⟨?_, ?_⟩, ?_, ?_, ?_⟩
  · intro i j k hi hj hik hjk
    exact hs.chained.unique i j k hi hj (hold k i hik).2 (hold k j hjk).2
  · intro i k hi hik
    exact anchored_update (hs.chained.anchored i k hi (hold k i hik).2) State.noConfusion
  · intro k m
    by_cases hk : k = key
    · subst hk
      rw [update_self]
      constructor
      · intro h
        contradiction
      · rintro ⟨i, hi, hik, _⟩
        obtain ⟨hne, hik'⟩ := hold k i hik
        exact absurd (hs.chained.unique i idx k hi hidx hik' hocc) hne
    · rw [update_of_ne hk, hs.stores k m]
      constructor
      · rintro ⟨i, hi, hik, hm⟩
        have hne : i ≠ idx := by
          intro heq
          exact hk (by rw [← hik.2, heq, hocc.2])
        exact ⟨i, hi, occupiedBy_update_of_ne hik hne, by
          simpa only [update_of_ne hne] using hm⟩
      · rintro ⟨i, hi, hik, hm⟩
        obtain ⟨hne, hik'⟩ := hold k i hik
        exact ⟨i, hi, hik', by simpa only [update_of_ne hne] using hm⟩
  · have h := @countState_lose s.table s.cap idx { s.table idx with state := .tombstone }
      .occupied hidx hocc.1 State.noConfusion
    have hlen := hs.len
    show s.len - 1 = countState (update s.table idx
      { s.table idx with state := .tombstone }) s.cap .occupied
    omega
  · have hstate : (s.table idx).state ≠ .tombstone := by
      rw [hocc.1]
      exact State.noConfusion
    simp only [hs.tombstones]
    exact (countState_gain hidx hstate rfl).symm

theorem remove_sound (hs : Sound s f) (key : ℕ) :
    (s.remove key).2 = f key ∧ Sound (s.remove key).1 (update f key none) := by
  have hforget : f key = none → update f key none = f := by
    intro hk
    rw [← hk, update_eq_self]
  have hget := get_sound hs key
  unfold BigAllocMap.get at hget
  unfold BigAllocMap.remove
  split
  · rename_i hzero
    rw [if_pos hzero] at hget
    exact ⟨hget, by rwa [hforget hget.symm]⟩
  · rename_i hcap
    rw [if_neg hcap] at hget
    cases hfind : findSlot s.table s.cap key s.cap (homeSlot s.cap key) with
    | none =>
      rw [hfind] at hget
      exact ⟨hget, by rwa [hforget hget.symm]⟩
    | some idx =>
      rw [hfind] at hget
      obtain ⟨hidx, hocc⟩ :=
        (findSlot_eq_some_iff (hs.cap.resolve_left hcap) hs.chained key idx).mp hfind
      exact ⟨hget, tombstone_sound hs hidx hocc⟩

end Operations

/-- One call of the table; an insertion also fixes whether a table mapping that
it asks for succeeds. -/
inductive Op where
  | insert (key : ℕ) (info : BigAllocMeta) (mmapOk : Bool)
  | get (key : ℕ)
  | remove (key : ℕ)
  deriving DecidableEq, Repr

def step (s : BigAllocMap) : Op → Except Halt (BigAllocMap × Option BigAllocMeta)
  | .insert key info mmapOk => (s.insert mmapOk key info).map fun s => (s, none)
  | .get key => .ok (s, s.get key)
  | .remove key => .ok (s.remove key)

/-- Run the calls in order and collect their answers. -/
def run (s : BigAllocMap) : List Op → Except Halt (BigAllocMap × List (Option BigAllocMeta))
  | [] => .ok (s, [])
  | op :: rest =>
    (step s op).bind fun r => (run r.1 rest).map fun q => (q.1, r.2 :: q.2)

/-- The meta of the last insertion of the key with no later removal of it. The
history lists the most recent call first. -/
def lastInsert (key : ℕ) : List Op → Option BigAllocMeta
  | [] => none
  | .insert k info _ :: history => if key = k then some info else lastInsert key history
  | .remove k :: history => if key = k then none else lastInsert key history
  | .get _ :: history => lastInsert key history

def answer (history : List Op) : Op → Option BigAllocMeta
  | .insert _ _ _ => none
  | .get key => lastInsert key history
  | .remove key => lastInsert key history

/-- The answers of the abstract finite map to a sequence of calls. -/
def answers (history : List Op) : List Op → List (Option BigAllocMeta)
  | [] => []
  | op :: rest => answer history op :: answers (op :: history) rest

/-- The call is an insertion that needs a new table and cannot have it. -/
def Op.Refused (s : BigAllocMap) (e : Halt) : Op → Prop
  | .insert _ _ mmapOk => HashmapRefinement.Refused s mmapOk e
  | .get _ => False
  | .remove _ => False

theorem lastInsert_insert (history : List Op) (key : ℕ) (info : BigAllocMeta) (mmapOk : Bool) :
    (fun k => lastInsert k (.insert key info mmapOk :: history)) =
      update (fun k => lastInsert k history) key (some info) := by
  funext k
  simp only [lastInsert, update_apply]

theorem lastInsert_remove (history : List Op) (key : ℕ) :
    (fun k => lastInsert k (.remove key :: history)) =
      update (fun k => lastInsert k history) key none := by
  funext k
  simp only [lastInsert, update_apply]

/-- One call answers as the finite map of the history and moves to the next one. -/
theorem step_sound {s : BigAllocMap} {history : List Op}
    (hs : Sound s fun k => lastInsert k history) (op : Op) :
    (∃ e, step s op = .error e ∧ op.Refused s e) ∨
      ∃ s', step s op = .ok (s', answer history op) ∧
        Sound s' fun k => lastInsert k (op :: history) := by
  cases op with
  | insert key info mmapOk =>
    rw [lastInsert_insert]
    rcases @insert_sound s _ mmapOk hs key info with ⟨e, herr, he⟩ | ⟨s', hok, hs'⟩
    · exact Or.inl ⟨e, by simp only [step, herr, Except.map], he⟩
    · exact Or.inr ⟨s', by simp only [step, hok, Except.map, answer], hs'⟩
  | get key =>
    refine Or.inr ⟨s, ?_, hs⟩
    simp only [step, get_sound hs, answer]
  | remove key =>
    rw [lastInsert_remove]
    obtain ⟨hans, hs'⟩ := remove_sound hs key
    refine Or.inr ⟨(s.remove key).1, ?_, hs'⟩
    simp only [step, answer, ← hans]

/-- A run goes on where its first part ends. -/
theorem run_snoc {s mid s' : BigAllocMap} {ops : List Op} {op : Op} {a : Option BigAllocMeta}
    {outputs : List (Option BigAllocMeta)} (hrun : run s ops = .ok (mid, outputs))
    (hstep : step mid op = .ok (s', a)) : run s (ops ++ [op]) = .ok (s', outputs ++ [a]) := by
  induction ops generalizing s outputs with
  | nil =>
    obtain ⟨rfl, rfl⟩ := Prod.mk.inj (Except.ok.inj hrun)
    simp only [List.nil_append, run, hstep, Except.bind, Except.map]
  | cons first rest ih =>
    rw [run] at hrun
    cases hfirst : step s first with
    | error e =>
      rw [hfirst] at hrun
      contradiction
    | ok r =>
      rw [hfirst, Except.bind] at hrun
      cases hrest : run r.1 rest with
      | error e =>
        rw [hrest] at hrun
        contradiction
      | ok q =>
        rw [hrest, Except.map] at hrun
        obtain ⟨hmid, rfl⟩ := Prod.mk.inj (Except.ok.inj hrun)
        have htail := @ih r.1 q.2 (by rw [hrest, ← hmid])
        simp only [List.cons_append, run, hfirst, htail, Except.bind, Except.map]

theorem run_sound {s : BigAllocMap} {history : List Op} (ops : List Op)
    (hs : Sound s fun k => lastInsert k history) :
    (∃ e done op rest mid outputs, ops = done ++ op :: rest ∧ run s ops = .error e ∧
        run s done = .ok (mid, outputs) ∧ op.Refused mid e) ∨
      ∃ s', run s ops = .ok (s', answers history ops) ∧
        Sound s' fun k => lastInsert k (ops.reverse ++ history) := by
  induction ops generalizing s history with
  | nil => exact Or.inr ⟨s, rfl, hs⟩
  | cons op rest ih =>
    rcases step_sound hs op with ⟨e, herr, he⟩ | ⟨s', hok, hs'⟩
    · exact Or.inl ⟨e, [], op, rest, s, [], rfl, by simp only [run, herr, Except.bind], rfl, he⟩
    · rcases ih hs' with ⟨e, done, last, rest', mid, outputs, rfl, herr, hdone, he⟩ |
        ⟨s'', hok', hs''⟩
      · refine Or.inl ⟨e, op :: done, last, rest', mid, answer history op :: outputs, rfl, ?_, ?_,
          he⟩
        · simp only [run, hok, herr, Except.bind, Except.map]
        · simp only [run, hok, hdone, Except.bind, Except.map]
      · refine Or.inr ⟨s'', ?_, ?_⟩
        · simp only [run, hok, hok', Except.bind, Except.map, answers]
        · simpa only [List.reverse_cons, List.append_assoc, List.singleton_append] using hs''

/-- For every sequence of calls from the empty table, growths included, every
`get` and `remove` answers the meta of the last insertion of its key that no
removal followed, and each key occupies at most one slot. The run ends early only at an
insertion that needs a new table, if the kernel refuses it or it is too large for a word. -/
theorem bigAllocMap_refines_map (ops : List Op) :
    match run .new ops with
    | .ok (s, outputs) =>
      outputs = answers [] ops ∧
        ∀ i j key, i < s.cap → j < s.cap →
          OccupiedBy s.table key i → OccupiedBy s.table key j → i = j
    | .error e =>
      ∃ done op rest s outputs, ops = done ++ op :: rest ∧ run .new done = .ok (s, outputs) ∧
        op.Refused s e := by
  have h0 : Sound .new fun k => lastInsert k [] := sound_new
  rcases run_sound ops h0 with ⟨e, done, op, rest, s, outputs, hops, herr, hdone, he⟩ | ⟨s, hok, hs⟩
  · rw [herr]
    exact ⟨done, op, rest, s, outputs, hops, hdone, he⟩
  · rw [hok]
    exact ⟨rfl, hs.chained.unique⟩

end Oxidalloc.HashmapRefinement
