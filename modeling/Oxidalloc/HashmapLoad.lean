import Oxidalloc.HashmapRefinement
import Oxidalloc.Interleaving

/-!
How large the table of `BIG_ALLOC_MAP` gets. Every call uses up at most one slot and a table is
at most doubled when it is half used, so a run of fewer than 2^50 calls asks for no table that a
kernel with enough memory would refuse. The table is doubled for its tombstones as well,
however, and then its size says nothing about the number of live blocks.
-/
namespace Oxidalloc.HashmapRefinement

open Hashmap Function

/-- The test with which `ensure_capacity` keeps a table. -/
def Roomy (s : BigAllocMap) : Prop :=
  (s.len + 1) * LOAD_DEN ≤ s.cap * LOAD_NUM ∧ s.tombstones * 2 ≤ s.cap

/-- What `ensure_capacity` does to the numbers of the map. -/
inductive Ensures (s s' : BigAllocMap) : Prop
  | mapped (hzero : s.cap = 0) (hcap : s'.cap = INITIAL_CAP) (hlen : s'.len = 0)
    (htombs : s'.tombstones = 0)
  | kept (hcap : s.cap ≠ 0) (hroomy : Roomy s) (heq : s' = s)
  | grown (hcap : s.cap ≠ 0) (hfull : ¬ Roomy s)
    (hdouble : s'.cap = max (min (s.cap * 2) (usizeBound - 1)) INITIAL_CAP)
    (hlen : s'.len = s.len) (htombs : s'.tombstones = 0)

section Numbers

variable {s s' : BigAllocMap} {mmapOk : Bool} {key : ℕ} {info : BigAllocMeta}

theorem grow_eq_ok (h : s.grow mmapOk = .ok s') :
    s'.cap = max (min (s.cap * 2) (usizeBound - 1)) INITIAL_CAP ∧ s'.len = s.len ∧
      s'.tombstones = 0 := by
  unfold BigAllocMap.grow at h
  obtain ⟨fresh, _, h⟩ := bind_eq_ok.mp h
  obtain ⟨table, _, h⟩ := bind_eq_ok.mp h
  rw [← Except.ok.inj h]
  exact ⟨rfl, rfl, rfl⟩

theorem ensureCapacity_eq_ok (h : s.ensureCapacity mmapOk = .ok s') : Ensures s s' := by
  unfold BigAllocMap.ensureCapacity at h
  split at h
  · rename_i hzero
    obtain ⟨table, _, h⟩ := bind_eq_ok.mp h
    rw [← Except.ok.inj h]
    exact .mapped hzero rfl rfl rfl
  · rename_i hcap
    split at h
    · rename_i hroomy
      exact .kept hcap hroomy (Except.ok.inj h).symm
    · rename_i hfull
      obtain ⟨hdouble, hlen, htombs⟩ := grow_eq_ok h
      exact .grown hcap hfull hdouble hlen htombs

/-- A placement takes one more slot, or one that was used already. -/
theorem place_eq_ok {p : Placement} (h : s.place key info p = .ok s') :
    s'.cap = s.cap ∧ s.len ≤ s'.len ∧ s'.len ≤ s.len + 1 ∧
      s'.len + s'.tombstones ≤ s.len + s.tombstones + 1 := by
  cases p with
  | overwrite idx =>
    rw [← Except.ok.inj h]
    exact ⟨rfl, Nat.le_refl _, Nat.le_succ _, Nat.le_succ _⟩
  | fill idx reuse =>
    rw [← Except.ok.inj h]
    refine ⟨rfl, Nat.le_succ _, Nat.le_refl _, ?_⟩
    cases reuse with
    | true =>
      simp only [if_true]
      omega
    | false =>
      simp only [Bool.false_eq_true, if_false]
      omega
  | full => contradiction

theorem insert_eq_ok (h : s.insert mmapOk key info = .ok s') :
    ∃ mid, Ensures s mid ∧ s'.cap = mid.cap ∧ mid.len ≤ s'.len ∧ s'.len ≤ mid.len + 1 ∧
      s'.len + s'.tombstones ≤ mid.len + mid.tombstones + 1 := by
  obtain ⟨mid, hensure, hplace⟩ := bind_eq_ok.mp h
  exact ⟨mid, ensureCapacity_eq_ok hensure, place_eq_ok hplace⟩

theorem remove_numbers : (s.remove key).1.cap = s.cap ∧ (s.remove key).1.len ≤ s.len ∧
    (s.remove key).1.len + (s.remove key).1.tombstones ≤ s.len + s.tombstones + 1 := by
  unfold BigAllocMap.remove
  split
  · exact ⟨rfl, Nat.le_refl _, Nat.le_succ _⟩
  · split
    · exact ⟨rfl, Nat.le_refl _, Nat.le_succ _⟩
    · refine ⟨rfl, Nat.sub_le _ _, ?_⟩
      dsimp only
      omega

end Numbers

/-- The calls that may ask for a table. -/
def Op.Inserts : Op → Prop
  | .insert _ _ _ => True
  | _ => False

/-- The kernel maps the table, if the call asks for one. -/
def Op.Mapped : Op → Prop
  | .insert _ _ mmapOk => mmapOk = true
  | _ => True

/-- The map after n calls. -/
structure Loaded (n : ℕ) (s : BigAllocMap) : Prop where
  used : s.len + s.tombstones ≤ n
  cap : s.cap ≤ max INITIAL_CAP (4 * n)

section Calls

variable {s s' : BigAllocMap} {op : Op} {a : Option BigAllocMeta} {n : ℕ}

theorem insert_of_step {key : ℕ} {info : BigAllocMeta} {mmapOk : Bool}
    (h : step s (.insert key info mmapOk) = .ok (s', a)) : s.insert mmapOk key info = .ok s' := by
  cases hinsert : s.insert mmapOk key info with
  | error e =>
    rw [step, hinsert] at h
    contradiction
  | ok t =>
    rw [step, hinsert] at h
    rw [(Prod.mk.inj (Except.ok.inj h)).1]

theorem Loaded.ensured (h : Loaded n s) (hensures : Ensures s s') :
    s'.len + s'.tombstones ≤ n ∧ s'.cap ≤ max INITIAL_CAP (4 * (n + 1)) := by
  have hused := h.used
  have hcap := h.cap
  cases hensures with
  | mapped _ hinitial hlen htombs =>
    rw [hinitial, hlen, htombs]
    exact ⟨Nat.zero_le n, Nat.le_max_left _ _⟩
  | kept _ _ heq =>
    rw [heq]
    exact ⟨hused, by omega⟩
  | grown _ hfull hdouble hlen htombs =>
    rw [hdouble, hlen, htombs]
    refine ⟨by omega, ?_⟩
    -- the table was doubled because more than half of it is in use
    have hhalf : s.cap < 2 * (n + 1) := by
      unfold Roomy LOAD_DEN LOAD_NUM at hfull
      omega
    omega

theorem step_loaded (h : Loaded n s) (hstep : step s op = .ok (s', a)) : Loaded (n + 1) s' := by
  have hused := h.used
  have hcap := h.cap
  cases op with
  | insert key info mmapOk =>
    obtain ⟨mid, hensures, hsame, _, _, htaken⟩ := insert_eq_ok (insert_of_step hstep)
    obtain ⟨hmid, hbound⟩ := h.ensured hensures
    exact ⟨by omega, hsame ▸ hbound⟩
  | get key =>
    obtain ⟨rfl, _⟩ := Prod.mk.inj (Except.ok.inj hstep)
    exact ⟨by omega, by omega⟩
  | remove key =>
    have heq : (s.remove key).1 = s' := congrArg Prod.fst (Except.ok.inj hstep)
    obtain ⟨hsame, _, htaken⟩ := @remove_numbers s key
    rw [← heq]
    exact ⟨by omega, by omega⟩

theorem step_cap_eq_zero (hstep : step s op = .ok (s', a)) :
    s'.cap = 0 ↔ s.cap = 0 ∧ ¬ op.Inserts := by
  cases op with
  | insert key info mmapOk =>
    obtain ⟨mid, hensures, hsame, _⟩ := insert_eq_ok (insert_of_step hstep)
    have hsome : mid.cap ≠ 0 := by
      cases hensures with
      | mapped _ hcap _ _ =>
        rw [hcap]
        decide
      | kept hcap _ heq => exact heq ▸ hcap
      | grown _ _ hdouble _ _ =>
        rw [hdouble]
        unfold INITIAL_CAP
        omega
    exact iff_of_false (hsame ▸ hsome) fun h => h.2 trivial
  | get key =>
    obtain ⟨rfl, _⟩ := Prod.mk.inj (Except.ok.inj hstep)
    exact (and_iff_left id).symm
  | remove key =>
    have heq : (s.remove key).1 = s' := congrArg Prod.fst (Except.ok.inj hstep)
    rw [← heq, remove_numbers.1]
    exact (and_iff_left id).symm

/-- With fewer than 2^50 calls behind it a map does not ask for too large a table. -/
theorem step_mapped {history : List Op} (hs : Sound s fun k => lastInsert k history)
    (hload : Loaded n s) (hn : n < 2 ^ 50) (hmapped : op.Mapped) :
    ∃ s', step s op = .ok (s', answer history op) ∧
      Sound s' fun k => lastInsert k (op :: history) := by
  rcases step_sound hs op with ⟨e, herr, _⟩ | hok
  · cases op with
    | insert key info mmapOk =>
      have htrue : mmapOk = true := hmapped
      subst htrue
      rcases @insert_sound s _ true hs key info with ⟨e', hinsert, hrefused⟩ | ⟨s', hinsert, _⟩
      · refine absurd hrefused (not_refused ?_)
        have hcap := hload.cap
        unfold INITIAL_CAP at hcap ⊢
        unfold entrySize usizeBound
        omega
      · rw [step, hinsert] at herr
        contradiction
    | get key => contradiction
    | remove key => contradiction
  · exact hok

theorem run_mapped {history : List Op} (ops : List Op) (hs : Sound s fun k => lastInsert k history)
    (hload : Loaded n s) (hn : n + ops.length < 2 ^ 50) (hmapped : ∀ op ∈ ops, op.Mapped) :
    ∃ s', run s ops = .ok (s', answers history ops) ∧
      (Sound s' fun k => lastInsert k (ops.reverse ++ history)) ∧
      (s'.cap = 0 ↔ s.cap = 0 ∧ ∀ op ∈ ops, ¬ op.Inserts) := by
  induction ops generalizing s history n with
  | nil =>
    refine ⟨s, rfl, hs, ?_⟩
    simp
  | cons op rest ih =>
    rw [List.length_cons] at hn
    obtain ⟨mid, hstep, hmid⟩ := step_mapped hs hload (by omega) (hmapped op List.mem_cons_self)
    obtain ⟨s', hrun, hs', hzero⟩ := ih hmid (step_loaded hload hstep) (by omega)
      fun op hop => hmapped op (List.mem_cons_of_mem _ hop)
    refine ⟨s', ?_, ?_, ?_⟩
    · simp only [run, hstep, hrun, Except.bind, Except.map, answers]
    · simpa only [List.reverse_cons, List.append_assoc, List.singleton_append] using hs'
    · rw [hzero, step_cap_eq_zero hstep, List.forall_mem_cons, and_assoc]

end Calls

/-- The map never runs full: as long as the kernel maps the tables, every run of fewer than 2^50
calls returns with exact counters. The table exists from the first insertion on. -/
theorem big_alloc_map_never_runs_full (ops : List Op) (hlen : ops.length < 2 ^ 50)
    (hmapped : ∀ op ∈ ops, op.Mapped) :
    ∃ s outputs, run .new ops = .ok (s, outputs) ∧
      s.len = countState s.table s.cap .occupied ∧
      s.tombstones = countState s.table s.cap .tombstone ∧
      (s.cap = 0 ∨ ∃ n, s.cap = 2 ^ n) ∧ (s.cap = 0 ↔ ∀ op ∈ ops, ¬ op.Inserts) := by
  have hload : Loaded 0 .new := ⟨Nat.le_refl 0, Nat.zero_le _⟩
  have hsound : Sound .new fun k => lastInsert k [] := sound_new
  obtain ⟨s, hrun, hs, hzero⟩ := run_mapped ops hsound hload (by rwa [Nat.zero_add]) hmapped
  exact ⟨s, _, hrun, hs.len, hs.tombstones, hs.cap, hzero.trans (and_iff_right rfl)⟩

/-- An insertion, a removal and an insertion that reuses the tombstone. -/
theorem big_alloc_map_never_runs_full_reuse :
    ∃ s outputs, run .new [.insert 4096 ⟨0, 100, 0, 0⟩ true, .remove 4096,
        .insert 4096 ⟨1, 100, 0, 0⟩ true] = .ok (s, outputs) ∧
      s.len = countState s.table s.cap .occupied ∧ ∃ n, s.cap = 2 ^ n := by
  obtain ⟨s, outputs, hrun, hlen, _, hcap, hzero⟩ := big_alloc_map_never_runs_full
    [.insert 4096 ⟨0, 100, 0, 0⟩ true, .remove 4096, .insert 4096 ⟨1, 100, 0, 0⟩ true] (by decide)
    (by simp [Op.Mapped])
  refine ⟨s, outputs, hrun, hlen, hcap.resolve_left fun h => ?_⟩
  exact hzero.mp h _ List.mem_cons_self trivial

/-- Before the first insertion there is no table, and its capacity is no power of two. -/
theorem lookup_needs_no_table :
    ∃ s, run .new [.get 4096] = .ok (s, [none]) ∧ ¬ ∃ n, s.cap = 2 ^ n := by
  refine ⟨.new, rfl, ?_⟩
  rintro ⟨n, hn⟩
  exact absurd hn.symm (Nat.two_pow_pos n).ne'

/-- A map and the largest number of blocks that it has had. -/
structure Tracked where
  map : BigAllocMap
  peak : ℕ

def Tracked.start : Tracked := ⟨.new, 0⟩

def trackedStep (t : Tracked) (op : Op) : Option Tracked :=
  (step t.map op).toOption.map fun r => ⟨r.1, max t.peak r.1.len⟩

/-- A block is inserted only while at most half of the slots are tombstones, or while the table
is not too large for the number of blocks that it has had. -/
def Op.Fresh (t : Tracked) : Op → Prop
  | .insert _ _ _ => t.map.tombstones * 2 ≤ t.map.cap ∨ 2 * t.map.cap ≤ 3 * (t.peak + 1)
  | _ => True

instance Op.Fresh.decidable (t : Tracked) : ∀ op, Decidable (Op.Fresh t op)
  | .insert _ _ _ => inferInstanceAs (Decidable (_ ∨ _))
  | .get _ => isTrue trivial
  | .remove _ => isTrue trivial

/-- The bound on the table that the load test suggests. -/
structure Bounded (t : Tracked) : Prop where
  len : t.map.len ≤ t.peak
  cap : t.map.cap ≤ max INITIAL_CAP (3 * (t.peak + 1))

section Capacity

variable {t t' : Tracked} {op : Op}

theorem trackedStep_eq_some (h : trackedStep t op = some t') :
    ∃ a, step t.map op = .ok (t'.map, a) ∧ t'.peak = max t.peak t'.map.len := by
  obtain ⟨⟨s', a⟩, hstep, rfl⟩ := Option.map_eq_some_iff.mp h
  refine ⟨a, ?_, rfl⟩
  cases hs : step t.map op with
  | error e =>
    rw [hs] at hstep
    contradiction
  | ok r =>
    rw [hs] at hstep
    rw [← Option.some.inj hstep]

theorem Bounded.ensured (h : Bounded t) {mid : BigAllocMap} (hensures : Ensures t.map mid)
    (hfresh : t.map.tombstones * 2 ≤ t.map.cap ∨ 2 * t.map.cap ≤ 3 * (t.peak + 1)) :
    mid.cap ≤ max INITIAL_CAP (3 * (t.peak + 1)) := by
  have hlen := h.len
  cases hensures with
  | mapped _ hinitial _ _ =>
    rw [hinitial]
    exact Nat.le_max_left _ _
  | kept _ _ heq =>
    rw [heq]
    exact h.cap
  | grown _ hfull hdouble _ _ =>
    rw [hdouble]
    -- growth for the live blocks alone stays below three slots a block
    have hdoubled : 2 * t.map.cap ≤ 3 * (t.peak + 1) := by
      unfold Roomy LOAD_DEN LOAD_NUM at hfull
      omega
    omega

theorem trackedStep_bounded (h : Bounded t) (hfresh : op.Fresh t)
    (hstep : trackedStep t op = some t') : Bounded t' := by
  obtain ⟨a, hstep, hpeak⟩ := trackedStep_eq_some hstep
  have hlen := h.len
  have hcap := h.cap
  refine ⟨by omega, ?_⟩
  cases op with
  | insert key info mmapOk =>
    obtain ⟨mid, hensures, hsame, _⟩ := insert_eq_ok (insert_of_step hstep)
    have hmid := h.ensured hensures hfresh
    omega
  | get key =>
    have heq : t.map = t'.map := congrArg Prod.fst (Except.ok.inj hstep)
    rw [← heq]
    omega
  | remove key =>
    have heq : (t.map.remove key).1 = t'.map := congrArg Prod.fst (Except.ok.inj hstep)
    rw [← heq, remove_numbers.1]
    omega

end Capacity

/-- In runs without insertions into a table of tombstones the capacity follows the number of live
blocks. -/
theorem capacity_follows_load (ops : List Op) (t : Tracked)
    (hfresh : Interleaving.Guarded trackedStep Op.Fresh .start ops)
    (hrun : Interleaving.run trackedStep .start ops = some t) :
    t.map.cap ≤ max INITIAL_CAP (3 * (t.peak + 1)) := by
  have hstart : Bounded .start := ⟨Nat.le_refl 0, Nat.zero_le _⟩
  exact (Interleaving.run_invariant (fun _ _ _ h hok hstep => trackedStep_bounded h hok hstep)
    hstart hfresh hrun).cap

/-- A block comes, goes and comes again. -/
theorem capacity_follows_load_reuse :
    ∃ t, Interleaving.run trackedStep .start [.insert 4096 ⟨0, 100, 0, 0⟩ true, .remove 4096,
        .insert 4096 ⟨1, 100, 0, 0⟩ true] = some t ∧ t.peak = 1 ∧ t.map.cap ≤ INITIAL_CAP := by
  have hresult : (Interleaving.run trackedStep .start [.insert 4096 ⟨0, 100, 0, 0⟩ true,
      .remove 4096, .insert 4096 ⟨1, 100, 0, 0⟩ true]).map (·.peak) = some 1 := by
    decide +kernel
  obtain ⟨t, hrun, hpeak⟩ := Option.map_eq_some_iff.mp hresult
  have hcap := capacity_follows_load _ t (by decide +kernel) hrun
  rw [hpeak] at hcap
  exact ⟨t, hrun, hpeak, hcap⟩

section Churn

variable {s mid : BigAllocMap} {t : Tracked} {key n : ℕ} {keys : List ℕ} {info : BigAllocMeta}

/-- The two shifts of the second round fall out of the word. -/
theorem xor_shift_self (x : BitVec 64) : (x ^^^ x >>> 33) ^^^ (x ^^^ x >>> 33) >>> 33 = x := by
  apply BitVec.eq_of_getLsbD_eq
  intro i hi
  have hout : x.getLsbD (33 + (33 + i)) = false := BitVec.getLsbD_of_ge x _ (by omega)
  simp only [BitVec.getLsbD_xor, BitVec.getLsbD_ushiftRight, hout, Bool.bne_false]
  rw [Bool.xor_assoc, Bool.xor_self, Bool.xor_false]

/-- The steps of `hash_key` in the opposite order. -/
def unhash (i : ℕ) : ℕ :=
  let x5 : BitVec 64 := BitVec.ofNat 64 i
  let x4 := x5 ^^^ (x5 >>> 33)
  let x3 := x4 * 0x9cb4b2f8129337db#64
  let x2 := x3 ^^^ (x3 >>> 33)
  let x1 := x2 * 0x4f74430c22a54005#64
  (x1 ^^^ (x1 >>> 33)).toNat

theorem hashKey_unhash {i : ℕ} (h : i < 2 ^ 64) : hashKey (unhash i) = i := by
  have hfirst : ∀ x : BitVec 64, x * 0x4f74430c22a54005#64 * 0xff51afd7ed558ccd#64 = x := by
    intro x
    rw [BitVec.mul_assoc, show 0x4f74430c22a54005#64 * 0xff51afd7ed558ccd#64 = 1#64 by decide,
      BitVec.mul_one]
  have hsecond : ∀ x : BitVec 64, x * 0x9cb4b2f8129337db#64 * 0xc4ceb9fe1a85ec53#64 = x := by
    intro x
    rw [BitVec.mul_assoc, show 0x9cb4b2f8129337db#64 * 0xc4ceb9fe1a85ec53#64 = 1#64 by decide,
      BitVec.mul_one]
  simp only [hashKey, unhash, BitVec.ofNat_toNat, BitVec.setWidth_eq, xor_shift_self, hfirst,
    hsecond, BitVec.toNat_ofNat]
  exact Nat.mod_eq_of_lt h

theorem homeSlot_unhash {i : ℕ} (h : i < INITIAL_CAP) : homeSlot INITIAL_CAP (unhash i) = i := by
  unfold INITIAL_CAP at h
  rw [homeSlot, hashKey_unhash (by omega)]
  exact (Nat.and_two_pow_sub_one_eq_mod i 14).trans (Nat.mod_eq_of_lt h)

/-- Insert every key and remove it again. -/
def churn (keys : List ℕ) : List Op :=
  keys.flatMap fun key => [.insert key ⟨0, 100, 0, 0⟩ true, .remove key]

/-- A table with nothing but the tombstones of the keys, each in its home slot. -/
structure Churned (keys : List ℕ) (s : BigAllocMap) : Prop where
  cap : s.cap = INITIAL_CAP
  len : s.len = 0
  tombstones : s.tombstones = keys.length
  states : ∀ i, (s.table i).state =
    if i ∈ keys.map (homeSlot INITIAL_CAP) then .tombstone else .empty

/-- A key whose home slot is EMPTY goes there. -/
theorem insert_of_empty (hensure : s.ensureCapacity true = .ok mid) (hcap : mid.cap = n + 1)
    (hempty : (mid.table (homeSlot mid.cap key)).state = .empty) :
    s.insert true key info = .ok { mid with
      table := update mid.table (homeSlot mid.cap key) ⟨key, info, .occupied⟩
      len := mid.len + 1 } := by
  have hplace : insertLoop mid.table mid.cap key (n + 1) (homeSlot mid.cap key) none =
      .fill (homeSlot mid.cap key) false := by
    simp only [insertLoop, hempty]
  simp only [BigAllocMap.insert, hensure, Except.bind]
  rw [← hcap] at hplace
  rw [hplace]
  rfl

/-- The block that is in its home slot is found there. -/
theorem remove_of_home (hcap : s.cap = n + 1)
    (hentry : s.table (homeSlot s.cap key) = ⟨key, info, .occupied⟩) :
    s.remove key = ({ s with
      table := update s.table (homeSlot s.cap key) ⟨key, info, .tombstone⟩
      len := s.len - 1
      tombstones := s.tombstones + 1 }, some info) := by
  have hfind : findSlot s.table s.cap key (n + 1) (homeSlot s.cap key) =
      some (homeSlot s.cap key) := by
    simp only [findSlot, hentry, if_true]
  rw [← hcap] at hfind
  simp only [BigAllocMap.remove, hcap, Nat.succ_ne_zero, if_false]
  rw [← hcap, hfind]
  simp only [hentry]

theorem Churned.round (h : Churned keys mid) (hensure : s.ensureCapacity true = .ok mid)
    (hnew : homeSlot INITIAL_CAP key ∉ keys.map (homeSlot INITIAL_CAP)) :
    ∃ s₁ s₂, s.insert true key info = .ok s₁ ∧ s₁.len = 1 ∧ s₁.remove key = (s₂, some info) ∧
      Churned (key :: keys) s₂ := by
  have hempty : (mid.table (homeSlot mid.cap key)).state = .empty := by
    rw [h.cap, h.states, if_neg hnew]
  refine ⟨_, _, insert_of_empty (n := 16383) hensure h.cap hempty, congrArg (· + 1) h.len,
    remove_of_home (n := 16383) h.cap (update_self _ _ _), h.cap, ?_, ?_, fun i => ?_⟩
  · rw [Nat.add_sub_cancel]
    exact h.len
  · exact congrArg (· + 1) h.tombstones
  · dsimp only
    simp only [update_idem, List.map_cons, List.mem_cons, h.cap]
    by_cases hi : i = homeSlot INITIAL_CAP key
    · rw [hi, update_self, if_pos (Or.inl rfl)]
    · rw [update_of_ne hi, h.states]
      simp only [hi, false_or]

/-- With few tombstones the table is kept. -/
theorem Churned.ensureCapacity (h : Churned keys s) (hfew : keys.length ≤ 8192) :
    s.ensureCapacity true = .ok s := by
  have hroomy : (s.len + 1) * LOAD_DEN ≤ s.cap * LOAD_NUM ∧ s.tombstones * 2 ≤ s.cap := by
    rw [h.cap, h.len, h.tombstones]
    unfold INITIAL_CAP LOAD_DEN LOAD_NUM
    omega
  rw [BigAllocMap.ensureCapacity, if_neg (by rw [h.cap]; decide), if_pos hroomy]

theorem growLoop_of_free {old table : Table} {newCap : ℕ} (hfree : ∀ i, (old i).state ≠ .occupied)
    (n i : ℕ) : growLoop old newCap n i table = .ok table := by
  induction n generalizing i with
  | zero => rfl
  | succ n ih => rw [growLoop, if_neg (hfree i), ih]

/-- With more tombstones than that it is doubled, although it is empty. -/
theorem Churned.grow (h : Churned keys s) (hmany : 8192 < keys.length) :
    s.ensureCapacity true = .ok ⟨zeroedTable, 32768, 0, 0⟩ := by
  have hfull : ¬ ((s.len + 1) * LOAD_DEN ≤ s.cap * LOAD_NUM ∧ s.tombstones * 2 ≤ s.cap) := by
    rw [h.cap, h.tombstones]
    unfold INITIAL_CAP
    omega
  have hfree : ∀ i, (s.table i).state ≠ .occupied := by
    intro i
    rw [h.states]
    split <;> exact State.noConfusion
  rw [BigAllocMap.ensureCapacity, if_neg (by rw [h.cap]; decide), if_neg hfull, BigAllocMap.grow]
  simp only [growLoop_of_free hfree, h.cap, h.len]
  rfl

/-- The tracked map can go on with an insertion into the table of the tombstones. -/
structure Ready (keys : List ℕ) (t : Tracked) : Prop where
  table : ∃ mid, t.map.ensureCapacity true = .ok mid ∧ Churned keys mid
  peak : t.peak ≤ 1

theorem ready_start : Ready [] .start :=
  ⟨⟨⟨zeroedTable, INITIAL_CAP, 0, 0⟩, rfl, rfl, rfl, rfl, fun _ => rfl⟩, Nat.zero_le 1⟩

theorem Ready.round (h : Ready keys t)
    (hnew : homeSlot INITIAL_CAP key ∉ keys.map (homeSlot INITIAL_CAP)) :
    ∃ t', Interleaving.run trackedStep t [.insert key ⟨0, 100, 0, 0⟩ true, .remove key] = some t' ∧
      Churned (key :: keys) t'.map ∧ t'.peak ≤ 1 := by
  obtain ⟨mid, hensure, hmid⟩ := h.table
  have hpeak := h.peak
  obtain ⟨s₁, s₂, hinsert, hlen, hremove, hchurned⟩ :=
    @Churned.round _ _ key keys ⟨0, 100, 0, 0⟩ hmid hensure hnew
  refine ⟨⟨s₂, max (max t.peak s₁.len) s₂.len⟩, ?_, hchurned, ?_⟩
  · simp only [Interleaving.run, trackedStep, step, hinsert, hremove, Except.map, Except.toOption,
      Option.map_some, Option.bind_some]
  · have hempty := hchurned.len
    dsimp only
    omega

theorem Ready.churn (rest : List ℕ) (h : Ready keys t) (hfew : keys.length + rest.length ≤ 8192)
    (hnodup : ((rest.reverse ++ keys).map (homeSlot INITIAL_CAP)).Nodup) :
    ∃ t', Interleaving.run trackedStep t (churn rest) = some t' ∧
      Ready (rest.reverse ++ keys) t' := by
  induction rest generalizing keys t with
  | nil => exact ⟨t, rfl, h⟩
  | cons key rest ih =>
    rw [List.length_cons] at hfew
    simp only [List.reverse_cons, List.append_assoc, List.singleton_append] at hnodup ⊢
    have hnew : homeSlot INITIAL_CAP key ∉ keys.map (homeSlot INITIAL_CAP) := by
      rw [List.map_append, List.nodup_append, List.map_cons, List.nodup_cons] at hnodup
      exact hnodup.2.1.1
    obtain ⟨t₁, hround, hchurned, hpeak⟩ := h.round hnew
    have hready : Ready (key :: keys) t₁ :=
      ⟨⟨t₁.map, hchurned.ensureCapacity (by rw [List.length_cons]; omega), hchurned⟩, hpeak⟩
    obtain ⟨t', hrest, ht'⟩ := ih hready (by rw [List.length_cons]; omega) hnodup
    refine ⟨t', ?_, ht'⟩
    rw [HashmapRefinement.churn, List.flatMap_cons, Interleaving.run_append, hround]
    exact hrest

/-- After 8193 keys with different home slots that came and went one after the other, the next
insertion doubles the table, although it never has more than one block. -/
theorem churn_doubles {other : ℕ} (hlen : keys.length = 8192)
    (hnodup : ((keys ++ [key]).map (homeSlot INITIAL_CAP)).Nodup) :
    ∃ t, Interleaving.run trackedStep .start
        (churn (keys ++ [key]) ++ [.insert other ⟨0, 100, 0, 0⟩ true]) = some t ∧
      t.peak ≤ 1 ∧ t.map.cap = 32768 := by
  obtain ⟨hkeys, _, hdisjoint⟩ := List.nodup_append.mp (List.map_append ▸ hnodup)
  obtain ⟨t₁, hmany, hready⟩ := ready_start.churn keys (by rw [hlen]; decide)
    (by rwa [List.append_nil, List.map_reverse, List.nodup_reverse])
  rw [List.append_nil] at hready
  have hnew : homeSlot INITIAL_CAP key ∉ keys.reverse.map (homeSlot INITIAL_CAP) := by
    rw [List.map_reverse, List.mem_reverse]
    exact fun hin => hdisjoint _ hin _ (List.mem_cons_self) rfl
  obtain ⟨t₂, hlast, hchurned, hpeak⟩ := hready.round hnew
  have hgrow := hchurned.grow (by rw [List.length_cons, List.length_reverse, hlen]; decide)
  have hinsert := @insert_of_empty _ _ other 32767 ⟨0, 100, 0, 0⟩ hgrow rfl rfl
  refine ⟨⟨⟨update zeroedTable (homeSlot 32768 other) ⟨other, ⟨0, 100, 0, 0⟩, .occupied⟩,
    32768, 1, 0⟩, max t₂.peak 1⟩, ?_, by dsimp only; omega, rfl⟩
  have hrounds : churn (keys ++ [key]) =
      churn keys ++ [.insert key ⟨0, 100, 0, 0⟩ true, .remove key] := by
    rw [churn, churn, List.flatMap_append, List.flatMap_singleton]
  rw [hrounds, List.append_assoc, Interleaving.run_append, hmany, Option.bind_some,
    Interleaving.run_append, hlast, Option.bind_some]
  simp only [Interleaving.run, trackedStep, step, hinsert, Except.map, Except.toOption,
    Option.map_some, Option.bind_some, Nat.zero_add]

end Churn

/-- The keys with the home slots 0, ..., n - 1. -/
def spread (n : ℕ) : List ℕ := (List.range n).map unhash

theorem spread_succ (n : ℕ) : spread (n + 1) = spread n ++ [unhash n] := by
  rw [spread, List.range_succ, List.map_append, List.map_singleton, spread]

theorem spread_homes {n : ℕ} (hn : n ≤ INITIAL_CAP) :
    (spread n).map (homeSlot INITIAL_CAP) = List.range n := by
  induction n with
  | zero => rfl
  | succ n ih =>
    rw [spread_succ, List.map_append, ih (Nat.le_of_succ_le hn), List.map_singleton,
      homeSlot_unhash hn, List.range_succ]

theorem spread_nodup {n : ℕ} (hn : n + 1 ≤ INITIAL_CAP) :
    ((spread n ++ [unhash n]).map (homeSlot INITIAL_CAP)).Nodup := by
  rw [← spread_succ, spread_homes hn]
  exact List.nodup_range

theorem tombstones_double_the_table :
    ∃ t, Interleaving.run trackedStep .start
        (churn (spread 8193) ++ [.insert 0 ⟨0, 100, 0, 0⟩ true]) = some t ∧
      t.peak ≤ 1 ∧ ¬ t.map.cap ≤ max INITIAL_CAP (3 * (t.peak + 1)) := by
  have hlen : ∀ n, (spread n).length = n := by simp [spread]
  obtain ⟨t, hrun, hpeak, hcap⟩ := @churn_doubles _ _ 0 (hlen 8192) (spread_nodup (by decide))
  rw [← spread_succ] at hrun
  refine ⟨t, hrun, hpeak, ?_⟩
  rw [hcap]
  unfold INITIAL_CAP
  omega

end Oxidalloc.HashmapRefinement
