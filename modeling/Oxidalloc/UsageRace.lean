import Mathlib.Algebra.BigOperators.Intervals
import Mathlib.Algebra.Order.BigOperators.Group.Finset
import Mathlib.Data.Fintype.BigOperators
import Mathlib.Data.List.Perm.Subperm
import Oxidalloc.Interleaving
import Oxidalloc.Slab

/-!
The usage counters of the `InterConnectCache` while any number of threads run
`try_push` and `pop` on one class. An exchange of a head word moves blocks between a
list and a thread, and the update of the counter that belongs to it is a later step, so
in between the counter is wrong by the blocks of the unfinished calls. The exchange of a
pop is one step with the walk that precedes it. `get_size`, which the trim calls to run one
round for every 16 blocks, loads the counters of the shards one after the other, and blocks
can wander from shard to shard between two loads.
-/
namespace Oxidalloc.UsageRace

open Interleaving Function

/-- Where a thread stands. The callers of `try_push` pass the length of their chain. In
`get_size` the thread has the next shard, its sum so far and, which is no part of the program,
the number of blocks that were cached when the call began. -/
inductive Control where
  | idle
  | popUsage (cpu batch : ℕ)
  | popCas (cpu batch : ℕ)
  | popSub (cpu count : ℕ)
  | pushCas (cpu : ℕ) (chain : List ℕ)
  | pushAdd (cpu batch : ℕ)
  | sizing (cpu total start : ℕ)
  deriving DecidableEq, Repr

/-- The blocks of n threads at the start. Blocks are disjoint pieces of the address space,
so there are fewer of them than addresses. -/
structure Blocks (n : ℕ) where
  own : Fin n → List ℕ
  few : ∑ t, (own t).length < usizeBound

def Blocks.total {n : ℕ} (B : Blocks n) : ℕ := ∑ t, (B.own t).length

/-- A panic in the checked sum of `get_size` ends the process. The field `sizes` is no part of
the program: it lists the results of `get_size`, each with the number of blocks that were
cached when the call began. -/
structure State (n : ℕ) where
  list : ℕ → List ℕ
  usage : ℕ → ℕ
  control : Fin n → Control
  owned : Fin n → List ℕ
  sizes : List (ℕ × ℕ)
  halted : Option Halt

section System

variable {n : ℕ} (ncpu : ℕ)

def State.cached (s : State n) : ℕ := ∑ cpu ∈ Finset.range ncpu, (s.list cpu).length

def State.goto (s : State n) (t : Fin n) (c : Control) : State n :=
  { s with control := update s.control t c }

def State.setUsage (s : State n) (cpu usage : ℕ) : State n :=
  { s with usage := update s.usage cpu usage }

/-- An exchange of a head word gives a list to the shard and a list to the thread. -/
def State.exchange (s : State n) (t : Fin n) (cpu : ℕ) (list mine : List ℕ) : State n :=
  { s with
    list := update s.list cpu list
    owned := update s.owned t mine }

inductive Action (n : ℕ) where
  | pop (t : Fin n) (cpu batch : ℕ)
  | push (t : Fin n) (cpu : ℕ) (chain : List ℕ)
  | getSize (t : Fin n)
  | advance (t : Fin n)

/-- One load of `get_size`, or its return. -/
def sizeStep (s : State n) (t : Fin n) (cpu total start : ℕ) : State n :=
  if cpu < ncpu then
    if usizeBound ≤ total + s.usage cpu then { s with halted := some .panic }
    else s.goto t (.sizing (cpu + 1) (total + s.usage cpu) start)
  else { s with sizes := (total, start) :: s.sizes }.goto t .idle

def advance (s : State n) (t : Fin n) : Option (State n) :=
  match s.control t with
  | .idle => none
  | .popUsage cpu batch =>
    if s.usage cpu = 0 then some (s.goto t .idle) else some (s.goto t (.popCas cpu batch))
  | .popCas cpu batch =>
    if s.list cpu = [] then some (s.goto t .idle)
    else
      -- the loop `for _ in 1..batch_size` begins with one block in hand
      let count := min (max batch 1) (s.list cpu).length
      some ((s.exchange t cpu ((s.list cpu).drop count)
        ((s.list cpu).take count ++ s.owned t)).goto t (.popSub cpu count))
  | .popSub cpu count =>
    some ((s.setUsage cpu ((s.usage cpu + (usizeBound - count)) % usizeBound)).goto t .idle)
  | .pushCas cpu chain =>
    some ((s.exchange t cpu (chain ++ s.list cpu) ((s.owned t).diff chain)).goto t
      (.pushAdd cpu chain.length))
  | .pushAdd cpu batch =>
    some ((s.setUsage cpu ((s.usage cpu + batch) % usizeBound)).goto t .idle)
  | .sizing cpu total start => some (sizeStep ncpu s t cpu total start)

def step (s : State n) (a : Action n) : Option (State n) :=
  if s.halted.isSome then none
  else
    match a with
    | .pop t cpu batch =>
      if s.control t = .idle ∧ cpu < ncpu then some (s.goto t (.popUsage cpu batch)) else none
    | .push t cpu chain =>
      if s.control t = .idle ∧ cpu < ncpu ∧ chain.Subperm (s.owned t) then
        some (s.goto t (.pushCas cpu chain))
      else none
    | .getSize t =>
      if s.control t = .idle then some (s.goto t (.sizing 0 0 (s.cached ncpu))) else none
    | .advance t => advance ncpu s t

def initial (B : Blocks n) : State n :=
  ⟨fun _ => [], fun _ => 0, fun _ => .idle, B.own, [], none⟩

/-- Every counter is between 0 and the number of blocks in existence. -/
def UsageBounded (B : Blocks n) (s : State n) : Prop := ∀ cpu < ncpu, s.usage cpu ≤ B.total

/-- No call of `get_size` has counted more blocks than were cached when it began, so that the
trim, with a round for every 16 of them, makes no more rounds than that. -/
def SizesBounded (s : State n) : Prop := ∀ r ∈ s.sizes, r.1 ≤ r.2

end System

section Pending

/-- The blocks that a push has put into the list of a shard and not counted. -/
def added (cpu : ℕ) : Control → ℕ
  | .pushAdd cpu' batch => if cpu' = cpu then batch else 0
  | _ => 0

/-- The blocks that a pop has taken from the list of a shard and not counted. -/
def popped (cpu : ℕ) : Control → ℕ
  | .popSub cpu' count => if cpu' = cpu then count else 0
  | _ => 0

variable {n : ℕ}

def State.added (s : State n) (cpu : ℕ) : ℕ := ∑ t, UsageRace.added cpu (s.control t)

def State.popped (s : State n) (cpu : ℕ) : ℕ := ∑ t, UsageRace.popped cpu (s.control t)

/-- A pop that is about to exchange a head word finds all pushes to the shard counted. -/
def PushesCounted (s : State n) : Control → Prop
  | .popCas cpu _ => s.added cpu = 0
  | _ => True

instance PushesCounted.decidable (s : State n) : ∀ c, Decidable (PushesCounted s c)
  | .popCas cpu _ => inferInstanceAs (Decidable (s.added cpu = 0))
  | .idle | .popUsage .. | .popSub .. | .pushCas .. | .pushAdd .. | .sizing .. => isTrue trivial

def Counted (s : State n) : Action n → Prop
  | .advance t => PushesCounted s (s.control t)
  | _ => True

instance Counted.decidable (s : State n) : ∀ a, Decidable (Counted s a)
  | .advance t => PushesCounted.decidable s (s.control t)
  | .pop .. | .push .. | .getSize .. => isTrue trivial

def Control.Sizing : Control → Prop
  | .sizing .. => True
  | _ => False

instance Control.Sizing.decidable : ∀ c : Control, Decidable c.Sizing
  | .sizing .. => isTrue trivial
  | .idle | .popUsage .. | .popCas .. | .popSub .. | .pushCas .. | .pushAdd .. => isFalse id

/-- A push that is about to exchange a head word finds no `get_size` under way. -/
def NoneSizing (s : State n) : Control → Prop
  | .pushCas _ _ => ∀ u, ¬ (s.control u).Sizing
  | _ => True

instance NoneSizing.decidable (s : State n) : ∀ c, Decidable (NoneSizing s c)
  | .pushCas _ _ => inferInstanceAs (Decidable (∀ u, ¬ (s.control u).Sizing))
  | .idle | .popUsage .. | .popCas .. | .popSub .. | .pushAdd .. | .sizing .. => isTrue trivial

/-- A call of `get_size` begins while all pops are counted, and no block comes into a list
before it ends. -/
def Undisturbed (ncpu : ℕ) (s : State n) : Action n → Prop
  | .advance t => NoneSizing s (s.control t)
  | .getSize _ => ∀ cpu < ncpu, s.popped cpu = 0
  | _ => True

instance Undisturbed.decidable (ncpu : ℕ) (s : State n) : ∀ a, Decidable (Undisturbed ncpu s a)
  | .advance t => NoneSizing.decidable s (s.control t)
  | .getSize _ => inferInstanceAs (Decidable (∀ cpu < ncpu, s.popped cpu = 0))
  | .pop .. | .push .. => isTrue trivial

/-- One summand is replaced by another. -/
theorem sum_update {α : Type*} (f : α → ℕ) (c : Fin n → α) (t : Fin n) (x : α) :
    ∑ u, f (update c t x u) + f (c t) = ∑ u, f (c u) + f x := by
  have hsplit : ∀ g : Fin n → ℕ, ∑ u, g u = g t + ∑ u ∈ Finset.univ.erase t, g u := fun g =>
    (Finset.add_sum_erase Finset.univ g (Finset.mem_univ t)).symm
  have hrest : ∑ u ∈ Finset.univ.erase t, f (update c t x u) =
      ∑ u ∈ Finset.univ.erase t, f (c u) := by
    refine Finset.sum_congr rfl fun u hu => ?_
    rw [update_of_ne (Finset.ne_of_mem_erase hu)]
  rw [hsplit fun u => f (update c t x u), hsplit fun u => f (c u), hrest,
    update_self]
  omega

theorem range_sum_update {ncpu cpu : ℕ} (hcpu : cpu < ncpu) (list : ℕ → List ℕ) (l : List ℕ) :
    ∑ i ∈ Finset.range ncpu, (update list cpu l i).length + (list cpu).length =
      ∑ i ∈ Finset.range ncpu, (list i).length + l.length := by
  have hmem : cpu ∈ Finset.range ncpu := Finset.mem_range.mpr hcpu
  have hsplit : ∀ g : ℕ → ℕ, ∑ i ∈ Finset.range ncpu, g i =
      g cpu + ∑ i ∈ (Finset.range ncpu).erase cpu, g i := fun g =>
    (Finset.add_sum_erase _ g hmem).symm
  have hrest : ∑ i ∈ (Finset.range ncpu).erase cpu, (update list cpu l i).length =
      ∑ i ∈ (Finset.range ncpu).erase cpu, (list i).length := by
    refine Finset.sum_congr rfl fun i hi => ?_
    rw [update_of_ne (Finset.ne_of_mem_erase hi)]
  rw [hsplit fun i => (update list cpu l i).length, hsplit fun i => (list i).length,
    hrest, update_self]
  omega

theorem State.added_goto (s : State n) (t : Fin n) (c : Control) (cpu : ℕ) :
    (s.goto t c).added cpu + UsageRace.added cpu (s.control t) =
      s.added cpu + UsageRace.added cpu c :=
  sum_update (UsageRace.added cpu) s.control t c

theorem State.popped_goto (s : State n) (t : Fin n) (c : Control) (cpu : ℕ) :
    (s.goto t c).popped cpu + UsageRace.popped cpu (s.control t) =
      s.popped cpu + UsageRace.popped cpu c :=
  sum_update (UsageRace.popped cpu) s.control t c

end Pending

section Invariant

variable {n : ℕ} (ncpu : ℕ)

/-- What the place of a thread says about the blocks it owns. -/
def Consistent (owned : List ℕ) : Control → Prop
  | .idle => True
  | .popUsage cpu _ => cpu < ncpu
  | .popCas cpu _ => cpu < ncpu
  | .popSub cpu count => cpu < ncpu ∧ count ≤ owned.length
  | .pushCas cpu chain => cpu < ncpu ∧ chain.Subperm owned
  | .pushAdd cpu _ => cpu < ncpu
  | .sizing .. => True

/-- A counter differs from the length of its list by the unfinished calls, and the blocks
that are not yet counted are all still in the list. -/
structure Balanced (B : Blocks n) (s : State n) : Prop where
  balance : ∀ cpu, s.usage cpu + s.added cpu = (s.list cpu).length + s.popped cpu
  uncounted : ∀ cpu, s.added cpu ≤ (s.list cpu).length
  conserved : s.cached ncpu + ∑ t, (s.owned t).length = B.total
  threads : ∀ t, Consistent ncpu (s.owned t) (s.control t)

variable {ncpu}

variable {B : Blocks n} {s : State n} {t : Fin n}

/-- A popping thread owns the blocks it has still to count. -/
theorem popped_le (h : Balanced ncpu B s) (t : Fin n) :
    ∑ cpu ∈ Finset.range ncpu, popped cpu (s.control t) ≤ (s.owned t).length := by
  have ht := h.threads t
  cases hc : s.control t with
  | popSub cpu count =>
    rw [hc] at ht
    have hsum : ∑ i ∈ Finset.range ncpu, popped i (.popSub cpu count) = count := by
      simp only [popped]
      rw [Finset.sum_ite_eq (Finset.range ncpu) cpu fun _ => count,
        if_pos (Finset.mem_range.mpr ht.1)]
    rw [hsum]
    exact ht.2
  | idle | popUsage cpu batch | popCas cpu batch | pushCas cpu chain | pushAdd cpu batch
  | sizing cpu total start =>
    simp [popped]

theorem usage_sum (h : Balanced ncpu B s) :
    ∑ cpu ∈ Finset.range ncpu, s.usage cpu + ∑ cpu ∈ Finset.range ncpu, s.added cpu =
      s.cached ncpu + ∑ cpu ∈ Finset.range ncpu, s.popped cpu := by
  rw [State.cached, ← Finset.sum_add_distrib, ← Finset.sum_add_distrib]
  exact Finset.sum_congr rfl fun cpu _ => h.balance cpu

theorem usage_sum_le (h : Balanced ncpu B s) :
    ∑ cpu ∈ Finset.range ncpu, s.usage cpu ≤ B.total := by
  have hsum := usage_sum h
  have hpopped : ∑ cpu ∈ Finset.range ncpu, s.popped cpu ≤ ∑ t, (s.owned t).length := by
    unfold State.popped
    rw [Finset.sum_comm]
    exact Finset.sum_le_sum fun t _ => popped_le h t
  have hconserved := h.conserved
  omega

theorem Balanced.usageBounded (h : Balanced ncpu B s) : UsageBounded ncpu B s :=
  fun _ hcpu =>
    (Finset.single_le_sum (fun _ _ => Nat.zero_le _) (Finset.mem_range.mpr hcpu)).trans
      (usage_sum_le h)

theorem Balanced.consistent {c : Control} {mine : List ℕ} (h : Balanced ncpu B s)
    (hc : Consistent ncpu mine c) (u : Fin n) :
    Consistent ncpu (update s.owned t mine u) (update s.control t c u) := by
  by_cases hu : u = t
  · subst hu
    rw [update_self, update_self]
    exact hc
  · rw [update_of_ne hu, update_of_ne hu]
    exact h.threads u

/-- A step that changes only the place of a thread, between two places without
uncounted blocks. -/
theorem Balanced.goto {c : Control} (h : Balanced ncpu B s)
    (hold : ∀ cpu, added cpu (s.control t) = 0 ∧ popped cpu (s.control t) = 0)
    (hnew : ∀ cpu, added cpu c = 0 ∧ popped cpu c = 0) (hc : Consistent ncpu (s.owned t) c) :
    Balanced ncpu B (s.goto t c) := by
  have hadded : ∀ cpu, (s.goto t c).added cpu = s.added cpu := by
    intro cpu
    have hsum := s.added_goto t c cpu
    rw [(hold cpu).1, (hnew cpu).1] at hsum
    exact hsum
  have hpopped : ∀ cpu, (s.goto t c).popped cpu = s.popped cpu := by
    intro cpu
    have hsum := s.popped_goto t c cpu
    rw [(hold cpu).2, (hnew cpu).2] at hsum
    exact hsum
  refine ⟨fun cpu => ?_, fun cpu => ?_, h.conserved, fun u => ?_⟩
  · rw [hadded, hpopped]
    exact h.balance cpu
  · rw [hadded]
    exact h.uncounted cpu
  · have hu := h.consistent (t := t) hc u
    rwa [update_eq_self] at hu

/-- An exchange of the head word of a shard: what the list loses the thread gets, and
the difference is noted at the new place of the thread. -/
theorem Balanced.exchange {c : Control} {cpu : ℕ} {l mine : List ℕ} (h : Balanced ncpu B s)
    (hcpu : cpu < ncpu) (hold : ∀ i, added i (s.control t) = 0 ∧ popped i (s.control t) = 0)
    (hother : ∀ i, i ≠ cpu → added i c = 0 ∧ popped i c = 0)
    (hlist : l.length + popped cpu c = (s.list cpu).length + added cpu c)
    (huncounted : s.added cpu + added cpu c ≤ l.length)
    (hmine : mine.length + l.length = (s.owned t).length + (s.list cpu).length)
    (hc : Consistent ncpu mine c) : Balanced ncpu B ((s.exchange t cpu l mine).goto t c) := by
  have hadded : ∀ i, ((s.exchange t cpu l mine).goto t c).added i = s.added i + added i c := by
    intro i
    have hsum := s.added_goto t c i
    rw [(hold i).1] at hsum
    exact hsum
  have hpopped : ∀ i, ((s.exchange t cpu l mine).goto t c).popped i = s.popped i + popped i c := by
    intro i
    have hsum := s.popped_goto t c i
    rw [(hold i).2] at hsum
    exact hsum
  have hlength : ∀ i, (update s.list cpu l i).length =
      if i = cpu then l.length else (s.list i).length := by
    intro i
    rw [update_apply]
    split <;> rfl
  refine ⟨fun i => ?_, fun i => ?_, ?_, h.consistent hc⟩
  · rw [hadded, hpopped]
    show s.usage i + _ = (update s.list cpu l i).length + _
    rw [hlength]
    have hbalance := h.balance i
    split
    · rename_i hi
      subst hi
      omega
    · rename_i hi
      rw [(hother i hi).1, (hother i hi).2]
      exact hbalance
  · rw [hadded]
    show _ ≤ (update s.list cpu l i).length
    rw [hlength]
    split
    · rename_i hi
      subst hi
      exact huncounted
    · rename_i hi
      rw [(hother i hi).1]
      exact h.uncounted i
  · have hlists := range_sum_update hcpu s.list l
    have howned := sum_update List.length s.owned t mine
    have hconserved := h.conserved
    show ∑ i ∈ Finset.range ncpu, (update s.list cpu l i).length +
      ∑ u, (update s.owned t mine u).length = B.total
    unfold State.cached at hconserved
    omega

/-- The update of a counter ends the call of a thread. -/
theorem Balanced.count {cpu usage : ℕ} (h : Balanced ncpu B s)
    (hother : ∀ i, i ≠ cpu → added i (s.control t) = 0 ∧ popped i (s.control t) = 0)
    (husage : usage + popped cpu (s.control t) = s.usage cpu + added cpu (s.control t)) :
    Balanced ncpu B ((s.setUsage cpu usage).goto t .idle) := by
  have hadded : ∀ i, ((s.setUsage cpu usage).goto t .idle).added i + added i (s.control t) =
      s.added i := fun i => s.added_goto t .idle i
  have hpopped : ∀ i, ((s.setUsage cpu usage).goto t .idle).popped i + popped i (s.control t) =
      s.popped i := fun i => s.popped_goto t .idle i
  refine ⟨fun i => ?_, fun i => ?_, h.conserved, fun u => ?_⟩
  · have hbalance := h.balance i
    have ha := hadded i
    have hp := hpopped i
    show update s.usage cpu usage i + _ = (s.list i).length + _
    rw [update_apply]
    split
    · rename_i hi
      subst hi
      omega
    · rename_i hi
      rw [(hother i hi).1] at ha
      rw [(hother i hi).2] at hp
      omega
  · have ha := hadded i
    have huncounted := h.uncounted i
    show _ ≤ (s.list i).length
    omega
  · have hidle : Consistent ncpu (s.owned t) .idle := trivial
    have hu := h.consistent (t := t) hidle u
    rwa [update_eq_self] at hu

end Invariant

section Steps

variable {n ncpu : ℕ} {B : Blocks n} {s s' : State n} {t : Fin n}

/-- A pop takes its blocks while every block of the list is counted. -/
theorem popCas_preserves {cpu batch : ℕ} (h : Balanced ncpu B s)
    (hc : s.control t = .popCas cpu batch) (hok : s.added cpu = 0) :
    Balanced ncpu B ((s.exchange t cpu ((s.list cpu).drop (min (max batch 1) (s.list cpu).length))
      ((s.list cpu).take (min (max batch 1) (s.list cpu).length) ++ s.owned t)).goto t
      (.popSub cpu (min (max batch 1) (s.list cpu).length))) := by
  have hcpu := h.threads t
  rw [hc] at hcpu
  have hcount : min (max batch 1) (s.list cpu).length ≤ (s.list cpu).length := Nat.min_le_right _ _
  generalize min (max batch 1) (s.list cpu).length = count at hcount
  have hdrop : ((s.list cpu).drop count).length = (s.list cpu).length - count := List.length_drop
  have htake : ((s.list cpu).take count ++ s.owned t).length = count + (s.owned t).length := by
    rw [List.length_append, List.length_take, Nat.min_eq_left hcount]
  have hpopped : popped cpu (.popSub cpu count) = count := if_pos rfl
  refine h.exchange hcpu (fun i => by rw [hc]; exact ⟨rfl, rfl⟩)
    (fun i hi => ⟨rfl, if_neg hi.symm⟩) ?_ ?_ ?_ ⟨hcpu, ?_⟩
  · rw [hdrop, hpopped]
    show _ = _ + 0
    omega
  · rw [hok]
    exact Nat.zero_le _
  · rw [htake, hdrop]
    omega
  · rw [htake]
    omega

theorem pushCas_preserves {cpu : ℕ} {chain : List ℕ} (h : Balanced ncpu B s)
    (hc : s.control t = .pushCas cpu chain) :
    Balanced ncpu B ((s.exchange t cpu (chain ++ s.list cpu) ((s.owned t).diff chain)).goto t
      (.pushAdd cpu chain.length)) := by
  have ht := h.threads t
  rw [hc] at ht
  obtain ⟨hcpu, hown⟩ := ht
  have hdiff : ((s.owned t).diff chain).length + chain.length = (s.owned t).length := by
    have hperm := (List.subperm_append_diff_self_of_count_le
      (List.subperm_ext_iff.mp hown)).length_eq
    rw [List.length_append] at hperm
    omega
  have hadded : added cpu (.pushAdd cpu chain.length) = chain.length := if_pos rfl
  have huncounted := h.uncounted cpu
  refine h.exchange hcpu (fun i => by rw [hc]; exact ⟨rfl, rfl⟩)
    (fun i hi => ⟨if_neg hi.symm, rfl⟩) ?_ ?_ ?_ hcpu
  · rw [hadded, List.length_append]
    show _ + 0 = _
    omega
  · rw [hadded, List.length_append]
    omega
  · rw [List.length_append]
    omega

/-- The counter covers the blocks of the pop, so the subtraction does not wrap around. -/
theorem popSub_preserves {cpu count : ℕ} (h : Balanced ncpu B s)
    (hc : s.control t = .popSub cpu count) :
    Balanced ncpu B ((s.setUsage cpu
      ((s.usage cpu + (usizeBound - count)) % usizeBound)).goto t .idle) := by
  have hcpu := (hc ▸ h.threads t : Consistent ncpu (s.owned t) (.popSub cpu count)).1
  have hpopped : popped cpu (s.control t) = count := by
    rw [hc]
    exact if_pos rfl
  have hle : count ≤ s.popped cpu := by
    rw [← hpopped]
    exact Finset.single_le_sum (f := fun u => popped cpu (s.control u)) (fun _ _ => Nat.zero_le _)
      (Finset.mem_univ t)
  have hbalance := h.balance cpu
  have huncounted := h.uncounted cpu
  have hlt := Nat.lt_of_le_of_lt (h.usageBounded cpu hcpu) B.few
  have hsub : (s.usage cpu + (usizeBound - count)) % usizeBound = s.usage cpu - count := by
    have heq : s.usage cpu + (usizeBound - count) = s.usage cpu - count + usizeBound := by omega
    rw [heq, Nat.add_mod_right, Nat.mod_eq_of_lt (by omega)]
  rw [hsub]
  refine h.count (fun i hi => ?_) ?_
  · rw [hc]
    exact ⟨rfl, if_neg hi.symm⟩
  · rw [hpopped, hc]
    show _ = _ + 0
    omega

theorem pushAdd_preserves {cpu batch : ℕ} (h : Balanced ncpu B s)
    (hc : s.control t = .pushAdd cpu batch) :
    Balanced ncpu B ((s.setUsage cpu ((s.usage cpu + batch) % usizeBound)).goto t .idle) := by
  have hcpu : cpu < ncpu := by
    have ht := h.threads t
    rw [hc] at ht
    exact ht
  have hadded : added cpu (s.control t) = batch := by
    rw [hc]
    exact if_pos rfl
  have hcount : Balanced ncpu B ((s.setUsage cpu (s.usage cpu + batch)).goto t .idle) := by
    refine h.count (fun i hi => ?_) ?_
    · rw [hc]
      exact ⟨if_neg hi.symm, rfl⟩
    · rw [hadded, hc]
      rfl
  have hle : update s.usage cpu (s.usage cpu + batch) cpu ≤ B.total :=
    hcount.usageBounded cpu hcpu
  rw [update_self] at hle
  rw [Nat.mod_eq_of_lt (Nat.lt_of_le_of_lt hle B.few)]
  exact hcount

theorem advance_preserves (h : Balanced ncpu B s) (hok : Counted s (.advance t))
    (hstep : advance ncpu s t = some s') : Balanced ncpu B s' := by
  have ht := h.threads t
  have hzero : ∀ {c : Control}, s.control t = c →
      (∀ i, added i c = 0 ∧ popped i c = 0) → ∀ i, added i (s.control t) = 0 ∧
        popped i (s.control t) = 0 := fun heq hc => heq ▸ hc
  unfold advance at hstep
  cases hc : s.control t with
  | idle => simp [hc] at hstep
  | popUsage cpu batch =>
    rw [hc] at ht
    simp only [hc] at hstep
    split at hstep
    · rw [← Option.some.inj hstep]
      exact h.goto (hzero hc fun _ => ⟨rfl, rfl⟩) (fun _ => ⟨rfl, rfl⟩) trivial
    · rw [← Option.some.inj hstep]
      exact h.goto (hzero hc fun _ => ⟨rfl, rfl⟩) (fun _ => ⟨rfl, rfl⟩) ht
  | popCas cpu batch =>
    have hcounted : PushesCounted s (.popCas cpu batch) := hc ▸ hok
    simp only [hc] at hstep
    split at hstep
    · rw [← Option.some.inj hstep]
      exact h.goto (hzero hc fun _ => ⟨rfl, rfl⟩) (fun _ => ⟨rfl, rfl⟩) trivial
    · rw [← Option.some.inj hstep]
      exact popCas_preserves h hc hcounted
  | popSub cpu count =>
    simp only [hc] at hstep
    rw [← Option.some.inj hstep]
    exact popSub_preserves h hc
  | pushCas cpu chain =>
    simp only [hc] at hstep
    rw [← Option.some.inj hstep]
    exact pushCas_preserves h hc
  | pushAdd cpu batch =>
    simp only [hc] at hstep
    rw [← Option.some.inj hstep]
    exact pushAdd_preserves h hc
  | sizing cpu total start =>
    simp only [hc] at hstep
    rw [← Option.some.inj hstep]
    unfold sizeStep
    split_ifs
    · exact ⟨h.balance, h.uncounted, h.conserved, h.threads⟩
    · exact h.goto (hzero hc fun _ => ⟨rfl, rfl⟩) (fun _ => ⟨rfl, rfl⟩) trivial
    · have hsizes : Balanced ncpu B { s with sizes := (total, start) :: s.sizes } :=
        ⟨h.balance, h.uncounted, h.conserved, h.threads⟩
      exact hsizes.goto (hzero hc fun _ => ⟨rfl, rfl⟩) (fun _ => ⟨rfl, rfl⟩) trivial

theorem step_preserves {a : Action n} (h : Balanced ncpu B s) (hok : Counted s a)
    (hstep : step ncpu s a = some s') : Balanced ncpu B s' := by
  unfold step at hstep
  split at hstep
  · contradiction
  · cases a with
    | pop t cpu batch =>
      dsimp only at hstep
      split at hstep
      · rename_i hidle
        rw [← Option.some.inj hstep]
        refine h.goto (fun _ => ?_) (fun _ => ⟨rfl, rfl⟩) hidle.2
        rw [hidle.1]
        exact ⟨rfl, rfl⟩
      · contradiction
    | push t cpu chain =>
      dsimp only at hstep
      split at hstep
      · rename_i hidle
        rw [← Option.some.inj hstep]
        refine h.goto (fun _ => ?_) (fun _ => ⟨rfl, rfl⟩) hidle.2
        rw [hidle.1]
        exact ⟨rfl, rfl⟩
      · contradiction
    | getSize t =>
      dsimp only at hstep
      split at hstep
      · rename_i hidle
        rw [← Option.some.inj hstep]
        refine h.goto (fun _ => ?_) (fun _ => ⟨rfl, rfl⟩) trivial
        rw [hidle]
        exact ⟨rfl, rfl⟩
      · contradiction
    | advance t => exact advance_preserves h hok hstep

end Steps

section Sizes

variable {n ncpu : ℕ} {B : Blocks n} {s s' : State n} {t : Fin n}

/-- A step outside of `get_size`. While a `get_size` is under way no shard gets more blocks,
those of unfinished pushes included. -/
structure Outside (ncpu : ℕ) (s : State n) (a : Action n) (s' : State n) : Prop where
  sizes : s'.sizes = s.sizes
  halted : s'.halted = s.halted
  control : ∀ u, s'.control u = s.control u ∨ ¬ (s'.control u).Sizing
  fewer : Undisturbed ncpu s a → (∃ u, (s.control u).Sizing) →
    ∀ cpu, s'.usage cpu + s'.added cpu ≤ s.usage cpu + s.added cpu

theorem control_goto {c : Control} (hc : ¬ c.Sizing) (u : Fin n) :
    (s.goto t c).control u = s.control u ∨ ¬ ((s.goto t c).control u).Sizing := by
  by_cases hu : u = t
  · subst hu
    exact Or.inr (by simpa [State.goto] using hc)
  · exact Or.inl (by simp [State.goto, hu])

theorem Outside.goto {a : Action n} {c : Control} (hc : ¬ c.Sizing)
    (hold : ∀ cpu, added cpu (s.control t) = 0) (hnew : ∀ cpu, added cpu c = 0) :
    Outside ncpu s a (s.goto t c) := by
  refine ⟨rfl, rfl, control_goto hc, fun _ _ cpu => ?_⟩
  have hsum := s.added_goto t c cpu
  rw [hold, hnew] at hsum
  exact Nat.le_of_eq (congrArg (s.usage cpu + ·) hsum)

/-- The update of a counter counts no block that its shard had not got before. -/
theorem Outside.count {a : Action n} {cpu usage : ℕ} (h : Balanced ncpu B s)
    (h' : Balanced ncpu B ((s.setUsage cpu usage).goto t .idle)) :
    Outside ncpu s a ((s.setUsage cpu usage).goto t .idle) := by
  refine ⟨rfl, rfl, control_goto id, fun _ _ i => ?_⟩
  rw [h.balance i, h'.balance i]
  exact Nat.add_le_add_left (Nat.le.intro (s.popped_goto t .idle i)) _

theorem advance_outside (h : Balanced ncpu B s) (h' : Balanced ncpu B s')
    (hc : ¬ (s.control t).Sizing) (hstep : advance ncpu s t = some s') :
    Outside ncpu s (.advance t) s' := by
  unfold advance at hstep
  cases ht : s.control t with
  | idle => simp [ht] at hstep
  | popUsage cpu batch =>
    simp only [ht] at hstep
    split at hstep
    · rw [← Option.some.inj hstep]
      exact Outside.goto id (fun _ => by rw [ht]; rfl) fun _ => rfl
    · rw [← Option.some.inj hstep]
      exact Outside.goto id (fun _ => by rw [ht]; rfl) fun _ => rfl
  | popCas cpu batch =>
    simp only [ht] at hstep
    split at hstep
    · rw [← Option.some.inj hstep]
      exact Outside.goto id (fun _ => by rw [ht]; rfl) fun _ => rfl
    · rw [← Option.some.inj hstep]
      have hgoto := @Outside.goto n ncpu s t (.advance t)
        (.popSub cpu (min (max batch 1) (s.list cpu).length)) id (fun _ => by rw [ht]; rfl)
        fun _ => rfl
      exact ⟨rfl, rfl, hgoto.control, hgoto.fewer⟩
  | popSub cpu count =>
    simp only [ht] at hstep
    rw [← Option.some.inj hstep] at h' ⊢
    exact Outside.count h h'
  | pushCas cpu chain =>
    simp only [ht] at hstep
    rw [← Option.some.inj hstep]
    refine ⟨rfl, rfl, control_goto id, fun hok hsizing => ?_⟩
    obtain ⟨u, hu⟩ := hsizing
    have hnone : NoneSizing s (.pushCas cpu chain) := ht ▸ hok
    exact absurd hu (hnone u)
  | pushAdd cpu batch =>
    simp only [ht] at hstep
    rw [← Option.some.inj hstep] at h' ⊢
    exact Outside.count h h'
  | sizing cpu total start =>
    rw [ht] at hc
    exact absurd trivial hc

/-- A step begins a `get_size`, goes on in one, or is outside of them. -/
theorem step_cases {a : Action n} (h : Balanced ncpu B s) (hok : Counted s a)
    (hstep : step ncpu s a = some s') :
    (∃ t, a = .getSize t ∧ s.control t = .idle ∧
      s' = s.goto t (.sizing 0 0 (s.cached ncpu))) ∨
    (∃ t cpu total start, s.control t = .sizing cpu total start ∧
      s' = sizeStep ncpu s t cpu total start) ∨
    Outside ncpu s a s' := by
  have h' := step_preserves h hok hstep
  unfold step at hstep
  split at hstep
  · contradiction
  · cases a with
    | pop t cpu batch =>
      dsimp only at hstep
      split at hstep
      · rename_i hidle
        rw [← Option.some.inj hstep]
        exact Or.inr (Or.inr (Outside.goto id (fun _ => by rw [hidle.1]; rfl) fun _ => rfl))
      · contradiction
    | push t cpu chain =>
      dsimp only at hstep
      split at hstep
      · rename_i hidle
        rw [← Option.some.inj hstep]
        exact Or.inr (Or.inr (Outside.goto id (fun _ => by rw [hidle.1]; rfl) fun _ => rfl))
      · contradiction
    | getSize t =>
      dsimp only at hstep
      split at hstep
      · rename_i hidle
        exact Or.inl ⟨t, rfl, hidle, (Option.some.inj hstep).symm⟩
      · contradiction
    | advance t =>
      by_cases hc : (s.control t).Sizing
      · cases ht : s.control t with
        | sizing cpu total start =>
          refine Or.inr (Or.inl ⟨t, cpu, total, start, ht, ?_⟩)
          simp only [advance, ht] at hstep
          exact (Option.some.inj hstep).symm
        | idle | popUsage cpu batch | popCas cpu batch | popSub cpu count | pushCas cpu chain
        | pushAdd cpu batch =>
          rw [ht] at hc
          exact hc.elim
      · exact Or.inr (Or.inr (advance_outside h h' hc hstep))

/-- What is said of every `get_size` under way. -/
def Sizes (P : ℕ → ℕ → ℕ → Prop) (s : State n) : Prop :=
  ∀ t cpu total start, s.control t = .sizing cpu total start → P cpu total start

theorem Sizes.outside {P : ℕ → ℕ → ℕ → Prop} {a : Action n} (h : Sizes P s)
    (hout : Outside ncpu s a s') : Sizes P s' := by
  intro t cpu total start hc
  rcases hout.control t with heq | hnone
  · exact h t cpu total start (heq ▸ hc)
  · rw [hc] at hnone
    exact absurd trivial hnone

theorem Sizes.goto {P : ℕ → ℕ → ℕ → Prop} {c : Control} (h : Sizes P s)
    (hc : ∀ cpu total start, c = .sizing cpu total start → P cpu total start) :
    Sizes P (s.goto t c) := by
  intro u cpu total start hu
  by_cases hut : u = t
  · subst hut
    exact hc cpu total start (by simpa [State.goto] using hu)
  · exact h u cpu total start (by simpa [State.goto, hut] using hu)

/-- What the shards from cpu on can still add to a sum, unfinished pushes included. -/
def State.ahead (s : State n) (ncpu cpu : ℕ) : ℕ :=
  ∑ i ∈ Finset.Ico cpu ncpu, (s.usage i + s.added i)

/-- The sums, with what is ahead of those under way, come from blocks that were cached when
the call began. -/
structure Scanned (ncpu : ℕ) (s : State n) : Prop where
  rounds : SizesBounded s
  scans : Sizes (fun cpu total start => total + s.ahead ncpu cpu ≤ start) s

theorem ahead_goto {c : Control} (hold : ∀ cpu, added cpu (s.control t) = 0)
    (hnew : ∀ cpu, added cpu c = 0) (cpu : ℕ) : (s.goto t c).ahead ncpu cpu = s.ahead ncpu cpu := by
  refine Finset.sum_congr rfl fun i _ => ?_
  have hsum := s.added_goto t c i
  rw [hold, hnew] at hsum
  exact congrArg (s.usage i + ·) hsum

/-- A load takes over what its shard had ahead. -/
theorem Scanned.load {cpu total start : ℕ} (h : Scanned ncpu s)
    (hc : s.control t = .sizing cpu total start) :
    Scanned ncpu (sizeStep ncpu s t cpu total start) := by
  have hscan := h.scans t cpu total start hc
  have hzero : ∀ i, added i (s.control t) = 0 := fun i => by rw [hc]; rfl
  unfold sizeStep
  split_ifs with hcpu
  · exact ⟨h.rounds, h.scans⟩
  · have hsplit : s.ahead ncpu cpu = s.usage cpu + s.added cpu + s.ahead ncpu (cpu + 1) :=
      Finset.sum_eq_sum_Ico_succ_bot hcpu _
    have hahead := @ahead_goto n ncpu s t
      (.sizing (cpu + 1) (total + s.usage cpu) start) hzero fun _ => rfl
    refine ⟨h.rounds, ?_⟩
    simp only [hahead]
    refine h.scans.goto fun cpu' total' start' heq => ?_
    obtain ⟨rfl, rfl, rfl⟩ : cpu + 1 = cpu' ∧ total + s.usage cpu = total' ∧ start = start' := by
      simpa using heq
    omega
  · refine ⟨?_, ?_⟩
    · show ∀ r ∈ (total, start) :: s.sizes, r.1 ≤ r.2
      rw [List.forall_mem_cons]
      exact ⟨(Nat.le_add_right ..).trans hscan, h.rounds⟩
    · have hkept : Sizes (fun cpu total start => total + s.ahead ncpu cpu ≤ start)
          { s with sizes := (total, start) :: s.sizes } := h.scans
      have hahead := @ahead_goto n ncpu { s with sizes := (total, start) :: s.sizes } t .idle hzero
        fun _ => rfl
      simp only [hahead]
      refine hkept.goto fun _ _ _ heq => ?_
      contradiction

end Sizes

instance neZero_three : NeZero 3 := ⟨by decide⟩

def pushAll (t : Fin 3) (chain : List ℕ) : List (Action 3) :=
  [.push t 0 chain, .advance t, .advance t]

/-- Two pushes, and a `get_size` of the second thread, in the midst of which the third thread
pops two blocks of a shard that is loaded already. -/
def quiet : List (Action 3) :=
  pushAll 0 [16, 48] ++ pushAll 1 [32] ++
    [.getSize 1, .advance 1, .pop 2 0 2, .advance 2, .advance 2, .advance 2, .advance 1,
      .advance 1]

/-- The block 32 is counted. The chain of the first thread is in the list and not yet
counted when the third thread pops all three blocks and subtracts them. -/
def early : List (Action 3) :=
  pushAll 1 [32] ++ [.push 0 0 [16, 48], .advance 0, .pop 2 0 3, .advance 2, .advance 2, .advance 2]

end Oxidalloc.UsageRace
