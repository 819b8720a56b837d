import Oxidalloc.Interleaving
import Oxidalloc.KernelVa
import Oxidalloc.LinkedChain

/-!
Concurrent calls of `VaBitmap::grow`. The actions are the exchange of the lock
word, the explicit `unlock`, the store of the `_LockGuard` drop, and between them
every access to `BASE_HINT`, `self.map` and the other shared words that `grow` and
`get_va_from_kernel` touch. The kernel's answer to a mapping request, or the random
number, comes with the action. A call that aborts or panics has no next action.

`mapped` and `returned` are not in the code: the segment pointers handed out by
the kernel so far, and those for which `grow` returned `Some`.
-/
namespace Oxidalloc.GrowRace

open Interleaving KernelVa LinkedChain Function

abbrev Tid := ℕ

inductive Control where
  | idle
  | lock
  | radixInit
  | kernel (place : Place)
  | collision (va size : ℕ)
  | mapMmap (va size : ℕ)
  | claimMmap (va size : ℕ)
  | segMmap (va size : ℕ)
  | headLoad (va size seg : ℕ)
  | segWrite (va size seg oldHead : ℕ)
  | setRange (va size seg : ℕ)
  | mapStore (seg : ℕ)
  | unlock (result : Option ℕ)
  | dropGuard (result : Option ℕ)
  deriving DecidableEq, Repr

structure State where
  lock : Bool
  radix : Option Radix
  map : ℕ
  next : ℕ → ℕ
  statics : Statics
  control : Tid → Control
  mapped : List ℕ
  returned : List ℕ

def State.goto (s : State) (t : Tid) (c : Control) : State :=
  { s with control := update s.control t c }

inductive Action where
  | grow (t : Tid)
  | advance (t : Tid) (answer : Option ℕ)
  deriving DecidableEq, Repr

/-- The size of the bitmap of a reservation: `map_bytes`. -/
def mapBytes (size : ℕ) : ℕ := (size / 4096 + 63) / 64 * 8

/-- The kernel refuses a mapping of length zero. -/
def mmapResult (len : ℕ) (answer : Option ℕ) : Option ℕ := if len = 0 then none else answer

def advance (maxReservation : ℕ) (s : State) (t : Tid) (answer : Option ℕ) : Option State :=
  match s.control t with
  | .idle => none
  | .lock =>
    if s.lock then some s else some ({ s with lock := true }.goto t .radixInit)
  | .radixInit =>
    match s.radix with
    | some _ => some (s.goto t (.kernel .randomLoad))
    | none =>
      match answer with
      | some _ => some ({ s with radix := some Radix.new }.goto t (.kernel .randomLoad))
      | none => none
  | .kernel place =>
    match KernelVa.advance maxReservation s.statics answer place with
    | none => none
    | some (k, .returned va size) => some ({ s with statics := k }.goto t (.collision va size))
    | some (k, place) => some ({ s with statics := k }.goto t (.kernel place))
  | .collision va size =>
    match s.radix with
    | none => none
    | some radix =>
      if va = 0 ∨ radix.checkCollision va size then some (s.goto t (.unlock none))
      else some (s.goto t (.mapMmap va size))
  | .mapMmap va size =>
    match mmapResult (mapBytes size) answer with
    | some _ => some (s.goto t (.claimMmap va size))
    | none => some (s.goto t (.unlock none))
  | .claimMmap va size =>
    match mmapResult (mapBytes size) answer with
    | some _ => some (s.goto t (.segMmap va size))
    | none => some (s.goto t (.unlock none))
  | .segMmap va size =>
    match answer with
    | none => some (s.goto t (.unlock none))
    | some seg =>
      if seg = 0 ∨ seg ∈ s.mapped then none
      else some ({ s with mapped := seg :: s.mapped }.goto t (.headLoad va size seg))
  | .headLoad va size seg => some (s.goto t (.segWrite va size seg s.map))
  | .segWrite va size seg oldHead =>
    some ({ s with next := update s.next seg oldHead }.goto t (.setRange va size seg))
  | .setRange va size seg =>
    some ({ s with radix := s.radix.map fun (radix : Radix) => radix.setRange va size seg }.goto t
      (.mapStore seg))
  | .mapStore seg => some ({ s with map := seg }.goto t (.unlock (some seg)))
  | .unlock result => some ({ s with lock := false }.goto t (.dropGuard result))
  | .dropGuard result =>
    some ({ s with lock := false, returned := result.toList ++ s.returned }.goto t .idle)

def step (maxReservation : ℕ) (s : State) : Action → Option State
  | .grow t => if s.control t = .idle then some (s.goto t .lock) else none
  | .advance t answer => advance maxReservation s t answer

def initial : State :=
  ⟨false, none, 0, fun _ => 0, Statics.initial, fun _ => .idle, [], []⟩

/-- Between a successful `lock` and the first release of the call itself. -/
def inside : Control → Bool
  | .idle | .lock | .dropGuard _ => false
  | _ => true

def Exclusive (s : State) : Prop :=
  ∀ t u, inside (s.control t) = true → inside (s.control u) = true → t = u

/-- Every segment for which `grow` returned `Some` is reachable from `self.map`. -/
def NoneLost (s : State) : Prop :=
  ∀ p ∈ s.returned, ∃ l, Linked 0 s.next s.map l p

def dropping : Control → Bool
  | .dropGuard _ => true
  | _ => false

/-- When a thread drops its guard, the lock has not been taken since its `unlock`. -/
def DropFindsFree (s : State) : Action → Prop
  | .advance t _ => (dropping (s.control t) = true → s.lock = false)
  | .grow _ => True

instance DropFindsFree.decidable (s : State) : ∀ a, Decidable (DropFindsFree s a)
  | .advance t _ => inferInstanceAs (Decidable (dropping (s.control t) = true → s.lock = false))
  | .grow _ => isTrue trivial

/-- What holds of a thread's segment at its place in `grow`. -/
def Consistent (s : State) (l : List ℕ) : Control → Prop
  | .headLoad _ _ seg => seg ≠ 0 ∧ seg ∉ l ∧ seg ∈ s.mapped
  | .segWrite _ _ seg oldHead => seg ≠ 0 ∧ seg ∉ l ∧ seg ∈ s.mapped ∧ oldHead = s.map
  | .setRange _ _ seg => seg ≠ 0 ∧ seg ∉ l ∧ seg ∈ s.mapped ∧ s.next seg = s.map
  | .mapStore seg => seg ≠ 0 ∧ seg ∉ l ∧ seg ∈ s.mapped ∧ s.next seg = s.map
  | .unlock result => ∀ seg, result = some seg → seg ∈ l
  | .dropGuard result => ∀ seg, result = some seg → seg ∈ l
  | _ => True

structure Inv (s : State) (l : List ℕ) : Prop where
  exclusive : Exclusive s
  locked : s.lock = false → ∀ t, inside (s.control t) = false
  linked : Linked 0 s.next s.map l 0
  listed : ∀ p ∈ l, p ∈ s.mapped
  kept : ∀ p ∈ s.returned, p ∈ l
  consistent : ∀ t, Consistent s l (s.control t)

theorem inv_initial : Inv initial [] := by
  refine ⟨?_, fun _ _ => rfl, show (0 : ℕ) = 0 from rfl, ?_, ?_, fun _ => trivial⟩
  · intro t u ht
    contradiction
  · intro p hp
    contradiction
  · intro p hp
    contradiction

theorem Inv.noneLost {s : State} {l : List ℕ} (h : Inv s l) : NoneLost s := by
  intro p hp
  obtain ⟨before, after, hsplit⟩ := List.append_of_mem (h.kept p hp)
  have hlinked := h.linked
  rw [hsplit] at hlinked
  obtain ⟨b, hbefore, hafter⟩ := linked_append.mp hlinked
  exact ⟨before, hafter.1 ▸ hbefore⟩

section Steps

variable {s s' : State} {l l' : List ℕ} {t : Tid} {c : Control}

theorem Inv.others (h : Inv s l) (ht : inside (s.control t) = true) {u : Tid} (hu : u ≠ t) :
    inside (s.control u) = false := by
  cases hin : inside (s.control u) with
  | false => rfl
  | true => exact absurd (h.exclusive u t hin ht) hu

theorem Inv.at (h : Inv s l) (hcontrol : s.control t = c) : Consistent s l c := by
  rw [← hcontrol]
  exact h.consistent t

/-- Outside of the critical section a thread only knows that its segment is listed. -/
theorem Consistent.outside (h : Consistent s l c) (hc : inside c = false)
    (hl : ∀ p ∈ l, p ∈ l') : Consistent s' l' c := by
  cases c with
  | dropGuard result => exact fun seg hseg => hl seg (h seg hseg)
  | idle => trivial
  | lock => trivial
  | _ => simp [inside] at hc

theorem goto_control {u : Tid} (s : State) :
    (u = t ∧ (s.goto t c).control u = c) ∨ (u ≠ t ∧ (s.goto t c).control u = s.control u) :=
  update_cases s.control t c u

/-- A step inside the critical section: the lock stays taken, and the list may
only be extended. -/
theorem Inv.moveInside (h : Inv s l) (ht : inside (s.control t) = true)
    (hlock : s'.lock = s.lock) (hcontrol : s'.control = s.control)
    (hreturned : s'.returned = s.returned) (hlinked : Linked 0 s'.next s'.map l' 0)
    (hlisted : ∀ p ∈ l', p ∈ s'.mapped) (hl : ∀ p ∈ l, p ∈ l') (hcons : Consistent s' l' c) :
    Inv (s'.goto t c) l' := by
  have hheld : s.lock = true := by
    cases hfree : s.lock with
    | true => rfl
    | false => exact absurd (h.locked hfree t) (by rw [ht]; decide)
  refine ⟨?_, ?_, hlinked, hlisted, ?_, ?_⟩
  · have hinside : ∀ u, inside ((s'.goto t c).control u) = true → u = t := by
      intro u hu
      rcases @goto_control t c u s' with ⟨heq, _⟩ | ⟨hne, heq⟩
      · exact heq
      · rw [heq, hcontrol, h.others ht hne] at hu
        contradiction
    intro u v hu hv
    rw [hinside u hu, hinside v hv]
  · intro hfree
    have hcontra : s'.lock = false := hfree
    rw [hlock, hheld] at hcontra
    contradiction
  · intro p hp
    have hp' : p ∈ s'.returned := hp
    rw [hreturned] at hp'
    exact hl p (h.kept p hp')
  · intro u
    rcases @goto_control t c u s' with ⟨_, heq⟩ | ⟨hne, heq⟩
    · rw [heq]
      exact hcons
    · rw [heq, hcontrol]
      exact (h.consistent u).outside (h.others ht hne) hl

/-- A step inside the critical section that touches neither the list nor the lock. -/
theorem quiet_preserves {before : Control} {radix : Option Radix} {statics : Statics} (h : Inv s l)
    (hcontrol : s.control t = before) (hin : inside before = true)
    (hstep : some ({ s with radix := radix, statics := statics }.goto t c) = some s')
    (hcons : Consistent { s with radix := radix, statics := statics } l c) : ∃ l', Inv s' l' := by
  rw [← hcontrol] at hin
  rw [← Option.some.inj hstep]
  exact ⟨l, h.moveInside hin rfl rfl rfl h.linked h.listed (fun p hp => hp) hcons⟩

theorem lock_preserves (h : Inv s l) (hfree : s.lock = false) :
    Inv ({ s with lock := true }.goto t .radixInit) l := by
  refine ⟨?_, ?_, h.linked, h.listed, h.kept, ?_⟩
  · have hinside : ∀ u,
        inside ((State.goto { s with lock := true } t .radixInit).control u) = true →
        u = t := by
      intro u hu
      rcases @goto_control t .radixInit u { s with lock := true } with ⟨heq, _⟩ | ⟨_, heq⟩
      · exact heq
      · rw [heq] at hu
        exact absurd (h.locked hfree u) (by rw [hu]; decide)
    intro u v hu hv
    rw [hinside u hu, hinside v hv]
  · intro hcontra
    contradiction
  · intro u
    rcases @goto_control t .radixInit u { s with lock := true } with ⟨_, heq⟩ | ⟨_, heq⟩
    · rw [heq]
      trivial
    · rw [heq]
      exact (h.consistent u).outside (h.locked hfree u) fun p hp => hp

/-- A call begins: the thread goes from outside to the spinning `lock`. -/
theorem call_preserves (h : Inv s l) (hidle : s.control t = .idle) : Inv (s.goto t .lock) l := by
  have hout : ∀ u, inside ((s.goto t .lock).control u) = inside (s.control u) := by
    intro u
    rcases @goto_control t .lock u s with ⟨hut, heq⟩ | ⟨_, heq⟩
    · rw [heq, hut, hidle]
      rfl
    · rw [heq]
  refine ⟨?_, ?_, h.linked, h.listed, h.kept, ?_⟩
  · intro u v hu hv
    rw [hout] at hu hv
    exact h.exclusive u v hu hv
  · intro hfree u
    rw [hout]
    exact h.locked hfree u
  · intro u
    rcases @goto_control t .lock u s with ⟨_, heq⟩ | ⟨_, heq⟩
    · rw [heq]
      trivial
    · rw [heq]
      exact h.consistent u

theorem segMmap_preserves {va size seg : ℕ} (h : Inv s l)
    (hcontrol : s.control t = .segMmap va size) (hseg : ¬ (seg = 0 ∨ seg ∈ s.mapped)) :
    Inv ({ s with mapped := seg :: s.mapped }.goto t (.headLoad va size seg)) l := by
  refine h.moveInside (by rw [hcontrol]; rfl) rfl rfl rfl h.linked ?_ (fun p hp => hp) ?_
  · exact fun p hp => List.mem_cons_of_mem seg (h.listed p hp)
  · refine ⟨fun hz => hseg (Or.inl hz), fun hl => hseg (Or.inr (h.listed seg hl)), ?_⟩
    exact List.mem_cons_self

theorem segWrite_preserves {va size seg oldHead : ℕ} (h : Inv s l)
    (hcontrol : s.control t = .segWrite va size seg oldHead) :
    Inv ({ s with next := update s.next seg oldHead }.goto t
      (.setRange va size seg)) l := by
  obtain ⟨hzero, hnew, hmapped, hold⟩ := h.at hcontrol
  refine h.moveInside (by rw [hcontrol]; rfl) rfl rfl rfl ?_ h.listed (fun p hp => hp) ?_
  · apply h.linked.congr
    intro p hp
    apply update_of_ne
    intro heq
    exact hnew (heq ▸ hp)
  · exact ⟨hzero, hnew, hmapped, hold ▸ update_self seg oldHead s.next⟩

theorem mapStore_preserves {seg : ℕ} (h : Inv s l) (hcontrol : s.control t = .mapStore seg) :
    Inv ({ s with map := seg }.goto t (.unlock (some seg))) (seg :: l) := by
  obtain ⟨hzero, _, hmapped, hnext⟩ := h.at hcontrol
  refine h.moveInside (by rw [hcontrol]; rfl) rfl rfl rfl ?_ ?_
    (fun p hp => List.mem_cons_of_mem seg hp) ?_
  · exact ⟨rfl, hzero, hnext ▸ h.linked⟩
  · intro p hp
    rcases List.mem_cons.mp hp with heq | hl
    · exact heq ▸ hmapped
    · exact h.listed p hl
  · intro p hp
    exact Option.some.inj hp ▸ List.mem_cons_self

/-- A release: nobody is inside afterwards, and the list does not change. -/
theorem Inv.release (h : Inv s l) (hc : inside c = false)
    (hothers : ∀ u, u ≠ t → inside (s.control u) = false) (hcons : Consistent s l c)
    (returned : List ℕ) (hreturned : ∀ p ∈ returned, p ∈ l) :
    Inv ({ s with lock := false, returned := returned }.goto t c) l := by
  have hout : ∀ u,
      inside ((State.goto { s with lock := false, returned := returned } t c).control u)
      = false := by
    intro u
    rcases @goto_control t c u { s with lock := false, returned := returned } with
      ⟨_, heq⟩ | ⟨hne, heq⟩
    · rw [heq]
      exact hc
    · rw [heq]
      exact hothers u hne
  refine ⟨?_, fun _ => hout, h.linked, h.listed, hreturned, ?_⟩
  · intro u v hu
    rw [hout u] at hu
    contradiction
  · intro u
    rcases @goto_control t c u { s with lock := false, returned := returned } with
      ⟨_, heq⟩ | ⟨hne, heq⟩
    · rw [heq]
      exact hcons.outside hc fun p hp => hp
    · rw [heq]
      exact (h.consistent u).outside (hothers u hne) fun p hp => hp

theorem unlock_preserves {result : Option ℕ} (h : Inv s l)
    (hcontrol : s.control t = .unlock result) :
    Inv ({ s with lock := false }.goto t (.dropGuard result)) l := by
  have hin : inside (s.control t) = true := by rw [hcontrol]; rfl
  have hcons : Consistent s l (.unlock result) := h.at hcontrol
  exact @Inv.release s l t (.dropGuard result) h rfl (fun u hu => h.others hin hu) hcons
    s.returned h.kept

theorem dropGuard_preserves {result : Option ℕ} (h : Inv s l)
    (hcontrol : s.control t = .dropGuard result) (hfree : s.lock = false) :
    Inv ({ s with lock := false, returned := result.toList ++ s.returned }.goto t .idle) l := by
  refine @Inv.release s l t .idle h rfl (fun u _ => h.locked hfree u) trivial _ ?_
  intro p hp
  rcases List.mem_append.mp hp with hnew | hold
  · exact h.at hcontrol p (Option.mem_toList.mp hnew)
  · exact h.kept p hold

theorem advance_preserves {maxReservation : ℕ} {answer : Option ℕ} (h : Inv s l)
    (hok : DropFindsFree s (.advance t answer))
    (hstep : advance maxReservation s t answer = some s') : ∃ l', Inv s' l' := by
  have hfailed : ∀ seg, (none : Option ℕ) = some seg → seg ∈ l := by
    intro seg hseg
    contradiction
  unfold advance at hstep
  cases hcontrol : s.control t <;> simp only [hcontrol, reduceCtorEq] at hstep
  case lock =>
    split at hstep
    · exact ⟨l, Option.some.inj hstep ▸ h⟩
    · rename_i hfree
      exact ⟨l, Option.some.inj hstep ▸ lock_preserves h (Bool.eq_false_of_not_eq_true hfree)⟩
  case radixInit =>
    split at hstep
    · exact quiet_preserves h hcontrol rfl hstep trivial
    · split at hstep
      · exact quiet_preserves h hcontrol rfl hstep trivial
      · contradiction
  case kernel place =>
    split at hstep
    · contradiction
    · exact quiet_preserves h hcontrol rfl hstep trivial
    · exact quiet_preserves h hcontrol rfl hstep trivial
  case collision va size =>
    split at hstep
    · contradiction
    · split at hstep
      · exact quiet_preserves h hcontrol rfl hstep hfailed
      · exact quiet_preserves h hcontrol rfl hstep trivial
  case mapMmap va size =>
    split at hstep
    · exact quiet_preserves h hcontrol rfl hstep trivial
    · exact quiet_preserves h hcontrol rfl hstep hfailed
  case claimMmap va size =>
    split at hstep
    · exact quiet_preserves h hcontrol rfl hstep trivial
    · exact quiet_preserves h hcontrol rfl hstep hfailed
  case segMmap va size =>
    split at hstep
    · exact quiet_preserves h hcontrol rfl hstep hfailed
    · split at hstep
      · contradiction
      · rename_i hseg
        exact ⟨l, Option.some.inj hstep ▸ segMmap_preserves h hcontrol hseg⟩
  case headLoad va size seg =>
    obtain ⟨hzero, hnew, hmapped⟩ := h.at hcontrol
    exact quiet_preserves h hcontrol rfl hstep ⟨hzero, hnew, hmapped, rfl⟩
  case segWrite va size seg oldHead =>
    exact ⟨l, Option.some.inj hstep ▸ segWrite_preserves h hcontrol⟩
  case setRange va size seg =>
    have hcons := h.at hcontrol
    exact quiet_preserves h hcontrol rfl hstep hcons
  case mapStore seg =>
    exact ⟨seg :: l, Option.some.inj hstep ▸ mapStore_preserves h hcontrol⟩
  case unlock result =>
    exact ⟨l, Option.some.inj hstep ▸ unlock_preserves h hcontrol⟩
  case dropGuard result =>
    have hfree := hok (by rw [hcontrol]; rfl)
    exact ⟨l, Option.some.inj hstep ▸ dropGuard_preserves h hcontrol hfree⟩

theorem step_preserves {maxReservation : ℕ} {a : Action} (h : Inv s l) (hok : DropFindsFree s a)
    (hstep : step maxReservation s a = some s') : ∃ l', Inv s' l' := by
  cases a with
  | grow t =>
    simp only [step] at hstep
    split at hstep
    · rename_i hidle
      have heq := Option.some.inj hstep
      exact ⟨l, heq ▸ call_preserves h hidle⟩
    · contradiction
  | advance t answer => exact advance_preserves h hok hstep

end Steps

/-- In every run in which each guard drop finds the lock word free, at most one
thread is in the critical section and no returned segment is lost. -/
theorem grow_exclusive (maxReservation : ℕ) (schedule : List Action) (s : State)
    (hok : Guarded (step maxReservation) DropFindsFree initial schedule)
    (hrun : run (step maxReservation) initial schedule = some s) :
    Exclusive s ∧ NoneLost s := by
  have hinv : ∃ l, Inv s l :=
    @run_invariant _ _ (step maxReservation) DropFindsFree (fun s => ∃ l, Inv s l)
      (fun _ _ _ ⟨_, h⟩ hok hstep => step_preserves h hok hstep) _ _ _ ⟨[], inv_initial⟩ hok hrun
  obtain ⟨l, h⟩ := hinv
  exact ⟨h.exclusive, h.noneLost⟩

def call (t : Tid) (answers : List (Option ℕ)) : List Action :=
  .grow t :: answers.map (.advance t)

/-- The answers for a first call of `grow` up to its `collision` check, with a
reservation at va. -/
def firstProbe (va : ℕ) : List (Option ℕ) :=
  [none, some 1, none, none, none, some va, none, none]

/-- The same for a later call, which randomizes the base hint first. -/
def laterProbe (va : ℕ) : List (Option ℕ) :=
  [none, none, none, some 0, none, none, none, some va, none, none, none, none]

/-- The mappings of a segment at seg, and the load of the list head. -/
def newSegment (seg : ℕ) : List (Option ℕ) := [none, some 1, some 1, some seg, none]

/-- The rest of a successful call: write, register, store, unlock, drop. -/
def finish : List (Option ℕ) := [none, none, none, none, none]

def maxReservationDefault : ℕ := 1024 * 1024 * 1024 * 16

def twoCalls : List Action :=
  call 0 (firstProbe (2 ^ 40) ++ newSegment 4096 ++ finish) ++
    call 1 (laterProbe (2 ^ 41) ++ newSegment 8192 ++ finish)

theorem grow_exclusive_twoCalls :
    ∃ s, run (step maxReservationDefault) initial twoCalls = some s ∧
      s.returned = [8192, 4096] ∧ Exclusive s ∧ NoneLost s :=
  ⟨_, rfl, rfl, grow_exclusive maxReservationDefault twoCalls _ (by decide +kernel) rfl⟩

/-- Thread 0 has unlocked when thread 1 takes the lock and reads the head. The
drop of thread 0's guard then frees thread 1's lock, and thread 2 enters. -/
def doubleRelease : List Action :=
  call 0 (firstProbe (2 ^ 40) ++ [none, none, none]) ++
    call 1 (laterProbe (2 ^ 41) ++ newSegment 4096) ++ [.advance 0 none] ++
    call 2 (laterProbe (2 ^ 42) ++ newSegment 8192)

/-- Thread 2 returns its segment, and thread 1 overwrites the head. -/
def lostSegment : List Action :=
  doubleRelease ++ finish.map (.advance 2) ++ List.replicate 3 (.advance 1 none)

theorem doubleRelease_inside :
    (run (step maxReservationDefault) initial doubleRelease).map
      (fun s => (inside (s.control 1), inside (s.control 2))) = some (true, true) := by
  decide +kernel

theorem lostSegment_list :
    (run (step maxReservationDefault) initial lostSegment).map
      (fun s => (s.map, s.next 4096, s.returned)) = some (4096, 0, [8192]) := by
  decide +kernel

theorem grow_not_exclusive :
    (¬ ∀ s, Reachable (step maxReservationDefault) initial s → Exclusive s) ∧
      ¬ ∀ s, Reachable (step maxReservationDefault) initial s → NoneLost s := by
  constructor
  · intro h
    obtain ⟨s, hrun, hs⟩ := Option.map_eq_some_iff.mp doubleRelease_inside
    have hsame := h s ⟨doubleRelease, hrun⟩ 1 2 (congrArg Prod.fst hs) (congrArg Prod.snd hs)
    contradiction
  · intro h
    obtain ⟨s, hrun, hs⟩ := Option.map_eq_some_iff.mp lostSegment_list
    have hmap : s.map = 4096 := congrArg Prod.fst hs
    have hnext : s.next 4096 = 0 := congrArg (fun r => r.2.1) hs
    have hreturned : s.returned = [8192] := congrArg (fun r => r.2.2) hs
    obtain ⟨l, hl⟩ := h s ⟨lostSegment, hrun⟩ 8192 (by simp [hreturned])
    rw [hmap] at hl
    cases l with
    | nil => exact absurd (show 4096 = 8192 from hl) (by decide)
    | cons p l =>
      have hrest := hl.2.2
      rw [← hl.1, hnext] at hrest
      rw [hrest.eq_nil] at hrest
      exact absurd (show 0 = 8192 from hrest) (by decide)

end Oxidalloc.GrowRace
