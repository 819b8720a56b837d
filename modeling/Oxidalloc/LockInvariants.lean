import Mathlib.Data.Nat.Notation
import Mathlib.Logic.Function.Basic
import Oxidalloc.Interleaving

/-!
Threads that share memory through a family of locks, each of which guards a part of the
memory with an invariant of its own. The parts are not fixed: a thread that drops a lock
may give some of its own words to the part of the lock, and take others from there. A code
is safe if it accesses only words of its own or of the part whose lock it holds, drops each
lock with the invariant restored, and takes no second lock. If all codes are safe then in
every interleaving no word is accessed by a thread that has no right to it, the invariants
hold of all parts whose lock is free, and no call is stuck.

Who owns a word, who holds a lock, what was done under it and what a call has done so far is
recorded beside the memory for the statements; no code reads it. The accesses are
sequentially consistent.
-/
namespace Oxidalloc.LockInvariants

open Interleaving Function

section Codes

/-- A code makes one access to one word at a time; what follows depends on the word before
it. A release says what was done under the lock and which words change hands. -/
inductive Code (κ ρ V E α : Type) where
  | ret (a : α)
  | stuck
  | access (x : ρ) (f : V → V) (k : V → Code κ ρ V E α)
  | acquire (l : κ) (k : Code κ ρ V E α)
  | release (l : κ) (e : E) (give take : List ρ) (k : Code κ ρ V E α)

namespace Code

variable {κ ρ V E α β : Type}

def bind : Code κ ρ V E α → (α → Code κ ρ V E β) → Code κ ρ V E β
  | .ret a, d => d a
  | .stuck, _ => .stuck
  | .access x f k, d => .access x f fun v => (k v).bind d
  | .acquire l k, d => .acquire l (k.bind d)
  | .release l e give take k, d => .release l e give take (k.bind d)

instance : Monad (Code κ ρ V E) where
  pure := .ret
  bind := Code.bind

/-- The word before the change is the answer. -/
def modify (x : ρ) (f : V → V) : Code κ ρ V E V := .access x f .ret

def read (x : ρ) : Code κ ρ V E V := modify x id

def write (x : ρ) (v : V) : Code κ ρ V E Unit := .access x (fun _ => v) fun _ => .ret ()

def lock (l : κ) : Code κ ρ V E Unit := .acquire l (.ret ())

def unlock (l : κ) (e : E) (give take : List ρ) : Code κ ρ V E Unit :=
  .release l e give take (.ret ())

end Code

end Codes

section Machine

abbrev Heap (ρ V : Type) := ρ → Option V

inductive Owner (κ : Type) where
  | thread (t : ℕ)
  | lock (l : κ)
  deriving DecidableEq

/-- Of `holder`, the program has only whether there is one. `log` lists what was done under
a lock, a call in progress is in `code`, and `trail` lists what it has done under the locks
that it dropped. -/
structure State (κ ρ V E α ι : Type) where
  mem : ρ → V
  holder : κ → Option ℕ
  log : κ → List E
  owner : ρ → Owner κ
  code : ℕ → Option (ι × Code κ ρ V E α)
  trail : ℕ → List (κ × E)

inductive Action (ρ V ι : Type) where
  | call (t : ℕ) (op : ι)
  | write (t : ℕ) (x : ρ) (v : V)
  | advance (t : ℕ)

variable {κ ρ V E α ι : Type} [DecidableEq κ] [DecidableEq ρ]

namespace State

/-- The words of an owner. -/
def heap (s : State κ ρ V E α ι) (o : Owner κ) : Heap ρ V := fun x =>
  if s.owner x = o then some (s.mem x) else none

def goto (s : State κ ρ V E α ι) (t : ℕ) (c : Option (ι × Code κ ρ V E α)) : State κ ρ V E α ι :=
  { s with code := update s.code t c }

def setMem (s : State κ ρ V E α ι) (x : ρ) (v : V) : State κ ρ V E α ι :=
  { s with mem := update s.mem x v }

def begin (s : State κ ρ V E α ι) (t : ℕ) : State κ ρ V E α ι :=
  { s with trail := update s.trail t [] }

def take (s : State κ ρ V E α ι) (l : κ) (t : ℕ) : State κ ρ V E α ι :=
  { s with holder := update s.holder l (some t) }

def drop (s : State κ ρ V E α ι) (l : κ) (t : ℕ) (e : E) (give take : List ρ) :
    State κ ρ V E α ι :=
  { s with
    holder := update s.holder l none
    log := update s.log l (s.log l ++ [e])
    trail := update s.trail t (s.trail t ++ [(l, e)])
    owner := fun x => if x ∈ give then .lock l else if x ∈ take then .thread t else s.owner x }

end State

/-- The next step of a thread; one that finds the lock taken spins. -/
def advance (s : State κ ρ V E α ι) (t : ℕ) : Option (State κ ρ V E α ι) :=
  match s.code t with
  | none => none
  | some (_, .ret _) => some (s.goto t none)
  | some (_, .stuck) => none
  | some (op, .access x f k) =>
    some ((s.setMem x (f (s.mem x))).goto t (some (op, k (s.mem x))))
  | some (op, .acquire l k) =>
    if (s.holder l).isSome then some s else some ((s.take l t).goto t (some (op, k)))
  | some (op, .release l e give take k) =>
    some ((s.drop l t e give take).goto t (some (op, k)))

/-- A thread begins a call when its own words are ready for it, and between its calls it
writes to its own words. -/
def step (body : ι → Code κ ρ V E α) (ready : ι → Heap ρ V → Bool) (s : State κ ρ V E α ι) :
    Action ρ V ι → Option (State κ ρ V E α ι)
  | .call t op =>
    if (s.code t).isNone ∧ ready op (s.heap (.thread t)) = true then
      some ((s.begin t).goto t (some (op, body op)))
    else none
  | .write t x v =>
    if (s.code t).isNone ∧ s.owner x = .thread t then some (s.setMem x v) else none
  | .advance t => advance s t

end Machine

section Safety

variable {κ ρ V E α β ι : Type} [DecidableEq ρ]

/-- What a thread can count on: what its call has done, the lock that it holds with its log,
its own words, and the words that the lock guards. -/
structure View (κ ρ V E : Type) where
  trail : List (κ × E)
  held : Option (κ × List E)
  mine : Heap ρ V
  shared : Heap ρ V

def View.outside (trail : List (κ × E)) (h : Heap ρ V) : View κ ρ V E :=
  ⟨trail, none, h, fun _ => none⟩

def Apart (h h' : Heap ρ V) : Prop := ∀ x, h x = none ∨ h' x = none

/-- Of two heaps, the second one with `give` from the first and without `take`. -/
def moved (give take : List ρ) (h h' : Heap ρ V) : Heap ρ V := fun x =>
  if x ∈ give then h x else if x ∈ take then none else h' x

@[simp] theorem moved_nil (h h' : Heap ρ V) : moved [] [] h h' = h' := by
  funext x
  simp [moved]

/-- The code runs to its end without a word it has no right to, whatever the guarded parts
are when it takes their locks. -/
def Safe (inv : κ → List E → Heap ρ V → Prop) (post : α → View κ ρ V E → Prop) :
    Code κ ρ V E α → View κ ρ V E → Prop
  | .ret a, v => post a v
  | .stuck, _ => False
  | .access x f k, v =>
    (∃ w, v.mine x = some w ∧
      Safe inv post (k w) { v with mine := update v.mine x (some (f w)) }) ∨
    ∃ w, v.shared x = some w ∧
      Safe inv post (k w) { v with shared := update v.shared x (some (f w)) }
  | .acquire l k, v =>
    v.held = none ∧ ∀ log h, Apart v.mine h → inv l log h →
      Safe inv post k ⟨v.trail, some (l, log), v.mine, h⟩
  | .release l e give take k, v =>
    ∃ log, v.held = some (l, log) ∧ (∀ x ∈ give, v.mine x ≠ none) ∧
      (∀ x ∈ take, v.shared x ≠ none) ∧ inv l (log ++ [e]) (moved give take v.mine v.shared) ∧
      Safe inv post k (.outside (v.trail ++ [(l, e)]) (moved take give v.shared v.mine))

variable {inv : κ → List E → Heap ρ V → Prop} {v : View κ ρ V E}

theorem safe_bind {post : β → View κ ρ V E → Prop} {c : Code κ ρ V E α}
    {d : α → Code κ ρ V E β} :
    Safe inv post (c >>= d) v ↔ Safe inv (fun a v => Safe inv post (d a) v) c v := by
  show Safe inv post (c.bind d) v ↔ _
  induction c generalizing v with
  | ret a => exact Iff.rfl
  | stuck => exact Iff.rfl
  | access x f k ih => simp only [Code.bind, Safe, ih]
  | acquire l k ih => simp only [Code.bind, Safe, ih]
  | release l e give take k ih => simp only [Code.bind, Safe, ih]

section Rules

variable {post : V → View κ ρ V E → Prop} {x : ρ} {w : V} {f : V → V}

theorem safe_modify_mine (hx : v.mine x = some w)
    (h : post w { v with mine := update v.mine x (some (f w)) }) :
    Safe inv post (.modify x f) v :=
  Or.inl ⟨w, hx, h⟩

theorem safe_modify_shared (hx : v.shared x = some w)
    (h : post w { v with shared := update v.shared x (some (f w)) }) :
    Safe inv post (.modify x f) v :=
  Or.inr ⟨w, hx, h⟩

theorem safe_read_mine (hx : v.mine x = some w) (h : post w v) : Safe inv post (.read x) v := by
  refine safe_modify_mine hx ?_
  rwa [show some (id w) = v.mine x from hx.symm, update_eq_self]

theorem safe_read_shared (hx : v.shared x = some w) (h : post w v) :
    Safe inv post (.read x) v := by
  refine safe_modify_shared hx ?_
  rwa [show some (id w) = v.shared x from hx.symm, update_eq_self]

theorem safe_write_mine {post : Unit → View κ ρ V E → Prop} (hx : v.mine x ≠ none)
    (h : post () { v with mine := update v.mine x (some w) }) :
    Safe inv post (.write x w) v := by
  obtain ⟨old, hold⟩ := Option.ne_none_iff_exists'.mp hx
  exact Or.inl ⟨old, hold, h⟩

theorem safe_write_shared {post : Unit → View κ ρ V E → Prop} (hx : v.shared x ≠ none)
    (h : post () { v with shared := update v.shared x (some w) }) :
    Safe inv post (.write x w) v := by
  obtain ⟨old, hold⟩ := Option.ne_none_iff_exists'.mp hx
  exact Or.inr ⟨old, hold, h⟩

theorem safe_lock {post : Unit → View κ ρ V E → Prop} {l : κ} (hheld : v.held = none)
    (h : ∀ log part, Apart v.mine part → inv l log part →
      post () ⟨v.trail, some (l, log), v.mine, part⟩) : Safe inv post (.lock l) v :=
  ⟨hheld, h⟩

theorem safe_unlock {post : Unit → View κ ρ V E → Prop} {l : κ} {log : List E} {e : E}
    {give take : List ρ} (hheld : v.held = some (l, log)) (hgive : ∀ x ∈ give, v.mine x ≠ none)
    (htake : ∀ x ∈ take, v.shared x ≠ none)
    (hinv : inv l (log ++ [e]) (moved give take v.mine v.shared))
    (h : post () (.outside (v.trail ++ [(l, e)]) (moved take give v.shared v.mine))) :
    Safe inv post (.unlock l e give take) v :=
  ⟨log, hheld, hgive, htake, hinv, h⟩

end Rules

end Safety

section Heaps

variable {κ ρ V E α ι : Type} [DecidableEq κ] {s : State κ ρ V E α ι}
  {o : Owner κ} {x : ρ} {w : V} {t : ℕ} {l : κ} {e : E} {give take : List ρ}

theorem heap_eq_some : s.heap o x = some w ↔ s.owner x = o ∧ s.mem x = w := by
  unfold State.heap
  split <;> simp_all

theorem heap_ne_none : s.heap o x ≠ none ↔ s.owner x = o := by
  unfold State.heap
  split <;> simp_all

theorem heap_apart {o' : Owner κ} (h : o ≠ o') : Apart (s.heap o) (s.heap o') := by
  intro x
  by_contra hx
  rw [not_or, ← ne_eq, ← ne_eq, heap_ne_none, heap_ne_none] at hx
  exact h (hx.1.symm.trans hx.2)

variable [DecidableEq ρ]

theorem heap_setMem_self (h : s.owner x = o) :
    (s.setMem x w).heap o = update (s.heap o) x (some w) := by
  funext y
  by_cases hy : y = x
  · subst hy
    rw [update_self]
    exact heap_eq_some.mpr ⟨h, update_self ..⟩
  · rw [update_of_ne hy]
    simp [State.heap, State.setMem, hy]

theorem heap_setMem_of_ne (h : s.owner x ≠ o) : (s.setMem x w).heap o = s.heap o := by
  funext y
  by_cases hy : y = x
  · subst hy
    simp [State.heap, State.setMem, h]
  · simp [State.heap, State.setMem, hy]

theorem heap_drop_lock (hgive : ∀ x ∈ give, s.heap (.thread t) x ≠ none) :
    (s.drop l t e give take).heap (.lock l) =
      moved give take (s.heap (.thread t)) (s.heap (.lock l)) := by
  funext x
  simp only [State.heap, State.drop, moved]
  by_cases hx : x ∈ give
  · have howner := heap_ne_none.mp (hgive x hx)
    simp [hx, howner]
  · by_cases hx' : x ∈ take <;> simp [hx, hx']

theorem heap_drop_thread (hgive : ∀ x ∈ give, s.heap (.thread t) x ≠ none)
    (htake : ∀ x ∈ take, s.heap (.lock l) x ≠ none) :
    (s.drop l t e give take).heap (.thread t) =
      moved take give (s.heap (.lock l)) (s.heap (.thread t)) := by
  funext x
  simp only [State.heap, State.drop, moved]
  by_cases hx : x ∈ take
  · have howner := heap_ne_none.mp (htake x hx)
    have hnot : x ∉ give := by
      intro hmem
      have hother := heap_ne_none.mp (hgive x hmem)
      rw [howner] at hother
      contradiction
    simp [hx, hnot, howner]
  · by_cases hx' : x ∈ give <;> simp [hx, hx']

/-- Words change hands between the thread and the lock only. -/
theorem heap_drop_other (hgive : ∀ x ∈ give, s.heap (.thread t) x ≠ none)
    (htake : ∀ x ∈ take, s.heap (.lock l) x ≠ none) (hthread : o ≠ .thread t)
    (hlock : o ≠ .lock l) : (s.drop l t e give take).heap o = s.heap o := by
  funext x
  simp only [State.heap, State.drop]
  by_cases hx : x ∈ give
  · have howner := heap_ne_none.mp (hgive x hx)
    simp [hx, howner, hlock.symm, hthread.symm]
  · by_cases hx' : x ∈ take
    · have howner := heap_ne_none.mp (htake x hx')
      simp [hx, hx', howner, hlock.symm, hthread.symm]
    · simp [hx, hx']

end Heaps

section Soundness

variable {κ ρ V E α ι : Type} [DecidableEq κ]

/-- What a thread with the lock `held` can count on in a state. -/
def State.view (s : State κ ρ V E α ι) (t : ℕ) : Option κ → View κ ρ V E
  | none => .outside (s.trail t) (s.heap (.thread t))
  | some l => ⟨s.trail t, some (l, s.log l), s.heap (.thread t), s.heap (.lock l)⟩

/-- A call ends without a lock. -/
def Ends (done : List (κ × E) → α → Heap ρ V → Prop) (a : α) (v : View κ ρ V E) : Prop :=
  v.held = none ∧ done v.trail a v.mine

variable {s s' : State κ ρ V E α ι} {t u : ℕ} {op : ι} {l : κ}

theorem view_congr {held : Option κ} (htrail : s'.trail u = s.trail u)
    (hmine : s'.heap (.thread u) = s.heap (.thread u))
    (hshared : ∀ l, held = some l →
      s'.log l = s.log l ∧ s'.heap (.lock l) = s.heap (.lock l)) :
    s'.view u held = s.view u held := by
  cases held with
  | none => simp only [State.view, htrail, hmine]
  | some l =>
    obtain ⟨hlog, hheap⟩ := hshared l rfl
    simp only [State.view, htrail, hmine, hlog, hheap]

variable [DecidableEq ρ]

/-- What is left of a call is safe with the lock that its thread holds, if any. -/
def Working (inv : κ → List E → Heap ρ V → Prop) (done : ι → List (κ × E) → α → Heap ρ V → Prop)
    (s : State κ ρ V E α ι) (t : ℕ) (op : ι) (c : Code κ ρ V E α) : Prop :=
  ∃ held, (∀ l, s.holder l = some t ↔ held = some l) ∧
    Safe inv (Ends (done op)) c (s.view t held)

/-- The logs stem from invariants, the parts of the free locks keep theirs, and every call in
progress is safe. -/
structure Inv (inv : κ → List E → Heap ρ V → Prop) (done : ι → List (κ × E) → α → Heap ρ V → Prop)
    (s : State κ ρ V E α ι) : Prop where
  logs : ∀ l, ∃ h, inv l (s.log l) h
  free : ∀ l, s.holder l = none → inv l (s.log l) (s.heap (.lock l))
  idle : ∀ t, s.code t = none → ∀ l, s.holder l ≠ some t
  busy : ∀ t op c, s.code t = some (op, c) → Working inv done s t op c

variable {inv : κ → List E → Heap ρ V → Prop} {done : ι → List (κ × E) → α → Heap ρ V → Prop}
  {c : Option (ι × Code κ ρ V E α)}

theorem Working.congr {c : Code κ ρ V E α} (h : Working inv done s u op c)
    (htrail : s'.trail u = s.trail u)
    (hholder : ∀ l, s'.holder l = some u ↔ s.holder l = some u)
    (hmine : s'.heap (.thread u) = s.heap (.thread u))
    (hshared : ∀ l, s.holder l = some u →
      s'.log l = s.log l ∧ s'.heap (.lock l) = s.heap (.lock l)) :
    Working inv done s' u op c := by
  obtain ⟨held, hheld, hsafe⟩ := h
  refine ⟨held, fun l => (hholder l).trans (hheld l), ?_⟩
  rwa [view_congr htrail hmine (fun l hl => hshared l ((hheld l).mpr hl))]

/-- One thread goes on, and the others find what is theirs as it was. -/
theorem Inv.goto (h : Inv inv done s) (hcode : s'.code = s.code)
    (hlogs : ∀ l, ∃ h, inv l (s'.log l) h)
    (hfree : ∀ l, s'.holder l = none → inv l (s'.log l) (s'.heap (.lock l)))
    (htrail : ∀ u, u ≠ t → s'.trail u = s.trail u)
    (hholder : ∀ u, u ≠ t → ∀ l, s'.holder l = some u ↔ s.holder l = some u)
    (hmine : ∀ u, u ≠ t → s'.heap (.thread u) = s.heap (.thread u))
    (hshared : ∀ u, u ≠ t → ∀ l, s.holder l = some u →
      s'.log l = s.log l ∧ s'.heap (.lock l) = s.heap (.lock l))
    (hidle : c = none → ∀ l, s'.holder l ≠ some t)
    (hbusy : ∀ op c', c = some (op, c') → Working inv done s' t op c') :
    Inv inv done (s'.goto t c) := by
  have hself : (s'.goto t c).code t = c := update_self ..
  have hother : ∀ u, u ≠ t → (s'.goto t c).code u = s.code u := by
    intro u hne
    show update s'.code t c u = s.code u
    rw [update_of_ne hne, hcode]
  refine ⟨hlogs, hfree, ?_, ?_⟩
  · intro u hu l hl
    by_cases hut : u = t
    · subst hut
      exact hidle (hself.symm.trans hu) l hl
    · exact h.idle u ((hother u hut).symm.trans hu) l ((hholder u hut l).mp hl)
  · intro u op c' hu
    by_cases hut : u = t
    · subst hut
      exact hbusy op c' (hself.symm.trans hu)
    · have hworking := h.busy u op c' ((hother u hut).symm.trans hu)
      exact hworking.congr (htrail u hut) (hholder u hut) (hmine u hut) (hshared u hut)

/-- The code of one thread changes, and nothing else. -/
theorem Inv.recode (h : Inv inv done s) (hidle : c = none → ∀ l, s.holder l ≠ some t)
    (hbusy : ∀ op c', c = some (op, c') → Working inv done s t op c') :
    Inv inv done (s.goto t c) :=
  h.goto rfl h.logs h.free (fun _ _ => rfl) (fun _ _ _ => Iff.rfl) (fun _ _ => rfl)
    (fun _ _ _ _ => ⟨rfl, rfl⟩) hidle hbusy

/-- A word is written by a thread that owns it, or that holds the lock which does. -/
theorem Inv.setMem (h : Inv inv done s) {x : ρ} {w : V}
    (howner : s.owner x = .thread t ∨ ∃ l, s.owner x = .lock l ∧ s.holder l = some t)
    (hidle : c = none → ∀ l, s.holder l ≠ some t)
    (hbusy : ∀ op c', c = some (op, c') → Working inv done (s.setMem x w) t op c') :
    Inv inv done ((s.setMem x w).goto t c) := by
  have hlock : ∀ l, s.holder l ≠ some t → (s.setMem x w).heap (.lock l) = s.heap (.lock l) := by
    intro l hl
    apply heap_setMem_of_ne
    intro hx
    rcases howner with hmine | ⟨l', hl', hheld⟩
    · rw [hmine] at hx
      contradiction
    · rw [hl', Owner.lock.injEq] at hx
      exact hl (hx ▸ hheld)
  refine h.goto rfl h.logs ?_ (fun _ _ => rfl) (fun _ _ _ => Iff.rfl) ?_ ?_ hidle hbusy
  · intro l hl
    have hfree : s.holder l = none := hl
    rw [hlock l (by rw [hfree]; simp)]
    exact h.free l hfree
  · intro u hne
    apply heap_setMem_of_ne
    intro hx
    rcases howner with hmine | ⟨l, hl, _⟩
    · rw [hmine, Owner.thread.injEq] at hx
      exact hne hx.symm
    · rw [hl] at hx
      contradiction
  · intro u hne l hl
    refine ⟨rfl, hlock l ?_⟩
    rw [hl]
    simpa using hne

/-- The thread that takes a free lock gets the part that it guards. -/
theorem Inv.acquire {k : Code κ ρ V E α} (h : Inv inv done s)
    (hcode : s.code t = some (op, .acquire l k)) (hfree : s.holder l = none) :
    Inv inv done ((s.take l t).goto t (some (op, k))) := by
  have hholder : ∀ u, u ≠ t → ∀ l', (s.take l t).holder l' = some u ↔ s.holder l' = some u := by
    intro u hne l'
    by_cases hl : l' = l
    · subst hl
      show update s.holder l' (some t) l' = some u ↔ _
      rw [update_self, hfree]
      simpa using hne.symm
    · show update s.holder l (some t) l' = some u ↔ _
      rw [update_of_ne hl]
  refine h.goto rfl h.logs ?_ (fun _ _ => rfl) hholder (fun _ _ => rfl)
    (fun _ _ _ _ => ⟨rfl, rfl⟩) (by simp) ?_
  · intro l' hl'
    have hne : l' ≠ l := by
      rintro rfl
      rw [show (s.take l' t).holder l' = some t from update_self ..] at hl'
      contradiction
    rw [show (s.take l t).holder l' = s.holder l' from update_of_ne hne ..] at hl'
    exact h.free l' hl'
  · intro op' c' heq
    rw [Option.some.injEq, Prod.mk.injEq] at heq
    obtain ⟨rfl, rfl⟩ := heq
    obtain ⟨held, hheld, hsafe⟩ := h.busy t op _ hcode
    obtain rfl : held = none := by
      cases held with
      | none => rfl
      | some l' =>
        have hnone := hsafe.1
        contradiction
    refine ⟨some l, ?_, hsafe.2 (s.log l) _ (heap_apart (by simp)) (h.free l hfree)⟩
    intro l'
    by_cases hl : l' = l
    · subst hl
      exact ⟨fun _ => rfl, fun _ => update_self ..⟩
    · rw [show (s.take l t).holder l' = s.holder l' from update_of_ne hl .., hheld]
      simpa using fun heq => hl heq.symm

/-- The thread that drops a lock leaves the part with its invariant. -/
theorem Inv.release {k : Code κ ρ V E α} {e : E} {give take : List ρ} (h : Inv inv done s)
    (hcode : s.code t = some (op, .release l e give take k)) :
    Inv inv done ((s.drop l t e give take).goto t (some (op, k))) := by
  obtain ⟨held, hheld, log, hlog, hgive, htake, hinv, hsafe⟩ := h.busy t op _ hcode
  obtain ⟨rfl, rfl⟩ : held = some l ∧ log = s.log l := by
    cases held with
    | none => contradiction
    | some l' =>
      have heq := Option.some.inj hlog
      rw [Prod.mk.injEq] at heq
      obtain ⟨rfl, rfl⟩ := heq
      exact ⟨rfl, rfl⟩
  have hlock : (s.drop l t e give take).heap (.lock l) =
      moved give take (s.heap (.thread t)) (s.heap (.lock l)) := heap_drop_lock hgive
  have hthread : (s.drop l t e give take).heap (.thread t) =
      moved take give (s.heap (.lock l)) (s.heap (.thread t)) := heap_drop_thread hgive htake
  have hself : (s.drop l t e give take).log l = s.log l ++ [e] := update_self ..
  have hlog' : ∀ l', l' ≠ l → (s.drop l t e give take).log l' = s.log l' := fun l' hl =>
    update_of_ne hl ..
  have hholder' : ∀ l', l' ≠ l → (s.drop l t e give take).holder l' = s.holder l' := fun l' hl =>
    update_of_ne hl ..
  have hgone : (s.drop l t e give take).holder l = none := update_self ..
  have hheld' : s.holder l = some t := (hheld l).mpr rfl
  refine h.goto rfl ?_ ?_ (fun u hne => update_of_ne hne ..) ?_ ?_ ?_ (by simp) ?_
  · intro l'
    by_cases hl : l' = l
    · subst hl
      exact ⟨_, by rw [hself]; exact hinv⟩
    · rw [hlog' l' hl]
      exact h.logs l'
  · intro l' hl'
    by_cases hl : l' = l
    · subst hl
      rw [hself, hlock]
      exact hinv
    · rw [hholder' l' hl] at hl'
      rw [hlog' l' hl, heap_drop_other hgive htake (by simp) (by simpa using hl)]
      exact h.free l' hl'
  · intro u hne l'
    by_cases hl : l' = l
    · subst hl
      rw [hgone, hheld']
      simpa using hne.symm
    · rw [hholder' l' hl]
  · intro u hne
    exact heap_drop_other hgive htake (by simpa using hne) (by simp)
  · intro u hne l' hl'
    have hl : l' ≠ l := by
      rintro rfl
      rw [hheld', Option.some.injEq] at hl'
      exact hne hl'.symm
    exact ⟨hlog' l' hl, heap_drop_other hgive htake (by simp) (by simpa using hl)⟩
  · intro op' c' heq
    rw [Option.some.injEq, Prod.mk.injEq] at heq
    obtain ⟨rfl, rfl⟩ := heq
    refine ⟨none, ?_, ?_⟩
    · intro l'
      by_cases hl : l' = l
      · subst hl
        simp [hgone]
      · rw [hholder' l' hl, hheld l']
        simpa using fun heq => hl heq.symm
    · have htrail : (s.drop l t e give take).trail t = s.trail t ++ [(l, e)] :=
        update_self ..
      rw [State.view, htrail, hthread]
      exact hsafe

/-- A safe code accesses a word of its own, or one of the part whose lock it holds. -/
theorem Inv.owner_of_access {x : ρ} {f : V → V} {k : V → Code κ ρ V E α} (h : Inv inv done s)
    (hcode : s.code t = some (op, .access x f k)) :
    s.owner x = .thread t ∨ ∃ l, s.owner x = .lock l ∧ s.holder l = some t := by
  obtain ⟨held, hheld, ⟨w, hw, _⟩ | ⟨w, hw, _⟩⟩ := h.busy t op _ hcode
  · cases held with
    | none => exact Or.inl (heap_eq_some.mp hw).1
    | some l => exact Or.inl (heap_eq_some.mp hw).1
  · cases held with
    | none => contradiction
    | some l => exact Or.inr ⟨l, (heap_eq_some.mp hw).1, (hheld l).mpr rfl⟩

theorem Inv.access {x : ρ} {f : V → V} {k : V → Code κ ρ V E α} (h : Inv inv done s)
    (hcode : s.code t = some (op, .access x f k)) :
    Inv inv done ((s.setMem x (f (s.mem x))).goto t (some (op, k (s.mem x)))) := by
  refine h.setMem (h.owner_of_access hcode) (by simp) ?_
  intro op' c' heq
  rw [Option.some.injEq, Prod.mk.injEq] at heq
  obtain ⟨rfl, rfl⟩ := heq
  obtain ⟨held, hheld, ⟨w, hw, hsafe⟩ | ⟨w, hw, hsafe⟩⟩ := h.busy t op _ hcode
  · refine ⟨held, hheld, ?_⟩
    cases held with
    | none =>
      obtain ⟨howner, rfl⟩ := heap_eq_some.mp hw
      rw [State.view, heap_setMem_self howner]
      exact hsafe
    | some l =>
      obtain ⟨howner, rfl⟩ := heap_eq_some.mp hw
      rw [State.view, heap_setMem_self howner, heap_setMem_of_ne (by simp [howner])]
      exact hsafe
  · refine ⟨held, hheld, ?_⟩
    cases held with
    | none => contradiction
    | some l =>
      obtain ⟨howner, rfl⟩ := heap_eq_some.mp hw
      rw [State.view, heap_setMem_of_ne (by simp [howner]), heap_setMem_self howner]
      exact hsafe

theorem advance_inv (h : Inv inv done s) (hstep : advance s t = some s') : Inv inv done s' := by
  unfold advance at hstep
  split at hstep
  · contradiction
  · rename_i op a hcode
    rw [← Option.some.inj hstep]
    obtain ⟨held, hheld, hends⟩ := h.busy t op _ hcode
    refine h.recode ?_ (by simp)
    intro _ l hl
    have hsome := (hheld l).mp hl
    subst hsome
    have hnone := hends.1
    contradiction
  · contradiction
  · rename_i hcode
    rw [← Option.some.inj hstep]
    exact h.access hcode
  · rename_i hcode
    split at hstep
    · rw [← Option.some.inj hstep]
      exact h
    · rename_i hfree
      rw [← Option.some.inj hstep]
      exact h.acquire hcode (by simpa using hfree)
  · rename_i hcode
    rw [← Option.some.inj hstep]
    exact h.release hcode

variable {body : ι → Code κ ρ V E α} {ready : ι → Heap ρ V → Bool}

theorem step_inv (hbody : ∀ op h, ready op h = true →
      Safe inv (Ends (done op)) (body op) (.outside [] h))
    {a : Action ρ V ι} (h : Inv inv done s) (hstep : step body ready s a = some s') :
    Inv inv done s' := by
  cases a with
  | call t op =>
    rw [step] at hstep
    split at hstep
    · rename_i hok
      rw [← Option.some.inj hstep]
      refine h.goto rfl h.logs h.free (fun u hne => update_of_ne hne ..)
        (fun _ _ _ => Iff.rfl) (fun _ _ => rfl) (fun _ _ _ _ => ⟨rfl, rfl⟩) (by simp) ?_
      intro op' c' heq
      rw [Option.some.injEq, Prod.mk.injEq] at heq
      obtain ⟨rfl, rfl⟩ := heq
      have htrail : (s.begin t).trail t = [] := update_self ..
      refine ⟨none, ?_, ?_⟩
      · intro l
        have hnot : s.holder l ≠ some t := h.idle t (by simpa using hok.1) l
        exact ⟨fun hl => absurd hl hnot, fun hl => absurd hl (by simp)⟩
      · rw [State.view, htrail]
        exact hbody op _ hok.2
    · contradiction
  | write t x v =>
    rw [step] at hstep
    split at hstep
    · rename_i hok
      have hcode : s.code t = none := by simpa using hok.1
      rw [← Option.some.inj hstep]
      have hwritten := h.setMem (w := v) (c := none) (Or.inl hok.2) (fun _ => h.idle t hcode)
        (by simp)
      have hsame : (s.setMem x v).goto t none = s.setMem x v := by
        rw [State.goto, ← show (s.setMem x v).code t = none from hcode, update_eq_self]
      rwa [hsame] at hwritten
    · contradiction
  | advance t => exact advance_inv h hstep

/-- With safe codes, the invariant holds in every interleaving. -/
theorem run_inv (hbody : ∀ op h, ready op h = true →
      Safe inv (Ends (done op)) (body op) (.outside [] h))
    {schedule : List (Action ρ V ι)} (h : Inv inv done s)
    (hrun : run (step body ready) s schedule = some s') : Inv inv done s' :=
  run_invariant (fun _ _ _ h _ hstep => step_inv hbody h hstep) h (guarded_trivial schedule) hrun

section Progress

theorem run_advance {s₁ : State κ ρ V E α ι} {rest : List (Action ρ V ι)}
    (hstep : advance s t = some s₁) (hrest : run (step body ready) s₁ rest = some s') :
    run (step body ready) s (.advance t :: rest) = some s' := by
  rw [run, step, hstep]
  exact hrest

/-- The thread that holds a lock can go on alone until it drops it. -/
theorem Inv.exists_exit (body : ι → Code κ ρ V E α) (ready : ι → Heap ρ V → Bool)
    {c : Code κ ρ V E α} (h : Inv inv done s) (hcode : s.code u = some (op, c))
    (hheld : s.holder l = some u) :
    ∃ schedule s', run (step body ready) s schedule = some s' ∧ Inv inv done s' ∧
      s'.holder l = none ∧ ∀ t, t ≠ u → s'.code t = s.code t := by
  have hview : ∃ held, held = some l ∧ Safe inv (Ends (done op)) c (s.view u held) := by
    obtain ⟨held, hiff, hsafe⟩ := h.busy u op c hcode
    exact ⟨held, (hiff l).mp hheld, hsafe⟩
  obtain ⟨_, rfl, hsafe⟩ := hview
  induction c generalizing s with
  | ret a =>
    have hnone := hsafe.1
    contradiction
  | stuck => exact absurd hsafe id
  | access x f k ih =>
    have hnext := h.access hcode
    have hcode' : ((s.setMem x (f (s.mem x))).goto u (some (op, k (s.mem x)))).code u =
        some (op, k (s.mem x)) := update_self ..
    have hview' : Safe inv (Ends (done op)) (k (s.mem x))
        (((s.setMem x (f (s.mem x))).goto u (some (op, k (s.mem x)))).view u (some l)) := by
      obtain ⟨held, hiff, hsafe'⟩ := hnext.busy u op _ hcode'
      rwa [(hiff l).mp hheld] at hsafe'
    obtain ⟨rest, s', hrun, hinv, hfree, hothers⟩ := ih (s.mem x) hnext hcode' hheld hview'
    refine ⟨.advance u :: rest, s', run_advance ?_ hrun, hinv, hfree, ?_⟩
    · rw [advance, hcode]
    · intro t hne
      rw [hothers t hne]
      exact update_of_ne hne ..
  | acquire l' k ih =>
    have hnone := hsafe.1
    contradiction
  | release l' e give take k ih =>
    obtain ⟨log, hlog, _⟩ := hsafe
    obtain rfl : l = l' := congrArg Prod.fst (Option.some.inj hlog)
    refine ⟨[.advance u], _, run_advance ?_ rfl, h.release hcode, update_self .., ?_⟩
    · rw [advance, hcode]
    · intro t hne
      exact update_of_ne hne ..

/-- No call is ever stuck: from every state that is reached, it can be completed. -/
theorem Inv.exists_return (body : ι → Code κ ρ V E α) (ready : ι → Heap ρ V → Bool)
    (h : Inv inv done s) (t : ℕ) :
    ∃ schedule s', run (step body ready) s schedule = some s' ∧ s'.code t = none := by
  cases hcode : s.code t with
  | none => exact ⟨[], s, rfl, hcode⟩
  | some current =>
    obtain ⟨op, c⟩ := current
    induction c generalizing s with
    | ret a =>
      refine ⟨[.advance t], s.goto t none, run_advance ?_ rfl, update_self ..⟩
      rw [advance, hcode]
    | stuck =>
      obtain ⟨held, _, hsafe⟩ := h.busy t op _ hcode
      exact absurd hsafe id
    | access x f k ih =>
      obtain ⟨rest, s', hrun, hend⟩ := ih (s.mem x) (h.access hcode) (update_self ..)
      refine ⟨.advance t :: rest, s', run_advance ?_ hrun, hend⟩
      rw [advance, hcode]
    | release l e give take k ih =>
      obtain ⟨rest, s', hrun, hend⟩ := ih (h.release hcode) (update_self ..)
      refine ⟨.advance t :: rest, s', run_advance ?_ hrun, hend⟩
      rw [advance, hcode]
    | acquire l k ih =>
      -- whoever holds the lock goes first
      have hfirst : ∃ first s₁, run (step body ready) s first = some s₁ ∧ Inv inv done s₁ ∧
          s₁.holder l = none ∧ s₁.code t = some (op, .acquire l k) := by
        cases hholder : s.holder l with
        | none => exact ⟨[], s, rfl, h, hholder, hcode⟩
        | some u =>
          have hne : t ≠ u := by
            rintro rfl
            obtain ⟨held, hiff, hsafe⟩ := h.busy t op _ hcode
            have hheld := (hiff l).mp hholder
            subst hheld
            have hnone := hsafe.1
            contradiction
          cases hu : s.code u with
          | none => exact absurd hholder (h.idle u hu l)
          | some other =>
            obtain ⟨first, s₁, hrun, hinv, hfree, hothers⟩ := h.exists_exit body ready hu hholder
            exact ⟨first, s₁, hrun, hinv, hfree, (hothers t hne).trans hcode⟩
      obtain ⟨first, s₁, hrun, h₁, hfree, hcode₁⟩ := hfirst
      obtain ⟨rest, s', hrest, hend⟩ := ih (h₁.acquire hcode₁ hfree) (update_self ..)
      refine ⟨first ++ .advance t :: rest, s', ?_, hend⟩
      rw [run_append, hrun]
      refine run_advance ?_ hrest
      rw [advance, hcode₁]
      simp [hfree]

end Progress

end Soundness

end Oxidalloc.LockInvariants
