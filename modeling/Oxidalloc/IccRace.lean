import Oxidalloc.HeadPacking
import Oxidalloc.Interleaving
import Oxidalloc.LinkedChain

/-!
Concurrent `try_push` and `pop` on one shard and class of the
`InterConnectCache`. Each load of the head word, each read or write of a `next`
field, each exchange of the head word and each update of `usage` is one action of
one thread. A thread that runs neither function may rewrite the `next` fields of
its own blocks, which is how callers build the chains they push.

Two fields are not in the code: `version` counts the successful exchanges of the
head word, and a popping thread remembers in `seen` the count at its load. They
are read by no transition.
-/
namespace Oxidalloc.IccRace

open HeadPacking Interleaving LinkedChain Function

abbrev Tid := ℕ

/-- The blocks in existence, each of them owned by one thread at the start. -/
structure Blocks where
  own : Tid → List ℕ
  isBlock : ∀ t b, b ∈ own t → IsBlock b
  disjoint : ∀ t u b, b ∈ own t → b ∈ own u → t = u

/-- Where a thread stands. The blocks a pop has walked are `walked` and then
`tail`; the chain of a push is `body` and then `tail`. -/
inductive Control where
  | idle
  | popUsage (batch : ℕ)
  | popLoad (batch : ℕ)
  | popWalk (batch seen cur : ℕ) (walked : List ℕ) (tail left : ℕ)
  | popNewHead (batch seen cur : ℕ) (walked : List ℕ) (tail : ℕ)
  | popCas (batch seen cur : ℕ) (walked : List ℕ) (tail newHead : ℕ)
  | popSub (tail count : ℕ)
  | popTerminate (tail : ℕ)
  | pushLoad (head : ℕ) (body : List ℕ) (tail batch : ℕ)
  | pushLink (cur head : ℕ) (body : List ℕ) (tail batch : ℕ)
  | pushCas (cur head : ℕ) (body : List ℕ) (tail batch : ℕ)
  | pushAdd (batch : ℕ)
  deriving DecidableEq, Repr

structure State where
  head : ℕ
  usage : ℕ
  next : ℕ → ℕ
  control : Tid → Control
  owned : Tid → List ℕ
  version : ℕ

def State.goto (s : State) (t : Tid) (c : Control) : State :=
  { s with control := update s.control t c }

def State.setNext (s : State) (ptr val : ℕ) : State :=
  { s with next := update s.next ptr val }

/-- The head word takes a new block, with its tag one up. -/
def State.swapHead (s : State) (cur ptr : ℕ) : State :=
  { s with
    head := headPack ptr ((headTag cur + 1) % usizeBound)
    version := s.version + 1 }

def State.setOwned (s : State) (t : Tid) (blocks : List ℕ) : State :=
  { s with owned := update s.owned t blocks }

/-- The head of the loop `for _ in 1..batch_size` of `pop`. -/
def walkLoop (batch seen cur : ℕ) (walked : List ℕ) (tail left : ℕ) : Control :=
  if left = 0 then .popNewHead batch seen cur walked tail
  else .popWalk batch seen cur walked tail left

inductive Action where
  | pop (t : Tid) (batch : ℕ)
  | push (t : Tid) (head : ℕ) (body : List ℕ) (tail batch : ℕ)
  | write (t : Tid) (ptr val : ℕ)
  | advance (t : Tid)
  | casFails (t : Tid)
  deriving DecidableEq, Repr

def advance (s : State) (t : Tid) : Option State :=
  match s.control t with
  | .idle => none
  | .popUsage batch =>
    if s.usage = 0 then some (s.goto t .idle) else some (s.goto t (.popLoad batch))
  | .popLoad batch =>
    if headPtr s.head = 0 then some (s.goto t .idle)
    else some (s.goto t (walkLoop batch s.version s.head [] (headPtr s.head) (batch - 1)))
  | .popWalk batch seen cur walked tail left =>
    if s.next tail = 0 then some (s.goto t (.popNewHead batch seen cur walked tail))
    else some (s.goto t (walkLoop batch seen cur (walked ++ [tail]) (s.next tail) (left - 1)))
  | .popNewHead batch seen cur walked tail =>
    some (s.goto t (.popCas batch seen cur walked tail (s.next tail)))
  | .popCas batch _ cur walked tail newHead =>
    if s.head = cur then
      some (((s.swapHead cur newHead).setOwned t (walked ++ tail :: s.owned t)).goto t
        (.popSub tail (walked.length + 1)))
    else some (s.goto t (.popLoad batch))
  | .popSub tail count =>
    some ({ s with usage := (s.usage + (usizeBound - count % usizeBound)) % usizeBound }.goto t
      (.popTerminate tail))
  | .popTerminate tail => some ((s.setNext tail 0).goto t .idle)
  | .pushLoad head body tail batch => some (s.goto t (.pushLink s.head head body tail batch))
  | .pushLink cur head body tail batch =>
    some ((s.setNext tail (headPtr cur)).goto t (.pushCas cur head body tail batch))
  | .pushCas cur head body tail batch =>
    if s.head = cur then
      some (((s.swapHead cur head).setOwned t
        ((s.owned t).filter (· ∉ body ++ [tail]))).goto t (.pushAdd batch))
    else some (s.goto t (.pushLink s.head head body tail batch))
  | .pushAdd batch =>
    some ({ s with usage := (s.usage + batch) % usizeBound }.goto t .idle)

/-- The blocks `body` and then `tail` are distinct blocks of the thread, linked
in this order from `head` on. -/
def OwnChain (s : State) (t : Tid) (head : ℕ) (body : List ℕ) (tail : ℕ) : Prop :=
  (body ++ [tail]).Nodup ∧ (∀ b ∈ body ++ [tail], b ∈ s.owned t) ∧
    Linked 0 s.next head (body ++ [tail]) (s.next tail)

instance OwnChain.decidable (s : State) (t : Tid) (head : ℕ) (body : List ℕ) (tail : ℕ) :
    Decidable (OwnChain s t head body tail) :=
  inferInstanceAs (Decidable (_ ∧ _ ∧ _))

/-- One action. A thread pushes only chains of its own blocks, and outside of
`pop` and `try_push` writes only the `next` fields of its own blocks. -/
def step (s : State) : Action → Option State
  | .pop t batch => if s.control t = .idle then some (s.goto t (.popUsage batch)) else none
  | .push t head body tail batch =>
    if s.control t = .idle ∧ OwnChain s t head body tail then
      some (s.goto t (.pushLoad head body tail batch))
    else none
  | .write t ptr val =>
    if s.control t = .idle ∧ ptr ∈ s.owned t then some (s.setNext ptr val) else none
  | .advance t => advance s t
  | .casFails t =>
    match s.control t with
    | .pushCas _ head body tail batch => some (s.goto t (.pushLink s.head head body tail batch))
    | _ => none

def initial (B : Blocks) (next : ℕ → ℕ) : State := ⟨0, 0, next, fun _ => .idle, B.own, 0⟩

/-- Each block is reachable from the head and owned by nobody, or not reachable
and owned by exactly one thread; nothing else is reachable, and no block twice. -/
def Conserved (B : Blocks) (s : State) : Prop :=
  ∃ l, Linked 0 s.next (headPtr s.head) l 0 ∧ l.Nodup ∧
    (∀ b ∈ l, ∃ t, b ∈ B.own t) ∧
    ∀ t, ∀ b ∈ B.own t,
      (b ∈ l ∧ ∀ u, b ∉ s.owned u) ∨ (b ∉ l ∧ ∃ u, b ∈ s.owned u ∧ ∀ v, b ∈ s.owned v → v = u)

/-- A pop whose exchange is about to succeed has loaded the head word less than
16 updates ago. -/
def TagFresh (head version : ℕ) : Control → Prop
  | .popCas _ seen cur _ _ _ => head = cur → version < seen + 16
  | _ => True

instance TagFresh.decidable (head version : ℕ) : ∀ c, Decidable (TagFresh head version c)
  | .popCas _ seen cur .. => inferInstanceAs (Decidable (head = cur → version < seen + 16))
  | .idle | .popUsage .. | .popLoad .. | .popWalk .. | .popNewHead .. | .popSub ..
  | .popTerminate .. | .pushLoad .. | .pushLink .. | .pushCas .. | .pushAdd .. => isTrue trivial

def PopFresh (s : State) : Action → Prop
  | .advance t => TagFresh s.head s.version (s.control t)
  | _ => True

instance PopFresh.decidable (s : State) : ∀ a, Decidable (PopFresh s a)
  | .advance t => TagFresh.decidable s.head s.version (s.control t)
  | .pop .. | .push .. | .write .. | .casFails .. => isTrue trivial

/-- What a thread knows at its place: a pop, that its blocks begin the list if the
head word was not exchanged since its load; a push, that its chain is intact. -/
def Consistent (s : State) (l : List ℕ) (t : Tid) : Control → Prop
  | .popWalk _ seen cur walked tail _ => seen ≤ s.version ∧ headTag cur = seen % 16 ∧
    (s.version = seen → ∃ rest, l = walked ++ tail :: rest)
  | .popNewHead _ seen cur walked tail => seen ≤ s.version ∧ headTag cur = seen % 16 ∧
    (s.version = seen → ∃ rest, l = walked ++ tail :: rest)
  | .popCas _ seen cur walked tail newHead => seen ≤ s.version ∧ headTag cur = seen % 16 ∧
    (s.version = seen → s.next tail = newHead ∧ ∃ rest, l = walked ++ tail :: rest)
  | .popSub tail _ => tail ∈ s.owned t
  | .popTerminate tail => tail ∈ s.owned t
  | .pushLoad head body tail _ => OwnChain s t head body tail
  | .pushLink _ head body tail _ => OwnChain s t head body tail
  | .pushCas cur head body tail _ => OwnChain s t head body tail ∧ s.next tail = headPtr cur
  | _ => True

/-- The state with the list `l` behind its head. -/
structure Settled (B : Blocks) (s : State) (l : List ℕ) : Prop where
  linked : Linked 0 s.next (headPtr s.head) l 0
  unowned : ∀ b ∈ l, ∀ t, b ∉ s.owned t
  exclusive : ∀ t u b, b ∈ s.owned t → b ∈ s.owned u → t = u
  covered : ∀ b, (∃ t, b ∈ B.own t) ↔ b ∈ l ∨ ∃ t, b ∈ s.owned t
  tag : headTag s.head = s.version % 16
  consistent : ∀ t, Consistent s l t (s.control t)

theorem settled_initial (B : Blocks) (next : ℕ → ℕ) : Settled B (initial B next) [] := by
  refine ⟨show headPtr 0 = 0 from rfl, ?_, B.disjoint, ?_, show headTag 0 = 0 from rfl,
    fun _ => trivial⟩
  · intro b hb
    contradiction
  · intro b
    simp [initial]

theorem Settled.conserved {B : Blocks} {s : State} {l : List ℕ} (h : Settled B s l) :
    Conserved B s := by
  refine ⟨l, h.linked, h.linked.nodup, fun b hb => (h.covered b).mpr (Or.inl hb), ?_⟩
  intro t b hb
  rcases (h.covered b).mp ⟨t, hb⟩ with hl | ⟨u, hu⟩
  · exact Or.inl ⟨hl, h.unowned b hl⟩
  · refine Or.inr ⟨fun hl => h.unowned b hl u hu, u, hu, ?_⟩
    intro v hv
    exact h.exclusive v u b hv hu

section Steps

variable {B : Blocks} {s s' : State} {l l' : List ℕ} {t : Tid}

theorem Settled.isBlock (h : Settled B s l) {b : ℕ} (hb : b ∈ l ∨ ∃ u, b ∈ s.owned u) :
    IsBlock b := by
  obtain ⟨u, hu⟩ := (h.covered b).mpr hb
  exact B.isBlock u b hu

theorem OwnChain.frame {u head tail : ℕ} {body : List ℕ} (h : OwnChain s u head body tail)
    (howned : s'.owned u = s.owned u) (hnext : ∀ b ∈ s.owned u, s'.next b = s.next b) :
    OwnChain s' u head body tail := by
  obtain ⟨hnodup, hown, hlinked⟩ := h
  have htail : tail ∈ s.owned u := hown tail (by simp)
  refine ⟨hnodup, fun b hb => howned ▸ hown b hb, ?_⟩
  rw [hnext tail htail]
  exact hlinked.congr fun b hb => hnext b (hown b hb)

/-- A thread keeps its knowledge when the others leave its blocks alone and
change the list only together with the head word. -/
theorem Consistent.frame {u : Tid} {c : Control} (h : Consistent s l u c)
    (hversion : s.version ≤ s'.version)
    (hlist : s'.version = s.version → l' = l ∧ ∀ b ∈ l, s'.next b = s.next b)
    (howned : s'.owned u = s.owned u) (hnext : ∀ b ∈ s.owned u, s'.next b = s.next b) :
    Consistent s' l' u c := by
  have hwalk : ∀ {seen : ℕ} {walked : List ℕ} {tail : ℕ}, seen ≤ s.version →
      (s.version = seen → ∃ rest, l = walked ++ tail :: rest) → s'.version = seen →
      (∃ rest, l' = walked ++ tail :: rest) ∧ s.version = seen ∧ s'.next tail = s.next tail := by
    intro seen walked tail hle hseen heq
    have hsame : s'.version = s.version := by omega
    obtain ⟨hl, hkeep⟩ := hlist hsame
    obtain ⟨rest, hrest⟩ := hseen (by omega)
    exact ⟨⟨rest, hl.trans hrest⟩, by omega, hkeep tail (by simp [hrest])⟩
  cases c with
  | popWalk batch seen cur walked tail left =>
    exact ⟨h.1.trans hversion, h.2.1, fun heq => (hwalk h.1 h.2.2 heq).1⟩
  | popNewHead batch seen cur walked tail =>
    exact ⟨h.1.trans hversion, h.2.1, fun heq => (hwalk h.1 h.2.2 heq).1⟩
  | popCas batch seen cur walked tail newHead =>
    refine ⟨h.1.trans hversion, h.2.1, fun heq => ?_⟩
    obtain ⟨hrest, hsame, htail⟩ := hwalk h.1 (fun hv => (h.2.2 hv).2) heq
    exact ⟨htail.trans (h.2.2 hsame).1, hrest⟩
  | popSub tail count =>
    show tail ∈ s'.owned u
    rw [howned]
    exact h
  | popTerminate tail =>
    show tail ∈ s'.owned u
    rw [howned]
    exact h
  | pushLoad head body tail batch => exact OwnChain.frame h howned hnext
  | pushLink cur head body tail batch => exact OwnChain.frame h howned hnext
  | pushCas cur head body tail batch =>
    have htail : tail ∈ s.owned u := h.1.2.1 tail (by simp)
    exact ⟨h.1.frame howned hnext, (hnext tail htail).trans h.2⟩
  | idle => trivial
  | popUsage batch => trivial
  | popLoad batch => trivial
  | pushAdd batch => trivial

theorem goto_consistent {c : Control} (h : ∀ u, u ≠ t → Consistent s l u (s.control u))
    (ht : Consistent s l t c) : ∀ u, Consistent (s.goto t c) l u ((s.goto t c).control u) := by
  intro u
  show Consistent s l u (update s.control t c u)
  rcases update_cases s.control t c u with ⟨rfl, hc⟩ | ⟨hu, hc⟩ <;> rw [hc]
  · exact ht
  · exact h u hu

/-- A step that changes at most `usage` and the thread's own place. -/
theorem Settled.goto {c : Control} (h : Settled B s l) (usage : ℕ) (hc : Consistent s l t c) :
    Settled B ({ s with usage := usage }.goto t c) l :=
  ⟨h.linked, h.unowned, h.exclusive, h.covered, h.tag,
    goto_consistent (fun u _ => h.consistent u) hc⟩

/-- A step that writes the `next` field of a block of the thread. -/
theorem Settled.setNext {c : Control} {ptr val : ℕ} (h : Settled B s l)
    (hptr : ptr ∈ s.owned t) (hc : Consistent (s.setNext ptr val) l t c) :
    Settled B ((s.setNext ptr val).goto t c) l := by
  have hlist : ∀ b ∈ l, (s.setNext ptr val).next b = s.next b := by
    intro b hb
    apply update_of_ne
    intro heq
    exact h.unowned b hb t (heq ▸ hptr)
  refine ⟨h.linked.congr hlist, h.unowned, h.exclusive, h.covered, h.tag,
    goto_consistent (fun u hu => ?_) hc⟩
  refine (h.consistent u).frame le_rfl (fun _ => ⟨rfl, hlist⟩) rfl ?_
  intro b hb
  apply update_of_ne
  intro heq
  exact hu (h.exclusive u t b hb (heq ▸ hptr))

/-- A successful exchange of the head word moves blocks between the list and the
thread. -/
theorem Settled.swapHead {c : Control} {ptr : ℕ} {mine : List ℕ} (h : Settled B s l)
    (haligned : 16 ∣ ptr) (hlt : ptr < usizeBound) (hlinked : Linked 0 s.next ptr l' 0)
    (hmine : ∀ b, b ∈ mine → b ∉ l' ∧ (b ∈ l ∨ b ∈ s.owned t))
    (hlist : ∀ b, b ∈ l' → b ∈ l ∨ b ∈ s.owned t)
    (hall : ∀ b, b ∈ l ∨ b ∈ s.owned t → b ∈ l' ∨ b ∈ mine)
    (hc : Consistent ((s.swapHead s.head ptr).setOwned t mine) l' t c) :
    Settled B (((s.swapHead s.head ptr).setOwned t mine).goto t c) l' := by
  have hown : ∀ u b, b ∈ update s.owned t mine u →
      (u = t ∧ b ∈ mine) ∨ (u ≠ t ∧ b ∈ s.owned u) := by
    intro u b hb
    rcases update_cases s.owned t mine u with ⟨hu, hm⟩ | ⟨hu, hm⟩ <;> rw [hm] at hb
    · exact Or.inl ⟨hu, hb⟩
    · exact Or.inr ⟨hu, hb⟩
  have hother : ∀ u b, u ≠ t → b ∈ s.owned u → b ∉ l ∧ b ∉ s.owned t := fun u b hu hb =>
    ⟨fun hl => h.unowned b hl u hb, fun ht => hu (h.exclusive u t b hb ht)⟩
  have howner : ∀ b, (∃ u, b ∈ update s.owned t mine u) ↔
      b ∈ mine ∨ ∃ u, u ≠ t ∧ b ∈ s.owned u := by
    intro b
    constructor
    · intro ⟨u, hu⟩
      rcases hown u b hu with ⟨_, hm⟩ | hm
      · exact Or.inl hm
      · exact Or.inr ⟨u, hm⟩
    · intro hb
      rcases hb with hm | ⟨u, hne, hm⟩
      · exact ⟨t, by rwa [update_self]⟩
      · exact ⟨u, by rwa [update_of_ne hne]⟩
  refine ⟨?_, ?_, ?_, ?_, ?_, goto_consistent (fun u hu => ?_) hc⟩
  · show Linked 0 s.next (headPtr (headPack ptr _)) l' 0
    rwa [headPtr_headPack haligned hlt]
  · intro b hb u hu
    rcases hown u b hu with ⟨_, hm⟩ | ⟨hne, hm⟩
    · exact (hmine b hm).1 hb
    · obtain ⟨hl, ht⟩ := hother u b hne hm
      exact (hlist b hb).elim hl ht
  · intro u v b hu hv
    rcases hown u b hu with ⟨hut, hbu⟩ | ⟨hut, hbu⟩ <;>
      rcases hown v b hv with ⟨hvt, hbv⟩ | ⟨hvt, hbv⟩
    · rw [hut, hvt]
    · obtain ⟨hl, ht⟩ := hother v b hvt hbv
      exact ((hmine b hbu).2.elim hl ht).elim
    · obtain ⟨hl, ht⟩ := hother u b hut hbu
      exact ((hmine b hbv).2.elim hl ht).elim
    · exact h.exclusive u v b hbu hbv
  · intro b
    rw [h.covered b]
    refine Iff.trans ?_ (or_congr_right (howner b)).symm
    constructor
    · intro hb
      rcases hb with hl | ⟨u, hu⟩
      · exact (hall b (Or.inl hl)).imp_right Or.inl
      · by_cases hut : u = t
        · exact (hall b (Or.inr (hut ▸ hu))).imp_right Or.inl
        · exact Or.inr (Or.inr ⟨u, hut, hu⟩)
    · intro hb
      have hmove : b ∈ l ∨ b ∈ s.owned t → b ∈ l ∨ ∃ u, b ∈ s.owned u :=
        Or.imp_right fun ht => ⟨t, ht⟩
      rcases hb with hl | hm | ⟨u, _, hu⟩
      · exact hmove (hlist b hl)
      · exact hmove (hmine b hm).2
      · exact Or.inr ⟨u, hu⟩
  · show headTag (headPack ptr _) = (s.version + 1) % 16
    rw [headTag_bump haligned, h.tag]
    omega
  · refine (h.consistent u).frame (Nat.le_succ _) (fun heq => ?_) ?_ (fun _ _ => rfl)
    · have : s.version + 1 = s.version := heq
      omega
    · exact update_of_ne hu mine s.owned

theorem walkLoop_consistent {batch seen cur tail left : ℕ} {walked : List ℕ}
    (h : seen ≤ s.version ∧ headTag cur = seen % 16 ∧
      (s.version = seen → ∃ rest, l = walked ++ tail :: rest)) :
    Consistent s l t (walkLoop batch seen cur walked tail left) := by
  unfold walkLoop
  split
  · exact h
  · exact h

theorem Settled.split {walked rest : List ℕ} {tail : ℕ} (h : Settled B s l)
    (hl : l = walked ++ tail :: rest) : Linked 0 s.next (s.next tail) rest 0 := by
  have hlinked := h.linked
  rw [hl] at hlinked
  obtain ⟨b, _, hb⟩ := linked_append.mp hlinked
  exact hb.2.2

theorem popLoad_preserves {batch : ℕ} (h : Settled B s l) (hptr : headPtr s.head ≠ 0) :
    Consistent s l t
      (walkLoop batch s.version s.head [] (headPtr s.head) (batch - 1)) := by
  refine walkLoop_consistent ⟨le_rfl, h.tag, fun _ => ?_⟩
  have hlinked := h.linked
  cases l with
  | nil => exact absurd hlinked hptr
  | cons b rest => exact ⟨rest, by rw [hlinked.1]; rfl⟩

theorem popWalk_preserves {batch seen cur tail left : ℕ} {walked : List ℕ} (h : Settled B s l)
    (hc : Consistent s l t (.popWalk batch seen cur walked tail left)) (hnext : s.next tail ≠ 0) :
    Consistent s l t
      (walkLoop batch seen cur (walked ++ [tail]) (s.next tail) (left - 1)) := by
  refine walkLoop_consistent ⟨hc.1, hc.2.1, fun heq => ?_⟩
  obtain ⟨rest, hrest⟩ := hc.2.2 heq
  have hlinked := h.split hrest
  cases rest with
  | nil => exact absurd hlinked hnext
  | cons b rest => exact ⟨rest, by rw [hrest, hlinked.1, List.append_assoc]; rfl⟩

/-- The tag shows that the list is still the one the pop has walked. -/
theorem popCas_preserves {batch seen cur tail newHead : ℕ} {walked : List ℕ}
    (h : Settled B s l) (hc : Consistent s l t (.popCas batch seen cur walked tail newHead))
    (hcur : s.head = cur) (hfresh : s.version < seen + 16) :
    ∃ l', Settled B (((s.swapHead cur newHead).setOwned t (walked ++ tail :: s.owned t)).goto t
      (.popSub tail (walked.length + 1))) l' := by
  obtain ⟨hle, htag, hseen⟩ := hc
  have hversion : s.version = seen := by
    have hmod := h.tag
    rw [hcur, htag] at hmod
    omega
  obtain ⟨hnext, rest, hrest⟩ := hseen hversion
  have hlinked := h.split hrest
  have hnodup := h.linked.nodup
  rw [hnext] at hlinked
  have hword : 16 ∣ newHead ∧ newHead < usizeBound := by
    by_cases hnull : newHead = 0
    · rw [hnull]
      exact ⟨⟨0, rfl⟩, Nat.two_pow_pos 64⟩
    · have hmem : newHead ∈ l := by
        rw [hrest]
        simp [hlinked.head_mem hnull]
      have hblock := h.isBlock (Or.inl hmem)
      exact ⟨hblock.aligned, hblock.lt⟩
  have hmem : ∀ b, b ∈ l ↔ (b ∈ walked ∨ b = tail) ∨ b ∈ rest := by
    intro b
    rw [hrest]
    simp [or_assoc]
  have hmine : ∀ b, b ∈ walked ++ tail :: s.owned t ↔ (b ∈ walked ∨ b = tail) ∨ b ∈ s.owned t := by
    intro b
    simp [or_assoc]
  refine ⟨rest, ?_⟩
  rw [← hcur]
  apply h.swapHead hword.1 hword.2 hlinked
  · intro b hb
    rw [hmem]
    rcases (hmine b).mp hb with hwalked | howned
    · refine ⟨fun hb' => ?_, Or.inl (Or.inl hwalked)⟩
      rw [hrest, List.nodup_append, List.nodup_cons] at hnodup
      rcases hwalked with hw | heq
      · exact hnodup.2.2 b hw b (List.mem_cons_of_mem tail hb') rfl
      · exact hnodup.2.1.1 (heq ▸ hb')
    · exact ⟨fun hb' => h.unowned b ((hmem b).mpr (Or.inr hb')) t howned, Or.inr howned⟩
  · intro b hb
    exact Or.inl ((hmem b).mpr (Or.inr hb))
  · intro b hb
    rw [hmine]
    rcases hb with hl | howned
    · exact ((hmem b).mp hl).symm.imp_right Or.inl
    · exact Or.inr (Or.inr howned)
  · show tail ∈ update s.owned t _ t
    rw [update_self]
    simp

theorem pushLink_preserves {cur head tail batch : ℕ} {body : List ℕ} (h : Settled B s l)
    (hc : OwnChain s t head body tail) :
    Settled B ((s.setNext tail (headPtr cur)).goto t (.pushCas cur head body tail batch)) l := by
  obtain ⟨hnodup, hown, hlinked⟩ := hc
  have hset : (s.setNext tail (headPtr cur)).next tail = headPtr cur :=
    update_self tail _ s.next
  apply h.setNext (hown tail (by simp))
  refine ⟨⟨hnodup, hown, ?_⟩, hset⟩
  rw [hset]
  apply hlinked.redirect
  intro htail
  exact (List.nodup_append.mp hnodup).2.2 tail htail tail List.mem_cons_self rfl

theorem pushCas_preserves {cur head tail batch : ℕ} {body : List ℕ} (h : Settled B s l)
    (hc : Consistent s l t (.pushCas cur head body tail batch)) (hcur : s.head = cur) :
    ∃ l', Settled B (((s.swapHead cur head).setOwned t
      ((s.owned t).filter (· ∉ body ++ [tail]))).goto t (.pushAdd batch)) l' := by
  obtain ⟨⟨_, hown, hlinked⟩, hnext⟩ := hc
  have hhead : head ∈ body ++ [tail] := by
    cases hbody : body ++ [tail] with
    | nil => simp at hbody
    | cons b rest =>
      rw [hbody] at hlinked
      rw [hlinked.1]
      exact List.mem_cons_self
  have hblock := h.isBlock (Or.inr ⟨t, hown head hhead⟩)
  have hmine : ∀ b, b ∈ (s.owned t).filter (· ∉ body ++ [tail]) ↔
      b ∈ s.owned t ∧ b ∉ body ++ [tail] := by
    intro b
    rw [List.mem_filter, decide_eq_true_iff]
  refine ⟨body ++ [tail] ++ l, ?_⟩
  rw [← hcur]
  apply h.swapHead hblock.aligned hblock.lt
  · rw [hnext, ← hcur] at hlinked
    exact linked_append.mpr ⟨_, hlinked, h.linked⟩
  · intro b hb
    obtain ⟨howned, hnot⟩ := (hmine b).mp hb
    refine ⟨fun hb' => ?_, Or.inr howned⟩
    exact (List.mem_append.mp hb').elim hnot fun hl => h.unowned b hl t howned
  · intro b hb
    exact (List.mem_append.mp hb).symm.imp_right (hown b)
  · intro b hb
    rw [hmine, List.mem_append]
    by_cases hchain : b ∈ body ++ [tail]
    · exact Or.inl (Or.inl hchain)
    · rcases hb with hl | howned
      · exact Or.inl (Or.inr hl)
      · exact Or.inr ⟨howned, hchain⟩
  · trivial

theorem advance_preserves (h : Settled B s l) (hok : TagFresh s.head s.version (s.control t))
    (hstep : advance s t = some s') : ∃ l', Settled B s' l' := by
  have hcons := h.consistent t
  unfold advance at hstep
  cases hcontrol : s.control t <;>
    simp only [hcontrol, Option.some.injEq, reduceCtorEq] at hcons hok hstep
  case popUsage batch =>
    split at hstep
    · have heq := Option.some.inj hstep
      exact ⟨l, heq ▸ h.goto s.usage trivial⟩
    · have heq := Option.some.inj hstep
      exact ⟨l, heq ▸ h.goto s.usage trivial⟩
  case popLoad batch =>
    split at hstep
    · have heq := Option.some.inj hstep
      exact ⟨l, heq ▸ h.goto s.usage trivial⟩
    · rename_i hptr
      have heq := Option.some.inj hstep
      exact ⟨l, heq ▸ h.goto s.usage (popLoad_preserves h hptr)⟩
  case popWalk batch seen cur walked tail left =>
    split at hstep
    · have heq := Option.some.inj hstep
      exact ⟨l, heq ▸ h.goto s.usage hcons⟩
    · rename_i hnext
      have heq := Option.some.inj hstep
      exact ⟨l, heq ▸ h.goto s.usage (popWalk_preserves h hcons hnext)⟩
  case popNewHead batch seen cur walked tail =>
    refine ⟨l, hstep ▸ h.goto s.usage ?_⟩
    exact ⟨hcons.1, hcons.2.1, fun hv => ⟨rfl, hcons.2.2 hv⟩⟩
  case popCas batch seen cur walked tail newHead =>
    split at hstep
    · rename_i hcur
      have heq := Option.some.inj hstep
      exact heq ▸ popCas_preserves h hcons hcur (hok hcur)
    · have heq := Option.some.inj hstep
      exact ⟨l, heq ▸ h.goto s.usage trivial⟩
  case popSub tail count =>
    exact ⟨l, hstep ▸ h.goto _ hcons⟩
  case popTerminate tail =>
    exact ⟨l, hstep ▸ h.setNext hcons trivial⟩
  case pushLoad head body tail batch =>
    exact ⟨l, hstep ▸ h.goto s.usage hcons⟩
  case pushLink cur head body tail batch =>
    exact ⟨l, hstep ▸ pushLink_preserves h hcons⟩
  case pushCas cur head body tail batch =>
    split at hstep
    · rename_i hcur
      have heq := Option.some.inj hstep
      exact heq ▸ pushCas_preserves h hcons hcur
    · have heq := Option.some.inj hstep
      exact ⟨l, heq ▸ h.goto s.usage hcons.1⟩
  case pushAdd batch =>
    exact ⟨l, hstep ▸ h.goto _ trivial⟩

theorem step_preserves {a : Action} (h : Settled B s l) (hok : PopFresh s a)
    (hstep : step s a = some s') : ∃ l', Settled B s' l' := by
  cases a with
  | pop t batch =>
    simp only [step] at hstep
    split at hstep
    · have heq := Option.some.inj hstep
      exact ⟨l, heq ▸ h.goto s.usage trivial⟩
    · contradiction
  | push t head body tail batch =>
    simp only [step] at hstep
    split at hstep
    · rename_i hpush
      have heq := Option.some.inj hstep
      exact ⟨l, heq ▸ h.goto s.usage hpush.2⟩
    · contradiction
  | write t ptr val =>
    simp only [step] at hstep
    split at hstep
    · rename_i hwrite
      have heq := Option.some.inj hstep
      have hkeep : Settled B ((s.setNext ptr val).goto t .idle) l := h.setNext hwrite.2 trivial
      rw [← hwrite.1, State.goto, State.setNext, update_eq_self] at hkeep
      exact ⟨l, heq ▸ hkeep⟩
    · contradiction
  | advance t => exact advance_preserves h hok hstep
  | casFails t =>
    have hcons := h.consistent t
    simp only [step] at hstep
    split at hstep
    · rename_i hcontrol
      rw [hcontrol] at hcons
      have heq := Option.some.inj hstep
      exact ⟨l, heq ▸ h.goto s.usage hcons.1⟩
    · contradiction

end Steps

/-- In every run in which a pop's exchange succeeds only within 16 updates of the
head word after its load, no block is lost and none is duplicated. -/
theorem icc_conserves_blocks (B : Blocks) (next : ℕ → ℕ) (schedule : List Action) (s : State)
    (hok : Guarded step PopFresh (initial B next) schedule)
    (hrun : run step (initial B next) schedule = some s) : Conserved B s := by
  have hinv : ∃ l, Settled B s l :=
    @run_invariant _ _ step PopFresh (fun s => ∃ l, Settled B s l)
      (fun _ _ _ ⟨_, h⟩ hok hstep => step_preserves h hok hstep) _ _ _
      ⟨[], settled_initial B next⟩ hok hrun
  obtain ⟨l, h⟩ := hinv
  exact h.conserved

/-- Thread 1 owns the blocks 16 and 32. -/
def twoBlocks : Blocks where
  own t := if t = 1 then [16, 32] else []
  isBlock t b hb := by
    split at hb
    · rcases List.mem_cons.mp hb with h | h
      · exact h ▸ ⟨by decide, by decide, by decide⟩
      · exact List.mem_singleton.mp h ▸ ⟨by decide, by decide, by decide⟩
    · contradiction
  disjoint t u b ht hu := by
    split at ht
    · rename_i h1
      split at hu
      · rename_i h2
        rw [h1, h2]
      · contradiction
    · contradiction

def pushOne (t : Tid) (ptr : ℕ) : List Action :=
  .push t ptr [] ptr 1 :: List.replicate 4 (.advance t)

def popOne (t : Tid) : List Action := .pop t 1 :: List.replicate 6 (.advance t)

/-- Thread 1 builds the chain 16, 32 and pushes it; thread 0 pops one block. -/
def handOver : List Action :=
  [.write 1 16 32, .push 1 16 [16] 32 2] ++ List.replicate 4 (.advance 1) ++ popOne 0

theorem icc_conserves_handOver :
    ∃ s, run step (initial twoBlocks fun _ => 0) handOver = some s ∧
      s.owned 0 = [16] ∧ headPtr s.head = 32 ∧ Conserved twoBlocks s :=
  ⟨_, rfl, rfl, rfl, icc_conserves_blocks twoBlocks (fun _ => 0) handOver _ (by decide) rfl⟩

/-- Thread 0 reads the head 16 and its successor 32. Thread 1 then pops both
blocks and pushes and pops 16 until the head word is the same again, 16 updates
later, and keeps 32. Thread 0's exchange succeeds and makes 32 the head. -/
def tagWraps : List Action :=
  pushOne 1 32 ++ pushOne 1 16 ++ .pop 0 1 :: List.replicate 3 (.advance 0) ++
    .pop 1 2 :: List.replicate 7 (.advance 1) ++
    (List.replicate 7 (pushOne 1 16 ++ popOne 1)).flatten ++ pushOne 1 16 ++ [.advance 0]

theorem tagWraps_result :
    (run step (initial twoBlocks fun _ => 0) tagWraps).map
      (fun s => (headPtr s.head, s.owned 1)) = some (32, [32]) := by
  decide +kernel

theorem icc_loses_exclusivity :
    ¬ ∀ s, Reachable step (initial twoBlocks fun _ => 0) s → Conserved twoBlocks s := by
  intro h
  obtain ⟨s, hrun, hs⟩ := Option.map_eq_some_iff.mp tagWraps_result
  have hhead : headPtr s.head = 32 := congrArg Prod.fst hs
  have howned : s.owned 1 = [32] := congrArg Prod.snd hs
  obtain ⟨l, hlinked, _, _, hplace⟩ := h s ⟨tagWraps, hrun⟩
  have hmem : 32 ∈ l := by
    rw [hhead] at hlinked
    exact hlinked.head_mem (by decide)
  rcases hplace 1 32 (by decide) with hlist | hown
  · exact hlist.2 1 (by simp [howned])
  · exact hown.1 hmem

end Oxidalloc.IccRace
