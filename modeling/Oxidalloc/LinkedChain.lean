import Mathlib.Data.List.Nodup
import Mathlib.Logic.Function.Basic

/-!
Singly linked lists in a store of next pointers. `Linked null next a l b` says
that the pointer a leads through exactly the nodes l and then to b. A chain that
ends in null is determined by its first pointer, so it visits no node twice, and
a store that agrees on the visited nodes has the same chain.
-/
namespace Oxidalloc.LinkedChain

open Function

variable {α : Type*} {null : α}

def Linked (null : α) (next : α → α) : α → List α → α → Prop
  | a, [], b => a = b
  | a, x :: l, b => a = x ∧ x ≠ null ∧ Linked null next (next x) l b

instance Linked.decidable [DecidableEq α] (null : α) (next : α → α) :
    ∀ a l b, Decidable (Linked null next a l b)
  | a, [], b => inferInstanceAs (Decidable (a = b))
  | a, x :: l, b =>
    have := Linked.decidable null next (next x) l b
    inferInstanceAs (Decidable (a = x ∧ x ≠ null ∧ Linked null next (next x) l b))

variable {next next' : α → α} {a b c x : α} {l m : List α}

theorem linked_append :
    Linked null next a (l ++ m) c ↔ ∃ b, Linked null next a l b ∧ Linked null next b m c := by
  induction l generalizing a with
  | nil => simp [Linked]
  | cons x l ih =>
    rw [List.cons_append, Linked, ih]
    constructor
    · rintro ⟨hx, hnull, b, hl, hm⟩
      exact ⟨b, ⟨hx, hnull, hl⟩, hm⟩
    · rintro ⟨b, ⟨hx, hnull, hl⟩, hm⟩
      exact ⟨hx, hnull, b, hl, hm⟩

theorem linked_concat :
    Linked null next a (l ++ [x]) c ↔
      Linked null next a l x ∧ x ≠ null ∧ next x = c := by
  rw [linked_append]
  constructor
  · rintro ⟨b, hl, hb, hnull, hc⟩
    exact ⟨hb ▸ hl, hnull, hc⟩
  · rintro ⟨hl, hnull, hc⟩
    exact ⟨x, hl, rfl, hnull, hc⟩

/-- The first n nodes from a pointer on. -/
def trail (next : α → α) : ℕ → α → List α
  | 0, _ => []
  | n + 1, a => a :: trail next n (next a)

theorem Linked.trail_eq (h : Linked null next a l b) : trail next l.length a = l := by
  induction l generalizing a with
  | nil => rfl
  | cons x l ih =>
    obtain ⟨hx, _, hl⟩ := h
    subst hx
    rw [List.length_cons, trail, ih hl]

/-- The chain depends only on the next pointers of its nodes. -/
theorem Linked.congr (h : Linked null next a l b) (hnext : ∀ x ∈ l, next' x = next x) :
    Linked null next' a l b := by
  induction l generalizing a with
  | nil => exact h
  | cons x l ih =>
    obtain ⟨hx, hnull, hl⟩ := h
    refine ⟨hx, hnull, ?_⟩
    rw [hnext x List.mem_cons_self]
    exact ih hl fun y hy => hnext y (List.mem_cons_of_mem x hy)

theorem Linked.head_mem (h : Linked null next a l null) (ha : a ≠ null) : a ∈ l := by
  cases l with
  | nil => exact absurd h ha
  | cons x l => exact h.1 ▸ List.mem_cons_self

theorem Linked.eq_nil (h : Linked null next null l b) : l = [] := by
  cases l with
  | nil => rfl
  | cons x l => exact absurd h.1.symm h.2.1

/-- Two chains from one pointer to the null pointer are the same. -/
theorem Linked.unique (hl : Linked null next a l null) (hm : Linked null next a m null) :
    l = m := by
  induction l generalizing a m with
  | nil =>
    have ha : a = null := hl
    rw [ha] at hm
    exact hm.eq_nil.symm
  | cons x l ih =>
    cases m with
    | nil => exact absurd (hl.1.symm.trans hm) hl.2.1
    | cons y m =>
      have hxy : x = y := hl.1.symm.trans hm.1
      subst hxy
      rw [ih hl.2.2 hm.2.2]

/-- A null-terminated chain has no cycle: its part after a node depends on the
node only, so a node cannot occur twice. -/
theorem Linked.nodup (h : Linked null next a l null) : l.Nodup := by
  induction l generalizing a with
  | nil => exact List.nodup_nil
  | cons x l ih =>
    refine List.nodup_cons.mpr ⟨fun hx => ?_, ih h.2.2⟩
    obtain ⟨before, after, hsplit⟩ := List.append_of_mem hx
    have htail := h.2.2
    rw [hsplit] at htail
    obtain ⟨b, _, hafter⟩ := linked_append.mp htail
    have hsame := (hsplit ▸ h.2.2).unique hafter.2.2
    have hlen := congrArg List.length hsame
    simp only [List.length_append, List.length_cons] at hlen
    omega

/-- Redirecting the last node of a chain. -/
theorem Linked.redirect [DecidableEq α] (h : Linked null next a (l ++ [x]) b) (hx : x ∉ l) :
    Linked null (update next x c) a (l ++ [x]) c := by
  obtain ⟨hl, hnull, _⟩ := linked_concat.mp h
  refine linked_concat.mpr ⟨hl.congr ?_, hnull, update_self x c next⟩
  intro y hy
  apply update_of_ne
  intro heq
  exact hx (heq ▸ hy)

end Oxidalloc.LinkedChain
