import Mathlib.Data.List.Nodup
import Mathlib.Logic.Function.Basic

/-!
Singly linked lists whose pointers are stored under an encoding. `Stored enc next w l e`
says that the word w encodes the first node of l, the word stored in each node encodes
the node after it, and the word in the last node is e. With a map between two encodings
a list can be stored again under the other one.
-/
namespace Oxidalloc.EncodedChain

open Function

variable {α β γ : Type*}

def Stored (enc : α → β) (next : α → β) : β → List α → β → Prop
  | w, [], e => w = e
  | w, x :: l, e => w = enc x ∧ Stored enc next (next x) l e

variable {enc : α → β} {next next' : α → β} {w e : β} {x : α} {l m : List α}

theorem stored_append :
    Stored enc next w (l ++ m) e ↔ ∃ v, Stored enc next w l v ∧ Stored enc next v m e := by
  induction l generalizing w with
  | nil => simp [Stored]
  | cons x l ih =>
    rw [List.cons_append, Stored, ih]
    constructor
    · intro ⟨hx, v, hl, hm⟩
      exact ⟨v, ⟨hx, hl⟩, hm⟩
    · intro ⟨v, ⟨hx, hl⟩, hm⟩
      exact ⟨hx, v, hl, hm⟩

/-- The last word is the one in the last node. -/
theorem Stored.last (h : Stored enc next w (l ++ [x]) e) : next x = e := by
  obtain ⟨v, _, hx⟩ := stored_append.mp h
  exact hx.2

/-- The words of the nodes say everything about the list. -/
theorem Stored.congr (h : Stored enc next w l e) (hnext : ∀ x ∈ l, next' x = next x) :
    Stored enc next' w l e := by
  induction l generalizing w with
  | nil => exact h
  | cons x l ih =>
    refine ⟨h.1, ?_⟩
    rw [hnext x List.mem_cons_self]
    exact ih h.2 fun y hy => hnext y (List.mem_cons_of_mem x hy)

/-- Every word but the last is stored again under another encoding. -/
theorem Stored.map {enc' : α → γ} {next' : α → γ} {f : β → γ} (h : Stored enc next w (l ++ [x]) e)
    (hf : ∀ y ∈ l ++ [x], f (enc y) = enc' y) (hnext : ∀ y ∈ l, next' y = f (next y)) :
    Stored enc' next' (f w) (l ++ [x]) (next' x) := by
  induction l generalizing w with
  | nil => exact ⟨by rw [h.1]; exact hf x List.mem_cons_self, rfl⟩
  | cons y l ih =>
    refine ⟨by rw [h.1]; exact hf y List.mem_cons_self, ?_⟩
    rw [hnext y List.mem_cons_self]
    exact ih h.2 (fun z hz => hf z (List.mem_cons_of_mem y hz))
      fun z hz => hnext z (List.mem_cons_of_mem y hz)

/-- The last node is given another word. -/
theorem Stored.redirect [DecidableEq α] {v : β} (h : Stored enc next w (l ++ [x]) e) (hx : x ∉ l) :
    Stored enc (update next x v) w (l ++ [x]) v := by
  obtain ⟨u, hl, hlast⟩ := stored_append.mp h
  have hend : update next x v x = v := update_self x v next
  refine stored_append.mpr ⟨u, hl.congr fun y hy => ?_, hlast.1, hend⟩
  apply update_of_ne
  intro heq
  exact hx (heq ▸ hy)

/-- A list whose nodes are linked in the clear, with its last node apart. -/
theorem stored_of_isChain {next : α → α} {d : α} (hne : l ≠ [])
    (hlinks : l.IsChain fun x y => next x = y) :
    ∃ body e, l = body ++ [l.getLastD d] ∧
      Stored id next (l.headD d) (body ++ [l.getLastD d]) e := by
  induction l with
  | nil => exact absurd rfl hne
  | cons x l ih =>
    cases l with
    | nil => exact ⟨[], next x, rfl, rfl, rfl⟩
    | cons y l =>
      obtain ⟨hxy, hrest⟩ := List.isChain_cons_cons.mp hlinks
      obtain ⟨body, e, hsplit, hstored⟩ := ih (List.cons_ne_nil y l) hrest
      refine ⟨x :: body, e, ?_, rfl, ?_⟩
      · rw [List.cons_append, List.getLastD_cons, List.getLastD_cons]
        rw [List.getLastD_cons] at hsplit
        rw [← hsplit]
      · rw [hxy, List.getLastD_cons, List.getLastD_cons]
        rw [List.getLastD_cons] at hstored
        exact hstored

/-- The nodes along the words, as far as the fuel goes. -/
def walk [DecidableEq β] (dec : β → α) (next : α → β) (e : β) : ℕ → β → List α
  | 0, _ => []
  | n + 1, w => if w = e then [] else dec w :: walk dec next e n (next (dec w))

theorem Stored.walk_eq [DecidableEq β] {dec : β → α} {n : ℕ} (h : Stored enc next w l e)
    (hdec : ∀ x ∈ l, dec (enc x) = x) (hend : ∀ x ∈ l, enc x ≠ e) (hn : l.length < n) :
    walk dec next e n w = l := by
  induction l generalizing w n with
  | nil =>
    obtain ⟨n, rfl⟩ := Nat.exists_eq_succ_of_ne_zero (Nat.ne_of_gt hn)
    have hw : w = e := h
    rw [walk, if_pos hw]
  | cons x l ih =>
    rw [List.length_cons] at hn
    obtain ⟨n, rfl⟩ := Nat.exists_eq_add_one.mpr (Nat.zero_lt_of_lt hn)
    obtain ⟨hw, hrest⟩ := h
    rw [walk, hw, if_neg (hend x List.mem_cons_self), hdec x List.mem_cons_self,
      ih hrest (fun y hy => hdec y (List.mem_cons_of_mem x hy))
        (fun y hy => hend y (List.mem_cons_of_mem x hy)) (by omega)]

end Oxidalloc.EncodedChain
