import Mathlib.Data.Finset.Card
import Mathlib.Data.List.Nodup

/-!
Rounds over a stack. A round takes a batch from the top, sets the chosen elements aside and
puts the others back on the top, the last one first. An element that is put back is in the
batch of the next round again, so the rounds get to new elements only as long as every
element before them is chosen.
-/
namespace Oxidalloc.BatchSweep

variable {α : Type}

/-- The elements that rounds looked at, those they set aside, and the stack they leave. -/
structure Sweep (α : Type) where
  examined : List α
  aside : List α
  stack : List α

/-- The stack after one round with batches of size b. -/
def putBack (b : ℕ) (chosen : α → Bool) (l : List α) : List α :=
  ((l.take b).filter fun x => !chosen x).reverse ++ l.drop b

def sweep (b : ℕ) (chosen : α → Bool) : ℕ → List α → Sweep α
  | 0, l => ⟨[], [], l⟩
  | n + 1, l =>
    let rest := sweep b chosen n (putBack b chosen l)
    ⟨l.take b ++ rest.examined, rest.aside ++ ((l.take b).filter chosen).reverse, rest.stack⟩

variable {b n : ℕ} {chosen : α → Bool} {l : List α} {x : α}

theorem sweep_succ : sweep b chosen (n + 1) l =
    ⟨l.take b ++ (sweep b chosen n (putBack b chosen l)).examined,
      (sweep b chosen n (putBack b chosen l)).aside ++ ((l.take b).filter chosen).reverse,
      (sweep b chosen n (putBack b chosen l)).stack⟩ :=
  rfl

section Contents

/-- What is set aside and what goes back is the stack that was there. -/
theorem chosen_append_putBack_perm :
    (((l.take b).filter chosen).reverse ++ putBack b chosen l).Perm l := by
  have hsplit :
      ((l.take b).filter chosen ++ (l.take b).filter fun x => !chosen x).Perm (l.take b) :=
    List.filter_append_perm chosen (l.take b)
  have hback :
      ((l.take b).filter chosen ++ ((l.take b).filter fun x => !chosen x) ++ l.drop b).Perm
        l := by
    simpa only [List.take_append_drop] using hsplit.append_right (l.drop b)
  refine List.Perm.trans ?_ hback
  rw [putBack, ← List.append_assoc]
  exact ((List.reverse_perm _).append (List.reverse_perm _)).append_right _

theorem putBack_subset : putBack b chosen l ⊆ l :=
  fun _ hx => chosen_append_putBack_perm.mem_iff.mp (List.mem_append_right _ hx)

theorem examined_subset : (sweep b chosen n l).examined ⊆ l := by
  induction n generalizing l with
  | zero => exact List.nil_subset l
  | succ n ih =>
    rw [sweep_succ]
    exact List.append_subset.mpr ⟨List.take_subset b l, List.Subset.trans ih putBack_subset⟩

theorem examined_length_le : (sweep b chosen n l).examined.length ≤ n * b := by
  induction n generalizing l with
  | zero => exact Nat.zero_le _
  | succ n ih =>
    have hrest := @ih (putBack b chosen l)
    have hbatch := List.length_take_le b l
    rw [sweep_succ, List.length_append, Nat.succ_mul]
    omega

theorem aside_length_le : (sweep b chosen n l).aside.length ≤ n * b := by
  induction n generalizing l with
  | zero => exact Nat.zero_le _
  | succ n ih =>
    have hrest := @ih (putBack b chosen l)
    have hbatch : ((l.take b).filter chosen).length ≤ b :=
      (List.length_filter_le _ _).trans (List.length_take_le b l)
    rw [sweep_succ, List.length_append, List.length_reverse, Nat.succ_mul]
    omega

theorem aside_append_stack_perm :
    ((sweep b chosen n l).aside ++ (sweep b chosen n l).stack).Perm l := by
  induction n generalizing l with
  | zero => exact List.Perm.refl l
  | succ n ih =>
    rw [sweep_succ, List.append_assoc]
    refine List.perm_append_comm_assoc _ _ _ |>.trans ?_
    exact (ih.append_left _).trans chosen_append_putBack_perm

theorem sweep_nil : sweep b chosen n [] = ⟨[], [], []⟩ := by
  induction n with
  | zero => rfl
  | succ n ih =>
    have hback : putBack b chosen ([] : List α) = [] := by simp [putBack]
    simp [sweep_succ, hback, ih]

end Contents

section Coverage

theorem putBack_of_all_chosen (hall : ∀ x ∈ l.take b, chosen x = true) :
    putBack b chosen l = l.drop b := by
  have hnone : (l.take b).filter (fun x => !chosen x) = [] := by
    refine List.filter_eq_nil_iff.mpr fun x hx => ?_
    simp [hall x hx]
  rw [putBack, hnone]
  rfl

/-- The elements of the first rounds are chosen, so each round gets a new batch. -/
theorem examined_of_all_chosen (hall : ∀ x ∈ l.take ((n - 1) * b), chosen x = true) :
    (sweep b chosen n l).examined = l.take (n * b) ∧
      ∀ x ∈ l.take (n * b), chosen x = true → x ∈ (sweep b chosen n l).aside := by
  induction n generalizing l with
  | zero => simp [sweep]
  | succ n ih =>
    have hsplit : l.take ((n + 1) * b) = l.take b ++ (l.drop b).take (n * b) := by
      rw [Nat.succ_mul, Nat.add_comm, List.take_add]
    rw [sweep_succ, hsplit]
    cases n with
    | zero =>
      simp only [sweep, Nat.zero_mul, List.take_zero, List.append_nil, List.nil_append, true_and]
      intro x hx hchosen
      exact List.mem_reverse.mpr (List.mem_filter.mpr ⟨hx, hchosen⟩)
    | succ n =>
      have hprefix : l.take ((n + 1) * b) = l.take b ++ (l.drop b).take (n * b) := by
        rw [Nat.succ_mul, Nat.add_comm, List.take_add]
      rw [Nat.add_sub_cancel, hprefix] at hall
      have hbatch : ∀ x ∈ l.take b, chosen x = true :=
        fun x hx => hall x (List.mem_append_left _ hx)
      have hrest : ∀ x ∈ (l.drop b).take ((n + 1 - 1) * b), chosen x = true :=
        fun x hx => hall x (List.mem_append_right _ hx)
      obtain ⟨hexamined, haside⟩ := ih hrest
      rw [putBack_of_all_chosen hbatch]
      refine ⟨congrArg _ hexamined, fun x hx hchosen => ?_⟩
      rcases List.mem_append.mp hx with hfirst | hlater
      · have hnew : x ∈ ((l.take b).filter chosen).reverse :=
          List.mem_reverse.mpr (List.mem_filter.mpr ⟨hfirst, hchosen⟩)
        exact List.mem_append_right _ hnew
      · exact List.mem_append_left _ (haside x hlater hchosen)

/-- What goes back is in the next batch. -/
theorem mem_examined_of_kept (hx : x ∈ l.take b) (hkept : chosen x = false) :
    x ∈ (sweep b chosen (n + 1) (putBack b chosen l)).examined := by
  have hback : x ∈ ((l.take b).filter fun x => !chosen x).reverse := by
    simp [hx, hkept]
  have hlen : ((l.take b).filter fun x => !chosen x).reverse.length ≤ b := by
    rw [List.length_reverse]
    exact (List.length_filter_le _ _).trans (List.length_take_le b l)
  have htop : x ∈ (putBack b chosen l).take b := by
    rw [putBack, List.take_append, List.take_of_length_le hlen]
    exact List.mem_append_left _ hback
  exact List.mem_append_left _ htop

variable [DecidableEq α]

theorem card_examined_le : (sweep b chosen n l).examined.toFinset.card ≤ n * b :=
  (List.toFinset_card_le _).trans examined_length_le

/-- An element of the first rounds that goes back costs the rounds a new element. -/
theorem card_examined_lt (hx : x ∈ l.take ((n - 1) * b)) (hkept : chosen x = false) :
    (sweep b chosen n l).examined.toFinset.card < n * b := by
  induction n generalizing l with
  | zero => simp at hx
  | succ n ih =>
    cases n with
    | zero => simp at hx
    | succ n =>
      rw [sweep_succ, List.toFinset_append, Nat.succ_mul]
      have hbatch : (l.take b).toFinset.card ≤ b :=
        (List.toFinset_card_le _).trans (List.length_take_le b l)
      by_cases hall : ∀ y ∈ l.take b, chosen y = true
      · -- the element is further down, where the remaining rounds are
        rw [Nat.add_sub_cancel, Nat.succ_mul, Nat.add_comm, List.take_add] at hx
        have hlater : x ∈ (l.drop b).take ((n + 1 - 1) * b) := by
          refine (List.mem_append.mp hx).resolve_left fun hfirst => ?_
          rw [hall x hfirst] at hkept
          contradiction
        have hrest := ih hlater
        rw [← putBack_of_all_chosen hall] at hrest
        have hunion := Finset.card_union_le (l.take b).toFinset
          (sweep b chosen (n + 1) (putBack b chosen l)).examined.toFinset
        omega
      · -- an element of this batch comes up again in the next one
        obtain ⟨y, hy, hback⟩ : ∃ y ∈ l.take b, ¬ chosen y = true := by
          simpa only [not_forall, exists_prop] using hall
        have hagain := @mem_examined_of_kept _ _ n _ _ _ hy (Bool.eq_false_of_not_eq_true hback)
        have hshared : 0 < ((l.take b).toFinset ∩
            (sweep b chosen (n + 1) (putBack b chosen l)).examined.toFinset).card := by
          refine Finset.card_pos.mpr ⟨y, ?_⟩
          exact Finset.mem_inter.mpr ⟨List.mem_toFinset.mpr hy, List.mem_toFinset.mpr hagain⟩
        have hcount := Finset.card_union_add_card_inter (l.take b).toFinset
          (sweep b chosen (n + 1) (putBack b chosen l)).examined.toFinset
        have hrest := @card_examined_le _ b (n + 1) chosen (putBack b chosen l) _
        omega

/-- The rounds get to as many elements as they take exactly if all but those of the last round
are chosen. -/
theorem card_examined_iff (hnodup : l.Nodup) (hlen : n * b ≤ l.length) :
    n * b ≤ (sweep b chosen n l).examined.toFinset.card ↔
      ∀ x ∈ l.take ((n - 1) * b), chosen x = true := by
  constructor
  · intro hle x hx
    by_contra hkept
    have hlt := card_examined_lt hx (Bool.eq_false_of_not_eq_true hkept)
    omega
  · intro hall
    have htake := hnodup.sublist (List.take_sublist (n * b) l)
    rw [(examined_of_all_chosen hall).1, List.toFinset_card_of_nodup htake,
      List.length_take_of_le hlen]

end Coverage

end Oxidalloc.BatchSweep
