import Mathlib.Data.List.Pairwise
import Oxidalloc.Interleaving
import Oxidalloc.WordBitmap

/-!
Concurrent `try_claim` and `rollback` on one segment. Every atomic operation on
a word of `map` or `claim` is one action of one thread, and the actions of the
threads interleave arbitrarily. A thread's control state records where it stands
in the three loops of `try_claim`, in `rollback_claim`, or in the loop of
`rollback` that frees a range. `held` is the list of the ranges whose `try_claim`
returned true and whose free has not begun.
-/
namespace Oxidalloc.ClaimRace

open WordBitmap Interleaving Function

abbrev Tid := ℕ

/-- Where a thread stands; `done` is the source's `bits_processed`. -/
inductive Control where
  | idle
  | loadClaim (start count done : ℕ)
  | loadMap (start count done : ℕ) (claimVal : Word)
  | cas (start count done : ℕ) (claimVal : Word)
  | rollbackClaim (start upto done : ℕ)
  | setMap (start count done : ℕ)
  | clearClaim (start count done : ℕ)
  | returnTrue (start count : ℕ)
  | rollback (start count k : ℕ)
  deriving DecidableEq, Repr

structure Range where
  owner : Tid
  start : ℕ
  count : ℕ
  deriving DecidableEq, Repr

structure State where
  map : Words
  claim : Words
  control : Tid → Control
  held : List Range

def clearLoop (start count done : ℕ) : Control :=
  if done < count then .clearClaim start count done else .returnTrue start count

def mapLoop (start count done : ℕ) : Control :=
  if done < count then .setMap start count done else clearLoop start count 0

def claimLoop (start count done : ℕ) : Control :=
  if done < count then .loadClaim start count done else mapLoop start count 0

def rollbackClaimLoop (start upto done : ℕ) : Control :=
  if done < upto then .rollbackClaim start upto done else .idle

def rollbackLoop (start count k : ℕ) : Control :=
  if k < count then .rollback start count k else .idle

def State.goto (s : State) (t : Tid) (c : Control) : State :=
  { s with control := update s.control t c }

inductive Action where
  | tryClaim (t : Tid) (start count : ℕ)
  | free (t : Tid) (start count : ℕ)
  | advance (t : Tid)
  | casFails (t : Tid)
  deriving DecidableEq, Repr

/-- The next atomic operation of a thread. A `compare_exchange_weak` that finds
the expected word may still fail, so its failure is the separate action `casFails`. -/
def advance (s : State) (t : Tid) : Option State :=
  match s.control t with
  | .idle => none
  | .loadClaim start count done =>
    some (s.goto t (.loadMap start count done (s.claim ((start + done) / 64))))
  | .loadMap start count done claimVal =>
    if (claimVal ||| s.map ((start + done) / 64)) &&&
        mask (pieceLen start count done) ((start + done) % 64) = 0#64 then
      some (s.goto t (.cas start count done claimVal))
    else some (s.goto t (rollbackClaimLoop start done 0))
  | .cas start count done claimVal =>
    if s.claim ((start + done) / 64) = claimVal then
      some ({ s with claim := setBits s.claim (start + done) (pieceLen start count done) }.goto t
        (claimLoop start count (done + pieceLen start count done)))
    else none
  | .rollbackClaim start upto done =>
    some ({ s with claim := clearBits s.claim (start + done) (pieceLen start upto done) }.goto t
      (rollbackClaimLoop start upto (done + pieceLen start upto done)))
  | .setMap start count done =>
    some ({ s with map := setBits s.map (start + done) (pieceLen start count done) }.goto t
      (mapLoop start count (done + pieceLen start count done)))
  | .clearClaim start count done =>
    some ({ s with claim := clearBits s.claim (start + done) (pieceLen start count done) }.goto t
      (clearLoop start count (done + pieceLen start count done)))
  | .returnTrue start count =>
    some ({ s with held := ⟨t, start, count⟩ :: s.held }.goto t .idle)
  | .rollback start count k =>
    some ({ s with map := clearBits s.map (start + k) 1 }.goto t
      (rollbackLoop start count (k + 1)))

/-- One action on a segment of mapLen words. Calls are in range, and a thread
frees only a range that it holds. -/
def step (mapLen : ℕ) (s : State) : Action → Option State
  | .tryClaim t start count =>
    if s.control t = .idle ∧ start + count ≤ 64 * mapLen then
      some (s.goto t (claimLoop start count 0))
    else none
  | .free t start count =>
    if s.control t = .idle ∧ ⟨t, start, count⟩ ∈ s.held then
      some ({ s with held := s.held.erase ⟨t, start, count⟩ }.goto t (rollbackLoop start count 0))
    else none
  | .advance t => advance s t
  | .casFails t =>
    match s.control t with
    | .cas start count done _ =>
      some (s.goto t (.loadMap start count done (s.claim ((start + done) / 64))))
    | _ => none

def initial : State := ⟨fun _ => 0#64, fun _ => 0#64, fun _ => .idle, []⟩

def Range.Covers (r : Range) (i : ℕ) : Prop := r.start ≤ i ∧ i < r.start + r.count

/-- No block index lies in two ranges that are held at the same time. -/
def Exclusive (s : State) : Prop :=
  s.held.Pairwise fun a b => ∀ i, a.Covers i → ¬ b.Covers i

/-- A thread about to swap its `claim` word has a piece without bits in `map`. -/
def PieceClear (map : Words) : Control → Prop
  | .cas start count done _ =>
    map ((start + done) / 64) &&& mask (pieceLen start count done) ((start + done) % 64) = 0#64
  | _ => True

instance PieceClear.decidable (map : Words) : ∀ c, Decidable (PieceClear map c)
  | .cas .. => inferInstanceAs (Decidable (_ = _))
  | .idle | .loadClaim .. | .loadMap .. | .rollbackClaim .. | .setMap .. | .clearClaim ..
  | .returnTrue .. | .rollback .. => isTrue trivial

/-- The condition on a successful claim of a piece: at the moment of the
`compare_exchange_weak` the `map` word still has none of the piece's bits. -/
def MapStillClear (s : State) : Action → Prop
  | .advance t => PieceClear s.map (s.control t)
  | _ => True

instance MapStillClear.decidable (s : State) : ∀ a, Decidable (MapStillClear s a)
  | .advance t => PieceClear.decidable s.map (s.control t)
  | .tryClaim .. | .free .. | .casFails .. => isTrue trivial

/-- The indices of a thread's range whose `claim` bit it has set. -/
def Claimed : Control → ℕ → Prop
  | .loadClaim start _ done, i => start ≤ i ∧ i < start + done
  | .loadMap start _ done _, i => start ≤ i ∧ i < start + done
  | .cas start _ done _, i => start ≤ i ∧ i < start + done
  | .rollbackClaim start upto done, i => start + done ≤ i ∧ i < start + upto
  | .setMap start count _, i => start ≤ i ∧ i < start + count
  | .clearClaim start count done, i => start + done ≤ i ∧ i < start + count
  | _, _ => False

/-- The indices of a thread's range whose `map` bit it has set and not cleared. -/
def Mapped : Control → ℕ → Prop
  | .setMap start _ done, i => start ≤ i ∧ i < start + done
  | .clearClaim start count _, i => start ≤ i ∧ i < start + count
  | .returnTrue start count, i => start ≤ i ∧ i < start + count
  | .rollback start count k, i => start + k ≤ i ∧ i < start + count
  | _, _ => False

def Owns (c : Control) (i : ℕ) : Prop := Claimed c i ∨ Mapped c i

/-- A loop is entered only with bits left to handle, and a thread about to swap
has seen its piece clear in the `claim` word it expects. -/
def Consistent : Control → Prop
  | .loadClaim _ count done => done < count
  | .loadMap _ count done _ => done < count
  | .cas start count done claimVal => done < count ∧
    claimVal &&& mask (pieceLen start count done) ((start + done) % 64) = 0#64
  | .setMap _ count done => done < count
  | .clearClaim _ count done => done < count
  | .rollback _ count k => k < count
  | _ => True

/-- Each owner's bits are set in the word that protects them, and no index has
two owners. -/
structure Inv (s : State) : Prop where
  claimBit : ∀ t i, Claimed (s.control t) i → bit s.claim i = true
  mapBit : ∀ t i, Mapped (s.control t) i → bit s.map i = true
  heldBit : ∀ r i, r ∈ s.held → r.Covers i → bit s.map i = true
  threads : ∀ t u i, t ≠ u → Owns (s.control t) i → ¬ Owns (s.control u) i
  holders : ∀ t r i, r ∈ s.held → Owns (s.control t) i → ¬ r.Covers i
  held : Exclusive s
  consistent : ∀ t, Consistent (s.control t)

theorem inv_initial : Inv initial := by
  refine ⟨?_, ?_, ?_, ?_, ?_, List.Pairwise.nil, fun _ => trivial⟩
  · intro t i h
    exact h.elim
  · intro t i h
    exact h.elim
  · intro r i h
    contradiction
  · intro t u i _ h
    exact h.elim False.elim False.elim
  · intro t r i h
    contradiction

section Loops

variable {start count done upto k i : ℕ}

theorem clearLoop_owns (h : done ≤ count) :
    (Claimed (clearLoop start count done) i ↔ start + done ≤ i ∧ i < start + count) ∧
      (Mapped (clearLoop start count done) i ↔ start ≤ i ∧ i < start + count) := by
  unfold clearLoop
  split
  · exact ⟨Iff.rfl, Iff.rfl⟩
  · refine ⟨⟨False.elim, ?_⟩, Iff.rfl⟩
    omega

theorem mapLoop_owns (h : done ≤ count) :
    (Claimed (mapLoop start count done) i ↔ start ≤ i ∧ i < start + count) ∧
      (Mapped (mapLoop start count done) i ↔ start ≤ i ∧ i < start + done) := by
  unfold mapLoop
  split
  · exact ⟨Iff.rfl, Iff.rfl⟩
  · have heq : done = count := by omega
    rw [heq]
    exact @clearLoop_owns start count 0 i (Nat.zero_le _)

theorem claimLoop_owns (h : done ≤ count) :
    (Claimed (claimLoop start count done) i ↔ start ≤ i ∧ i < start + done) ∧
      ¬ Mapped (claimLoop start count done) i := by
  unfold claimLoop
  split
  · exact ⟨Iff.rfl, id⟩
  · have heq : done = count := by omega
    obtain ⟨hc, hm⟩ := @mapLoop_owns start count 0 i (Nat.zero_le _)
    rw [heq]
    refine ⟨hc, fun hmapped => ?_⟩
    have := hm.mp hmapped
    omega

theorem rollbackClaimLoop_owns :
    (Claimed (rollbackClaimLoop start upto done) i ↔ start + done ≤ i ∧ i < start + upto) ∧
      ¬ Mapped (rollbackClaimLoop start upto done) i := by
  unfold rollbackClaimLoop
  split
  · exact ⟨Iff.rfl, id⟩
  · refine ⟨⟨False.elim, ?_⟩, id⟩
    omega

theorem rollbackLoop_owns :
    ¬ Claimed (rollbackLoop start count k) i ∧
      (Mapped (rollbackLoop start count k) i ↔ start + k ≤ i ∧ i < start + count) := by
  unfold rollbackLoop
  split
  · exact ⟨id, Iff.rfl⟩
  · refine ⟨id, False.elim, ?_⟩
    omega

theorem clearLoop_consistent : Consistent (clearLoop start count done) := by
  unfold clearLoop
  split
  · assumption
  · trivial

theorem mapLoop_consistent : Consistent (mapLoop start count done) := by
  unfold mapLoop
  split
  · assumption
  · exact clearLoop_consistent

theorem claimLoop_consistent : Consistent (claimLoop start count done) := by
  unfold claimLoop
  split
  · assumption
  · exact mapLoop_consistent

theorem rollbackClaimLoop_consistent : Consistent (rollbackClaimLoop start upto done) := by
  unfold rollbackClaimLoop
  split <;> trivial

theorem rollbackLoop_consistent : Consistent (rollbackLoop start count k) := by
  unfold rollbackLoop
  split
  · assumption
  · trivial

end Loops

section Preservation

variable {s : State} {t : Tid} {c : Control} {map' claim' : Words}

/-- An index whose two bits are clear has no owner at all. -/
theorem Inv.unowned (hinv : Inv s) {i : ℕ} (hclaim : bit s.claim i = false)
    (hmap : bit s.map i = false) :
    (∀ u, ¬ Owns (s.control u) i) ∧ ∀ r, r ∈ s.held → ¬ r.Covers i := by
  constructor
  · intro u hu
    rcases hu with h | h
    · have := hinv.claimBit u i h
      simp [hclaim] at this
    · have := hinv.mapBit u i h
      simp [hmap] at this
  · intro r hr hcov
    have := hinv.heldBit r i hr hcov
    simp [hmap] at this

theorem disjoint_symm (c d : Control) (h : ∀ i, Owns c i → ¬ Owns d i) (i : ℕ) (hd : Owns d i) :
    ¬ Owns c i :=
  fun hc => h i hc hd

/-- One thread moves. It may take over indices that nobody owns, and the words
may lose only bits that the thread owned before. -/
theorem Inv.move (hinv : Inv s)
    (hacquire : ∀ i, Owns c i → Owns (s.control t) i ∨
      (bit s.claim i = false ∧ bit s.map i = false))
    (hclaim : ∀ i, bit s.claim i = true → bit claim' i = true ∨ Owns (s.control t) i)
    (hmap : ∀ i, bit s.map i = true → bit map' i = true ∨ Owns (s.control t) i)
    (hclaimed : ∀ i, Claimed c i → bit claim' i = true)
    (hmapped : ∀ i, Mapped c i → bit map' i = true) (hcons : Consistent c) :
    Inv ({ s with map := map', claim := claim' }.goto t c) := by
  have hmoved := update_cases s.control t c
  have hapart : ∀ u i, u ≠ t → Owns (s.control u) i → ¬ Owns c i := by
    intro u i hu howns hc
    rcases hacquire i hc with hold | ⟨h1, h2⟩
    · exact hinv.threads u t i hu howns hold
    · exact (hinv.unowned h1 h2).1 u howns
  refine ⟨?_, ?_, ?_, ?_, ?_, hinv.held, ?_⟩
  · intro u i hu
    rcases hmoved u with ⟨_, hc⟩ | ⟨hne, hc⟩ <;> simp only [State.goto, hc] at hu
    · exact hclaimed i hu
    · exact (hclaim i (hinv.claimBit u i hu)).resolve_right (hinv.threads u t i hne (Or.inl hu))
  · intro u i hu
    rcases hmoved u with ⟨_, hc⟩ | ⟨hne, hc⟩ <;> simp only [State.goto, hc] at hu
    · exact hmapped i hu
    · exact (hmap i (hinv.mapBit u i hu)).resolve_right (hinv.threads u t i hne (Or.inr hu))
  · intro r i hr hcov
    exact (hmap i (hinv.heldBit r i hr hcov)).resolve_right fun h => hinv.holders t r i hr h hcov
  · intro u v i huv
    exact update_pairs disjoint_symm (fun u v huv i => hinv.threads u v i huv)
      (fun u hu i => hapart u i hu) huv i
  · intro u r i hr hu hcov
    rcases hmoved u with ⟨_, hc⟩ | ⟨_, hc⟩ <;> simp only [State.goto, hc] at hu
    · rcases hacquire i hu with hold | ⟨h1, h2⟩
      · exact hinv.holders t r i hr hold hcov
      · exact (hinv.unowned h1 h2).2 r hr hcov
    · exact hinv.holders u r i hr hu hcov
  · intro u
    rcases hmoved u with ⟨_, hc⟩ | ⟨_, hc⟩ <;> simp only [State.goto, hc]
    · exact hcons
    · exact hinv.consistent u

/-- A step that changes no word and gives up or keeps the thread's indices. -/
theorem Inv.goto (hinv : Inv s) (hclaimed : ∀ i, Claimed c i → Claimed (s.control t) i)
    (hmapped : ∀ i, Mapped c i → Mapped (s.control t) i) (hcons : Consistent c) :
    Inv (s.goto t c) := by
  apply @Inv.move s t c s.map s.claim hinv
  · intro i hi
    exact Or.inl (hi.imp (hclaimed i) (hmapped i))
  · exact fun i h => Or.inl h
  · exact fun i h => Or.inl h
  · exact fun i h => hinv.claimBit t i (hclaimed i h)
  · exact fun i h => hinv.mapBit t i (hmapped i h)
  · exact hcons

/-- `try_claim` returns true: the thread's indices become a held range. -/
theorem Inv.return (hinv : Inv s) {start count : ℕ}
    (hcontrol : s.control t = .returnTrue start count) :
    Inv ({ s with held := ⟨t, start, count⟩ :: s.held }.goto t .idle) := by
  have howns : ∀ i, (⟨t, start, count⟩ : Range).Covers i → Owns (s.control t) i := by
    intro i hi
    rw [hcontrol]
    exact Or.inr hi
  have hidle := @Inv.goto s t .idle hinv (fun _ h => h.elim) (fun _ h => h.elim) trivial
  refine ⟨hidle.claimBit, hidle.mapBit, ?_, hidle.threads, ?_, ?_, hidle.consistent⟩
  · intro r i hr hcov
    rcases List.mem_cons.mp hr with rfl | hr
    · exact hinv.mapBit t i (by rw [hcontrol]; exact hcov)
    · exact hinv.heldBit r i hr hcov
  · intro u r i hr hu
    rcases List.mem_cons.mp hr with rfl | hr
    · intro hcov
      rcases update_cases s.control t .idle u with ⟨_, hc⟩ | ⟨hne, hc⟩ <;>
        simp only [State.goto, hc] at hu
      · exact hu.elim id id
      · exact hinv.threads u t i hne hu (howns i hcov)
    · exact hidle.holders u r i hr hu
  · refine List.Pairwise.cons ?_ hinv.held
    intro r hr i hi
    exact hinv.holders t r i hr (howns i hi)

/-- A free begins: the held range becomes the thread's again. -/
theorem Inv.release (hinv : Inv s) {start count : ℕ}
    (hheld : (⟨t, start, count⟩ : Range) ∈ s.held) :
    Inv ({ s with held := s.held.erase ⟨t, start, count⟩ }.goto t
      (rollbackLoop start count 0)) := by
  have hperm : s.held.Perm (⟨t, start, count⟩ :: s.held.erase ⟨t, start, count⟩) :=
    List.perm_cons_erase hheld
  have hpair : (⟨t, start, count⟩ :: s.held.erase ⟨t, start, count⟩ : List Range).Pairwise
      fun a b => ∀ i, a.Covers i → ¬ b.Covers i := by
    apply (hperm.pairwise_iff _).mp hinv.held
    intro a b hab i hb ha
    exact hab i ha hb
  have hsub : ∀ r, r ∈ s.held.erase ⟨t, start, count⟩ → r ∈ s.held :=
    fun r hr => List.mem_of_mem_erase hr
  have howns : ∀ i, Owns (rollbackLoop start count 0) i →
      (⟨t, start, count⟩ : Range).Covers i := by
    intro i hi
    rcases hi with h | h
    · exact absurd h rollbackLoop_owns.1
    · exact rollbackLoop_owns.2.mp h
  have hmoved := update_cases s.control t (rollbackLoop start count 0)
  refine ⟨?_, ?_, ?_, ?_, ?_, (List.pairwise_cons.mp hpair).2, ?_⟩
  · intro u i hu
    rcases hmoved u with ⟨_, hc⟩ | ⟨_, hc⟩ <;> simp only [State.goto, hc] at hu
    · exact absurd hu rollbackLoop_owns.1
    · exact hinv.claimBit u i hu
  · intro u i hu
    rcases hmoved u with ⟨_, hc⟩ | ⟨_, hc⟩ <;> simp only [State.goto, hc] at hu
    · exact hinv.heldBit _ i hheld (howns i (Or.inr hu))
    · exact hinv.mapBit u i hu
  · intro r i hr hcov
    exact hinv.heldBit r i (hsub r hr) hcov
  · intro u v i huv
    exact update_pairs disjoint_symm (fun u v huv i => hinv.threads u v i huv)
      (fun u _ i hu hc => hinv.holders u _ i hheld hu (howns i hc)) huv i
  · intro u r i hr hu hcov
    rcases hmoved u with ⟨_, hc⟩ | ⟨_, hc⟩ <;> simp only [State.goto, hc] at hu
    · exact (List.pairwise_cons.mp hpair).1 r hr i (howns i hu) hcov
    · exact hinv.holders u r i (hsub r hr) hu hcov
  · intro u
    rcases hmoved u with ⟨_, hc⟩ | ⟨_, hc⟩ <;> simp only [State.goto, hc]
    · exact rollbackLoop_consistent
    · exact hinv.consistent u

end Preservation

section Steps

variable {s s' : State} {t : Tid} {start count done : ℕ}

theorem piece_within (h : done < count) : done + pieceLen start count done ≤ count := by
  have := @pieceLen_le start count done
  omega

/-- The swap claims a piece that nobody owns, because both words show it clear. -/
theorem cas_preserves {claimVal : Word} (hinv : Inv s)
    (hcontrol : s.control t = .cas start count done claimVal)
    (hsame : s.claim ((start + done) / 64) = claimVal)
    (hclear : s.map ((start + done) / 64) &&&
      mask (pieceLen start count done) ((start + done) % 64) = 0#64) :
    Inv ({ s with claim := setBits s.claim (start + done) (pieceLen start count done) }.goto t
      (claimLoop start count (done + pieceLen start count done))) := by
  have hfits := @pieceLen_fits start count done
  have hcons := hinv.consistent t
  rw [hcontrol] at hcons
  have hle := @piece_within start count done hcons.1
  have hfree : ∀ i, start + done ≤ i → i < start + done + pieceLen start count done →
      bit s.claim i = false ∧ bit s.map i = false := by
    intro i hlo hhi
    have hword := piece_word hfits hlo hhi
    constructor
    · rw [bit, hword, hsame]
      exact (and_mask_eq_zero_iff hfits).mp hcons.2 i hlo hhi
    · rw [bit, hword]
      exact (and_mask_eq_zero_iff hfits).mp hclear i hlo hhi
  have hclaimed := fun i => (@claimLoop_owns start count _ i hle).1
  have hunmapped := fun i => (@claimLoop_owns start count _ i hle).2
  apply hinv.move
  · intro i hi
    have hin := (hclaimed i).mp (hi.resolve_right (hunmapped i))
    by_cases hold : i < start + done
    · rw [hcontrol]
      exact Or.inl (Or.inl ⟨hin.1, hold⟩)
    · exact Or.inr (hfree i (by omega) (by omega))
  · intro i hi
    rw [bit_setBits hfits, hi]
    exact Or.inl rfl
  · exact fun i hi => Or.inl hi
  · intro i hi
    have hin := (hclaimed i).mp hi
    rw [bit_setBits hfits]
    by_cases hold : i < start + done
    · have hbit := hinv.claimBit t i (by rw [hcontrol]; exact ⟨hin.1, hold⟩)
      rw [hbit]
      rfl
    · have hnew : start + done ≤ i ∧ i < start + done + pieceLen start count done := by omega
      simp [hnew]
  · exact fun i hi => absurd hi (hunmapped i)
  · exact claimLoop_consistent

theorem setMap_preserves (hinv : Inv s) (hcontrol : s.control t = .setMap start count done) :
    Inv ({ s with map := setBits s.map (start + done) (pieceLen start count done) }.goto t
      (mapLoop start count (done + pieceLen start count done))) := by
  have hfits := @pieceLen_fits start count done
  have hcons := hinv.consistent t
  rw [hcontrol] at hcons
  have hle := @piece_within start count done hcons
  have hclaimed := fun i => (@mapLoop_owns start count _ i hle).1
  have hmapped := fun i => (@mapLoop_owns start count _ i hle).2
  apply hinv.move
  · intro i hi
    rw [hcontrol]
    refine Or.inl (Or.inl ?_)
    rcases hi with h | h
    · exact (hclaimed i).mp h
    · have := (hmapped i).mp h
      exact ⟨this.1, by omega⟩
  · exact fun i hi => Or.inl hi
  · intro i hi
    rw [bit_setBits hfits, hi]
    exact Or.inl rfl
  · intro i hi
    exact hinv.claimBit t i (by rw [hcontrol]; exact (hclaimed i).mp hi)
  · intro i hi
    have hin := (hmapped i).mp hi
    rw [bit_setBits hfits]
    by_cases hold : i < start + done
    · have hbit := hinv.mapBit t i (by rw [hcontrol]; exact ⟨hin.1, hold⟩)
      rw [hbit]
      rfl
    · have hnew : start + done ≤ i ∧ i < start + done + pieceLen start count done := by omega
      simp [hnew]
  · exact mapLoop_consistent

/-- A bit outside the cleared piece keeps its value. -/
theorem bit_clearBits_outside {w : Words} {len i : ℕ} (hfits : len ≤ 64 - start % 64)
    (hout : ¬ (start ≤ i ∧ i < start + len)) : bit (clearBits w start len) i = bit w i := by
  rw [bit_clearBits hfits]
  simp [hout]

theorem clearClaim_preserves (hinv : Inv s)
    (hcontrol : s.control t = .clearClaim start count done) :
    Inv ({ s with claim := clearBits s.claim (start + done) (pieceLen start count done) }.goto t
      (clearLoop start count (done + pieceLen start count done))) := by
  have hfits := @pieceLen_fits start count done
  have hcons := hinv.consistent t
  rw [hcontrol] at hcons
  have hle := @piece_within start count done hcons
  have hclaimed := fun i => (@clearLoop_owns start count _ i hle).1
  have hmapped := fun i => (@clearLoop_owns start count _ i hle).2
  apply hinv.move
  · intro i hi
    rw [hcontrol]
    refine Or.inl (Or.inr ?_)
    rcases hi with h | h
    · have := (hclaimed i).mp h
      exact ⟨by omega, this.2⟩
    · exact (hmapped i).mp h
  · intro i hi
    by_cases hin : start + done ≤ i ∧ i < start + done + pieceLen start count done
    · rw [hcontrol]
      exact Or.inr (Or.inl ⟨hin.1, by omega⟩)
    · exact Or.inl (by rwa [bit_clearBits_outside hfits hin])
  · exact fun i hi => Or.inl hi
  · intro i hi
    have hin := (hclaimed i).mp hi
    rw [bit_clearBits_outside hfits (by omega)]
    exact hinv.claimBit t i (by rw [hcontrol]; exact ⟨by omega, hin.2⟩)
  · intro i hi
    exact hinv.mapBit t i (by rw [hcontrol]; exact (hmapped i).mp hi)
  · exact clearLoop_consistent

theorem rollbackClaim_preserves {upto : ℕ} (hinv : Inv s)
    (hcontrol : s.control t = .rollbackClaim start upto done) :
    Inv ({ s with claim := clearBits s.claim (start + done) (pieceLen start upto done) }.goto t
      (rollbackClaimLoop start upto (done + pieceLen start upto done))) := by
  have hfits := @pieceLen_fits start upto done
  have hshort := @pieceLen_le start upto done
  apply hinv.move
  · intro i hi
    have hin := rollbackClaimLoop_owns.1.mp (hi.resolve_right rollbackClaimLoop_owns.2)
    rw [hcontrol]
    exact Or.inl (Or.inl ⟨by omega, hin.2⟩)
  · intro i hi
    by_cases hin : start + done ≤ i ∧ i < start + done + pieceLen start upto done
    · rw [hcontrol]
      exact Or.inr (Or.inl ⟨hin.1, by omega⟩)
    · exact Or.inl (by rwa [bit_clearBits_outside hfits hin])
  · exact fun i hi => Or.inl hi
  · intro i hi
    have hin := rollbackClaimLoop_owns.1.mp hi
    rw [bit_clearBits_outside hfits (by omega)]
    exact hinv.claimBit t i (by rw [hcontrol]; exact ⟨by omega, hin.2⟩)
  · exact fun i hi => absurd hi rollbackClaimLoop_owns.2
  · exact rollbackClaimLoop_consistent

theorem rollback_preserves {k : ℕ} (hinv : Inv s)
    (hcontrol : s.control t = .rollback start count k) (hk : k < count) :
    Inv ({ s with map := clearBits s.map (start + k) 1 }.goto t
      (rollbackLoop start count (k + 1))) := by
  have hfits : 1 ≤ 64 - (start + k) % 64 := by omega
  apply hinv.move
  · intro i hi
    have hin := rollbackLoop_owns.2.mp (hi.resolve_left rollbackLoop_owns.1)
    rw [hcontrol]
    exact Or.inl (Or.inr ⟨by omega, hin.2⟩)
  · exact fun i hi => Or.inl hi
  · intro i hi
    by_cases hin : start + k ≤ i ∧ i < start + k + 1
    · rw [hcontrol]
      exact Or.inr (Or.inr ⟨hin.1, by omega⟩)
    · exact Or.inl (by rwa [bit_clearBits_outside hfits hin])
  · exact fun i hi => absurd hi rollbackLoop_owns.1
  · intro i hi
    have hin := rollbackLoop_owns.2.mp hi
    rw [bit_clearBits_outside hfits (by omega)]
    exact hinv.mapBit t i (by rw [hcontrol]; exact ⟨by omega, hin.2⟩)
  · exact rollbackLoop_consistent

theorem advance_preserves (hinv : Inv s) (hok : MapStillClear s (.advance t))
    (hstep : advance s t = some s') : Inv s' := by
  have hcons := hinv.consistent t
  unfold advance at hstep
  cases hcontrol : s.control t with
  | idle => simp [hcontrol] at hstep
  | loadClaim start count done =>
    simp only [hcontrol, Option.some.injEq] at hstep
    subst hstep
    apply hinv.goto
    · exact fun i hi => by rw [hcontrol]; exact hi
    · exact fun i hi => hi.elim
    · rwa [hcontrol] at hcons
  | loadMap start count done claimVal =>
    simp only [hcontrol] at hstep
    rw [hcontrol] at hcons
    split at hstep
    · rename_i hclear
      have heq := Option.some.inj hstep
      subst heq
      apply hinv.goto
      · exact fun i hi => by rw [hcontrol]; exact hi
      · exact fun i hi => hi.elim
      · refine ⟨hcons, (and_mask_eq_zero_iff pieceLen_fits).mpr ?_⟩
        intro i hlo hhi
        have hor := (and_mask_eq_zero_iff pieceLen_fits).mp hclear i hlo hhi
        rw [BitVec.getLsbD_or, Bool.or_eq_false_iff] at hor
        exact hor.1
    · have heq := Option.some.inj hstep
      subst heq
      apply hinv.goto
      · intro i hi
        rw [hcontrol]
        exact rollbackClaimLoop_owns.1.mp hi
      · exact fun i hi => absurd hi rollbackClaimLoop_owns.2
      · exact rollbackClaimLoop_consistent
  | cas start count done claimVal =>
    simp only [hcontrol] at hstep
    simp only [MapStillClear, hcontrol, PieceClear] at hok
    split at hstep
    · rename_i hsame
      have heq := Option.some.inj hstep
      subst heq
      exact cas_preserves hinv hcontrol hsame hok
    · contradiction
  | rollbackClaim start upto done =>
    simp only [hcontrol, Option.some.injEq] at hstep
    subst hstep
    exact rollbackClaim_preserves hinv hcontrol
  | setMap start count done =>
    simp only [hcontrol, Option.some.injEq] at hstep
    subst hstep
    exact setMap_preserves hinv hcontrol
  | clearClaim start count done =>
    simp only [hcontrol, Option.some.injEq] at hstep
    subst hstep
    exact clearClaim_preserves hinv hcontrol
  | returnTrue start count =>
    simp only [hcontrol, Option.some.injEq] at hstep
    subst hstep
    exact hinv.return hcontrol
  | rollback start count k =>
    rw [hcontrol] at hcons
    simp only [hcontrol, Option.some.injEq] at hstep
    subst hstep
    exact rollback_preserves hinv hcontrol hcons

theorem step_preserves {mapLen : ℕ} {a : Action} (hinv : Inv s) (hok : MapStillClear s a)
    (hstep : step mapLen s a = some s') : Inv s' := by
  cases a with
  | tryClaim t start count =>
    simp only [step] at hstep
    split at hstep
    · have heq := Option.some.inj hstep
      subst heq
      have howns := fun i => @claimLoop_owns start count 0 i (Nat.zero_le _)
      apply hinv.goto
      · intro i hi
        have := (howns i).1.mp hi
        omega
      · exact fun i hi => absurd hi (howns i).2
      · exact claimLoop_consistent
    · contradiction
  | free t start count =>
    simp only [step] at hstep
    split at hstep
    · rename_i h
      have heq := Option.some.inj hstep
      subst heq
      exact hinv.release h.2
    · contradiction
  | advance t => exact advance_preserves hinv hok hstep
  | casFails t =>
    simp only [step] at hstep
    split at hstep
    · rename_i start count done claimVal hcontrol
      have hcons := hinv.consistent t
      rw [hcontrol] at hcons
      have heq := Option.some.inj hstep
      subst heq
      apply hinv.goto
      · exact fun i hi => by rw [hcontrol]; exact hi
      · exact fun i hi => hi.elim
      · exact hcons.1
    · contradiction

end Steps

/-- In every run in which each successful swap of a `claim` word finds the
piece's bits still clear in `map`, no block index is held twice. -/
theorem tryClaim_exclusive (mapLen : ℕ) (schedule : List Action) (s : State)
    (hok : Guarded (step mapLen) MapStillClear initial schedule)
    (hrun : run (step mapLen) initial schedule = some s) : Exclusive s :=
  (run_invariant (fun _ _ _ hinv hok hstep => step_preserves hinv hok hstep)
    inv_initial hok hrun).held

/-- Two claims that share a word, the first of them crossing into the next word. -/
def neighbours : List Action :=
  [.tryClaim 0 60 8, .tryClaim 1 0 60, .advance 0, .advance 1, .advance 0, .advance 1,
    .advance 0, .casFails 1, .advance 1, .advance 1, .advance 1, .advance 1, .advance 1,
    .advance 0, .advance 0, .advance 0, .advance 0, .advance 0, .advance 0, .advance 0,
    .advance 0]

theorem tryClaim_exclusive_neighbours :
    ∃ s, run (step 2) initial neighbours = some s ∧
      s.held = [⟨0, 60, 8⟩, ⟨1, 0, 60⟩] ∧ Exclusive s :=
  ⟨_, rfl, rfl, tryClaim_exclusive 2 neighbours _ (by decide) rfl⟩

/-- Two threads claim the same block. Thread 0 has loaded both words when
thread 1 runs a whole `try_claim`; the `claim` word is back to its old value
when thread 0 swaps, and nobody looks at `map` again. -/
def race : List Action :=
  [.tryClaim 0 0 1, .advance 0, .advance 0,
    .tryClaim 1 0 1, .advance 1, .advance 1, .advance 1, .advance 1, .advance 1, .advance 1,
    .advance 0, .advance 0, .advance 0, .advance 0]

theorem race_held :
    (run (step 1) initial race).map State.held = some [⟨0, 0, 1⟩, ⟨1, 0, 1⟩] := by
  decide

theorem tryClaim_not_exclusive :
    ¬ ∀ s, Reachable (step 1) initial s → Exclusive s := by
  intro h
  obtain ⟨s, hrun, hheld⟩ := Option.map_eq_some_iff.mp race_held
  have hex := h s ⟨race, hrun⟩
  rw [Exclusive, hheld] at hex
  have hpair := (List.pairwise_cons.mp hex).1 ⟨1, 0, 1⟩ (List.mem_singleton.mpr rfl)
  exact hpair 0 ⟨by decide, by decide⟩ ⟨by decide, by decide⟩

end Oxidalloc.ClaimRace
