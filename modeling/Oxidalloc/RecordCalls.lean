import Oxidalloc.Interleaving
import Oxidalloc.RecordAgreement

/-!
The calls of the user over records, and the pointers that the user has. Every call makes a
block, ends a block, or resizes or moves one. In any run each pointer leads to a live block
of its own, and each live block has its pointer.
-/
namespace Oxidalloc.Records

open Hashmap Programs Interleaving ByteMemory Function

variable {o : Oracle} {s s' : State} {c : Call} {n r header size cls cap ptr : ℕ}
variable {Q : Option Header → Option ℕ → Handle → Prop}

/-- The record of `posix_memalign` in front of an aligned pointer. -/
def State.tagged (s : State) (ptr raw : ℕ) : State :=
  { s with mem := store (store s.mem (ptr - tagSize) 8 oxAlignTag) (ptr - offsetSize) 8 raw }

/-- The bytes that a call asks for. -/
def Call.request : Call → ℕ
  | .malloc size => size
  | .calloc nmemb size => nmemb * size
  | .realloc _ size => size
  | .posixMemalign _ size => size
  | _ => 0

/-- The calls that ask for a block and hand none back. -/
def Call.Makes : Call → Prop
  | .malloc _ => True
  | .calloc _ _ => True
  | .realloc ptr _ => ptr = 0
  | _ => False

def State.bound (s : State) (ptr raw size : ℕ) : State :=
  { s with live := update s.live ptr (some ⟨raw, ptr - raw, size⟩) }

def State.unbound (s : State) (ptr : ℕ) : State :=
  { s with live := update s.live ptr none }

section Bindings

variable (s : State) {ptr q : ℕ} (raw size : ℕ)

@[simp] theorem State.bound_live_self :
    (s.bound ptr raw size).live ptr = some ⟨raw, ptr - raw, size⟩ := update_self _ _ _

theorem State.bound_live_of_ne (h : q ≠ ptr) : (s.bound ptr raw size).live q = s.live q :=
  update_of_ne h _ _

@[simp] theorem State.unbound_live_self :
    (s.unbound ptr).live ptr = none := update_self _ _ _

theorem State.unbound_live_of_ne (h : q ≠ ptr) : (s.unbound ptr).live q = s.live q :=
  update_of_ne h _ _

end Bindings

variable [Layout]

/-- What a call can do. -/
inductive Performs (o : Oracle) (s : State) : Call → ℕ → State → Prop
  | written (ptr i : ℕ) (value : UInt8) :
    Performs o s (.write ptr i value) 0 { s with mem := update s.mem (ptr + i) value }
  | measured (ptr v : ℕ) : Performs o s (.usableSize ptr) v s
  | denied (c : Call) : Performs o s c 0 s
  | refused (c : Call) (m : ℕ) (s' : State) (h : Mallocs o s m 0 s') : Performs o s c 0 s'
  | made (c : Call) (m header zeroed : ℕ) (s₁ : State) (h : Mallocs o s m (header + headerSize) s₁)
    (hfit : c.request ≤ newCapacity m) (hzeroed : zeroed ≤ newCapacity m) (hmakes : c.Makes) :
    Performs o s c (header + headerSize)
      ((s₁.zero (header + headerSize) zeroed).bound (header + headerSize) (header + headerSize)
      c.request)
  | aligned (alignment size header ptr : ℕ) (s₁ : State)
    (h : Mallocs o s (size + alignment + 16) (header + headerSize) s₁)
    (hptr : header + headerSize + 16 ≤ ptr)
    (hfit : ptr - (header + headerSize) + size ≤ newCapacity (size + alignment + 16)) :
    Performs o s (.posixMemalign alignment size) ptr
      ((s₁.tagged ptr (header + headerSize)).bound ptr (header + headerSize) size)
  | freed (ptr : ℕ) (p : Handle) (s₁ : State) (hlive : s.live ptr = some p)
    (h : Frees s (p.raw - headerSize) s₁) : Performs o s (.free ptr) 0 (s₁.unbound ptr)
  | dropped (ptr : ℕ) (p : Handle) (s₁ s₂ : State) (hlive : s.live ptr = some p)
    (hfree : Frees s (p.raw - headerSize) s₁) (h : Mallocs o s₁ 1 0 s₂) :
    Performs o s (.realloc ptr 0) 0 (s₂.unbound ptr)
  | renewed (ptr header : ℕ) (p : Handle) (s₁ s₂ : State) (hlive : s.live ptr = some p)
    (hfree : Frees s (p.raw - headerSize) s₁) (h : Mallocs o s₁ 1 (header + headerSize) s₂) :
    Performs o s (.realloc ptr 0) (header + headerSize)
      ((s₂.unbound ptr).bound (header + headerSize) (header + headerSize) 0)
  | resized (ptr n r : ℕ) (p : Handle) (cls cap : ℕ) (s₁ : State) (hn : n ≠ 0)
    (hlive : s.live ptr = some p)
    (hget : s.headers.get (p.raw - headerSize) = some ⟨cls, true⟩)
    (hrec : Recorded s (p.raw - headerSize) cls cap) (hr : r ≠ 0)
    (h : Reallocs o s ptr n p cls cap r s₁) :
    Performs o s (.realloc ptr n) r ((s₁.unbound ptr).bound r r n)
  | unresized (ptr n : ℕ) (p : Handle) (cls cap : ℕ) (s₁ : State) (hn : n ≠ 0)
    (hlive : s.live ptr = some p)
    (hget : s.headers.get (p.raw - headerSize) = some ⟨cls, true⟩)
    (hrec : Recorded s (p.raw - headerSize) cls cap) (h : Reallocs o s ptr n p cls cap 0 s₁) :
    Performs o s (.realloc ptr n) 0 s₁

/-- The pointers of the user and the headers before them are not null. -/
structure Placed (s : State) : Prop where
  null : s.live 0 = none
  header : ∀ ptr p, s.live ptr = some p → p.raw - headerSize ≠ 0

/-- Each pointer of the user leads to a live block whose records meet a condition, and no two
to the same one. -/
structure Pointed (Q : Option Header → Option ℕ → Handle → Prop) (s : State) : Prop where
  null : s.live 0 = none
  distance : ∀ ptr p, s.live ptr = some p → ptr = p.raw + p.offset
  header : ∀ ptr p, s.live ptr = some p →
    ∃ h, p.raw = h + headerSize ∧ Live s h ∧ Q (s.headers.get h) (s.entry h) p
  inj : ∀ ptr q p p', s.live ptr = some p → s.live q = some p' → p.raw = p'.raw → ptr = q

section Cases

theorem runs_mallocTwice (h : Runs (mallocTwice o size) s r s') : Mallocs o s size r s' := by
  rw [mallocTwice, CInterface.mallocTwice, runs_bind] at h
  obtain ⟨raw, s₁, hfirst, h⟩ := h
  have hmallocs := runs_malloc hfirst
  split at h
  · rename_i hzero
    subst hzero
    exact hmallocs.retry (runs_malloc h)
  · obtain ⟨rfl, rfl⟩ := runs_pure.mp h
    exact hmallocs

theorem Gives.exists_header (h : Gives o s size r s') (hr : r ≠ 0) :
    ∃ header, r = header + headerSize := by
  cases h with
  | nothing n => exact absurd rfl hr
  | cached n header cls _ _ _ _ => exact ⟨header, rfl⟩
  | carved n header cls _ _ _ _ _ => exact ⟨header, rfl⟩
  | opened k n hint _ _ _ _ _ _ => exact ⟨hint + 32, rfl⟩
  | big k n hint _ _ _ _ _ _ _ _ _ => exact ⟨hint, rfl⟩

theorem Mallocs.exists_header (h : Mallocs o s size r s') (hr : r ≠ 0) :
    ∃ header, r = header + headerSize := by
  obtain ⟨s₁, _, hgives⟩ := h
  exact hgives.exists_header hr

omit [Layout] in
theorem runs_adopt {u : Unit} {raw : ℕ} (hptr : ptr ≠ 0) (h : Runs (adopt ptr raw size) s u s') :
    s' = s.bound ptr raw size := by
  rw [adopt, if_neg hptr] at h
  exact runs_modify.mp h

omit [Layout] in
theorem runs_adopt_zero {u : Unit} {raw : ℕ} (h : Runs (adopt 0 raw size) s u s') : s' = s := by
  rw [adopt, if_pos rfl] at h
  exact (runs_pure.mp h).2

omit [Layout] in
theorem State.zero_nothing (s : State) (addr : ℕ) : s.zero addr 0 = s := by
  have hfill : fill s.mem addr 0 0 = s.mem := funext fun x => if_neg (by omega)
  rw [State.zero, hfill]

/-- The end of a call that gives out a new block. -/
theorem performs_of_mallocs {s₁ : State} {u : Unit} {zeroed : ℕ} (c : Call) (h : Mallocs o s n r s₁)
    (hfit : c.request ≤ n) (hzeroed : zeroed ≤ newCapacity n) (hnone : r = 0 → zeroed = 0)
    (hmakes : c.Makes) (hadopt : Runs (adopt r r c.request) (s₁.zero r zeroed) u s') :
    Performs o s c r s' := by
  by_cases hr : r = 0
  · subst hr
    rw [runs_adopt_zero hadopt, hnone rfl, State.zero_nothing]
    exact .refused c n s₁ h
  · obtain ⟨header, rfl⟩ := h.exists_header hr
    rw [runs_adopt hr hadopt]
    exact .made c n header zeroed s₁ h (Nat.le_trans hfit (le_newCapacity n)) hzeroed hmakes

theorem runs_calloc {nmemb : ℕ} (h : Runs (calloc o nmemb size) s r s') :
    (r = 0 ∧ s' = s) ∨ ∃ s₁ n zeroed, Mallocs o s n r s₁ ∧ nmemb * size ≤ n ∧ zeroed ≤ n ∧
      (r = 0 → zeroed = 0) ∧ s' = s₁.zero r zeroed := by
  unfold calloc CInterface.calloc at h
  split at h
  · rw [runs_pure_bind] at h
    exact Or.inl (runs_pure.mp h)
  · dsimp only at h
    rw [runs_bind] at h
    obtain ⟨raw, s₁, hmalloc, h⟩ := h
    have hmallocs := runs_malloc hmalloc
    have hsize : nmemb * size ≤ if nmemb * size = 0 then 1 else nmemb * size := by
      split <;> omega
    split at h
    · rename_i hzero
      obtain ⟨rfl, rfl⟩ := runs_pure.mp h
      refine Or.inr ⟨s', _, 0, hzero ▸ hmallocs, hsize, Nat.zero_le _, fun _ => rfl, ?_⟩
      rw [State.zero_nothing]
    · rename_i hne
      rw [runs_bind] at h
      obtain ⟨_, s₂, hclear, h⟩ := h
      obtain ⟨rfl, rfl⟩ := runs_pure.mp h
      rw [CInterface.clear, runs_bind] at hclear
      obtain ⟨actual, s₃, hactual, hclear⟩ := hclear
      obtain ⟨_, _, _, _, rfl⟩ := runs_recorded (o := o) hactual
      rw [runs_modify.mp hclear]
      exact Or.inr ⟨_, _, _, hmallocs, hsize, Nat.min_le_right _ _, fun hr => absurd hr hne, rfl⟩

theorem runs_mallocUsableSize (h : Runs (mallocUsableSize ptr) s r s') : s' = s := by
  unfold mallocUsableSize CInterface.mallocUsableSize at h
  split at h
  · exact (runs_pure.mp h).2
  · rw [runs_pure_bind, if_neg (by decide), runs_bind] at h
    obtain ⟨p, s₁, hresolve, h⟩ := h
    obtain ⟨handle, _, rfl, rfl⟩ := runs_resolve hresolve
    dsimp only at h
    rw [runs_bind] at h
    obtain ⟨usable, s₂, hrecorded, h⟩ := h
    obtain ⟨_, _, _, _, rfl⟩ := runs_recorded (o := .silent) hrecorded
    exact (runs_pure.mp h).2

theorem runs_posixMemalign {alignment : ℕ} {found : Except ℕ (ℕ × ℕ)}
    (h : Runs (posixMemalign o alignment size) s found s') :
    ((∃ code, found = .error code) ∧ (s' = s ∨ ∃ m, Mallocs o s m 0 s')) ∨
      ∃ header aligned s₁, found = .ok (header + headerSize, aligned) ∧
      header + headerSize + 16 ≤ aligned ∧
        Mallocs o s (size + alignment + 16) (header + headerSize) s₁ ∧
        aligned - (header + headerSize) + size ≤ size + alignment + 16 ∧
          s' = s₁.tagged aligned (header + headerSize) := by
  unfold posixMemalign CInterface.posixMemalign at h
  split at h
  · obtain ⟨hfound, hs'⟩ := runs_pure.mp h
    exact Or.inl ⟨⟨_, hfound⟩, Or.inl hs'⟩
  · rename_i halignment
    split at h
    · obtain ⟨hfound, hs'⟩ := runs_pure.mp h
      exact Or.inl ⟨⟨_, hfound⟩, Or.inl hs'⟩
    · rename_i hbound
      rw [runs_bind] at h
      obtain ⟨raw, s₁, htwice, h⟩ := h
      have hmallocs := runs_mallocTwice htwice
      split at h
      · rename_i hzero
        obtain ⟨rfl, rfl⟩ := runs_pure.mp h
        exact Or.inl ⟨⟨_, rfl⟩, Or.inr ⟨_, hzero ▸ hmallocs⟩⟩
      · rename_i hne
        rw [runs_bind] at h
        obtain ⟨aligned, s₂, halign, h⟩ := h
        obtain ⟨haligned, rfl⟩ := runs_check halign
        rw [runs_modify_bind] at h
        obtain ⟨rfl, rfl⟩ := runs_pure.mp h
        obtain ⟨header, rfl⟩ := hmallocs.exists_header hne
        have hpower : 2 ^ Nat.log2 alignment = alignment := not_not.mp (not_or.mp halignment).2
        have height : ¬ alignment < 8 := (not_or.mp halignment).1
        obtain ⟨hsmall, hle, hlt⟩ :=
          alignTo_bounds hpower (by omega) (alignTo_of_alignAfter haligned)
        unfold tagSize at hsmall hle hlt
        -- a saturated sum would have failed the rounding
        exact Or.inr ⟨header, aligned, s₂, rfl, by omega, hmallocs, by omega, rfl⟩

section Realloc

omit [Layout] in
/-- The end of `realloc`: the old pointer is gone unless there is no new one. -/
theorem runs_rebind {raw : ℕ} {s₁ : State}
    (h : Runs (rebind ptr raw n) s₁ r s') :
    r = raw ∧ ((raw = 0 ∧ n ≠ 0 ∧ s' = s₁) ∨ (raw = 0 ∧ n = 0 ∧ s' = s₁.unbound ptr) ∨
      (raw ≠ 0 ∧ s' = (s₁.unbound ptr).bound raw raw n)) := by
  unfold rebind at h
  split at h
  · rename_i hfailed
    obtain ⟨hr, hs'⟩ := runs_pure.mp h
    exact ⟨hr.trans hfailed.1.symm, Or.inl ⟨hfailed.1, hfailed.2, hs'⟩⟩
  · rename_i hfailed
    rw [runs_bind] at h
    obtain ⟨_, s₂, hforget, h⟩ := h
    rw [runs_modify.mp hforget, runs_bind] at h
    obtain ⟨_, s₃, hadopt, h⟩ := h
    obtain ⟨hr, hs'⟩ := runs_pure.mp h
    refine ⟨hr, Or.inr ?_⟩
    by_cases hraw : raw = 0
    · subst hraw
      refine Or.inl ⟨rfl, not_not.mp fun hn => hfailed ⟨rfl, hn⟩, ?_⟩
      rw [hs', runs_adopt_zero hadopt]
      rfl
    · refine Or.inr ⟨hraw, ?_⟩
      rw [hs', runs_adopt hraw hadopt]
      rfl

omit [Layout] in
theorem unbound_zero (h : s.live 0 = none) : s.unbound 0 = s := by
  rw [State.unbound, ← h, update_eq_self]

theorem perform_realloc_null {raw : ℕ} {s₁ : State} (hp : Placed s)
    (hrealloc : Runs (realloc o 0 n) s raw s₁) (h : Runs (rebind 0 raw n) s₁ r s') :
    Performs o s (.realloc 0 n) r s' := by
  rw [realloc, CInterface.realloc, if_pos rfl] at hrealloc
  have hmallocs := runs_malloc hrealloc
  have hnull : s₁.unbound 0 = s₁ := unbound_zero (by rw [hmallocs.live_eq.1, hp.null])
  obtain ⟨rfl, hcases⟩ := runs_rebind h
  rw [hnull] at hcases
  rcases hcases with ⟨rfl, _, rfl⟩ | ⟨rfl, _, rfl⟩ | ⟨hr, rfl⟩
  · exact .refused _ n s' hmallocs
  · exact .refused _ n s' hmallocs
  · obtain ⟨header, rfl⟩ := hmallocs.exists_header hr
    have hmade := Performs.made (.realloc 0 n) n header 0 s₁ hmallocs (le_newCapacity n)
      (Nat.zero_le _) rfl
    rw [State.zero_nothing] at hmade
    exact hmade

theorem perform_realloc_live {raw : ℕ} {s₁ : State} {p : Handle} (hptr : ptr ≠ 0)
    (hlive : s.live ptr = some p) (hraw : p.raw - headerSize ≠ 0)
    (hrealloc : Runs (realloc o ptr n) s raw s₁)
    (h : Runs (rebind ptr raw n) s₁ r s') : Performs o s (.realloc ptr n) r s' := by
  obtain ⟨rfl, hcases⟩ := runs_rebind h
  rw [realloc, CInterface.realloc, if_neg hptr] at hrealloc
  split at hrealloc
  · rename_i hlarge
    rw [runs_pure_bind] at hrealloc
    obtain ⟨rfl, rfl⟩ := runs_pure.mp hrealloc
    rcases hcases with ⟨_, _, rfl⟩ | ⟨_, hzero, _⟩ | ⟨hne, _⟩
    · exact .denied _
    · exact absurd hlarge (by omega)
    · exact absurd rfl hne
  · rw [runs_pure_bind, if_neg (by decide)] at hrealloc
    split at hrealloc
    · rename_i hzero
      subst hzero
      rw [runs_bind] at hrealloc
      obtain ⟨_, s₀, hfree, hmalloc⟩ := hrealloc
      have hfrees := runs_free hptr hlive hraw hfree
      have hmallocs := runs_malloc hmalloc
      rcases hcases with ⟨_, hn, _⟩ | ⟨rfl, _, rfl⟩ | ⟨hr, rfl⟩
      · exact absurd rfl hn
      · exact .dropped ptr p s₀ s₁ hlive hfrees hmallocs
      · obtain ⟨header, rfl⟩ := hmallocs.exists_header hr
        exact .renewed ptr header p s₀ s₁ hlive hfrees hmallocs
    · rename_i hn
      obtain ⟨cls, cap, hget, hrec, hreallocs⟩ := runs_reallocBlock hptr hlive hraw hrealloc
      rcases hcases with ⟨rfl, _, rfl⟩ | ⟨_, hzero, _⟩ | ⟨hr, rfl⟩
      · exact .unresized ptr n p cls cap s' hn hlive hget hrec hreallocs
      · exact absurd hzero hn
      · exact .resized ptr n r p cls cap s₁ hn hlive hget hrec hr hreallocs

end Realloc

theorem Placed.pointer {p : Handle} (hp : Placed s) (hlive : s.live ptr = some p) :
    ptr ≠ 0 ∧ p.raw - headerSize ≠ 0 := by
  refine ⟨?_, hp.header ptr p hlive⟩
  rintro rfl
  exact absurd (hp.null.symm.trans hlive) nofun

theorem Pointed.placed (ha : Agree s) (hp : Pointed Q s) : Placed s where
  null := hp.null
  header ptr p hlive := by
    obtain ⟨header, hraw, ⟨cls, hget⟩, _⟩ := hp.header ptr p hlive
    rw [hraw, Nat.add_sub_cancel]
    exact ha.header_ne_zero (by rw [hget]; exact Option.some_ne_none _)

theorem Pointed.place {p : Handle} (ha : Agree s) (hp : Pointed Q s)
    (hlive : s.live ptr = some p) : ptr ≠ 0 ∧ p.raw - headerSize ≠ 0 :=
  (hp.placed ha).pointer hlive

/-- A call on live pointers makes, ends, resizes or moves a block, or fails. -/
theorem perform_cases (hp : Placed s) (hok : c.Ok s) (h : Runs (perform o c) s r s') :
    Performs o s c r s' := by
  cases c with
  | malloc size =>
    rw [perform, runs_bind] at h
    obtain ⟨raw, s₁, hmalloc, h⟩ := h
    rw [runs_bind] at h
    obtain ⟨_, s₂, hadopt, h⟩ := h
    obtain ⟨rfl, rfl⟩ := runs_pure.mp h
    rw [← State.zero_nothing s₁ r] at hadopt
    exact performs_of_mallocs (.malloc size) (runs_malloc hmalloc) (Nat.le_refl _) (Nat.zero_le _)
      (fun _ => rfl) trivial hadopt
  | calloc nmemb size =>
    rw [perform, runs_bind] at h
    obtain ⟨raw, s₁, hcalloc, h⟩ := h
    rw [runs_bind] at h
    obtain ⟨_, s₂, hadopt, h⟩ := h
    obtain ⟨rfl, rfl⟩ := runs_pure.mp h
    rcases runs_calloc hcalloc with ⟨rfl, rfl⟩ | ⟨s₀, n, zeroed, hmallocs, hfit, hle, hzero, rfl⟩
    · rw [runs_adopt_zero hadopt]
      exact .denied _
    · exact performs_of_mallocs (.calloc nmemb size) hmallocs hfit
        (Nat.le_trans hle (le_newCapacity n)) hzero trivial hadopt
  | posixMemalign alignment size =>
    rw [perform, runs_bind] at h
    obtain ⟨found, s₁, hposix, h⟩ := h
    rcases runs_posixMemalign hposix with
      ⟨⟨code, rfl⟩, hnone⟩ | ⟨header, aligned, s₂, rfl, hle, hmallocs, hfit, rfl⟩
    · obtain ⟨rfl, rfl⟩ := runs_pure.mp h
      rcases hnone with rfl | ⟨m, hmallocs⟩
      · exact .denied _
      · exact .refused _ m _ hmallocs
    · dsimp only at h
      rw [runs_bind] at h
      obtain ⟨_, s₃, hadopt, h⟩ := h
      obtain ⟨rfl, rfl⟩ := runs_pure.mp h
      rw [runs_adopt (by omega) hadopt]
      exact .aligned alignment size header r s₂ hmallocs hle (Nat.le_trans hfit (le_newCapacity _))
  | free ptr =>
    obtain ⟨p, hlive⟩ := Option.isSome_iff_exists.mp hok
    rw [perform, runs_bind] at h
    obtain ⟨_, s₁, hfree, h⟩ := h
    rw [runs_bind] at h
    obtain ⟨_, s₂, hforget, h⟩ := h
    obtain ⟨rfl, rfl⟩ := runs_pure.mp h
    rw [runs_modify.mp hforget]
    obtain ⟨hptr, hraw⟩ := hp.pointer hlive
    exact .freed ptr p s₁ hlive (runs_free hptr hlive hraw hfree)
  | usableSize ptr =>
    obtain rfl := runs_mallocUsableSize h
    exact .measured ptr r
  | write ptr i value =>
    rw [perform, runs_modify_bind] at h
    obtain ⟨rfl, rfl⟩ := runs_pure.mp h
    exact .written ptr i value
  | realloc ptr size =>
    rw [perform, runs_bind] at h
    obtain ⟨raw, s₁, hrealloc, h⟩ := h
    rcases hok with rfl | hsome
    · exact perform_realloc_null hp hrealloc h
    · obtain ⟨p, hlive⟩ := Option.isSome_iff_exists.mp hsome
      obtain ⟨hptr, hraw⟩ := hp.pointer hlive
      exact perform_realloc_live hptr hlive hraw hrealloc h

end Cases

section Pointers

/-- All live blocks keep their records, but for one. -/
def Undisturbed (except : Option ℕ) (s s' : State) : Prop :=
  ∀ h, Live s h → except ≠ some h → s'.headers.get h = s.headers.get h ∧ s'.entry h = s.entry h

omit [Layout] in
theorem undisturbed_of_eq (hheaders : s'.headers = s.headers) (hbig : s'.big = s.big)
    (e : Option ℕ) :
    Undisturbed e s s' :=
  fun _ _ _ => ⟨by rw [hheaders], entry_congr (by rw [hbig])⟩

omit [Layout] in
theorem OnlyAt.undisturbed (h : OnlyAt header s s') : Undisturbed (some header) s s' := by
  intro x _ hne
  have hx : x ≠ header := fun heq => hne (congrArg some heq.symm)
  exact ⟨h.headers x hx, h.entry x hx⟩

omit [Layout] in
theorem OnlyAt.undisturbed_fresh (h : OnlyAt header s s') (hfresh : ¬ Live s header)
    (e : Option ℕ) :
    Undisturbed e s s' := by
  intro x hx _
  have hne : x ≠ header := fun heq => hfresh (heq ▸ hx)
  exact ⟨h.headers x hne, h.entry x hne⟩

omit [Layout] in
theorem Undisturbed.trans {e : Option ℕ} {s₁ : State} (h : Undisturbed e s s₁)
    (h' : Undisturbed e s₁ s') : Undisturbed e s s' := by
  intro x hx hne
  obtain ⟨hheaders, hentry⟩ := h x hx hne
  have hx₁ : Live s₁ x := by rwa [Live, hheaders]
  obtain ⟨hheaders', hentry'⟩ := h' x hx₁ hne
  exact ⟨hheaders'.trans hheaders, hentry'.trans hentry⟩

theorem Pointed.keep (hp : Pointed Q s) (hlive : s'.live = s.live) (h : Undisturbed none s s') :
    Pointed Q s' where
  null := by rw [hlive, hp.null]
  distance ptr p hptr := hp.distance ptr p (hlive ▸ hptr)
  header ptr p hptr := by
    rw [hlive] at hptr
    obtain ⟨x, hraw, hx, hq⟩ := hp.header ptr p hptr
    obtain ⟨hheaders, hentry⟩ := h x hx nofun
    refine ⟨x, hraw, ?_, ?_⟩
    · rwa [Live, hheaders]
    · rwa [hheaders, hentry]
  inj ptr q p p' hptr hq := hp.inj ptr q p p' (hlive ▸ hptr) (hlive ▸ hq)

theorem Pointed.past (hp : Pointed Q s) {q : ℕ} {p : Handle} (hq : s.live q = some p) :
    ∃ h, p.raw = h + headerSize ∧ Live s h := by
  obtain ⟨h, hraw, hlive, _⟩ := hp.header q p hq
  exact ⟨h, hraw, hlive⟩

/-- The pointers that are left lead to other blocks than the one that is given up. -/
theorem Pointed.left {p p' : Handle} {q : ℕ} (hp : Pointed Q s) (hptr : s.live ptr = some p)
    (hlive : s'.live = s.live) (hq : (s'.unbound ptr).live q = some p') :
    s.live q = some p' ∧ p'.raw ≠ p.raw := by
  by_cases hne : q = ptr
  · rw [hne, State.unbound_live_self] at hq
    exact absurd hq nofun
  · rw [State.unbound_live_of_ne _ hne, hlive] at hq
    exact ⟨hq, fun hraw => hne (hp.inj q ptr p' p hq hptr hraw)⟩

/-- A pointer is given up, and its block may have changed. -/
theorem Pointed.unbind {p : Handle} (hp : Pointed Q s) (hptr : s.live ptr = some p)
    (hlive : s'.live = s.live) (h : Undisturbed (some (p.raw - headerSize)) s s') :
    Pointed Q (s'.unbound ptr) := by
  refine ⟨?_, fun q p' hq => hp.distance q p' (hp.left hptr hlive hq).1, fun q p' hq => ?_, ?_⟩
  · cases hzero : (s'.unbound ptr).live 0 with
    | none => rfl
    | some p' =>
      have hnull := (hp.left hptr hlive hzero).1
      rw [hp.null] at hnull
      exact absurd hnull nofun
  · obtain ⟨hq, hne⟩ := hp.left hptr hlive hq
    obtain ⟨x, hraw, hx, hcond⟩ := hp.header q p' hq
    obtain ⟨y, hraw', _⟩ := hp.header ptr p hptr
    have hexcept : some (p.raw - headerSize) ≠ some x := fun heq =>
      hne (by have hx := Option.some.inj heq; omega)
    obtain ⟨hheaders, hentry⟩ := h x hx hexcept
    refine ⟨x, hraw, ?_, ?_⟩
    · show ∃ cls, s'.headers.get x = _
      rwa [hheaders]
    · show Q (s'.headers.get x) (s'.entry x) p'
      rwa [hheaders, hentry]
  · intro q q' p₁ p₂ hq hq'
    exact hp.inj q q' p₁ p₂ (hp.left hptr hlive hq).1 (hp.left hptr hlive hq').1

/-- A new pointer to a live block that no other pointer leads to. -/
theorem Pointed.bind (hp : Pointed Q s) (hptr : header + headerSize ≤ ptr) (hlive : Live s header)
    (hown : ∀ q p, s.live q = some p → p.raw ≠ header + headerSize)
    (hcond : Q (s.headers.get header) (s.entry header)
      ⟨header + headerSize, ptr - (header + headerSize), size⟩) :
    Pointed Q (s.bound ptr (header + headerSize) size) := by
  have hcases : ∀ q p, (s.bound ptr (header + headerSize) size).live q = some p →
      (q = ptr ∧ p = ⟨header + headerSize, ptr - (header + headerSize), size⟩) ∨
      (q ≠ ptr ∧ s.live q = some p) := by
    intro q p hq
    by_cases hne : q = ptr
    · rw [hne, State.bound_live_self] at hq
      exact Or.inl ⟨hne, (Option.some.inj hq).symm⟩
    · rw [State.bound_live_of_ne _ _ _ hne] at hq
      exact Or.inr ⟨hne, hq⟩
  refine ⟨?_, fun q p hq => ?_, fun q p hq => ?_, fun q q' p p' hq hq' hraw => ?_⟩
  · rw [State.bound_live_of_ne _ _ _ (by have hhead := headerSize_cases; omega), hp.null]
  · rcases hcases q p hq with ⟨rfl, rfl⟩ | ⟨_, hq⟩
    · dsimp only
      omega
    · exact hp.distance q p hq
  · rcases hcases q p hq with ⟨rfl, rfl⟩ | ⟨_, hq⟩
    · exact ⟨header, rfl, hlive, hcond⟩
    · exact hp.header q p hq
  · rcases hcases q p hq with ⟨hqp, rfl⟩ | ⟨_, hold⟩
    · rcases hcases q' p' hq' with ⟨hqp', _⟩ | ⟨_, hold'⟩
      · exact hqp.trans hqp'.symm
      · exact absurd hraw.symm (hown q' p' hold')
    · rcases hcases q' p' hq' with ⟨_, rfl⟩ | ⟨_, hold'⟩
      · exact absurd hraw (hown q p hold)
      · exact hp.inj q q' p p' hold hold' hraw

end Pointers

/-- The records are as they were. -/
structure SameRecords (s s' : State) : Prop where
  headers : s'.headers = s.headers
  big : s'.big = s.big
  agree : Agree s'

/-- One block has ended or changed, and another one, or itself, is live after that. -/
structure Replaced (s : State) (old header : ℕ) (s' : State) : Prop where
  agree : Agree s'
  undisturbed : Undisturbed (some old) s s'
  fresh : Live s header → header = old
  past : ∀ h, Live s' h → h ≠ header → Live s h ∧ h ≠ old

/-- The block has the records of a request, with room for `n` bytes. -/
def HasRoom (s : State) (header n : ℕ) : Prop :=
  ∃ m, n ≤ newCapacity m ∧ s.headers.get header = some ⟨newClass m, true⟩ ∧
    Recorded s header (newClass m) (newCapacity m)

/-- The block of a pointer keeps its records, and they serve the request. -/
structure Retained (s : State) (p : Handle) (n : ℕ) (s' : State) : Prop where
  plain : p.offset = 0
  same : SameRecords s s'
  fit : ∃ cls cap, s.headers.get (p.raw - headerSize) = some ⟨cls, true⟩ ∧
    Recorded s (p.raw - headerSize) cls cap ∧
    ((matchSizeClass n = some cls ∧ n ≤ cap) ∨ extent (newClass n) n < extent cls cap)

/-- What `realloc` of a block does to the records. -/
inductive Outcome (s : State) (n : ℕ) (p : Handle) : ℕ → State → Prop
  | failed (s' : State) (hsame : SameRecords s s') : Outcome s n p 0 s'
  | replaced (header : ℕ) (s' : State) (h : Replaced s (p.raw - headerSize) header s')
    (hroom : HasRoom s' header n ∨ header = p.raw - headerSize ∧ Retained s p n s') :
    Outcome s n p (header + headerSize) s'

/-- The pointer that a call gives out is not in use, unless it is the one that `realloc` has
got. Payloads are abstract here, so nothing else keeps the pointers of two blocks apart. -/
def Call.Gives (s : State) : Call → ℕ → Prop
  | .usableSize _, _ => True
  | .realloc ptr _, r => r = ptr ∨ s.live r = none
  | _, r => s.live r = none

/-- What a call does to the records and to the pointers. -/
inductive Change (s : State) : Call → ℕ → State → Prop
  | kept (c : Call) (r : ℕ) (s' : State) (hsame : SameRecords s s') (hlive : s'.live = s.live) :
    Change s c r s'
  | made (c : Call) (m header ptr size : ℕ) (s₁ : State) (hfresh : ¬ Live s header)
    (hfiled : Filed s m header s₁) (hlive : s₁.live = s.live) (hptr : header + headerSize ≤ ptr)
    (hfit : ptr - (header + headerSize) + size ≤ newCapacity m)
    (hunused : c.Gives s ptr → s.live ptr = none) :
    Change s c ptr (s₁.bound ptr (header + headerSize) size)
  | ended (c : Call) (ptr : ℕ) (p : Handle) (s₁ : State) (hptr : s.live ptr = some p)
    (hended : Ended s (p.raw - headerSize) s₁) (hlive : s₁.live = s.live) :
    Change s c 0 (s₁.unbound ptr)
  | replaced (ptr n header : ℕ) (p : Handle) (s₁ : State) (hptr : s.live ptr = some p)
    (h : Replaced s (p.raw - headerSize) header s₁) (hlive : s₁.live = s.live)
    (hroom : HasRoom s₁ header n ∨ header = p.raw - headerSize ∧ Retained s p n s₁) :
    Change s (.realloc ptr n) (header + headerSize)
      ((s₁.unbound ptr).bound (header + headerSize) (header + headerSize) n)

/-- No range that a call may get covers a header. -/
structure Oracle.Careful (o : Oracle) (s : State) : Prop where
  here : o.AvoidsFrom s
  freed : ∀ h s₁, Frees s h s₁ → o.AvoidsFrom s₁
  stuck : ∀ h cls cap n s₁, s.headers.get h = some ⟨cls, true⟩ → Recorded s h cls cap →
    (cls = 100 ∨ slabBlocks cls = 1) → Resizes o s h cls cap n false s₁ → o.AvoidsFrom s₁

theorem Oracle.Avoids.careful (h : o.Avoids) (s : State) : o.Careful s := by
  have hfrom : ∀ s₀, o.AvoidsFrom s₀ := fun _ s₁ _ k addr len _ => h (s₁.later k) addr len
  exact ⟨hfrom s, fun _ s₁ _ => hfrom s₁, fun _ _ _ _ s₁ _ _ _ _ => hfrom s₁⟩

section Outcomes

variable {p : Handle}

omit [Layout] in
theorem SameRecords.onlyAt (h : SameRecords s s') (header : ℕ) : OnlyAt header s s' :=
  ⟨fun x _ => by rw [h.headers], fun _ _ => entry_congr (by rw [h.big])⟩

omit [Layout] in
theorem OnlyAt.replaced (h : OnlyAt header s s') (ha : Agree s') : Replaced s header header s' :=
  ⟨ha, h.undisturbed, fun _ => rfl,
    fun x hx hne => ⟨by rwa [Live, h.headers x hne] at hx, hne⟩⟩

theorem Mallocs.same (ha : Agree s) (h : Mallocs o s n 0 s') : SameRecords s s' := by
  obtain ⟨ha', hheaders, hbig⟩ := h.refused ha
  exact ⟨hheaders, hbig, ha'⟩

omit [Layout] in
theorem Ended.after {s₁ : State} (h : Ended s header s₁) (hsame : SameRecords s₁ s') :
    Ended s header s' := by
  refine ⟨hsame.agree, ⟨fun x hne => ?_, fun x hne => ?_⟩, ?_⟩
  · rw [hsame.headers, h.only.headers x hne]
  · rw [← h.only.entry x hne, State.entry, State.entry, hsame.big]
  · rw [Live, hsame.headers]
    exact h.dead

omit [Layout] in
theorem Ended.replaced {s₁ : State} {old m : ℕ} (h : Ended s old s₁) (hfresh : ¬ Live s₁ header)
    (hnew : Filed s₁ m header s') : Replaced s old header s' := by
  refine ⟨hnew.agree, h.only.undisturbed.trans (hnew.only.undisturbed_fresh hfresh _),
    fun hlive => ?_, fun x hx hne => ?_⟩
  · by_contra hne
    exact hfresh (by rwa [Live, h.only.headers header hne])
  · rw [Live, hnew.only.headers x hne] at hx
    have hold : x ≠ old := fun heq => h.dead (heq ▸ hx)
    rw [h.only.headers x hold] at hx
    exact ⟨hx, hold⟩

theorem Moves.outcome {s₀ : State} {old : ℕ} (havoids : o.AvoidsFrom s) (hsame : SameRecords s₀ s)
    (hlive : s₀.headers.get (p.raw - headerSize) = some ⟨cls, true⟩)
    (h : Moves o s ptr n old p r s') : Outcome s₀ n p r s' := by
  obtain ⟨s₁, hmallocs, ⟨rfl, rfl⟩ | ⟨hr, hfrees⟩⟩ := h
  · have hsame' := hmallocs.same hsame.agree
    exact .failed _ ⟨hsame'.headers.trans hsame.headers, hsame'.big.trans hsame.big, hsame'.agree⟩
  · obtain ⟨header, rfl, _, hfiled⟩ := hmallocs.filed hsame.agree havoids hr
    have hfresh : ¬ Live s₀ header := by
      have hnot := hmallocs.fresh havoids
      rwa [Live, hsame.headers] at hnot
    have hne : header ≠ p.raw - headerSize := by
      rintro rfl
      exact hfresh ⟨cls, hlive⟩
    have hended := hfrees.ended (hfiled.agree.of_eq rfl rfl rfl)
    have hmade := (hfiled.of_eq hsame.headers hsame.big).only.undisturbed_fresh hfresh
    refine .replaced header s' ⟨hended.agree, ?_, fun h => absurd h hfresh, fun h hh hnew => ?_⟩
      (Or.inl ⟨n, le_newCapacity n, ?_, ?_⟩)
    · exact (hmade _).trans hended.only.undisturbed
    · have hold : h ≠ p.raw - headerSize := fun heq => hended.dead (heq ▸ hh)
      rw [Live, hended.only.headers h hold] at hh
      exact ⟨by rwa [Live, ← hsame.headers, ← hfiled.only.headers h hnew], hold⟩
    · rw [hended.only.headers header hne]
      exact hfiled.get
    · rw [Recorded, hended.only.entry header hne]
      exact hfiled.recorded

/-- The block of a plain pointer begins right before it. -/
theorem Pointed.plain (hp : Pointed Q s) (hptr : s.live ptr = some p) (hplain : p.offset = 0) :
    ptr = p.raw - headerSize + headerSize := by
  obtain ⟨y, hy, _⟩ := hp.past hptr
  rw [hp.distance ptr p hptr, hplain]
  omega

theorem Reallocs.outcome (hcareful : o.Careful s) (ha : Agree s) (hp : Pointed Q s)
    (hptr : s.live ptr = some p)
    (hget : s.headers.get (p.raw - headerSize) = some ⟨cls, true⟩)
    (hrec : Recorded s (p.raw - headerSize) cls cap)
    (h : Reallocs o s ptr n p cls cap r s') : Outcome s n p r s' := by
  have hkept : ∀ {s₁}, p.offset = 0 → SameRecords s s₁ →
      ((matchSizeClass n = some cls ∧ n ≤ cap) ∨ extent (newClass n) n < extent cls cap) →
      Outcome s n p ptr s₁ := by
    intro s₁ hplain hsame hfit
    rw [hp.plain hptr hplain]
    exact .replaced _ s₁ ((hsame.onlyAt _).replaced hsame.agree)
      (Or.inr ⟨rfl, hplain, hsame, cls, cap, hget, hrec, hfit⟩)
  cases h with
  | same hplain hcls hcap => exact hkept hplain ⟨rfl, rfl, ha⟩ (Or.inl ⟨hcls, hcap⟩)
  | inPlace _ hplain _ _ hresize =>
    rcases hresize.records ha hget with ⟨_, hfiled⟩ | ⟨hheaders, hbig, hslots, hlt⟩
    · rw [hp.plain hptr hplain]
      exact .replaced _ s' (hfiled.only.replaced hfiled.agree)
        (Or.inl ⟨n, le_newCapacity n, hfiled.get, hfiled.recorded⟩)
    · exact hkept hplain ⟨hheaders, hbig, ha.of_eq hheaders hbig hslots⟩ (Or.inr (hlt rfl))
  | moved _ _ _ hmoves => exact hmoves.outcome hcareful.here ⟨rfl, rfl, ha⟩ hget
  | movedAfter _ s₁ _ _ hsolo _ hresize hmoves =>
    have havoids := hcareful.stuck _ cls cap n s₁ hget hrec hsolo hresize
    rcases hresize.records ha hget with ⟨hfalse, _⟩ | ⟨hheaders, hbig, hslots, _⟩
    · exact absurd hfalse Bool.false_ne_true
    · exact hmoves.outcome havoids ⟨hheaders, hbig, ha.of_eq hheaders hbig hslots⟩ hget

theorem Reallocs.live_eq (h : Reallocs o s ptr n p cls cap r s') :
    s'.live = s.live ∧ s'.thp = s.thp := by
  have hmove : ∀ {s₀ : State} {old : ℕ}, Moves o s₀ ptr n old p r s' →
      s'.live = s₀.live ∧ s'.thp = s₀.thp := by
    rintro s₀ old ⟨s₁, hmallocs, ⟨_, rfl⟩ | ⟨_, hfrees⟩⟩
    · exact hmallocs.live_eq
    · exact ⟨hfrees.live_eq.1.trans hmallocs.live_eq.1, hfrees.live_eq.2.trans hmallocs.live_eq.2⟩
  cases h with
  | same _ _ _ => exact ⟨rfl, rfl⟩
  | inPlace _ _ _ _ hresize => exact hresize.live_eq
  | moved _ _ _ hmoves => exact hmove hmoves
  | movedAfter _ _ _ _ _ _ hresize hmoves =>
    exact ⟨(hmove hmoves).1.trans hresize.live_eq.1, (hmove hmoves).2.trans hresize.live_eq.2⟩

/-- A call that makes a block; only its bytes may be written before the pointer is out. -/
theorem Mallocs.change {s₁ : State} (h : Mallocs o s n (header + headerSize) s₁)
    (havoids : o.AvoidsFrom s) (ha : Agree s) (m : Memory) (hptr : header + headerSize ≤ ptr)
    (hfit : ptr - (header + headerSize) + size ≤ newCapacity n)
    (hunused : c.Gives s ptr → s.live ptr = none) :
    Change s c ptr (({ s₁ with mem := m } : State).bound ptr (header + headerSize) size) := by
  obtain ⟨header', heq, _, hfiled⟩ := h.filed ha havoids (pointer_ne_zero _)
  obtain rfl := Nat.add_right_cancel heq
  have hfiled₁ : Filed s n header { s₁ with mem := m } :=
    ⟨hfiled.agree.of_eq rfl rfl rfl, ⟨hfiled.only.headers, hfiled.only.entry⟩, hfiled.get,
      hfiled.recorded⟩
  exact .made c n header ptr size _ (h.fresh havoids) hfiled₁ h.live_eq.1 hptr hfit hunused

theorem Performs.change (hcareful : o.Careful s) (ha : Agree s) (hp : Pointed Q s)
    (h : Performs o s c r s') : Change s c r s' := by
  cases h with
  | written ptr i value => exact .kept _ _ _ ⟨rfl, rfl, ha.of_eq rfl rfl rfl⟩ rfl
  | measured ptr v => exact .kept _ _ _ ⟨rfl, rfl, ha⟩ rfl
  | denied => exact .kept _ _ _ ⟨rfl, rfl, ha⟩ rfl
  | refused _ m _ hmallocs => exact .kept _ _ _ (hmallocs.same ha) hmallocs.live_eq.1
  | made _ m header zeroed s₁ hmallocs hfit _ hmakes =>
    refine hmallocs.change hcareful.here ha _ (Nat.le_refl _) ?_ fun hgives => ?_
    · rwa [Nat.sub_self, Nat.zero_add]
    · cases c with
      | malloc _ | calloc _ _ => exact hgives
      | realloc ptr n =>
        exact hgives.resolve_left fun heq => absurd (heq.trans hmakes) (pointer_ne_zero _)
      | posixMemalign _ _ | free _ | usableSize _ | write _ _ _ => exact hmakes.elim
  | aligned alignment size header ptr s₁ hmallocs hptr hfit =>
    exact hmallocs.change hcareful.here ha _ (by omega) hfit id
  | freed ptr p s₁ hlive hfrees => exact .ended _ ptr p s₁ hlive (hfrees.ended ha) hfrees.live_eq.1
  | dropped ptr p s₁ s₂ hlive hfrees hmallocs =>
    have hended := hfrees.ended ha
    exact .ended _ ptr p s₂ hlive (hended.after (hmallocs.same hended.agree))
      (hmallocs.live_eq.1.trans hfrees.live_eq.1)
  | renewed ptr header p s₁ s₂ hlive hfrees hmallocs =>
    have hended := hfrees.ended ha
    have havoids := hcareful.freed _ s₁ hfrees
    obtain ⟨header', heq, _, hnew⟩ := hmallocs.filed hended.agree havoids (pointer_ne_zero _)
    obtain rfl := Nat.add_right_cancel heq
    exact .replaced ptr 0 header p s₂ hlive (hended.replaced (hmallocs.fresh havoids) hnew)
      (hmallocs.live_eq.1.trans hfrees.live_eq.1)
      (Or.inl ⟨1, Nat.zero_le _, hnew.get, hnew.recorded⟩)
  | resized ptr n r p cls cap s₁ _ hlive hget hrec hr hreallocs =>
    have hlive₁ := hreallocs.live_eq.1
    cases hreallocs.outcome hcareful ha hp hlive hget hrec with
    | failed _ _ => exact absurd rfl hr
    | replaced header _ hreplaced hroom =>
      exact .replaced ptr n header p s₁ hlive hreplaced hlive₁ hroom
  | unresized ptr n p cls cap s₁ _ hlive hget hrec hreallocs =>
    have hlive₁ := hreallocs.live_eq.1
    generalize hzero : (0 : ℕ) = r at hreallocs
    cases hreallocs.outcome hcareful ha hp hlive hget hrec with
    | failed _ hsame => exact .kept _ _ _ hsame hlive₁
    | replaced header _ _ _ => exact absurd hzero.symm (pointer_ne_zero header)

end Outcomes

section Step

/-- The condition on the pointers holds of every block that has the records of its request. -/
def HoldsOnFiled (Q : Option Header → Option ℕ → Handle → Prop) : Prop :=
  ∀ s h m p, s.headers.get h = some ⟨newClass m, true⟩ → Recorded s h (newClass m) (newCapacity m) →
    p.offset + p.size ≤ newCapacity m → Q (s.headers.get h) (s.entry h) p

/-- The condition holds again of a block that a call keeps as it is. -/
def HoldsOnKept (Q : Option Header → Option ℕ → Handle → Prop) (s : State) (c : Call) : Prop :=
  ∀ ptr n p cls cap, c = .realloc ptr n → s.live ptr = some p → p.offset = 0 →
    s.headers.get (p.raw - headerSize) = some ⟨cls, true⟩ →
    Recorded s (p.raw - headerSize) cls cap →
    ((matchSizeClass n = some cls ∧ n ≤ cap) ∨ extent (newClass n) n < extent cls cap) →
    Q (s.headers.get (p.raw - headerSize)) (s.entry (p.raw - headerSize)) ⟨p.raw, 0, n⟩

theorem Change.agree (h : Change s c r s') : Agree s' := by
  cases h with
  | kept _ _ _ hsame _ => exact hsame.agree
  | made _ _ _ _ _ _ _ hfiled _ _ _ _ => exact hfiled.agree.of_eq rfl rfl rfl
  | ended _ _ _ _ _ hended _ => exact hended.agree.of_eq rfl rfl rfl
  | replaced _ _ _ _ _ _ hreplaced _ _ => exact hreplaced.agree.of_eq rfl rfl rfl

/-- A pointer is given up for one to a block that no other pointer leads to. -/
theorem Pointed.rebind {p : Handle} {s₁ : State} (hp : Pointed Q s) (hptr : s.live ptr = some p)
    (hlive : s₁.live = s.live) (h : Replaced s (p.raw - headerSize) header s₁)
    (hstill : Live s₁ header)
    (hcond : Q (s₁.headers.get header) (s₁.entry header) ⟨header + headerSize, 0, n⟩) :
    Pointed Q ((s₁.unbound ptr).bound (header + headerSize) (header + headerSize) n) := by
  refine (hp.unbind hptr hlive h.undisturbed).bind (Nat.le_refl _) hstill
    (fun q p' hq hraw => ?_) ?_
  · obtain ⟨hq, hne⟩ := hp.left hptr hlive hq
    obtain ⟨x, hx, hliveX⟩ := hp.past hq
    obtain ⟨y, hy, _⟩ := hp.past hptr
    obtain rfl := Nat.add_right_cancel (hraw.symm.trans hx)
    have hold := h.fresh hliveX
    exact hne (by omega)
  · rw [Nat.sub_self]
    exact hcond

theorem Change.pointed (hholds : HoldsOnFiled Q) (hp : Pointed Q s) (hkept : HoldsOnKept Q s c)
    (h : Change s c r s') : Pointed Q s' := by
  cases h with
  | kept _ _ _ hsame hlive => exact hp.keep hlive (undisturbed_of_eq hsame.headers hsame.big _)
  | made _ m header ptr size s₁ hfresh hfiled hlive hptr hfit _ =>
    refine (hp.keep hlive (hfiled.only.undisturbed_fresh hfresh none)).bind hptr ⟨_, hfiled.get⟩
      (fun q p hq hraw => ?_) (hholds s₁ header m _ hfiled.get hfiled.recorded hfit)
    obtain ⟨x, hx, hliveX⟩ := hp.past (hlive ▸ hq)
    exact hfresh (Nat.add_right_cancel (hraw.symm.trans hx) ▸ hliveX)
  | ended _ ptr p s₁ hptr hended hlive => exact hp.unbind hptr hlive hended.only.undisturbed
  | replaced ptr n header p s₁ hptr hreplaced hlive hroom =>
    rcases hroom with ⟨m, hle, hget, hrec⟩ | ⟨rfl, hplain, hsame, cls, cap, hget, hrec, hfit⟩
    · refine hp.rebind hptr hlive hreplaced ⟨_, hget⟩ (hholds s₁ header m _ hget hrec ?_)
      rwa [Nat.zero_add]
    · refine hp.rebind hptr hlive hreplaced ⟨cls, by rw [hsame.headers, hget]⟩ ?_
      have hraw : p.raw - headerSize + headerSize = p.raw := by
        obtain ⟨y, hy, _⟩ := hp.past hptr
        omega
      rw [State.entry, hsame.headers, hsame.big, hraw]
      exact hkept ptr n p cls cap rfl hptr hplain hget hrec hfit

end Step

section Reached

/-- The live blocks, but for one, have each a pointer of the user. -/
def Reached (except : Option ℕ) (s : State) : Prop :=
  ∀ h, Live s h → except ≠ some h → ∃ ptr p, s.live ptr = some p ∧ p.raw = h + headerSize

variable {e : Option ℕ} {p : Handle}

theorem Reached.keep (hr : Reached none s) (hlive : s'.live = s.live)
    (hpast : ∀ h, Live s' h → e ≠ some h → Live s h) : Reached e s' := by
  intro h hh hne
  obtain ⟨ptr, p, hptr, hraw⟩ := hr h (hpast h hh hne) nofun
  exact ⟨ptr, p, hlive ▸ hptr, hraw⟩

/-- A pointer is given up whose block has ended or gets another one. -/
theorem Reached.unbind (hr : Reached e s) (hptr : s.live ptr = some p)
    (hgone : ∀ h, Live s h → e ≠ some h → p.raw ≠ h + headerSize) : Reached e (s.unbound ptr) := by
  intro h hh hne
  obtain ⟨q, p', hq, hraw⟩ := hr h hh hne
  refine ⟨q, p', ?_, hraw⟩
  rw [State.unbound_live_of_ne, hq]
  rintro rfl
  rw [Option.some.inj (hptr.symm.trans hq)] at hgone
  exact hgone h hh hne hraw

theorem Reached.bind (hr : Reached (some header) s) (hptr : s.live ptr = none) :
    Reached none (s.bound ptr (header + headerSize) size) := by
  intro h hh _
  by_cases hne : some header = some h
  · obtain rfl := Option.some.inj hne
    exact ⟨ptr, _, State.bound_live_self .., rfl⟩
  · obtain ⟨q, p, hq, hraw⟩ := hr h hh hne
    refine ⟨q, p, ?_, hraw⟩
    rw [State.bound_live_of_ne, hq]
    rintro rfl
    rw [hptr] at hq
    contradiction

/-- A block ends, and its pointer with it. -/
theorem Reached.ended {s₁ : State} (hr : Reached none s) (hptr : s.live ptr = some p)
    (hended : Ended s (p.raw - headerSize) s₁) (hlive : s₁.live = s.live) :
    Reached none (s₁.unbound ptr) := by
  have hold : ∀ h, Live s₁ h → h ≠ p.raw - headerSize := fun h hh heq => hended.dead (heq ▸ hh)
  have hr₁ : Reached none s₁ := by
    refine hr.keep hlive fun h hh _ => ?_
    rwa [Live, hended.only.headers h (hold h hh)] at hh
  refine hr₁.unbind (hlive ▸ hptr) fun h hh _ hraw => hold h hh (by omega)

/-- A block is live in the place of one that has ended. -/
theorem Reached.replaced {s₁ : State} (hr : Reached none s) (hptr : s.live ptr = some p)
    (hlive : s₁.live = s.live)
    (hpast : ∀ h, Live s₁ h → h ≠ header → Live s h ∧ h ≠ p.raw - headerSize)
    (hfresh : header + headerSize = ptr ∨ s.live (header + headerSize) = none) :
    Reached none ((s₁.unbound ptr).bound (header + headerSize) (header + headerSize) n) := by
  have hother : ∀ h, Live s₁ h → some header ≠ some h → Live s h ∧ h ≠ p.raw - headerSize :=
    fun h hh hne => hpast h hh fun heq => hne (congrArg some heq.symm)
  have hr₁ : Reached (some header) s₁ := hr.keep hlive fun h hh hne => (hother h hh hne).1
  have hr₂ : Reached (some header) (s₁.unbound ptr) := by
    refine hr₁.unbind (hlive ▸ hptr) fun h hh hne hraw => (hother h hh hne).2 (by omega)
  refine hr₂.bind ?_
  by_cases hsame : header + headerSize = ptr
  · rw [hsame, State.unbound_live_self]
  · rw [State.unbound_live_of_ne _ hsame, hlive]
    exact hfresh.resolve_left hsame

instance Call.Gives.decidable (s : State) (r : ℕ) : ∀ c, Decidable (Call.Gives s c r)
  | .usableSize _ => isTrue trivial
  | .realloc _ _ => inferInstanceAs (Decidable (_ ∨ _))
  | .malloc _ => inferInstanceAs (Decidable (_ = _))
  | .calloc _ _ => inferInstanceAs (Decidable (_ = _))
  | .posixMemalign _ _ => inferInstanceAs (Decidable (_ = _))
  | .free _ => inferInstanceAs (Decidable (_ = _))
  | .write _ _ _ => inferInstanceAs (Decidable (_ = _))

def Unshared (o : Oracle) (s : State) (c : Call) : Prop :=
  ∀ x ∈ outcome (perform o c) s, c.Gives s x.1

instance Unshared.decidable (o : Oracle) (s : State) (c : Call) : Decidable (Unshared o s c) :=
  inferInstanceAs (Decidable (∀ x ∈ outcome (perform o c) s, c.Gives s x.1))

theorem Change.reached (hr : Reached none s) (hgives : c.Gives s r) (h : Change s c r s') :
    Reached none s' := by
  cases h with
  | kept _ _ _ hsame hlive => exact hr.keep hlive fun h hh _ => by rwa [Live, hsame.headers] at hh
  | made _ m header ptr size s₁ _ hfiled hlive _ _ hunused =>
    have hr₁ : Reached (some header) s₁ := by
      refine hr.keep hlive fun h hh hne => ?_
      rwa [Live, hfiled.only.headers h fun heq => hne (congrArg some heq.symm)] at hh
    exact hr₁.bind (hlive ▸ hunused hgives)
  | ended _ ptr p s₁ hptr hended hlive => exact hr.ended hptr hended hlive
  | replaced ptr n header p s₁ hptr hreplaced hlive _ =>
    exact hr.replaced hptr hlive hreplaced.past hgives

end Reached

section Runs

theorem step_cases (hp : Placed s) (h : step o s c = some s') :
    c.Ok s ∧ ∃ r, Runs (perform o c) s r s' ∧ Performs o s c r s' := by
  unfold step at h
  split at h
  · rename_i hok
    obtain ⟨⟨r, s₁⟩, hrun, rfl⟩ := Option.map_eq_some_iff.mp h
    have hruns := outcome_eq_some.mp hrun
    exact ⟨hok, r, hruns, perform_cases hp hok hruns⟩
  · exact absurd h nofun

theorem pointed_initial (thp : Bool) : Pointed Q (initial thp) :=
  ⟨rfl, fun _ _ => nofun, fun _ _ => nofun, fun _ _ _ _ => nofun⟩

/-- In every run whose calls meet a condition the records agree and the pointers are good. -/
theorem run_pointed {ok : State → Call → Prop} {thp : Bool} {calls : List Call} (havoids : o.Avoids)
    (hfiled : HoldsOnFiled Q)
    (hkept : ∀ s c, Agree s → Pointed Q s → ok s c → HoldsOnKept Q s c)
    (hok : Guarded (step o) ok (initial thp) calls)
    (hrun : run (step o) (initial thp) calls = some s) :
    Agree s ∧ Pointed Q s := by
  refine @run_invariant _ _ (step o) ok (fun s => Agree s ∧ Pointed Q s) ?_ _ s calls
    ⟨agree_initial thp, pointed_initial thp⟩ hok hrun
  rintro s c s' ⟨ha, hp⟩ hc hstep
  obtain ⟨_, r, _, hperforms⟩ := step_cases (hp.placed ha) hstep
  have hchange := hperforms.change (havoids.careful s) ha hp
  exact ⟨hchange.agree, hchange.pointed hfiled hp (hkept s c ha hp hc)⟩

theorem run_reached {thp : Bool} {calls : List Call} (havoids : o.Avoids)
    (hok : Guarded (step o) (Unshared o) (initial thp) calls)
    (hrun : run (step o) (initial thp) calls = some s) : Reached none s := by
  have hinit : Reached none (initial thp) := by
    rintro h ⟨cls, hcls⟩ _
    contradiction
  have hinv := @run_invariant _ _ (step o) (Unshared o)
    (fun s => (Agree s ∧ Pointed (fun _ _ _ => True) s) ∧ Reached none s) ?_ _ s calls
    ⟨⟨agree_initial thp, pointed_initial thp⟩, hinit⟩ hok hrun
  · exact hinv.2
  · rintro s c s' ⟨⟨ha, hp⟩, hr⟩ hc hstep
    obtain ⟨_, r, hruns, hperforms⟩ := step_cases (hp.placed ha) hstep
    have hchange := hperforms.change (havoids.careful s) ha hp
    exact ⟨⟨hchange.agree, hchange.pointed (fun _ _ _ _ _ _ _ => trivial) hp
      fun _ _ _ _ _ _ _ _ _ _ _ => trivial⟩,
      hchange.reached hr (hc (r, s') (outcome_eq_some.mpr hruns))⟩

end Runs

end Oxidalloc.Records
