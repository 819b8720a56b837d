import Oxidalloc.Buffers
import Oxidalloc.ContentsKept
import Oxidalloc.TagTest

/-!
The allocator is a heap of independent buffers. The buffers are the requested bytes behind
the pointers of the user; headers, caches, slabs, tags and the map of the big blocks are not
visible in them. Every call of a run changes the buffer that it names and no other, a new
buffer comes at an address where none was, `calloc` delivers zeros, and `realloc` keeps the
common part. The runs are those in which no block behind the header of a slab becomes big,
and no block of size zero is resized to a size that is kept as it is.
-/
namespace Oxidalloc.Records

open Hashmap Programs Interleaving ByteMemory Buffers Function

variable {o : Oracle} {s s₁ s' : State} {c : Call} {n r header size cls cap ptr q i : ℕ}
  {p : Handle}

def bytes (mem : Memory) (ptr size : ℕ) : List UInt8 := (List.range size).map fun i => mem (ptr + i)

/-- What the user sees of the state. -/
def contents (s : State) : Heap ℕ UInt8 := fun ptr =>
  (s.live ptr).map fun p => bytes s.mem ptr p.size

/-- The call of the user, as a call of the heap. Alignment does not matter there. -/
def Call.onBuffers : Call → Buffers.Call ℕ UInt8
  | .malloc size => .make size
  | .calloc nmemb size => .makeZero (nmemb * size)
  | .realloc ptr size => if ptr = 0 then .make size else .resize ptr size
  | .posixMemalign _ size => .make size
  | .free ptr => .drop ptr
  | .usableSize ptr => .look ptr
  | .write ptr i value => .put ptr i value

section Bytes

variable {mem mem' : Memory}

@[simp] theorem length_bytes : (bytes mem ptr size).length = size := by simp [bytes]

theorem getElem?_bytes (h : i < size) : (bytes mem ptr size)[i]? = some (mem (ptr + i)) := by
  simp [bytes, h]

theorem bytes_congr (h : ∀ i < size, mem' (ptr + i) = mem (ptr + i)) :
    bytes mem' ptr size = bytes mem ptr size := by
  apply List.map_congr_left
  intro i hi
  exact h i (List.mem_range.mp hi)

theorem bytes_zero (h : ∀ i < size, mem (ptr + i) = 0) :
    bytes mem ptr size = List.replicate size 0 := by
  apply List.eq_replicate_iff.mpr
  refine ⟨length_bytes, ?_⟩
  intro b hb
  obtain ⟨i, hi, rfl⟩ := List.mem_map.mp hb
  exact h i (List.mem_range.mp hi)

theorem bytes_set {value : UInt8} :
    bytes (update mem (ptr + i) value) ptr size = (bytes mem ptr size).set i value := by
  apply List.ext_getElem?
  intro j
  by_cases hj : j < size
  · rw [getElem?_bytes hj]
    by_cases hij : i = j
    · subst hij
      rw [update_self, List.getElem?_set_self (by simpa using hj)]
    · rw [update_of_ne (by omega), List.getElem?_set_ne hij, getElem?_bytes hj]
  · rw [List.getElem?_eq_none (by simpa using hj), List.getElem?_eq_none (by simpa using hj)]

theorem holds_contents {value : UInt8} : Holds (contents s) ptr i value ↔
    s.mem (ptr + i) = value ∧ ∃ p, s.live ptr = some p ∧ i < p.size := by
  constructor
  · rintro ⟨b, hb, hvalue⟩
    obtain ⟨p, hlive, rfl⟩ := Option.map_eq_some_iff.mp hb
    have hi : i < p.size := by
      by_contra hge
      rw [List.getElem?_eq_none (by simpa using hge)] at hvalue
      contradiction
    rw [getElem?_bytes hi, Option.some.injEq] at hvalue
    exact ⟨hvalue, p, hlive, hi⟩
  · rintro ⟨rfl, p, hlive, hi⟩
    exact ⟨_, by rw [contents, hlive]; rfl, getElem?_bytes hi⟩

theorem contents_bound (s : State) (ptr raw size : ℕ) :
    contents (s.bound ptr raw size) =
      update (contents s) ptr (some (bytes s.mem ptr size)) := by
  funext q
  by_cases hq : q = ptr
  · subst hq
    rw [contents, State.bound_live_self, update_self]
    rfl
  · rw [contents, State.bound_live_of_ne _ _ _ hq, update_of_ne hq]
    rfl

theorem contents_unbound (s : State) (ptr : ℕ) :
    contents (s.unbound ptr) = update (contents s) ptr none := by
  funext q
  by_cases hq : q = ptr
  · subst hq
    rw [contents, State.unbound_live_self, update_self]
    rfl
  · rw [contents, State.unbound_live_of_ne _ hq, update_of_ne hq]
    rfl

theorem contents_eq_none (h : s.live ptr = none) : contents s ptr = none := by
  rw [contents, h]
  rfl

theorem contents_eq_some (h : s.live ptr = some p) :
    contents s ptr = some (bytes s.mem ptr p.size) := by
  rw [contents, h]
  rfl

end Bytes

section Frame

variable [Layout]

/-- The requested bytes are bytes of the block. -/
theorem Sane.in_block (hs : Sane Fits s) (hlive : s.live ptr = some p) (hi : i < p.size) :
    InBlock s (p.raw - headerSize) (ptr + i) := by
  obtain ⟨header, hraw, _, cls, cap, hget, hrec, hfit⟩ := hs.pointed.header ptr p hlive
  have hptr := hs.pointed.distance ptr p hlive
  rw [hraw, Nat.add_sub_cancel]
  exact ⟨cls, cap, hget, hrec, by omega, by omega⟩

/-- So are the bytes behind them, up to the usable size. -/
theorem Sane.usable_in_block (hs : Sane Fits s) (hlive : s.live ptr = some p)
    (hi : i < s.usable p) : InBlock s (p.raw - headerSize) (ptr + i) := by
  obtain ⟨header, hraw, _, cls, cap, hget, hrec, hfit⟩ := hs.pointed.header ptr p hlive
  have hptr := hs.pointed.distance ptr p hlive
  rw [State.usable, hraw, Nat.add_sub_cancel, hget, Option.map_some, Option.getD_some,
    capacity_of_recorded hrec] at hi
  rw [hraw, Nat.add_sub_cancel]
  exact ⟨cls, cap, hget, hrec, by omega, by omega⟩

/-- A change that no live block notices is not seen by the user. -/
theorem Sane.contents_same (hs : Sane Fits s) (hlive : s'.live = s.live)
    (hmem : ∀ h x, InBlock s h x → s'.mem x = s.mem x) : contents s' = contents s := by
  funext q
  cases hq : s.live q with
  | none => rw [contents_eq_none hq, contents_eq_none (hlive ▸ hq)]
  | some p =>
    rw [contents_eq_some hq, contents_eq_some (hlive ▸ hq)]
    congr 1
    apply bytes_congr
    intro i hi
    exact hmem _ _ (hs.in_block hq hi)

/-- A change in the block of one pointer, which is given up. -/
theorem Sane.contents_unbind (hs : Sane Fits s) (hptr : s.live ptr = some p)
    (hlive : s'.live = s.live) (hspares : Spares (some (p.raw - headerSize)) s s') :
    contents (s'.unbound ptr) = update (contents s) ptr none := by
  rw [contents_unbound]
  funext q
  by_cases hne : q = ptr
  · rw [hne, update_self, update_self]
  · rw [update_of_ne hne, update_of_ne hne]
    cases hq : s.live q with
    | none => rw [contents_eq_none hq, contents_eq_none (hlive ▸ hq)]
    | some p' =>
      rw [contents_eq_some hq, contents_eq_some (hlive ▸ hq)]
      congr 1
      apply bytes_congr
      intro i hi
      exact hspares _ _ (hs.in_block hq hi) (hs.pointed.other hptr hq hne)

end Frame

section Make

variable [Layout]

/-- A pointer into a new block is none of a block that was there. -/
theorem Mallocs.pointer_ne {h' : ℕ} (h : Mallocs o s n (header + headerSize) s₁)
    (hexact : o.Exact) (ha : Agree s) (ho : Owned s) (offset : ℕ) (hlo : header + headerSize ≤ r)
    (hhi : r ≤ header + headerSize + newCapacity n) (hget : s.headers.get h' = some ⟨cls, true⟩)
    (hrec : Recorded s h' cls cap) (hoffset : offset ≤ cap) : r ≠ h' + headerSize + offset := by
  intro heq
  have havoids := ho.avoidsFrom hexact
  have hhead := headerSize_cases
  obtain ⟨header', heq', _, hfiled⟩ := h.filed ha havoids (pointer_ne_zero header)
  obtain rfl := Nat.add_right_cancel heq'
  have hfresh := h.fresh havoids
  have hne : header ≠ h' := by
    rintro rfl
    exact hfresh ⟨cls, hget⟩
  -- the byte in front of the pointer would belong to both blocks
  have hin : InBlock s h' (r - 1) := ⟨cls, cap, hget, hrec, by omega, by omega⟩
  have hin₁ : InBlock s₁ h' (r - 1) :=
    hin.keep (hfiled.only.undisturbed_fresh hfresh none) (by simp)
  have ho₁ := h.owned hexact ha ho
  obtain ⟨hplace, hkind⟩ := ho₁.place hfiled.get hfiled.recorded
  have hapart := hin₁.apart ho₁ hplace hkind hne
  omega

theorem Sane.live_none (hs : Sane Fits s) (hexact : o.Exact)
    (h : Mallocs o s n (header + headerSize) s₁) (hlo : header + headerSize ≤ r)
    (hhi : r ≤ header + headerSize + newCapacity n) : s.live r = none := by
  cases hr : s.live r with
  | none => rfl
  | some p =>
    obtain ⟨h', hraw, _, cls, cap, hget, hrec, hfit⟩ := hs.pointed.header r p hr
    have hptr := hs.pointed.distance r p hr
    have hne := h.pointer_ne hexact hs.agree hs.owned p.offset hlo hhi hget hrec (by omega)
    omega

/-- A new block, whatever is written into it, is one more buffer. -/
theorem Sane.contents_made {s₂ : State} {raw : ℕ} (hs : Sane Fits s) (hexact : o.Exact)
    (h : Mallocs o s n (header + headerSize) s₁) (hlive : s₂.live = s₁.live)
    (hmem : ∀ x, x < header ∨ header + headerSize + newCapacity n ≤ x → s₂.mem x = s₁.mem x) :
    contents (s₂.bound ptr raw size) =
      update (contents s) ptr (some (bytes s₂.mem ptr size)) := by
  rw [contents_bound, hs.contents_same (hlive.trans h.live_eq.1)]
  intro h' x hin
  exact h.filled hexact hs.agree hs.owned hmem hin

theorem Sane.contents_refused (hs : Sane Fits s) (h : Mallocs o s n 0 s') :
    contents s' = contents s :=
  hs.contents_same h.live_eq.1 (fun _ _ _ => by rw [h.refused_mem])

/-- `malloc`, and `realloc` of the null pointer. -/
theorem Sane.make_step {u : Unit} (hs : Sane Fits s) (hexact : o.Exact)
    (h : Mallocs o s n r s₁) (hadopt : Runs (adopt r r n) s₁ u s') :
    Step 0 0 (contents s) (.make n) r (contents s') := by
  by_cases hr : r = 0
  · subst hr
    rw [runs_adopt_zero hadopt, hs.contents_refused h]
    exact .refused n
  · obtain ⟨header, rfl⟩ := h.exists_header hr
    rw [runs_adopt hr hadopt, hs.contents_made hexact h rfl (fun _ _ => rfl)]
    refine .made n _ _ hr (contents_eq_none ?_) length_bytes
    exact hs.live_none hexact h (Nat.le_refl _) (by omega)

theorem runs_clear {u : Unit} (h : Mallocs o s n (header + headerSize) s₁) (hexact : o.Exact)
    (ha : Agree s) (ho : Owned s) (hclear : Runs (clear o (header + headerSize) n) s₁ u s') :
    s' = s₁.zero (header + headerSize) n := by
  obtain ⟨header', heq, _, hfiled⟩ := h.filed ha (ho.avoidsFrom hexact) (pointer_ne_zero header)
  obtain rfl := Nat.add_right_cancel heq
  rw [clear, CInterface.clear, runs_bind] at hclear
  obtain ⟨actual, s₂, hactual, hclear⟩ := hclear
  obtain ⟨cls, live, hget, hrec, rfl⟩ := runs_recorded (o := o) hactual
  dsimp only at hget hrec
  rw [Nat.add_sub_cancel] at hget hrec
  obtain ⟨rfl, _⟩ := Header.mk.inj (Option.some.inj (hget.symm.trans hfiled.get))
  have hcap : actual = newCapacity n := hrec.unique hfiled.recorded
  have hle := le_newCapacity n
  rw [runs_modify.mp hclear, hcap, Nat.min_eq_right hle, State.zero]

/-- `calloc` clears all bytes that were asked for. -/
theorem Sane.calloc_step {nmemb : ℕ} (hs : Sane Fits s) (hexact : o.Exact)
    (h : Runs (perform o (.calloc nmemb size)) s r s') :
    Step 0 0 (contents s) (.makeZero (nmemb * size)) r (contents s') := by
  rw [perform, runs_bind] at h
  obtain ⟨raw, s₂, hcalloc, h⟩ := h
  rw [runs_bind] at h
  obtain ⟨u, s₃, hadopt, h⟩ := h
  obtain ⟨rfl, rfl⟩ := runs_pure.mp h
  unfold calloc CInterface.calloc at hcalloc
  split at hcalloc
  · obtain ⟨rfl, rfl⟩ := runs_pure.mp hcalloc
    rw [runs_adopt_zero hadopt]
    exact .refusedZero _
  · dsimp only at hcalloc
    have hsize : nmemb * size ≤ if nmemb * size = 0 then 1 else nmemb * size := by
      split <;> omega
    generalize (if nmemb * size = 0 then 1 else nmemb * size) = n at hcalloc hsize
    rw [runs_bind] at hcalloc
    obtain ⟨raw, s₁, hmalloc, hcalloc⟩ := hcalloc
    have hmallocs := runs_malloc hmalloc
    split at hcalloc
    · rename_i hzero
      obtain ⟨rfl, rfl⟩ := runs_pure.mp hcalloc
      have hrefused : Mallocs o s n 0 s₂ := hzero ▸ hmallocs
      rw [runs_adopt_zero hadopt, hs.contents_refused hrefused]
      exact .refusedZero _
    · rename_i hne
      rw [runs_bind] at hcalloc
      obtain ⟨u', s₂', hclear, hcalloc⟩ := hcalloc
      obtain ⟨rfl, rfl⟩ := runs_pure.mp hcalloc
      obtain ⟨header, rfl⟩ := hmallocs.exists_header hne
      have hle := le_newCapacity n
      have hcleared := runs_clear hmallocs hexact hs.agree hs.owned hclear
      subst hcleared
      have hlive : (s₁.zero (header + headerSize) n).live = s₁.live := rfl
      rw [runs_adopt hne hadopt, hs.contents_made hexact hmallocs hlive
        (fun x hx => fill_of_not_mem (by omega)), bytes_zero]
      · refine .madeZero _ _ hne (contents_eq_none ?_)
        exact hs.live_none hexact hmallocs (Nat.le_refl _) (by omega)
      · intro i hi
        exact if_pos (by omega)

theorem Sane.posixMemalign_step {alignment : ℕ} (hs : Sane Fits s) (hexact : o.Exact)
    (h : Runs (perform o (.posixMemalign alignment size)) s r s') :
    Step 0 0 (contents s) (.make size) r (contents s') := by
  rw [perform, runs_bind] at h
  obtain ⟨found, s₂, hposix, h⟩ := h
  rcases runs_posixMemalign hposix with
    ⟨⟨_, rfl⟩, hnone⟩ | ⟨header, aligned, s₁, rfl, hle, hmallocs, hfit, rfl⟩
  · obtain ⟨rfl, rfl⟩ := runs_pure.mp h
    rcases hnone with rfl | ⟨m, hmallocs⟩
    · exact .refused size
    · rw [hs.contents_refused hmallocs]
      exact .refused size
  · dsimp only at h
    rw [runs_bind] at h
    obtain ⟨u, s₃, hadopt, h⟩ := h
    obtain ⟨rfl, rfl⟩ := runs_pure.mp h
    have hroom := le_newCapacity (size + alignment + 16)
    have hlive : (s₁.tagged r (header + headerSize)).live = s₁.live := rfl
    rw [runs_adopt (by omega) hadopt, hs.contents_made hexact hmallocs hlive]
    · refine .made size r _ (by omega) (contents_eq_none ?_) length_bytes
      exact hs.live_none hexact hmallocs (by omega) (by omega)
    · intro x hx
      show store (store s₁.mem (r - 16) 8 oxAlignTag) (r - 8) 8 (header + headerSize) x = s₁.mem x
      rw [store_of_not_mem (by omega), store_of_not_mem (by omega)]

end Make

section Change

variable [Layout]

theorem InBlock.ne {header' x y : ℕ} (h : InBlock s header x) (h' : InBlock s header' y)
    (ho : Owned s) (hne : header' ≠ header) : x ≠ y := by
  rintro rfl
  obtain ⟨cls, cap, hget, hrec, hlo, hhi⟩ := h'
  obtain ⟨hplace, hkind⟩ := ho.place hget hrec
  have hapart := h.apart ho hplace hkind hne
  omega

theorem Sane.free_step (hs : Sane Fits s) (hptr : s.live ptr = some p)
    (h : Runs (perform o (.free ptr)) s r s') :
    Step 0 0 (contents s) (.drop ptr) r (contents s') := by
  rw [perform, runs_bind] at h
  obtain ⟨_, s₁, hfree, h⟩ := h
  rw [runs_bind] at h
  obtain ⟨_, s₂, hforget, h⟩ := h
  obtain ⟨rfl, rfl⟩ := runs_pure.mp h
  obtain ⟨hne, hraw⟩ := hs.pointed.place hs.agree hptr
  have hfrees := runs_free hne hptr hraw hfree
  rw [runs_modify.mp hforget]
  show Step 0 0 (contents s) (.drop ptr) 0 (contents (s₁.unbound ptr))
  rw [hs.contents_unbind hptr hfrees.live_eq.1 (hfrees.spares hs.agree hs.owned)]
  exact .dropped ptr _ (contents_eq_some hptr)

/-- What is written behind one pointer is behind no other. -/
theorem Sane.write_step {value : UInt8} (hs : Sane Fits s) (hptr : s.live ptr = some p)
    (hi : i < p.size ∨ i < s.usable p) (h : Runs (perform o (.write ptr i value)) s r s') :
    Step 0 0 (contents s) (.put ptr i value) r (contents s') := by
  rw [perform, runs_modify_bind] at h
  obtain ⟨rfl, rfl⟩ := runs_pure.mp h
  generalize hs' : { s with mem := update s.mem (ptr + i) value } = s'
  have hlive' : s'.live = s.live := by rw [← hs']
  have hmem : s'.mem = update s.mem (ptr + i) value := by rw [← hs']
  have hin : InBlock s (p.raw - headerSize) (ptr + i) :=
    hi.elim (hs.in_block hptr) (hs.usable_in_block hptr)
  have hnew : contents s' =
      update (contents s) ptr (some ((bytes s.mem ptr p.size).set i value)) := by
    funext q
    by_cases hq : q = ptr
    · subst hq
      rw [update_self, ← bytes_set, ← hmem, contents_eq_some (hlive' ▸ hptr)]
    · rw [update_of_ne hq]
      cases hlive : s.live q with
      | none => rw [contents_eq_none hlive, contents_eq_none (hlive' ▸ hlive)]
      | some p' =>
        rw [contents_eq_some hlive, contents_eq_some (hlive' ▸ hlive), hmem]
        congr 1
        apply bytes_congr
        intro j hj
        have hother := hs.pointed.other hptr hlive hq
        have hne := (hs.in_block hlive hj).ne hin hs.owned
          (fun heq => hother (congrArg some heq))
        exact update_of_ne hne _ _
  rw [hnew]
  by_cases hsize : i < p.size
  · exact .put ptr i value _ (contents_eq_some hptr) (by simpa using hsize)
  · have hbeyond : (bytes s.mem ptr p.size).length ≤ i := by
      rw [length_bytes]
      omega
    rw [List.set_eq_of_length_le hbeyond, ← contents_eq_some hptr, update_eq_self]
    exact .beyond ptr i value _ (contents_eq_some hptr) hbeyond

/-- After `realloc` all other blocks have their bytes. -/
theorem Reallocs.spares (hexact : o.Exact) (ha : Agree s) (ho : Owned s)
    (hget : s.headers.get (p.raw - headerSize) = some ⟨cls, true⟩)
    (hrec : Recorded s (p.raw - headerSize) cls cap)
    (h : Reallocs o s ptr n p cls cap r s') (hr : r ≠ 0) :
    Spares (some (p.raw - headerSize)) s s' := by
  cases h with
  | same _ _ _ => exact spares_of_eq rfl _
  | inPlace _ _ hsolo _ hresize => exact (hresize.bytes ho hget hrec hsolo).1
  | moved _ _ _ hmoves =>
    intro h x hin hne
    exact (hmoves.bytes hexact ha ho ⟨cls, hget⟩ hr).1 h x hin
      (fun heq => hne (congrArg some heq.symm))
  | movedAfter _ s₀ _ _ hsolo _ hresize hmoves =>
    obtain ⟨ha₀, ho₀⟩ := hresize.failed hexact ha ho hget hrec hsolo
    obtain ⟨hheaders, hbig⟩ := hresize.failed_records
    have hlive₀ : Live s₀ (p.raw - headerSize) := ⟨cls, by rw [hheaders, hget]⟩
    intro h x hin hne
    rw [(hmoves.bytes hexact ha₀ ho₀ hlive₀ hr).1 h x (hin.of_records hheaders hbig)
      (fun heq => hne (congrArg some heq.symm)), hresize.mem_of_false]

/-- The pointer that `realloc` returns is the old one, or none that the user has. -/
theorem Sane.realloc_pointer (hs : Sane Fits s) (hexact : o.Exact)
    (hget : s.headers.get (p.raw - headerSize) = some ⟨cls, true⟩)
    (hrec : Recorded s (p.raw - headerSize) cls cap)
    (h : Reallocs o s ptr n p cls cap r s') (hr : r ≠ 0) : r = ptr ∨ s.live r = none := by
  cases h with
  | same _ _ _ => exact Or.inl rfl
  | inPlace _ _ _ _ _ => exact Or.inl rfl
  | moved _ _ _ hmoves =>
    obtain ⟨s₁, hmallocs, ⟨rfl, _⟩ | ⟨_, _⟩⟩ := hmoves
    · exact absurd rfl hr
    · obtain ⟨header, rfl⟩ := hmallocs.exists_header hr
      exact Or.inr (hs.live_none hexact hmallocs (Nat.le_refl _) (by omega))
  | movedAfter _ s₀ _ _ hsolo _ hresize hmoves =>
    obtain ⟨ha₀, ho₀⟩ := hresize.failed hexact hs.agree hs.owned hget hrec hsolo
    obtain ⟨hheaders, hbig⟩ := hresize.failed_records
    have hs₀ : Sane Fits s₀ :=
      ⟨ha₀, hs.pointed.keep hresize.live_eq.1 (undisturbed_of_eq hheaders hbig none), ho₀⟩
    obtain ⟨s₁, hmallocs, ⟨rfl, _⟩ | ⟨_, _⟩⟩ := hmoves
    · exact absurd rfl hr
    · obtain ⟨header, rfl⟩ := hmallocs.exists_header hr
      rw [← hresize.live_eq.1]
      exact Or.inr (hs₀.live_none hexact hmallocs (Nat.le_refl _) (by omega))

theorem Sane.contents_rebind (hs : Sane Fits s) (hptr : s.live ptr = some p)
    (hlive : s₁.live = s.live) (hspares : Spares (some (p.raw - headerSize)) s s₁) :
    contents ((s₁.unbound ptr).bound r r n) =
      update (update (contents s) ptr none) r (some (bytes s₁.mem r n)) := by
  rw [contents_bound, hs.contents_unbind hptr hlive hspares]
  rfl

/-- A buffer that is resized, where it is or elsewhere. -/
theorem Sane.resize_step (hs : Sane Fits s) (hexact : o.Exact) (hptr : s.live ptr = some p)
    (hget : s.headers.get (p.raw - headerSize) = some ⟨cls, true⟩)
    (hrec : Recorded s (p.raw - headerSize) cls cap)
    (h : Reallocs o s ptr n p cls cap r s₁) (hr : r ≠ 0) :
    Step 0 0 (contents s) (.resize ptr n) r (contents ((s₁.unbound ptr).bound r r n)) := by
  have hspares := h.spares hexact hs.agree hs.owned hget hrec hr
  rw [hs.contents_rebind hptr h.live_eq.1 hspares]
  refine .resized ptr n r _ _ hr (contents_eq_some hptr) ?_ length_bytes ?_
  · by_cases hq : r = ptr
    · rw [hq, update_self]
    · rw [update_of_ne hq]
      exact contents_eq_none ((hs.realloc_pointer hexact hget hrec h hr).resolve_left hq)
  · intro i hi hn
    rw [length_bytes] at hi
    obtain ⟨header, hraw, _, cls', cap', hget', hrec', hfit⟩ := hs.pointed.header ptr p hptr
    have hhead := headerSize_cases
    obtain rfl : p.raw - headerSize = header := by omega
    obtain rfl : cls' = cls := congrArg Header.cls (Option.some.inj (hget'.symm.trans hget))
    obtain rfl := hrec.unique hrec'
    rw [getElem?_bytes hn, getElem?_bytes hi]
    exact congrArg some (h.contents hexact hs.agree hs.owned (hs.pointed.distance ptr p hptr)
      (by omega) hget hrec hfit hr i hi hn)

/-- `realloc` to the size zero, which frees and allocates. -/
theorem Sane.renew_step {s₂ : State} (hs : Sane Fits s) (hexact : o.Exact)
    (hptr : s.live ptr = some p) (hfree : Frees s (p.raw - headerSize) s₁) (h : Mallocs o s₁ 1 r s₂)
    (hr : r ≠ 0) :
    Step 0 0 (contents s) (.resize ptr 0) r (contents ((s₂.unbound ptr).bound r r 0)) := by
  have hended := hfree.ended hs.agree
  have ho₁ := hfree.owned hs.agree hs.owned
  have hspares : Spares (some (p.raw - headerSize)) s s₂ := by
    refine (hfree.spares hs.agree hs.owned).trans hended.only.undisturbed ?_
    intro h' x hin _
    exact h.spares hexact ho₁ h' x hin (by simp)
  rw [hs.contents_rebind hptr (h.live_eq.1.trans hfree.live_eq.1) hspares]
  refine .resized ptr 0 r _ _ hr (contents_eq_some hptr) ?_ length_bytes (fun i _ hi => by omega)
  by_cases hq : r = ptr
  · rw [hq, update_self]
  · rw [update_of_ne hq]
    cases hlive : s.live r with
    | none => exact contents_eq_none hlive
    | some p' =>
      -- the block of the pointer has outlived the free
      obtain ⟨h', hraw, hl, cls, cap, hget, hrec, hfit⟩ := hs.pointed.header r p' hlive
      have hother := hs.pointed.other hptr hlive hq
      rw [hraw, Nat.add_sub_cancel] at hother
      obtain ⟨hheaders, hentry⟩ := hended.only.undisturbed h' hl hother
      have hrec₁ : Recorded s₁ h' cls cap := by rwa [Recorded, hentry]
      obtain ⟨header, rfl⟩ := h.exists_header hr
      have hdistance := hs.pointed.distance _ p' hlive
      exact absurd (by omega) (h.pointer_ne hexact hended.agree ho₁ p'.offset (Nat.le_refl _)
        (by omega) (by rw [hheaders, hget]) hrec₁ (by omega))

theorem Sane.realloc_step (hs : Sane Fits s) (hexact : o.Exact) (hptr : s.live ptr = some p)
    (h : Runs (perform o (.realloc ptr n)) s r s') :
    Step 0 0 (contents s) (.resize ptr n) r (contents s') := by
  rw [perform, runs_bind] at h
  obtain ⟨raw, s₁, hrealloc, h⟩ := h
  obtain ⟨hne, hraw⟩ := hs.pointed.place hs.agree hptr
  obtain ⟨rfl, hcases⟩ := runs_rebind h
  rw [realloc, CInterface.realloc, if_neg hne] at hrealloc
  split at hrealloc
  · rename_i hlarge
    obtain ⟨rfl, rfl⟩ := runs_pure.mp hrealloc
    rcases hcases with ⟨_, hn, rfl⟩ | ⟨_, hzero, _⟩ | ⟨hr, _⟩
    · exact .refusedResize ptr n hn
    · omega
    · exact absurd rfl hr
  · rw [runs_pure_bind, if_neg (by decide)] at hrealloc
    split at hrealloc
    · rename_i hzero
      subst hzero
      rw [runs_bind] at hrealloc
      obtain ⟨_, s₀, hfree, hmalloc⟩ := hrealloc
      have hfrees := runs_free hne hptr hraw hfree
      have hmallocs := runs_malloc hmalloc
      rcases hcases with ⟨_, hn, _⟩ | ⟨rfl, _, rfl⟩ | ⟨hr, rfl⟩
      · exact absurd rfl hn
      · have hspares : Spares (some (p.raw - headerSize)) s s₁ := by
          refine (hfrees.spares hs.agree hs.owned).trans
            (hfrees.ended hs.agree).only.undisturbed ?_
          exact spares_of_eq hmallocs.refused_mem _
        rw [hs.contents_unbind hptr (hmallocs.live_eq.1.trans hfrees.live_eq.1) hspares]
        exact .emptied ptr _ (contents_eq_some hptr)
      · exact hs.renew_step hexact hptr hfrees hmallocs hr
    · rename_i hn
      obtain ⟨cls, cap, hget, hrec, hreallocs⟩ := runs_reallocBlock hne hptr hraw hrealloc
      rcases hcases with ⟨rfl, _, rfl⟩ | ⟨_, hzero, _⟩ | ⟨hr, rfl⟩
      · have hmem := hreallocs.refused_mem hne
        rw [hs.contents_same hreallocs.live_eq.1 (fun _ _ _ => by rw [hmem])]
        exact .refusedResize ptr n hn
      · exact absurd hzero hn
      · exact hs.resize_step hexact hptr hget hrec hreallocs hr

theorem Sane.realloc_null_step (hs : Sane Fits s) (hexact : o.Exact)
    (h : Runs (perform o (.realloc 0 n)) s r s') :
    Step 0 0 (contents s) (.make n) r (contents s') := by
  rw [perform, runs_bind] at h
  obtain ⟨raw, s₁, hrealloc, h⟩ := h
  rw [realloc, CInterface.realloc, if_pos rfl] at hrealloc
  have hmallocs := runs_malloc hrealloc
  have hnull : s₁.unbound 0 = s₁ := unbound_zero (by rw [hmallocs.live_eq.1, hs.pointed.null])
  obtain ⟨rfl, hcases⟩ := runs_rebind h
  rw [hnull] at hcases
  have hadopt : Runs (adopt r r n) s₁ () s' := by
    unfold adopt
    rcases hcases with ⟨rfl, _, rfl⟩ | ⟨rfl, _, rfl⟩ | ⟨hr, rfl⟩
    · rw [if_pos rfl]
      exact runs_pure.mpr ⟨rfl, rfl⟩
    · rw [if_pos rfl]
      exact runs_pure.mpr ⟨rfl, rfl⟩
    · rw [if_neg hr]
      exact runs_modify.mpr rfl
  exact hs.make_step hexact hmallocs hadopt

end Change

section Runs

variable [Layout]

/-- Every call that the user may make is a call of the heap of buffers. -/
theorem Sane.perform_step (hs : Sane Fits s) (hexact : o.Exact) (hok : c.Ok s)
    (h : Runs (perform o c) s r s') : Step 0 0 (contents s) c.onBuffers r (contents s') := by
  cases c with
  | malloc size =>
    rw [perform, runs_bind] at h
    obtain ⟨raw, s₁, hmalloc, h⟩ := h
    rw [runs_bind] at h
    obtain ⟨u, s₂, hadopt, h⟩ := h
    obtain ⟨rfl, rfl⟩ := runs_pure.mp h
    exact hs.make_step hexact (runs_malloc hmalloc) hadopt
  | calloc nmemb size => exact hs.calloc_step hexact h
  | realloc ptr size =>
    by_cases hptr : ptr = 0
    · subst hptr
      exact hs.realloc_null_step hexact h
    · obtain ⟨p, hlive⟩ := Option.isSome_iff_exists.mp (hok.resolve_left hptr)
      rw [Call.onBuffers, if_neg hptr]
      exact hs.realloc_step hexact hlive h
  | posixMemalign alignment size => exact hs.posixMemalign_step hexact h
  | free ptr =>
    obtain ⟨p, hlive⟩ := Option.isSome_iff_exists.mp hok
    exact hs.free_step hlive h
  | usableSize ptr =>
    rw [runs_mallocUsableSize h]
    exact .looked ptr r
  | write ptr i value =>
    obtain ⟨p, hlive, hi⟩ := written_cases hok
    exact hs.write_step hlive hi h

/-- The calls of a run, as calls of the heap, with the answers that they got. -/
def history (o : Oracle) (s : State) : List Call → List (Buffers.Call ℕ UInt8 × ℕ)
  | [] => []
  | c :: rest =>
    match outcome (perform o c) s with
    | none => []
    | some (r, s') => (c.onBuffers, r) :: history o s' rest

theorem history_cons {rest : List Call} (h : Runs (perform o c) s r s') :
    history o s (c :: rest) = (c.onBuffers, r) :: history o s' rest := by
  rw [history, outcome_eq_some.mpr h]

theorem mem_history {calls : List Call} {e : Buffers.Call ℕ UInt8 × ℕ}
    (h : e ∈ history o s calls) : ∃ c ∈ calls, e.1 = c.onBuffers := by
  induction calls generalizing s with
  | nil => contradiction
  | cons c rest ih =>
    cases houtcome : outcome (perform o c) s with
    | none =>
      rw [history, houtcome] at h
      contradiction
    | some result =>
      rw [history, houtcome] at h
      rcases List.mem_cons.mp h with rfl | h
      · exact ⟨c, List.mem_cons_self .., rfl⟩
      · obtain ⟨c', hmem, heq⟩ := ih h
        exact ⟨c', List.mem_cons_of_mem _ hmem, heq⟩

theorem Sane.trace {calls : List Call} (hs : Sane Fits s) (hexact : o.Exact)
    (hok : Guarded (step o) Call.Regular s calls) (hrun : run (step o) s calls = some s') :
    Trace 0 0 (contents s) (history o s calls) (contents s') := by
  induction calls generalizing s with
  | nil =>
    obtain rfl : s = s' := Option.some.inj hrun
    exact .nil _
  | cons c rest ih =>
    obtain ⟨s₁, hstep, hrest⟩ := run_cons hrun
    obtain ⟨hcall, r, hperform, hperforms⟩ := step_cases hs.placed hstep
    have hs₁ := hs.performs hexact holdsOnFiled_fits hok.1.1
      (holdsOnKept_fits hs.agree hok.1.2) hperforms
    rw [history_cons hperform]
    exact .cons (hs.perform_step hexact hcall hperform) (ih hs₁ (hok.2 s₁ hstep) hrest)

/-- The allocator refines the heap of buffers. -/
theorem allocator_refines_buffers (answer : ℕ → ℕ) (pages : ℕ → Bool) (thp : Bool)
    (calls : List Call) (s : State)
    (hok : Guarded (step (exactly answer pages)) Call.Regular (initial thp) calls)
    (hrun : run (step (exactly answer pages)) (initial thp) calls = some s) :
    Trace 0 0 (fun _ => none) (history (exactly answer pages) (initial thp) calls)
      (contents s) :=
  (sane_initial thp).trace (exactly_exact answer pages) hok hrun

end Runs

/-- A block of 64 bytes is written and moves. -/
theorem allocator_refines_buffers_moved :
    ∃ s, run (step (listed [0, 0, 1048576, 1, 1, 1, 0, 0, 2097152])) (initial false)
        [.malloc 64, .write 1048624 3 7, .realloc 1048624 200, .usableSize 2097200] = some s ∧
      Trace 0 0 (fun _ => none)
        [(.make 64, 1048624), (.put 1048624 3 7, 0), (.resize 1048624 200, 2097200),
          (.look 2097200, 256)] (contents s) := by
  have hresult : (run (step (listed [0, 0, 1048576, 1, 1, 1, 0, 0, 2097152])) (initial false)
      [.malloc 64, .write 1048624 3 7, .realloc 1048624 200, .usableSize 2097200]).isSome = true ∧
      history (listed [0, 0, 1048576, 1, 1, 1, 0, 0, 2097152]) (initial false)
        [.malloc 64, .write 1048624 3 7, .realloc 1048624 200, .usableSize 2097200] =
      [(.make 64, 1048624), (.put 1048624 3 7, 0), (.resize 1048624 200, 2097200),
          (.look 2097200, 256)] := by
    decide +kernel
  obtain ⟨s, hrun⟩ := Option.isSome_iff_exists.mp hresult.1
  refine ⟨s, hrun, ?_⟩
  rw [← hresult.2]
  exact allocator_refines_buffers _ _ false _ s (by decide +kernel) hrun

/-- A byte that the user wrote stays until it is written again, or its block is freed or
resized, whatever else is called. -/
theorem written_byte_stays [Layout] (answer : ℕ → ℕ) (pages : ℕ → Bool) (thp : Bool)
    (first rest : List Call) (s : State) (ptr i : ℕ) (value : UInt8)
    (hok : Guarded (step (exactly answer pages)) Call.Regular (initial thp)
      (first ++ .write ptr i value :: rest))
    (hrun : run (step (exactly answer pages)) (initial thp)
      (first ++ .write ptr i value :: rest) = some s)
    (hsize : ∀ s₀ p, run (step (exactly answer pages)) (initial thp) first = some s₀ →
      s₀.live ptr = some p → i < p.size)
    (hspares : ∀ c ∈ rest, c.onBuffers.Spares ptr i) :
    s.mem (ptr + i) = value ∧ ∃ p, s.live ptr = some p ∧ i < p.size := by
  have hexact := exactly_exact answer pages
  rw [run_append] at hrun
  obtain ⟨s₀, hfirst, hrun⟩ := Option.bind_eq_some_iff.mp hrun
  obtain ⟨hok₀, hok⟩ := hok.append hfirst
  have hs₀ := run_regular hexact hok₀ hfirst
  obtain ⟨s₁, hstep, hrest⟩ := run_cons hrun
  obtain ⟨hcall, r, hperform, hperforms⟩ := step_cases hs₀.placed hstep
  have hs₁ := hs₀.performs hexact holdsOnFiled_fits hok.1.1
    (holdsOnKept_fits hs₀.agree hok.1.2) hperforms
  obtain ⟨p, hlive, _⟩ := written_cases hcall
  rw [perform, runs_modify_bind] at hperform
  obtain ⟨rfl, hs'⟩ := runs_pure.mp hperform
  have hwritten : Holds (contents s₁) ptr i value := by
    rw [hs', holds_contents]
    exact ⟨update_self .., p, hlive, hsize s₀ p hfirst hlive⟩
  -- from here on the byte is a cell of a buffer that no call touches
  refine holds_contents.mp (hwritten.trace (hs₁.trace hexact (hok.2 _ hstep) hrest) ?_)
  intro e he
  obtain ⟨c, hc, heq⟩ := mem_history he
  rw [heq]
  exact hspares c hc

/-- A byte of a block of 64 bytes, through the life of another block. -/
theorem written_byte_stays_other :
    ∃ s, run (step (listed [0, 0, 1048576, 1, 1, 1, 0, 0, 2097152])) (initial false)
        ([.malloc 64] ++ .write 1048624 3 7 :: [.calloc 10 20, .free 2097200]) = some s ∧
      s.mem 1048627 = 7 := by
  have hrun : (run (step (listed [0, 0, 1048576, 1, 1, 1, 0, 0, 2097152])) (initial false)
      ([.malloc 64] ++ .write 1048624 3 7 :: [.calloc 10 20, .free 2097200])).isSome = true := by
    decide +kernel
  obtain ⟨s, hrun⟩ := Option.isSome_iff_exists.mp hrun
  refine ⟨s, hrun, ?_⟩
  have hlive : (run (step (listed [0, 0, 1048576, 1, 1, 1, 0, 0, 2097152])) (initial false)
      [.malloc 64]).map (fun s₀ => s₀.live 1048624) = some (some ⟨1048624, 0, 64⟩) := by
    decide +kernel
  have hstays := written_byte_stays _ _ false [.malloc 64] [.calloc 10 20, .free 2097200] s
    1048624 3 7 (by decide +kernel) hrun
    (fun s₀ p hfirst hp => ?_) (by simp [Call.onBuffers, Buffers.Call.Spares])
  · exact hstays.1
  · obtain ⟨s₁, hrun₁, hlive₁⟩ := Option.map_eq_some_iff.mp hlive
    rw [Option.some.inj (hfirst.symm.trans hrun₁), hlive₁] at hp
    rw [← Option.some.inj hp]
    decide

end Oxidalloc.Records
