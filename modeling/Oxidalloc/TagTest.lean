import Oxidalloc.MemoryFrame

/-!
The test that leads from a pointer to its block. `posix_memalign` leaves a tag and the
pointer of the block in front of an aligned pointer. In front of a plain pointer is the
header. The word that the test reads there is the link of a list, and in the hardened layout
the class with the stamp behind it. As long as no block reaches into another one, the link is
an address or null and the class is one of the table, and the test finds the tag exactly
where it was left.
-/
namespace Oxidalloc.Records

open Hashmap Programs Interleaving ByteMemory Function

variable {o : Oracle} {s s₁ s' : State} {c : Call}
  {n r header size cls cap ptr q x : ℕ} {p : Handle}
variable {e : Option ℕ} {answer : ℕ → ℕ} {pages : ℕ → Bool} {mem mem' : Memory}

/-- The pointer whose header `free`, `realloc` and `malloc_usable_size` look at. -/
def tagTest (o : Oracle) (mem : Memory) (ptr : ℕ) : ℕ :=
  if load mem (ptr - tagSize) 8 = oxAlignTag ∧ o.ours (load mem (ptr - offsetSize) 8) = true then
    load mem (ptr - offsetSize) 8
  else ptr

/-- The bytes in front of a pointer: no tag, or the tag and the block. -/
def Marked (mem : Memory) (ptr : ℕ) (p : Handle) : Prop :=
  (p.offset = 0 ∧ load mem (ptr - 16) 8 ≠ oxAlignTag) ∨
    (16 ≤ p.offset ∧ load mem (ptr - 16) 8 = oxAlignTag ∧ load mem (ptr - 8) 8 = p.raw)

/-- The payload, or the page of a block of size zero, holds what the user may write. -/
def Roomy (v : Option Header) (entry : Option ℕ) (p : Handle) : Prop :=
  ∃ cls cap, v = some ⟨cls, true⟩ ∧
    ((cls = 100 ∧ entry = some cap) ∨ (cls < 34 ∧ cap = payload cls)) ∧
    (p.offset + p.size ≤ cap ∨ (cls = 100 ∧ p.offset = 0 ∧ p.size ≤ 3840))

theorem holdsOnFiled_roomy : HoldsOnFiled Roomy := by
  intro s h m p hget hrec hfit
  exact ⟨newClass m, newCapacity m, hget, hrec, Or.inl hfit⟩

theorem Marked.congr (h : Marked mem ptr p) (hptr : 16 ≤ ptr)
    (heq : ∀ x, ptr - 16 ≤ x → x < ptr → mem' x = mem x) : Marked mem' ptr p := by
  have hword : load mem' (ptr - 16) 8 = load mem (ptr - 16) 8 :=
    load_congr fun x hlo hhi => heq x hlo (by omega)
  have hsecond : load mem' (ptr - 8) 8 = load mem (ptr - 8) 8 :=
    load_congr fun x hlo hhi => heq x (by omega) (by omega)
  rwa [Marked, hword, hsecond]

section Room

variable [Layout]

theorem holdsOnKept_roomy (ha : Agree s) (c : Call) : HoldsOnKept Roomy s c := by
  rintro ptr n p cls cap rfl hlive hplain hget hrec hfit
  refine ⟨cls, cap, hget, hrec, ?_⟩
  show 0 + n ≤ cap ∨ (cls = 100 ∧ 0 = 0 ∧ n ≤ 3840)
  rw [Nat.zero_add]
  rcases hfit with ⟨_, hle⟩ | hlt
  · exact Or.inl hle
  · by_cases hsmall : cap = 0 ∧ n ≤ 3840
    · refine Or.inr ⟨?_, rfl, hsmall.2⟩
      rcases hrec with ⟨hcls, _⟩ | ⟨hcls, hpayload⟩
      · exact hcls
      · have hpos := (payload_bounds hcls).2
        omega
    · exact Or.inl (le_of_extent_lt ha hrec hlt (by omega))

/-- The bytes in front of a pointer are bytes of its block. -/
theorem Sane.mark_in_block (hs : Sane Roomy s) (hlive : s.live ptr = some p) (hlo : ptr - 16 ≤ x)
    (hhi : x < ptr) : InBlock s (p.raw - headerSize) x := by
  obtain ⟨header, hraw, _, cls, cap, hget, hrec, hroom⟩ := hs.pointed.header ptr p hlive
  have hptr := hs.pointed.distance ptr p hlive
  have hhead := headerSize_cases
  rw [hraw, Nat.add_sub_cancel]
  exact ⟨cls, cap, hget, hrec, by omega, by omega⟩

/-- A pointer whose block keeps its bytes keeps its mark. -/
theorem Sane.marked (hs : Sane Roomy s) (hlive : s.live ptr = some p) (hmark : Marked s.mem ptr p)
    (h : ∀ x, InBlock s (p.raw - headerSize) x → mem' x = s.mem x) : Marked mem' ptr p := by
  obtain ⟨header, hraw, _⟩ := hs.pointed.header ptr p hlive
  have hptr := hs.pointed.distance ptr p hlive
  have hhead := headerSize_cases
  exact hmark.congr (by omega) fun x hlo hhi => h x (hs.mark_in_block hlive hlo hhi)

end Room

/-- The pages with an owner are pages of the reservations. -/
def Inside (pages : ℕ → Bool) (s : State) : Prop := ∀ q, s.owner q ≠ none → pages q = true

theorem Inside.of_owner (h : Inside pages s) (howner : s'.owner = s.owner) : Inside pages s' := by
  intro q hq
  exact h q (by rwa [howner] at hq)

theorem Inside.release (h : Inside pages s) (addr len : ℕ) : Inside pages (s.release addr len) := by
  intro q hq
  refine h q fun hnone => hq ?_
  show (if Covers addr len q then none else s.owner q) = none
  rw [hnone, ite_self]

theorem Inside.claim {addr len k : ℕ} {owner : Owner} (h : Inside pages s)
    (hadmits : (exactly answer pages).admits (s.later k) addr len = true) :
    Inside pages (s.claim addr len owner) := by
  intro q hq
  by_cases hin : Covers addr len q
  · exact ((exactly_admits hadmits).2 q hin).1
  · refine h q fun hnone => hq ?_
    show (if Covers addr len q then some owner else s.owner q) = none
    rw [if_neg hin, hnone]

theorem Extends.inside {old new : ℕ} (h : Extends (exactly answer pages) s header old new s')
    (hin : Inside pages s) : Inside pages s' := by
  cases h with
  | same _ => exact hin
  | claimed _ _ hadmits => exact hin.claim hadmits

section Claims

variable [Layout]

theorem Mallocs.inside (h : Mallocs (exactly answer pages) s n r s') (hin : Inside pages s) :
    Inside pages s' := by
  obtain ⟨s₁, hprepares, hgives⟩ := h
  have hin₁ : Inside pages s₁ := hin.of_owner (hprepares.owner_eq (exactly_exact answer pages))
  cases hgives with
  | nothing _ => exact hin₁
  | cached _ _ _ _ _ _ _ => exact hin₁
  | carved _ _ _ _ _ _ _ _ => exact hin₁
  | opened _ _ _ _ _ _ _ _ _ hadmits => exact hin₁.claim hadmits
  | big _ _ _ _ _ _ _ _ _ hadmits _ _ => exact hin₁.claim hadmits

theorem Frees.inside (h : Frees s header s') (hin : Inside pages s) : Inside pages s' := by
  cases h with
  | slab _ _ _ => exact hin
  | big _ _ _ _ => exact hin.release _ _

theorem Resizes.inside {b : Bool} (h : Resizes (exactly answer pages) s header cls cap n b s')
    (hin : Inside pages s) : Inside pages s' := by
  cases h with
  | same _ _ hre => exact hin.of_owner hre.frame.1
  | kept _ => exact hin
  | refusedShrink _ _ _ => exact hin
  | shrunk _ _ _ _ hre =>
    exact (hin.release (freedStart header n) (freedLen cls cap n)).of_owner hre.frame.1
  | refused _ _ => exact hin
  | grown _ s₁ _ _ hext hre => exact (hext.inside hin).of_owner hre.frame.1
  | stuck _ s₁ _ hext _ => exact hext.inside hin
  | undone _ s₁ _ hext _ => exact (hext.inside hin).release _ _

theorem Moves.inside {old : ℕ} (h : Moves (exactly answer pages) s ptr n old p r s')
    (hin : Inside pages s) : Inside pages s' := by
  obtain ⟨s₁, hmallocs, ⟨_, rfl⟩ | ⟨_, hfrees⟩⟩ := h
  · exact hmallocs.inside hin
  · exact hfrees.inside (hmallocs.inside hin)

theorem Reallocs.inside (h : Reallocs (exactly answer pages) s ptr n p cls cap r s')
    (hin : Inside pages s) : Inside pages s' := by
  cases h with
  | same _ _ _ => exact hin
  | inPlace _ _ _ _ hresize => exact hresize.inside hin
  | moved _ _ _ hmoves => exact hmoves.inside hin
  | movedAfter _ _ _ _ _ _ hresize hmoves => exact hmoves.inside (hresize.inside hin)

theorem Performs.inside (h : Performs (exactly answer pages) s c r s') (hin : Inside pages s) :
    Inside pages s' := by
  cases h with
  | written _ _ _ => exact hin
  | measured _ _ => exact hin
  | denied _ => exact hin
  | refused _ _ _ hmallocs => exact hmallocs.inside hin
  | made _ _ _ _ _ hmallocs _ _ _ => exact hmallocs.inside hin
  | aligned _ _ _ _ _ hmallocs _ _ => exact hmallocs.inside hin
  | freed _ _ _ _ hfrees => exact hfrees.inside hin
  | dropped _ _ _ _ _ hfrees hmallocs => exact hmallocs.inside (hfrees.inside hin)
  | renewed _ _ _ _ _ _ hfrees hmallocs => exact hmallocs.inside (hfrees.inside hin)
  | resized _ _ _ _ _ _ _ _ _ _ _ _ hreallocs => exact hreallocs.inside hin
  | unresized _ _ _ _ _ _ _ _ _ _ hreallocs => exact hreallocs.inside hin

/-- A live block lies in a reservation. -/
theorem Sane.ours {Q : Option Header → Option ℕ → Handle → Prop} (hs : Sane Q s)
    (hin : Inside pages s)
    (hget : s.headers.get header ≠ none) : pages ((header + headerSize) / 4096) = true := by
  obtain ⟨v, hv⟩ := Option.ne_none_iff_exists'.mp hget
  obtain ⟨cap, hrec⟩ := hs.agree.recorded hv
  obtain ⟨hplace, hkind⟩ := hs.owned.place hv hrec
  refine hin _ ?_
  by_cases hzero : cap = 0
  · -- a block without payload is big, and its header is at the start of a page
    have hbig : v.cls = 100 := by
      refine hkind.resolve_right fun hslab => ?_
      have hpos := (payload_bounds hslab.1).2
      omega
    have halign := (hplace.solo (Or.inl hbig)).1
    have hhead := headerSize_cases
    have hpage : (header + headerSize) / 4096 = header / 4096 := by omega
    rw [hpage]
    exact hplace.page_ne_none
  · have hfirst : header + headerSize < header + headerSize + cap := by omega
    rcases hplace.byte hkind (by omega) hfirst with
      hown | ⟨_, _, _, _, _, hown⟩
    · simp only [hown, ne_eq, reduceCtorEq, not_false_eq_true]
    · simp only [hown, ne_eq, reduceCtorEq, not_false_eq_true]

end Claims

/-- All pointers have their marks. -/
def Marks (s : State) : Prop := ∀ ptr p, s.live ptr = some p → Marked s.mem ptr p

theorem Marks.of_mem (hm : Marks s) (hlive : s'.live = s.live) (hmem : s'.mem = s.mem) :
    Marks s' := by
  intro q p hq
  rw [hmem]
  exact hm q p (hlive ▸ hq)

/-- One more pointer. -/
theorem Marks.bind {raw : ℕ} (hm : ∀ q p, q ≠ ptr → s.live q = some p → Marked s.mem q p)
    (hnew : Marked s.mem ptr ⟨raw, ptr - raw, size⟩) : Marks (s.bound ptr raw size) := by
  intro q p hq
  by_cases hne : q = ptr
  · rw [hne, State.bound_live_self] at hq
    rw [hne, ← Option.some.inj hq]
    exact hnew
  · rw [State.bound_live_of_ne _ _ _ hne] at hq
    exact hm q p hne hq

/-- One pointer less. -/
theorem unbound_live {q : ℕ} (h : (s.unbound ptr).live q = some p) :
    q ≠ ptr ∧ s.live q = some p := by
  by_cases hne : q = ptr
  · rw [hne, State.unbound_live_self] at h
    exact absurd h nofun
  · rw [State.unbound_live_of_ne _ hne] at h
    exact ⟨hne, h⟩

section Words

variable [Layout]

theorem setClass_self (mem : Memory) (header cls : ℕ) :
    setClass mem header cls (header + classOffset) = UInt8.ofNat cls := by
  rw [setClass, store, if_pos (by omega), Nat.sub_self, Nat.pow_zero, Nat.div_one]

/-- In the hardened layout the word that the test reads starts with the class. -/
theorem untagged_of_class (hhard : Layout.hardened = true) (hcls : cls < 34 ∨ cls = 100)
    (hbyte : mem (header + classOffset) = UInt8.ofNat cls) :
    load mem (header + headerSize - 16) 8 ≠ oxAlignTag := by
  intro htag
  have haddr : header + headerSize - 16 = header + classOffset := by
    rw [headerSize, classOffset, if_pos hhard, if_pos hhard]
    omega
  have hdigit := @load_digit mem (header + classOffset) 8 0 (by decide)
  rw [← haddr, htag, haddr, Nat.add_zero, hbyte] at hdigit
  have hvalue := congrArg UInt8.toNat hdigit
  have hclass : cls % 2 ^ 8 = cls := Nat.mod_eq_of_lt (by omega)
  have hfirst : oxAlignTag / 256 ^ 0 % 2 ^ 8 = 79 := by decide
  rw [UInt8.toNat_ofNat', UInt8.toNat_ofNat', hclass, hfirst] at hvalue
  omega

/-- A header whose class is one of the table and whose link is an address has no tag. -/
theorem untagged_writeHeader {next lifeTime : ℕ} (hcls : cls < 34 ∨ cls = 100)
    (hnext : Layout.hardened = true ∨ next < 2 ^ 48) :
    load (writeHeader mem header next cls lifeTime) (header + headerSize - 16) 8 ≠ oxAlignTag := by
  by_cases hhard : Layout.hardened = true
  · refine untagged_of_class hhard hcls ?_
    have hafter : lifeTimeOffset = 20 ∧ classOffset = 16 := ⟨if_pos hhard, if_pos hhard⟩
    rw [writeHeader, store_of_not_mem (by omega), setClass_self]
  · have hlink := hnext.resolve_left hhard
    have hoffsets : headerSize = 16 ∧ nextOffset = 0 ∧ classOffset = 8 ∧ lifeTimeOffset = 12 :=
      ⟨if_neg hhard, if_neg hhard, if_neg hhard, if_neg hhard⟩
    have hword : load (writeHeader mem header next cls lifeTime) (header + headerSize - 16) 8 =
        next := by
      rw [show header + headerSize - 16 = header + nextOffset by omega]
      refine Eq.trans (load_congr fun x hlo hhi => ?_)
        (@load_store mem (header + nextOffset) 8 next (Nat.lt_trans hlink (by decide)))
      rw [writeHeader, store_of_not_mem (by omega), setClass_elsewhere (by omega)]
    rw [hword]
    rintro rfl
    exact absurd hlink (by decide)

/-- A new class keeps a header without a tag. -/
theorem untagged_setClass (hcls : cls < 34 ∨ cls = 100)
    (h : load mem (header + headerSize - 16) 8 ≠ oxAlignTag) :
    load (setClass mem header cls) (header + headerSize - 16) 8 ≠ oxAlignTag := by
  by_cases hhard : Layout.hardened = true
  · exact untagged_of_class hhard hcls (setClass_self mem header cls)
  · have hoffsets : headerSize = 16 ∧ classOffset = 8 := ⟨if_neg hhard, if_neg hhard⟩
    rwa [load_congr fun x hlo hhi => setClass_elsewhere (by omega)]

end Words

section Marking

variable [Layout]

/-- A link leads to a header in a reservation, or is null. -/
theorem Owned.link_lt {next : ℕ} (ho : Owned s) (hin : Inside pages s)
    (hpages : ∀ q, pages q = true → q < 2 ^ 36) (h : s.Links cls next) :
    Layout.hardened = true ∨ next < 2 ^ 48 := by
  refine h.imp_right fun hlink => ?_
  rcases hlink with rfl | hcached | hslot
  · decide
  · have hpage := ho.header_page (by rw [hcached]; exact Option.some_ne_none _)
    have hlt := hpages _ (hin _ hpage)
    omega
  · have hlt := hpages _ (hin _ (ho.slots _ hslot).2.page_ne_none)
    dsimp only at hlt
    omega

/-- In front of a new block is no tag. -/
theorem Gives.untagged (hpages : ∀ q, pages q = true → q < 2 ^ 36) (ho : Owned s)
    (hin : Inside pages s) (h : Gives (exactly answer pages) s size (header + headerSize) s') :
    load s'.mem (header + headerSize - 16) 8 ≠ oxAlignTag := by
  generalize hr : header + headerSize = r at h
  cases h with
  | nothing n => exact absurd hr (pointer_ne_zero header)
  | cached n h cls next lifeTime hcls hnext _ =>
    exact untagged_writeHeader (Or.inl (matchSizeClass_some hcls).1)
      (ho.link_lt hin hpages hnext)
  | carved n h cls next lifeTime hcls hnext _ _ =>
    exact untagged_writeHeader (Or.inl (matchSizeClass_some hcls).1)
      (ho.link_lt hin hpages hnext)
  | opened k n hint cls next lifeTime hcls hnext _ hadmits =>
    have hlt := (matchSizeClass_some hcls).1
    obtain ⟨halign, hfree⟩ := (exactly_exact answer pages).free hadmits
    have hin' : Inside pages (s.slab cls hint) := hin.claim hadmits
    exact untagged_writeHeader (Or.inl hlt)
      ((ho.slab hlt halign hfree).link_lt hin' hpages hnext)
  | big k n hint _ mem _ _ _ _ _ _ _ =>
    exact untagged_writeHeader (Or.inr rfl) (Or.inr (by decide))

theorem Mallocs.untagged (hpages : ∀ q, pages q = true → q < 2 ^ 36) (ho : Owned s)
    (hin : Inside pages s) (h : Mallocs (exactly answer pages) s size (header + headerSize) s') :
    load s'.mem (header + headerSize - 16) 8 ≠ oxAlignTag := by
  have hexact := exactly_exact answer pages
  obtain ⟨s₁, hprepares, hgives⟩ := h
  exact hgives.untagged hpages (hprepares.owned hexact ho)
    (hin.of_owner (hprepares.owner_eq hexact))

/-- The pointers of blocks that keep their bytes keep their marks. -/
theorem Marks.spared (hm : Marks s) (hs : Sane Roomy s) (h : Spares e s s')
    (hlive : s.live q = some p)
    (hne : e ≠ some (p.raw - headerSize)) : Marked s'.mem q p :=
  hs.marked hlive (hm q p hlive) fun x hin => h _ x hin hne

/-- Different pointers lead to different blocks. -/
theorem Pointed.other {Q : Option Header → Option ℕ → Handle → Prop} {p' : Handle}
    (hp : Pointed Q s)
    (hlive : s.live ptr = some p) (hlive' : s.live q = some p') (hne : q ≠ ptr) :
    some (p.raw - headerSize) ≠ some (p'.raw - headerSize) := by
  intro heq
  obtain ⟨h, hraw, _⟩ := hp.past hlive
  obtain ⟨h', hraw', _⟩ := hp.past hlive'
  have hsub := Option.some.inj heq
  exact hne (hp.inj q ptr p' p hlive' hlive (by omega))

/-- The end of a block. -/
theorem Marks.freed (hm : Marks s) (hs : Sane Roomy s) (hlive : s.live ptr = some p)
    (h : Frees s (p.raw - headerSize) s') : Marks (s'.unbound ptr) := by
  intro q p' hq
  obtain ⟨hne, hq⟩ := unbound_live hq
  rw [h.live_eq.1] at hq
  exact hm.spared hs (h.spares hs.agree hs.owned) hq (hs.pointed.other hlive hq hne)

theorem Mallocs.refused_mem (h : Mallocs o s size 0 s') : s'.mem = s.mem := by
  obtain ⟨s₁, hprepares, hgives⟩ := h
  obtain ⟨k, rfl⟩ := hgives.eq_later
  exact hprepares.mem_eq

/-- A call that makes a block has one more pointer, marked as plain. -/
theorem Marks.made {zeroed : ℕ} (hm : Marks s) (hs : Sane Roomy s)
    (hpages : ∀ q, pages q = true → q < 2 ^ 36) (hin : Inside pages s)
    (h : Mallocs (exactly answer pages) s n (header + headerSize) s₁)
    (hzeroed : zeroed ≤ newCapacity n) :
    Marks ((s₁.zero (header + headerSize) zeroed).bound (header + headerSize)
      (header + headerSize) size) := by
  refine Marks.bind (fun q p _ hq => ?_) ?_
  · have hold : s.live q = some p := by
      rw [← h.live_eq.1]
      exact hq
    refine hs.marked hold (hm q p hold) fun x hin => ?_
    exact h.filled (exactly_exact answer pages) hs.agree hs.owned
      (fun y hy => fill_of_not_mem (by omega)) hin
  · refine Or.inl ⟨Nat.sub_self _, ?_⟩
    have hhead := headerSize_cases
    have hword : load (s₁.zero (header + headerSize) zeroed).mem (header + headerSize - 16) 8 =
        load s₁.mem (header + headerSize - 16) 8 :=
      load_congr fun x _ hhi => fill_of_not_mem (by omega)
    rw [hword]
    exact h.untagged hpages hs.owned hin

/-- `posix_memalign` leaves its mark inside the new block. -/
theorem Marks.aligned (hm : Marks s) (hs : Sane Roomy s) (hexact : o.Exact)
    (h : Mallocs o s n (header + headerSize) s₁) (hptr : header + headerSize + 16 ≤ ptr)
    (hword : header + headerSize < 2 ^ 64)
    (hfit : ptr - (header + headerSize) + size ≤ newCapacity n) :
    Marks ((s₁.tagged ptr (header + headerSize)).bound ptr (header + headerSize) size) := by
  refine Marks.bind (fun q p _ hq => ?_) (Or.inr ⟨?_, ?_, ?_⟩)
  · have hold : s.live q = some p := by
      rw [← h.live_eq.1]
      exact hq
    refine hs.marked hold (hm q p hold) fun x hin => ?_
    refine h.filled hexact hs.agree hs.owned (fun y hy => ?_) hin
    show store (store s₁.mem (ptr - 16) 8 oxAlignTag) (ptr - 8) 8 (header + headerSize) y = s₁.mem y
    rw [store_of_not_mem (by omega), store_of_not_mem (by omega)]
  · dsimp only
    omega
  · show load (store (store _ (ptr - 16) 8 oxAlignTag) (ptr - 8) 8 _) (ptr - 16) 8 = oxAlignTag
    rw [load_congr fun x _ hhi => store_of_not_mem (by omega), load_store (by decide)]
  · exact load_store hword

/-- The user writes into the request or into the payload. -/
theorem written_cases {i : ℕ} {value : UInt8} (hok : Call.Ok s (.write ptr i value)) :
    ∃ p, s.live ptr = some p ∧ (i < p.size ∨ i < s.usable p) := by
  have hany : ((s.live ptr).any fun p => i < p.size ∨ i < s.usable p) = true := hok
  cases hlive : s.live ptr with
  | none =>
    rw [hlive] at hany
    exact absurd hany Bool.false_ne_true
  | some p =>
    rw [hlive, Option.any_some] at hany
    exact ⟨p, rfl, of_decide_eq_true hany⟩

/-- What the user writes is in no other block. -/
theorem Marks.written (hm : Marks s) (hs : Sane Roomy s) {i : ℕ} {value : UInt8}
    (hok : Call.Ok s (.write ptr i value)) :
    Marks { s with mem := update s.mem (ptr + i) value } := by
  obtain ⟨p, hlive, hsize⟩ := written_cases hok
  obtain ⟨header, hraw, _, cls, cap, hget, hrec, hroom⟩ := hs.pointed.header ptr p hlive
  have hptr := hs.pointed.distance ptr p hlive
  have hhead := headerSize_cases
  have husable : s.usable p = cap - p.offset := by
    rw [State.usable, hraw, Nat.add_sub_cancel, hget, Option.map_some, Option.getD_some,
      capacity_of_recorded hrec]
  have hwhere : p.offset + i < cap ∨ (cls = 100 ∧ p.offset = 0 ∧ i < 3840) := by omega
  intro q p' hq
  by_cases hne : q = ptr
  · subst hne
    refine (hm q p' hq).congr (by omega) fun x _ hhi => update_of_ne (by omega) _ _
  · refine hs.marked hq (hm q p' hq) fun x hin => update_of_ne ?_ _ _
    have hother : header ≠ p'.raw - headerSize := fun heq =>
      hs.pointed.other hlive hq hne (congrArg some (by omega))
    rcases hwhere with hfit | ⟨rfl, hplain, hsmall⟩
    · obtain ⟨hplace, hkind⟩ := hs.owned.place hget hrec
      have hapart := hin.apart hs.owned hplace hkind hother
      omega
    · -- the page of the header is of the block alone
      obtain ⟨halign, hown⟩ := hs.owned.big_pages hget
        ((hrec.resolve_right fun h => absurd h.1 (by decide)).2)
      rintro rfl
      refine hin.page_ne hs.owned hother (hown _ ?_)
      have hpos := pagesOf_pos (reserved_ne_zero s.thp cap)
      unfold Covers
      omega

theorem Moves.untagged {old : ℕ} (hpages : ∀ q, pages q = true → q < 2 ^ 36) (ha : Agree s)
    (ho : Owned s) (hin : Inside pages s) (hlive : Live s (p.raw - headerSize))
    (h : Moves (exactly answer pages) s ptr n old p r s') (hr : r ≠ 0) :
    load s'.mem (r - 16) 8 ≠ oxAlignTag := by
  obtain ⟨_, header, s₁, rfl, hmallocs, hcopied⟩ :=
    h.bytes (exactly_exact answer pages) ha ho hlive hr
  have hhead := headerSize_cases
  have hword : load s'.mem (header + headerSize - 16) 8 =
      load s₁.mem (header + headerSize - 16) 8 := by
    refine load_congr fun x hlo hhi => ?_
    rw [hcopied x (by omega) (by omega), copy_of_not_mem (by omega)]
  rw [hword]
  exact hmallocs.untagged hpages ho hin

theorem Resizes.untagged {b : Bool} (h : Resizes o s header cls cap n b s') (ho : Owned s)
    (hget : s.headers.get header = some ⟨cls, true⟩) (hrec : Recorded s header cls cap)
    (hsolo : cls = 100 ∨ slabBlocks cls = 1)
    (hword : load s.mem (header + headerSize - 16) 8 ≠ oxAlignTag) :
    load s'.mem (header + headerSize - 16) 8 ≠ oxAlignTag := by
  obtain ⟨_, mem, hmem, hsame⟩ := h.bytes ho hget hrec hsolo
  have hhead := headerSize_cases
  have hold : load mem (header + headerSize - 16) 8 = load s.mem (header + headerSize - 16) 8 :=
    load_congr fun x hlo hhi => hsame x (by omega) (by omega)
  rw [← hold] at hword
  rcases hmem with hmem | hmem
  · rwa [hmem]
  · rw [hmem]
    exact untagged_setClass (newClass_cases n) hword

/-- After `realloc` the other blocks have their bytes, and in front of the result is no tag. -/
theorem Reallocs.bytes (hpages : ∀ q, pages q = true → q < 2 ^ 36) (ha : Agree s) (ho : Owned s)
    (hin : Inside pages s) (hptr : ptr = p.raw + p.offset)
    (hraw : headerSize ≤ p.raw)
    (hword : p.offset = 0 → load s.mem (ptr - 16) 8 ≠ oxAlignTag)
    (hget : s.headers.get (p.raw - headerSize) = some ⟨cls, true⟩)
    (hrec : Recorded s (p.raw - headerSize) cls cap)
    (h : Reallocs (exactly answer pages) s ptr n p cls cap r s') (hr : r ≠ 0) :
    Spares (some (p.raw - headerSize)) s s' ∧ load s'.mem (r - 16) 8 ≠ oxAlignTag := by
  have hexact := exactly_exact answer pages
  cases h with
  | same hplain _ _ => exact ⟨spares_of_eq rfl _, hword hplain⟩
  | inPlace _ hplain hsolo _ hresize =>
    have haddr : r = p.raw - headerSize + headerSize := by omega
    refine ⟨(hresize.bytes ho hget hrec hsolo).1, ?_⟩
    rw [haddr] at hword ⊢
    exact hresize.untagged ho hget hrec hsolo (hword hplain)
  | moved _ _ _ hmoves =>
    refine ⟨fun h x hin hne => ?_, hmoves.untagged hpages ha ho hin ⟨cls, hget⟩ hr⟩
    exact (hmoves.bytes hexact ha ho ⟨cls, hget⟩ hr).1 h x hin fun heq =>
      hne (congrArg some heq.symm)
  | movedAfter _ s₀ _ _ hsolo _ hresize hmoves =>
    obtain ⟨ha₀, ho₀⟩ := hresize.failed hexact ha ho hget hrec hsolo
    obtain ⟨hheaders, hbig⟩ := hresize.failed_records
    have hlive₀ : Live s₀ (p.raw - headerSize) := ⟨cls, by rw [hheaders, hget]⟩
    refine ⟨fun h x hin hne => ?_,
      hmoves.untagged hpages ha₀ ho₀ (hresize.inside hin) hlive₀ hr⟩
    rw [(hmoves.bytes hexact ha₀ ho₀ hlive₀ hr).1 h x (hin.of_records hheaders hbig)
      fun heq => hne (congrArg some heq.symm), hresize.mem_of_false]

/-- A block that is resized where it is, or moved. -/
theorem Marks.resized (hm : Marks s) (hs : Sane Roomy s)
    (hpages : ∀ q, pages q = true → q < 2 ^ 36) (hin : Inside pages s)
    (hlive : s.live ptr = some p)
    (hget : s.headers.get (p.raw - headerSize) = some ⟨cls, true⟩)
    (hrec : Recorded s (p.raw - headerSize) cls cap)
    (h : Reallocs (exactly answer pages) s ptr n p cls cap r s₁) (hr : r ≠ 0) :
    Marks ((s₁.unbound ptr).bound r r n) := by
  obtain ⟨header, hraw, _⟩ := hs.pointed.header ptr p hlive
  have hptr := hs.pointed.distance ptr p hlive
  have hword : p.offset = 0 → load s.mem (ptr - 16) 8 ≠ oxAlignTag := by
    intro hplain
    rcases hm ptr p hlive with ⟨_, hword⟩ | ⟨hoffset, _⟩
    · exact hword
    · omega
  obtain ⟨hspares, hnew⟩ := h.bytes hpages hs.agree hs.owned hin hptr (by omega) hword hget
    hrec hr
  refine Marks.bind (fun q p' _ hq => ?_) (Or.inl ⟨Nat.sub_self r, hnew⟩)
  obtain ⟨hne, hq⟩ := unbound_live hq
  rw [h.live_eq.1] at hq
  exact hm.spared hs hspares hq (hs.pointed.other hlive hq hne)

theorem Reallocs.refused_mem (h : Reallocs o s ptr n p cls cap 0 s') (hptr : ptr ≠ 0) :
    s'.mem = s.mem := by
  generalize hzero : (0 : ℕ) = r at h
  cases h with
  | same _ _ _ => exact absurd hzero.symm hptr
  | inPlace _ _ _ _ _ => exact absurd hzero.symm hptr
  | moved _ _ _ hmoves =>
    obtain ⟨s₁, hmallocs, ⟨rfl, rfl⟩ | ⟨hne, _⟩⟩ := hmoves
    · exact hmallocs.refused_mem
    · exact absurd hzero.symm hne
  | movedAfter _ s₀ _ _ _ _ hresize hmoves =>
    obtain ⟨s₁, hmallocs, ⟨rfl, rfl⟩ | ⟨hne, _⟩⟩ := hmoves
    · exact hmallocs.refused_mem.trans hresize.mem_of_false
    · exact absurd hzero.symm hne

/-- `realloc` to the size zero: the block ends and another one is made. -/
theorem Marks.renewed {s₂ : State} (hm : Marks s) (hs : Sane Roomy s) (hexact : o.Exact)
    (hlive : s.live ptr = some p) (hfree : Frees s (p.raw - headerSize) s₁)
    (h : Mallocs o s₁ n r s₂) :
    ∀ q p', (s₂.unbound ptr).live q = some p' → Marked s₂.mem q p' := by
  intro q p' hq
  obtain ⟨hne, hq⟩ := unbound_live hq
  rw [h.live_eq.1, hfree.live_eq.1] at hq
  have hended := hfree.ended hs.agree
  have hother := hs.pointed.other hlive hq hne
  refine hs.marked hq (hm q p' hq) fun x hin => ?_
  have hin₁ : InBlock s₁ (p'.raw - headerSize) x := hin.keep hended.only.undisturbed hother
  rw [h.spares hexact (hfree.owned hs.agree hs.owned) _ x hin₁ nofun]
  exact hfree.spares hs.agree hs.owned _ x hin hother

end Marking

section Runs

variable [Layout]

/-- The states of a run, with the marks of the pointers. -/
structure Clear (pages : ℕ → Bool) (s : State) : Prop where
  sane : Sane Roomy s
  marks : Marks s
  inside : Inside pages s

theorem clear_initial (pages : ℕ → Bool) (thp : Bool) : Clear pages (initial thp) :=
  ⟨sane_initial thp, fun _ _ => nofun, fun _ h => absurd rfl h⟩

theorem Mallocs.address (hexact : (exactly answer pages).Exact)
    (hpages : ∀ q, pages q = true → q < 2 ^ 36)
    (ha : Agree s) (ho : Owned s) (hin : Inside pages s)
    (h : Mallocs (exactly answer pages) s n (header + headerSize) s') :
    header + headerSize < 2 ^ 64 := by
  obtain ⟨header', heq, _, hfiled⟩ := h.filed ha (ho.avoidsFrom hexact) (pointer_ne_zero _)
  obtain rfl := Nat.add_right_cancel heq
  have hpage := (h.owned hexact ha ho).header_page (by rw [hfiled.get]; exact Option.some_ne_none _)
  have hlt := hpages _ (h.inside hin _ hpage)
  have hhead := headerSize_cases
  omega

theorem Performs.marks (hpages : ∀ q, pages q = true → q < 2 ^ 36) (hc : Clear pages s)
    (hok : c.Ok s)
    (h : Performs (exactly answer pages) s c r s') : Marks s' := by
  have hexact := exactly_exact answer pages
  obtain ⟨hs, hm, hin⟩ := hc
  cases h with
  | written ptr i value => exact hm.written hs hok
  | measured _ _ => exact hm
  | denied _ => exact hm
  | refused _ _ _ hmallocs => exact hm.of_mem hmallocs.live_eq.1 hmallocs.refused_mem
  | made _ m header zeroed s₁ hmallocs _ hzeroed _ => exact hm.made hs hpages hin hmallocs hzeroed
  | aligned alignment size header ptr s₁ hmallocs hptr hfit =>
    exact hm.aligned hs hexact hmallocs hptr
      (hmallocs.address hexact hpages hs.agree hs.owned hin) hfit
  | freed ptr p s₁ hlive hfrees => exact hm.freed hs hlive hfrees
  | dropped ptr p s₁ s₂ hlive hfrees hmallocs => exact hm.renewed hs hexact hlive hfrees hmallocs
  | renewed ptr header p s₁ s₂ hlive hfrees hmallocs =>
    refine Marks.bind (fun q p' _ hq => hm.renewed hs hexact hlive hfrees hmallocs q p' hq) ?_
    have hword := hmallocs.untagged hpages (hfrees.owned hs.agree hs.owned) (hfrees.inside hin)
    exact Or.inl ⟨Nat.sub_self _, hword⟩
  | resized ptr n r p cls cap s₁ _ hlive hget hrec hr hreallocs =>
    exact hm.resized hs hpages hin hlive hget hrec hreallocs hr
  | unresized ptr n p cls cap s₁ _ hlive hget hrec hreallocs =>
    exact hm.of_mem hreallocs.live_eq.1 (hreallocs.refused_mem (hs.pointed.place hs.agree hlive).1)

theorem run_clear {thp : Bool} {calls : List Call} (hpages : ∀ q, pages q = true → q < 2 ^ 36)
    (hok : Guarded (step (exactly answer pages)) Call.Seated (initial thp) calls)
    (hrun : run (step (exactly answer pages)) (initial thp) calls = some s) : Clear pages s := by
  refine @run_invariant _ _ (step (exactly answer pages)) Call.Seated (Clear pages)
    (fun s c s' hc hseated h => ?_) _ s calls (clear_initial pages thp) hok hrun
  obtain ⟨hcall, r, _, hperforms⟩ := step_cases hc.sane.placed h
  exact ⟨hc.sane.performs (exactly_exact answer pages) holdsOnFiled_roomy hseated
    (holdsOnKept_roomy hc.sane.agree c) hperforms, hperforms.marks hpages hc hcall,
    hperforms.inside hc.inside⟩

/-- The tag test leads every live pointer to its block. -/
theorem tag_test_is_exact (answer : ℕ → ℕ) (pages : ℕ → Bool)
    (hpages : ∀ q, pages q = true → q < 2 ^ 36) (thp : Bool) (calls : List Call) (s : State)
    (hok : Guarded (step (exactly answer pages)) Call.Seated (initial thp) calls)
    (hrun : run (step (exactly answer pages)) (initial thp) calls = some s) (ptr : ℕ) (p : Handle)
    (hlive : s.live ptr = some p) :
    tagTest (exactly answer pages) s.mem ptr = p.raw ∧
      (p.offset = 0 → load s.mem (ptr - tagSize) 8 ≠ oxAlignTag) := by
  have hc := run_clear hpages hok hrun
  have hptr := hc.sane.pointed.distance ptr p hlive
  rcases hc.marks ptr p hlive with ⟨hplain, hword⟩ | ⟨hoffset, htag, hraw⟩
  · refine ⟨?_, fun _ => hword⟩
    rw [tagTest, if_neg fun h => hword h.1, hptr, hplain, Nat.add_zero]
  · obtain ⟨header, hheader, ⟨cls, hget⟩, _⟩ := hc.sane.pointed.header ptr p hlive
    have hours := hc.sane.ours hc.inside (by rw [hget]; exact Option.some_ne_none _)
    refine ⟨?_, fun hplain => absurd hoffset (by omega)⟩
    have htest : load s.mem (ptr - tagSize) 8 = oxAlignTag ∧
        (exactly answer pages).ours (load s.mem (ptr - offsetSize) 8) = true := by
      refine ⟨htag, ?_⟩
      show pages (load s.mem (ptr - 8) 8 / 4096) = true
      rw [hraw, hheader]
      exact hours
    rw [tagTest, if_pos htest]
    exact hraw

end Runs

/-- An aligned pointer in the two layouts, to the first block of a slab at 1048576. -/
theorem tag_test_is_exact_aligned :
    (∃ s, run (step (exactly (fun n => [0, 0, 1048576].getD n 1) fun q => decide (q < 2 ^ 36)))
        (initial false) [.posixMemalign 128 100] = some s ∧
      tagTest (exactly (fun n => [0, 0, 1048576].getD n 1) fun q => decide (q < 2 ^ 36))
        s.mem 1048704 = 1048624) ∧
    ∃ s, run (@step ⟨true⟩ (exactly (fun n => [0, 0, 1048576].getD n 1) fun q =>
        decide (q < 2 ^ 36))) (initial true) [.posixMemalign 128 100] = some s ∧
      tagTest (exactly (fun n => [0, 0, 1048576].getD n 1) fun q => decide (q < 2 ^ 36))
        s.mem 1048704 = 1048640 := by
  have hstandard : (run (step (exactly (fun n => [0, 0, 1048576].getD n 1) fun q =>
      decide (q < 2 ^ 36))) (initial false) [.posixMemalign 128 100]).map
        (fun s => s.live 1048704) = some (some ⟨1048624, 80, 100⟩) := by
    decide +kernel
  have hhardened : (run (@step ⟨true⟩ (exactly (fun n => [0, 0, 1048576].getD n 1) fun q =>
      decide (q < 2 ^ 36))) (initial true) [.posixMemalign 128 100]).map
        (fun s => s.live 1048704) = some (some ⟨1048640, 64, 100⟩) := by
    decide +kernel
  obtain ⟨s, hrun, hlive⟩ := Option.map_eq_some_iff.mp hstandard
  obtain ⟨s', hrun', hlive'⟩ := Option.map_eq_some_iff.mp hhardened
  refine ⟨⟨s, hrun, ?_⟩, s', hrun', ?_⟩
  · exact (tag_test_is_exact _ _ (fun q hq => of_decide_eq_true hq) false
      [.posixMemalign 128 100] s (by decide +kernel) hrun 1048704 ⟨1048624, 80, 100⟩ hlive).1
  · exact (@tag_test_is_exact ⟨true⟩ _ _ (fun q hq => of_decide_eq_true hq) true
      [.posixMemalign 128 100] s' ⟨trivial, fun _ _ => trivial⟩ hrun' 1048704
      ⟨1048640, 64, 100⟩ hlive').1

/-- A block of 4096 bytes that was grown to 4194288 bytes: the user writes the tag into the
header of the next block, inside the payload. -/
theorem grown_slab_block_forges_the_tag :
    ∃ s, run (step (listed [0, 0, 1048576, 1, 1, 1, 1, 1, 1, 5242880])) (initial false)
        [.malloc 4096, .realloc 1048624 4194288, .malloc 3000000,
          .write 1048624 4194256 0x4F, .write 1048624 4194257 0x58, .write 1048624 4194258 0x49,
          .write 1048624 4194259 0x44, .write 1048624 4194260 0x41, .write 1048624 4194261 0x4C,
          .write 1048624 4194262 0x47, .write 1048624 4194263 0x4E] = some s ∧
      s.live 5242896 = some ⟨5242896, 0, 3000000⟩ ∧
      load s.mem (5242896 - tagSize) 8 = oxAlignTag := by
  have hresult : (run (step (listed [0, 0, 1048576, 1, 1, 1, 1, 1, 1, 5242880])) (initial false)
      [.malloc 4096, .realloc 1048624 4194288, .malloc 3000000,
        .write 1048624 4194256 0x4F, .write 1048624 4194257 0x58, .write 1048624 4194258 0x49,
        .write 1048624 4194259 0x44, .write 1048624 4194260 0x41, .write 1048624 4194261 0x4C,
        .write 1048624 4194262 0x47, .write 1048624 4194263 0x4E]).map (fun s =>
          (s.live 5242896, load s.mem (5242896 - tagSize) 8)) =
      some (some ⟨5242896, 0, 3000000⟩, oxAlignTag) := by
    decide +kernel
  obtain ⟨s, hrun, hs⟩ := Option.map_eq_some_iff.mp hresult
  obtain ⟨hlive, htag⟩ := Prod.mk.inj hs
  exact ⟨s, hrun, hlive, htag⟩

end Oxidalloc.Records
