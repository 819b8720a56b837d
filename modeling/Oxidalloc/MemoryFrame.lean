import Oxidalloc.LiveBlocks

/-!
The bytes of the live blocks. What a call writes lies in pages that nobody had, in a block
that is given out or in the block that the call is about, so all other live blocks keep
their bytes, and a block that is resized where it is keeps those that it still has.
-/
namespace Oxidalloc.Records

open Hashmap Programs Interleaving ByteMemory

variable {o : Oracle} {s s₁ s' : State} {c : Call} {n r header size cls cap ptr x : ℕ}
  {e : Option ℕ}

theorem Prepares.mem_eq (h : Prepares o s s') : s'.mem = s.mem := by
  induction h with
  | refl => rfl
  | wait n _ ih => exact ih
  | undone hint len n owner _ _ ih => exact ih

theorem Extends.mem_eq {old new : ℕ} (h : Extends o s header old new s') : s'.mem = s.mem := by
  cases h <;> rfl

variable [Layout]

/-- The byte is one of a live block, the header included. -/
def InBlock (s : State) (header x : ℕ) : Prop :=
  ∃ cls cap, s.headers.get header = some ⟨cls, true⟩ ∧ Recorded s header cls cap ∧
    header ≤ x ∧ x < header + headerSize + cap

/-- All live blocks but one keep their bytes. -/
def Spares (except : Option ℕ) (s s' : State) : Prop :=
  ∀ header x, InBlock s header x → except ≠ some header → s'.mem x = s.mem x

section Blocks

theorem InBlock.live (h : InBlock s header x) : Live s header := by
  obtain ⟨cls, _, hget, _⟩ := h
  exact ⟨cls, hget⟩

theorem InBlock.apart {header' cls' cap' : ℕ} (h : InBlock s header x) (ho : Owned s)
    (hplace : Place s header' cls' (span s.thp cls' cap'))
    (hkind : cls' = 100 ∨ (cls' < 34 ∧ cap' = payload cls'))
    (hne : header' ≠ header) : x < header' ∨ header' + headerSize + cap' ≤ x := by
  obtain ⟨cls, cap, hget, hrec, hlo, hhi⟩ := h
  obtain ⟨hown, hown'⟩ := ho.place hget hrec
  have hapart := hown.apart hplace hown' hkind hne.symm hlo hhi
  omega

theorem InBlock.owner (h : InBlock s header x) (ho : Owned s) :
    s.owner (x / 4096) = some (.block header) ∨
      ∃ base cls, s.owner (x / 4096) = some (.slab base cls) := by
  obtain ⟨cls, cap, hget, hrec, hlo, hhi⟩ := h
  obtain ⟨hplace, hkind⟩ := ho.place hget hrec
  rcases hplace.byte hkind hlo hhi with hown | ⟨base, _, _, _, _, hown⟩
  · exact Or.inl hown
  · exact Or.inr ⟨base, cls, hown⟩

theorem InBlock.page_ne_none (h : InBlock s header x) (ho : Owned s) :
    s.owner (x / 4096) ≠ none := by
  rcases h.owner ho with hown | ⟨base, cls, hown⟩
  · simp only [hown, ne_eq, reduceCtorEq, not_false_eq_true]
  · simp only [hown, ne_eq, reduceCtorEq, not_false_eq_true]

theorem InBlock.page_ne (h : InBlock s header x) (ho : Owned s) {header' : ℕ}
    (hne : header' ≠ header) :
    s.owner (x / 4096) ≠ some (.block header') := by
  rcases h.owner ho with hown | ⟨base, cls, hown⟩
  · rw [hown]
    exact fun heq => hne (Owner.block.inj (Option.some.inj heq)).symm
  · simp only [hown, ne_eq, reduceCtorEq, not_false_eq_true, Option.some.injEq]

/-- A byte outside the pages of a range that was free. -/
theorem InBlock.outside {addr len k : ℕ} (h : InBlock s header x) (ho : Owned s)
    (hfree : addr % 4096 = 0 ∧ ∀ q, Covers addr len q → s.owner q = none)
    (hk : k ≤ pagesOf len * 4096) :
    x < addr ∨ addr + k ≤ x := by
  by_contra hin
  refine h.page_ne_none ho (hfree.2 _ (covers_byte hfree.1 ?_ ?_))
  · omega
  · omega

theorem InBlock.keep (h : InBlock s header x) (hund : Undisturbed e s s₁) (hne : e ≠ some header) :
    InBlock s₁ header x := by
  obtain ⟨hheaders, hentry⟩ := hund header h.live hne
  obtain ⟨cls, cap, hget, hrec, hlo, hhi⟩ := h
  refine ⟨cls, cap, by rw [hheaders, hget], ?_, hlo, hhi⟩
  rwa [Recorded, hentry]

theorem Spares.trans (h : Spares e s s₁) (hund : Undisturbed e s s₁) (h' : Spares e s₁ s') :
    Spares e s s' := by
  intro header x hin hne
  rw [h' header x (hin.keep hund hne) hne, h header x hin hne]

theorem spares_of_eq (h : s'.mem = s.mem) (e : Option ℕ) : Spares e s s' := by
  intro _ _ _ _
  rw [h]

end Blocks

section Give

theorem given_spares {next lifeTime k : ℕ} (ho : Owned s)
    (hplace : Place s header cls (payload cls + headerSize)) (hcls : cls < 34)
    (hdead : ¬ Live s header) :
    Spares none s ((s.given header cls next lifeTime).later k) := by
  intro h x hin _
  have hne : header ≠ h := by
    rintro rfl
    exact hdead hin.live
  rw [← span_slab s.thp hcls] at hplace
  exact writeHeader_elsewhere
    ((hin.apart ho hplace (Or.inr ⟨hcls, rfl⟩) hne).imp_right (by omega))

theorem Gives.spares (hexact : o.Exact) (ho : Owned s) (h : Gives o s size r s') :
    Spares none s s' := by
  cases h with
  | nothing n => exact spares_of_eq rfl none
  | cached n header cls next lifeTime hcls _ hget =>
    have hlt := (matchSizeClass_some hcls).1
    have hplace := ho.heads header _ hget
    rw [capacity_slab hlt, span_slab _ hlt] at hplace
    refine given_spares ho hplace hlt ?_
    rintro ⟨c, hlive⟩
    exact absurd (congrArg Header.live (Option.some.inj (hget.symm.trans hlive))) Bool.false_ne_true
  | carved n header cls next lifeTime hcls _ hget hslot =>
    refine given_spares ho (ho.slots _ hslot).2 (matchSizeClass_some hcls).1 ?_
    rintro ⟨c, hlive⟩
    exact absurd (hget.symm.trans hlive) nofun
  | opened k n hint cls next lifeTime hcls _ _ hadmits =>
    intro h x hin _
    have hfree := hexact.free hadmits
    have htotal := slabTotal_le (matchSizeClass_some hcls).1
    have hout := hin.outside ho hfree (Nat.le_refl _)
    have hmem : writeHeader (fill s.mem hint (pagesOf (slabTotal cls) * 4096) 0) (hint + 32) next
        cls lifeTime x = s.mem x := by
      rw [writeHeader_elsewhere (by unfold pagesOf at hout; omega), fill_of_not_mem hout]
    exact hmem
  | big k n hint mmapOk mem effects big hcls _ hadmits _ hmem =>
    intro h x hin _
    have hout := hin.outside ho (hexact.free hadmits) (Nat.le_refl _)
    have hpos := pagesOf_pos (reserved_ne_zero s.thp size)
    have hhead := headerSize_cases
    have hx : writeHeader mem hint 0 100 0 x = mem x := writeHeader_elsewhere (by omega)
    rcases hmem with ⟨rfl, _⟩ | ⟨rfl, _⟩
    · exact hx
    · exact hx.trans (fill_of_not_mem hout)

theorem Mallocs.spares (hexact : o.Exact) (ho : Owned s) (h : Mallocs o s size r s') :
    Spares none s s' := by
  obtain ⟨s₁, hprepares, hgives⟩ := h
  obtain ⟨hheaders, hbig, _⟩ := hprepares.records
  exact (spares_of_eq hprepares.mem_eq none).trans (undisturbed_of_eq hheaders hbig none)
    (hgives.spares hexact (hprepares.owned hexact ho))

end Give

section Free

theorem Frees.spares (h : Frees s header s') (ha : Agree s) (ho : Owned s) :
    Spares (some header) s s' := by
  intro h' x hin hne
  by_contra hx
  exact hin.page_ne ho (fun heq => hne (congrArg some heq)) ((h.own_pages ha ho).1 x hx)

end Free

section Resize

theorem Reclasses.mem_eq {newCls : ℕ} (h : Reclasses s header cls newCls size s') :
    s'.mem = setClass s.mem header newCls := by
  cases h <;> rfl

/-- A resize where the block is writes its class, and zeroes the pages that are given back. -/
theorem Resizes.mem_cases {b : Bool} (h : Resizes o s header cls cap n b s') :
    s'.mem = s.mem ∨ (b = true ∧ s'.mem = setClass s.mem header (newClass n)) ∨
      (b = true ∧ extent (newClass n) n < extent cls cap ∧ freedLen cls cap n % 4096 = 0 ∧
        s'.mem = setClass (fill s.mem (freedStart header n) (pagesOf (freedLen cls cap n) * 4096) 0)
          header (newClass n)) := by
  cases h with
  | same _ _ hre => exact Or.inr (Or.inl ⟨rfl, hre.mem_eq⟩)
  | kept _ => exact Or.inl rfl
  | refusedShrink _ _ _ => exact Or.inl rfl
  | shrunk _ _ hlt hlen hre => exact Or.inr (Or.inr ⟨rfl, hlt, hlen, hre.mem_eq⟩)
  | refused _ _ => exact Or.inl rfl
  | grown _ s₁ _ _ hext hre =>
    refine Or.inr (Or.inl ⟨rfl, hre.mem_eq.trans ?_⟩)
    rw [← hext.mem_eq]
    rfl
  | stuck _ s₁ _ hext _ => exact Or.inl hext.mem_eq
  | undone _ s₁ _ hext _ _ => exact Or.inl hext.mem_eq

theorem Resizes.mem_of_false (h : Resizes o s header cls cap n false s') : s'.mem = s.mem := by
  rcases h.mem_cases with hmem | ⟨hfalse, _⟩ | ⟨hfalse, _⟩
  · exact hmem
  · exact absurd hfalse Bool.false_ne_true
  · exact absurd hfalse Bool.false_ne_true

/-- The class in the header of one block is no byte of another one. -/
theorem InBlock.class_ne (h : InBlock s header x) (ho : Owned s) {header' cls' cap' : ℕ}
    (hget : s.headers.get header' = some ⟨cls', true⟩) (hrec : Recorded s header' cls' cap')
    (hne : header' ≠ header) : x ≠ header' + classOffset := by
  obtain ⟨hplace, hkind⟩ := ho.place hget hrec
  have hout := h.apart ho hplace hkind hne
  have hle := offsets_le
  omega

/-- The other blocks keep their bytes, and so does the block in its header and new payload, up
to the class that is written there. -/
theorem Resizes.bytes {b : Bool} (h : Resizes o s header cls cap n b s') (ho : Owned s)
    (hget : s.headers.get header = some ⟨cls, true⟩) (hrec : Recorded s header cls cap)
    (hsolo : cls = 100 ∨ slabBlocks cls = 1) :
    Spares (some header) s s' ∧ ∃ mem, (s'.mem = mem ∨ s'.mem = setClass mem header (newClass n)) ∧
      ∀ x, header ≤ x → x < header + headerSize + n → mem x = s.mem x := by
  have hother : ∀ {h' x}, InBlock s h' x → some header ≠ some h' → x ≠ header + classOffset :=
    fun hin hne => hin.class_ne ho hget hrec fun heq => hne (congrArg some heq)
  rcases h.mem_cases with hmem | ⟨_, hmem⟩ | ⟨_, hlt, hlen, hmem⟩
  · exact ⟨spares_of_eq hmem _, s.mem, Or.inl hmem, fun _ _ _ => rfl⟩
  · refine ⟨fun h' x hin hne => ?_, s.mem, Or.inr hmem, fun _ _ _ => rfl⟩
    rw [hmem, setClass_elsewhere (hother hin hne)]
  · have hpage : ∀ x, (freedStart header n ≤ x ∧
        x < freedStart header n + pagesOf (freedLen cls cap n) * 4096) →
        s.owner (x / 4096) = some (.block header) ∧
          ∀ y, header ≤ y → y < header + headerSize + n → y / 4096 ≠ x / 4096 := by
      intro x hin
      refine freed_own ho hget hrec hsolo hlt hlen (covers_byte ?_ hin.1 hin.2)
      exact Nat.mul_mod_left _ _
    refine ⟨fun h' x hin hne => ?_, _, Or.inr hmem, fun x hlo hhi => if_neg fun hx => ?_⟩
    · rw [hmem, setClass_elsewhere (hother hin hne)]
      exact if_neg fun hx =>
        hin.page_ne ho (fun heq => hne (congrArg some heq)) (hpage x hx).1
    · exact (hpage x hx).2 x hlo hhi rfl

theorem Resizes.payload_bytes {b : Bool} (h : Resizes o s header cls cap n b s') (ho : Owned s)
    (hget : s.headers.get header = some ⟨cls, true⟩) (hrec : Recorded s header cls cap)
    (hsolo : cls = 100 ∨ slabBlocks cls = 1) (hlo : header + headerSize ≤ x)
    (hhi : x < header + headerSize + n) : s'.mem x = s.mem x := by
  obtain ⟨_, mem, hmem, hsame⟩ := h.bytes ho hget hrec hsolo
  have hle := offsets_le
  rw [← hsame x (by omega) hhi]
  rcases hmem with hmem | hmem
  · rw [hmem]
  · rw [hmem, setClass_elsewhere (by omega)]

end Resize

section Move

variable {p : Handle} {old : ℕ}

/-- A change of the bytes of one block spares the others. -/
theorem block_spares {mem : Memory} (ho : Owned s) {v : Header}
    (hget : s.headers.get header = some v)
    (hrec : Recorded s header v.cls cap)
    (hmem : ∀ x, x < header ∨ header + headerSize + cap ≤ x → mem x = s.mem x) :
    Spares (some header) s { s with mem := mem } := by
  intro h x hin hne
  obtain ⟨hplace, hkind⟩ := ho.place hget hrec
  exact hmem x (hin.apart ho hplace hkind fun heq => hne (congrArg some heq))

/-- A new block is filled, and all blocks that were there keep their bytes. -/
theorem Mallocs.filled {mem : Memory} (h : Mallocs o s n (header + headerSize) s₁)
    (hexact : o.Exact) (ha : Agree s) (ho : Owned s)
    (hmem : ∀ x, x < header ∨ header + headerSize + newCapacity n ≤ x → mem x = s₁.mem x) {h' : ℕ}
    (hin : InBlock s h' x) : mem x = s.mem x := by
  have havoids := ho.avoidsFrom hexact
  obtain ⟨header', heq, _, hfiled⟩ := h.filed ha havoids (pointer_ne_zero header)
  obtain rfl := Nat.add_right_cancel heq
  have hfresh := h.fresh havoids
  have hne : some header ≠ some h' := fun heq => hfresh (Option.some.inj heq ▸ hin.live)
  have hin₁ : InBlock s₁ h' x := hin.keep (hfiled.only.undisturbed_fresh hfresh none) nofun
  have hspared := block_spares (h.owned hexact ha ho) hfiled.get hfiled.recorded hmem
  rw [← h.spares hexact ho h' x hin nofun]
  exact hspared h' x hin₁ hne

/-- A block that is moved: the new one is filled from the old one before that one ends. -/
theorem Moves.bytes (hexact : o.Exact) (ha : Agree s) (ho : Owned s)
    (hlive : Live s (p.raw - headerSize)) (h : Moves o s ptr n old p r s') (hr : r ≠ 0) :
    (∀ h x, InBlock s h x → h ≠ p.raw - headerSize → s'.mem x = s.mem x) ∧
      ∃ header s₁, r = header + headerSize ∧ Mallocs o s n (header + headerSize) s₁ ∧
        ∀ x, header ≤ x → x < header + headerSize + newCapacity n →
          s'.mem x = copy s₁.mem ptr (header + headerSize) (min old n) x := by
  obtain ⟨s₁, hmallocs, ⟨rfl, _⟩ | ⟨_, hfrees⟩⟩ := h
  · exact absurd rfl hr
  have havoids := ho.avoidsFrom hexact
  obtain ⟨header, rfl, _, hfiled⟩ := hmallocs.filed ha havoids hr
  have hfresh := hmallocs.fresh havoids
  have hne : header ≠ p.raw - headerSize := fun heq => hfresh (heq ▸ hlive)
  have ho₁ := hmallocs.owned hexact ha ho
  have hspared := hfrees.spares (hfiled.agree.of_eq rfl rfl rfl)
    (ho₁.same rfl rfl rfl rfl fun _ _ h _ => h)
  have hle := le_newCapacity n
  refine ⟨fun h x hin hother => ?_, header, s₁, rfl, hmallocs, fun x hlo hhi => ?_⟩
  · have hin₁ : InBlock s₁ h x := hin.keep (hfiled.only.undisturbed_fresh hfresh none) nofun
    rw [hspared h x hin₁ fun heq => hother (Option.some.inj heq).symm]
    exact hmallocs.filled hexact ha ho (fun y hy => copy_of_not_mem (by omega)) hin
  · exact hspared header x ⟨_, _, hfiled.get, hfiled.recorded, hlo, hhi⟩
      fun heq => hne (Option.some.inj heq).symm

theorem InBlock.of_records (h : InBlock s header r) (hheaders : s'.headers = s.headers)
    (hbig : s'.big = s.big) : InBlock s' header r :=
  h.keep (undisturbed_of_eq hheaders hbig none) nofun

end Move

end Oxidalloc.Records
