import Oxidalloc.RecordOwnership

/-!
The owners of the pages over resizes, moves and whole calls. A resize in place gives and
takes pages of the block alone, as long as a block becomes big where it is only if its
header is at the start of a page, and with huge pages forced the pages that it gains or gives
back are those of its reservation. In a run of such calls no range that is given out meets a
block that exists.
-/
namespace Oxidalloc.Records

open Hashmap Programs Interleaving ByteMemory

variable {o : Oracle} {s s' : State} {c : Call} {n r header size cls cap ptr q : ℕ}

/-- Where the header of a block with pages of its own may be. -/
def AtPage (header cls : ℕ) : Prop := header % 4096 = 0 ∨ (header % 4096 = 32 ∧ cls ≠ 100)

theorem newClass_cases (n : ℕ) : newClass n < 34 ∨ newClass n = 100 := by
  cases h : matchSizeClass n with
  | none => exact Or.inr (newClass_none h).1
  | some c =>
    rw [(newClass_some h).1]
    exact Or.inl (matchSizeClass_some h).1

theorem Recorded.class_cases (h : Recorded s header cls cap) : cls < 34 ∨ cls = 100 :=
  h.elim (fun hbig => Or.inr hbig.1) fun hslab => Or.inl hslab.1

theorem release_owner_congr {s₁ s₂ : State} (h : s₁.owner = s₂.owner) (addr len : ℕ) :
    (s₁.release addr len).owner = (s₂.release addr len).owner := by
  rw [State.release, State.release, h]

theorem AtPage.of_iff (hat : AtPage header cls) (h : cls = 100 ↔ newClass n = 100) :
    AtPage header (newClass n) :=
  hat.imp_right fun ⟨hoffset, hne⟩ => ⟨hoffset, fun hnew => hne (h.mpr hnew)⟩

/-- The pages that are claimed for a block that grows are behind its last one. -/
theorem covers_behind {old new : ℕ} (h : old ≤ new) :
    Covers ((header / 4096 + old) * 4096) ((new - old) * 4096) q ↔
      header / 4096 + old ≤ q ∧ q < header / 4096 + new := by
  rw [covers_pages, Nat.mul_div_cancel _ (by decide)]
  omega

theorem Extends.owners {old new : ℕ} (hexact : o.Exact) (h : Extends o s header old new s') :
    OwnersKept none s s' ∧
      ∀ q, header / 4096 + old ≤ q → q < header / 4096 + new →
        s'.owner q = some (.block header) := by
  cases h with
  | same heq => exact ⟨ownersKept_refl none, fun q hlo hhi => absurd hhi (by omega)⟩
  | claimed k hlt hadmits =>
    obtain ⟨_, hfree⟩ := hexact.free hadmits
    refine ⟨ownersKept_claim hfree, fun q hlo hhi => claim_owner_self ?_⟩
    exact (covers_behind (by omega)).mpr ⟨hlo, hhi⟩

/-- A block that has its pages and gets those behind them. -/
theorem Extends.own {old new : ℕ} (hexact : o.Exact) (h : Extends o s header old new s')
    (hown : ∀ q, header / 4096 ≤ q → q < header / 4096 + old → s.owner q = some (.block header))
    (hlo : header / 4096 ≤ q) (hhi : q < header / 4096 + new) :
    s'.owner q = some (.block header) := by
  obtain ⟨hkept, hnew⟩ := h.owners hexact
  by_cases hold : q < header / 4096 + old
  · exact hkept q _ (hown q hlo hold) nofun
  · exact hnew q (by omega) hhi

theorem Extends.thp_eq {old new : ℕ} (h : Extends o s header old new s') : s'.thp = s.thp := by
  cases h <;> rfl

variable [Layout]

section Spans

theorem reserved_congr {size size' : ℕ}
    (h : pagesOf (size + headerSize) = pagesOf (size' + headerSize)) (thp : Bool) :
    reserved thp size = reserved thp size' := by
  unfold reserved pagesOf at *
  cases thp <;> simp only [if_true, Bool.false_eq_true, if_false] <;> omega

/-- A block lies within its span. -/
theorem le_span (thp : Bool) (cls cap : ℕ) : cap + headerSize ≤ span thp cls cap := by
  unfold span
  split
  · unfold reserved pagesOf
    cases thp <;> simp only [if_true, Bool.false_eq_true, if_false] <;> omega
  · exact Nat.le_refl _

theorem span_ne_zero (thp : Bool) (cls cap : ℕ) : span thp cls cap ≠ 0 := by
  have hhead := headerSize_cases
  have hle := le_span thp cls cap
  omega

theorem covers_span {thp : Bool} (h : Covers header (cap + headerSize) q) :
    Covers header (span thp cls cap) q := by
  have hle := le_span thp cls cap
  unfold Covers pagesOf at *
  omega

/-- The span has no page behind those of the block. -/
def Snug (thp : Bool) (cls cap : ℕ) : Prop :=
  pagesOf (span thp cls cap) = pagesOf (cap + headerSize)

theorem snug_off (cls cap : ℕ) : Snug false cls cap := by
  unfold Snug span
  split
  · rw [reserved, if_neg Bool.false_ne_true, pagesOf_mul]
  · rfl

/-- What a resize asks of the spans: both are snug, or no page of the block and of its span
changes, or the block stays as it is because the bytes to be freed are no whole pages. -/
def Even (thp : Bool) (cls cap n : ℕ) : Prop :=
  (Snug thp cls cap ∧ Snug thp (newClass n) (newCapacity n)) ∨
    (pagesOf (newCapacity n + headerSize) = pagesOf (cap + headerSize) ∧
      pagesOf (span thp (newClass n) (newCapacity n)) = pagesOf (span thp cls cap)) ∨
    (extent (newClass n) n < extent cls cap ∧ freedLen cls cap n % 4096 ≠ 0)

instance Snug.decidable (thp : Bool) (cls cap : ℕ) : Decidable (Snug thp cls cap) :=
  inferInstanceAs (Decidable (_ = _))

instance Even.decidable (thp : Bool) (cls cap n : ℕ) : Decidable (Even thp cls cap n) :=
  inferInstanceAs (Decidable (_ ∨ _ ∨ _))

end Spans

section Extents

theorem extent_mod (hcls : cls < 34 ∨ cls = 100) (size : ℕ) :
    extent cls size % 4096 = 0 ↔ cls = 100 := by
  rcases hcls with hlt | rfl
  · rw [extent_slab hlt]
    exact ⟨fun h => absurd h (payload_page hlt).1, fun h => absurd hlt (by omega)⟩
  · rw [extent_big]
    exact ⟨fun _ => rfl, fun _ => Nat.mul_mod_left _ _⟩

theorem pagesOf_extent (hrec : Recorded s header cls cap) :
    pagesOf (extent cls cap) = pagesOf (cap + headerSize) := by
  have hbounds := extent_bounds hrec
  unfold pagesOf at *
  omega

theorem pagesOf_newExtent (n : ℕ) :
    pagesOf (extent (newClass n) n) = pagesOf (newCapacity n + headerSize) := by
  have hbounds := newExtent_bounds n
  unfold pagesOf at *
  omega

/-- The slab header in front of a block never costs a page. -/
theorem AtPage.end_page (hat : AtPage header cls) (hcls : cls < 34 ∨ cls = 100) (size : ℕ) :
    pagesOf (header + extent cls size) = header / 4096 + pagesOf (extent cls size) := by
  rcases hat with halign | ⟨hoffset, hne⟩
  · unfold pagesOf
    omega
  · have hlt : cls < 34 := hcls.resolve_right hne
    have hpage := payload_page hlt
    rw [extent_slab hlt]
    unfold pagesOf at *
    omega

/-- The same class of residue means the same kind of block. -/
theorem big_iff_of_mod (hrec : Recorded s header cls cap)
    (h : extent (newClass n) n % 4096 = extent cls cap % 4096) : cls = 100 ↔ newClass n = 100 := by
  rw [← extent_mod hrec.class_cases cap, ← extent_mod (newClass_cases n) n, h]

/-- The same extent means the same pages of the span. -/
theorem span_pages_of_extent {thp : Bool} (hrec : Recorded s header cls cap)
    (h : extent (newClass n) n = extent cls cap) :
    pagesOf (span thp (newClass n) (newCapacity n)) = pagesOf (span thp cls cap) := by
  have hpages : pagesOf (newCapacity n + headerSize) = pagesOf (cap + headerSize) := by
    rw [← pagesOf_newExtent, h, pagesOf_extent hrec]
  have hkind : cls = 100 ↔ newClass n = 100 := big_iff_of_mod hrec (by rw [h])
  unfold span
  by_cases hbig : cls = 100
  · rw [if_pos hbig, if_pos (hkind.mp hbig), reserved_congr hpages]
  · rw [if_neg hbig, if_neg fun hnew => hbig (hkind.mpr hnew), hpages]

/-- A block that gives back whole pages has just those of its span. -/
theorem Even.snug {thp : Bool} (h : Even thp cls cap n) (hrec : Recorded s header cls cap)
    (hlt : extent (newClass n) n < extent cls cap) (hlen : freedLen cls cap n % 4096 = 0) :
    Snug thp cls cap ∧ Snug thp (newClass n) (newCapacity n) := by
  rcases h with hsnug | ⟨hpages, _⟩ | ⟨_, hodd⟩
  · exact hsnug
  · rw [← pagesOf_newExtent, ← pagesOf_extent hrec] at hpages
    unfold freedLen pagesOf at *
    omega
  · exact absurd hlen hodd

theorem AtPage.freed (hat : AtPage header cls) (hrec : Recorded s header cls cap)
    (hlt : extent (newClass n) n < extent cls cap) (hlen : freedLen cls cap n % 4096 = 0) :
    AtPage header (newClass n) := by
  refine hat.of_iff (big_iff_of_mod hrec ?_)
  unfold freedLen at hlen
  omega

/-- The pages that a block gives back are its last ones. -/
theorem covers_freed (hat : AtPage header cls) (hrec : Recorded s header cls cap)
    (hlt : extent (newClass n) n < extent cls cap) (hlen : freedLen cls cap n % 4096 = 0) :
    Covers (freedStart header n) (freedLen cls cap n) q ↔
      header / 4096 + pagesOf (newCapacity n + headerSize) ≤ q ∧
        q < header / 4096 + pagesOf (cap + headerSize) := by
  have hstart := (hat.freed hrec hlt hlen).end_page (newClass_cases n) n
  have hold := pagesOf_extent hrec
  rw [pagesOf_newExtent] at hstart
  have hnew := pagesOf_newExtent n
  have hsub : pagesOf (freedLen cls cap n) =
      pagesOf (cap + headerSize) - pagesOf (newCapacity n + headerSize) := by
    rw [← hold, ← hnew]
    unfold freedLen pagesOf at *
    omega
  have hle : pagesOf (newCapacity n + headerSize) ≤ pagesOf (cap + headerSize) := by
    rw [← hold, ← hnew]
    unfold pagesOf
    omega
  unfold freedStart Covers
  rw [hstart, hsub, Nat.mul_div_cancel _ (by decide)]
  omega

end Extents

section Resize

theorem Reclasses.frame {newCls : ℕ} (h : Reclasses s header cls newCls size s') :
    s'.owner = s.owner ∧ s'.uncarved = s.uncarved ∧ s'.thp = s.thp := by
  cases h <;> exact ⟨rfl, rfl, rfl⟩

theorem Reclasses.frame_giveBack {newCls start len k : ℕ}
    (h : Reclasses ((s.giveBack start len).later k) header cls newCls size s') :
    s'.owner = (s.release start len).owner ∧ s'.uncarved = s.uncarved ∧ s'.thp = s.thp :=
  h.frame

/-- A block with pages of its own has the records of a request. -/
theorem Owned.refiled (ho : Owned s) (hfiled : Filed s n header s')
    (hget : s.headers.get header ≠ none) (hkept : OwnersKept (some header) s s')
    (hslots : s'.uncarved = s.uncarved) (hthp : s'.thp = s.thp) (hat : AtPage header (newClass n))
    (hown : ∀ q, Covers header (span s.thp (newClass n) (newCapacity n)) q →
      s'.owner q = some (.block header)) : Owned s' := by
  refine ho.change hfiled.only hkept (fun p hp => ?_) hthp fun r hr => ?_
  · rw [hslots] at hp
    exact ⟨hp, ho.slot_ne hp hget⟩
  · rw [← Option.some.inj (hfiled.get.symm.trans hr), capacity_of_recorded hfiled.recorded]
    exact .alone hat (span_ne_zero _ _ _) hown

/-- The pages of a failed growth are released again only if the block is big. -/
theorem AtPage.undone (hat : AtPage header cls) (hrec : Recorded s header cls cap)
    (hstart : (header + extent cls cap) % 4096 = 0) : cls = 100 ∧ header % 4096 = 0 := by
  rcases hat with halign | ⟨hoffset, hne⟩
  · refine ⟨(extent_mod hrec.class_cases cap).mp ?_, halign⟩
    omega
  · have hlt : cls < 34 := hrec.class_cases.resolve_right hne
    have hpage := (payload_page hlt).2.1
    rw [extent_slab hlt] at hstart
    omega

theorem State.later_extended_owner (s : State) (k : ℕ) :
    ((s.later k).extended header n).owner = s.owner := rfl

theorem Resizes.undone_owner {s₁ : State} (hexact : o.Exact) (hat : AtPage header cls)
    (hrec : Recorded s header cls cap) (hgt : extent cls cap < extent (newClass n) n)
    (hext : Extends o s header (pagesOf (cap + headerSize))
      (pagesOf (newCapacity n + headerSize)) s₁)
    (hstart : (header + extent cls cap) % 4096 = 0) :
    ((s₁.extended header n).release (header + extent cls cap) (growLen cls cap n)).owner =
      s.owner := by
  obtain ⟨rfl, halign⟩ := hat.undone hrec hstart
  have hnew := newExtent_bounds n
  rw [extent_big] at hgt
  cases hext with
  | same heq => exact absurd hgt (by omega)
  | claimed k hlt hadmits =>
    have haddr : header + extent 100 cap = (header / 4096 + pagesOf (cap + headerSize)) * 4096 := by
      rw [extent_big]
      omega
    have hlen : growLen 100 cap n =
        (pagesOf (newCapacity n + headerSize) - pagesOf (cap + headerSize)) * 4096 := by
      rw [growLen, extent_big]
      omega
    rw [haddr, hlen, ← claim_release_owner (hexact.free hadmits).2 (.block header)]
    exact release_owner_congr (State.later_extended_owner _ k) _ _

theorem Resizes.owned {b : Bool} (h : Resizes o s header cls cap n b s') (hexact : o.Exact)
    (ha : Agree s) (ho : Owned s) (hget : s.headers.get header = some ⟨cls, true⟩)
    (hrec : Recorded s header cls cap)
    (hsolo : cls = 100 ∨ slabBlocks cls = 1)
    (hguard : b = true →
      (header % 4096 = 0 ∨ cls = 100 ∨ newClass n ≠ 100) ∧ Even s.thp cls cap n) : Owned s' := by
  have hsome : s.headers.get header ≠ none := by
    rw [hget]
    exact Option.some_ne_none _
  obtain ⟨hat, hown⟩ : AtPage header cls ∧ _ := (ho.heads header _ hget).solo hsolo
  rw [capacity_of_recorded hrec] at hown
  cases h with
  | same _ heq hre =>
    obtain ⟨howner, hslots, hthp⟩ := hre.frame
    have hat' := AtPage.of_iff hat (big_iff_of_mod hrec (by rw [heq]))
    refine ho.refiled (hre.filed ha hget) hsome (fun q x hx _ => ?_) hslots hthp hat' ?_
    · rw [howner, hx]
    · intro q hq
      rw [howner]
      refine hown q ?_
      rwa [Covers, span_pages_of_extent hrec heq] at hq
  | kept _ => exact ho
  | refusedShrink k _ _ => exact ho.same rfl rfl rfl rfl (ownersKept_refl none)
  | shrunk k _ hlt hlen hre =>
    obtain ⟨howner, hslots, hthp⟩ := hre.frame_giveBack
    have hfiled : Filed s n header s' := hre.filed_giveBack ha hget
    obtain ⟨hsnug, hsnug'⟩ := (hguard rfl).2.snug hrec hlt hlen
    have hfreed : ∀ q, Covers (freedStart header n) (freedLen cls cap n) q →
        s.owner q = some (.block header) := by
      intro q hq
      obtain ⟨hlo, hhi⟩ := (covers_freed hat hrec hlt hlen).mp hq
      exact hown q (covers_span ⟨by omega, hhi⟩)
    refine ho.refiled hfiled hsome (fun q x hx hother => ?_) hslots hthp
      (AtPage.freed hat hrec hlt hlen) ?_
    · rw [howner]
      exact ownersKept_release hfreed q x hx hother
    · intro q hq
      rw [Covers, hsnug'] at hq
      rw [howner]
      have hnot : ¬ Covers (freedStart header n) (freedLen cls cap n) q := by
        rw [covers_freed hat hrec hlt hlen]
        omega
      have hle : pagesOf (newCapacity n + headerSize) ≤ pagesOf (cap + headerSize) := by
        rw [← pagesOf_newExtent, ← pagesOf_extent hrec]
        unfold pagesOf
        omega
      exact (if_neg hnot).trans (hown q (covers_span ⟨hq.1, by omega⟩))
  | refused k _ => exact ho.same rfl rfl rfl rfl (ownersKept_refl none)
  | grown k s₁ _ hgt hext hre =>
    obtain ⟨howner, hslots, hthp⟩ := hre.frame
    obtain ⟨hheaders, hbig, hslots₁⟩ := hext.records
    have hfiled : Filed s n header s' :=
      (hre.filed (ha.of_eq hheaders hbig hslots₁) (by rw [← hget, ← hheaders]; rfl)).of_eq hheaders
        hbig
    have hat' : AtPage header (newClass n) := by
      have hseat := (hguard rfl).1
      unfold AtPage at *
      omega
    refine ho.refiled hfiled hsome (fun q x hx _ => ?_) (hslots.trans hslots₁)
      (hthp.trans hext.thp_eq) hat' ?_
    · rw [howner]
      exact (hext.owners hexact).1 q x hx (by simp)
    · intro q hq
      rw [howner]
      rcases (hguard rfl).2 with ⟨_, hsnug'⟩ | ⟨_, hspan⟩ | ⟨hlt, _⟩
      · rw [Covers, hsnug'] at hq
        have hnew := hext.own hexact (fun q hlo hold => hown q (covers_span ⟨hlo, hold⟩)) hq.1 hq.2
        exact hnew
      · rw [Covers, hspan] at hq
        have hold := (hext.owners hexact).1 q _ (hown q hq) (by simp)
        exact hold
      · exact absurd hlt (by omega)
  | stuck k s₁ _ hext _ =>
    obtain ⟨hheaders, hbig, hslots⟩ := hext.records
    exact ho.same hheaders hbig hslots hext.thp_eq (hext.owners hexact).1
  | undone k s₁ hgt hext hstart =>
    obtain ⟨hheaders, hbig, hslots⟩ := hext.records
    refine ho.same hheaders hbig hslots hext.thp_eq fun q x hx _ => ?_
    rw [← hx]
    exact congrFun (Resizes.undone_owner hexact hat hrec hgt hext hstart) q

/-- A block that could not grow where it is. -/
theorem Resizes.failed (h : Resizes o s header cls cap n false s') (hexact : o.Exact) (ha : Agree s)
    (ho : Owned s) (hget : s.headers.get header = some ⟨cls, true⟩)
    (hrec : Recorded s header cls cap) (hsolo : cls = 100 ∨ slabBlocks cls = 1) :
    Agree s' ∧ Owned s' := by
  refine ⟨?_, h.owned hexact ha ho hget hrec hsolo fun hfalse => absurd hfalse Bool.false_ne_true⟩
  rcases h.records ha hget with ⟨hfalse, _⟩ | ⟨hheaders, hbig, hslots, _⟩
  · exact absurd hfalse Bool.false_ne_true
  · exact ha.of_eq hheaders hbig hslots

end Resize

section Moves

theorem Mallocs.owned (hexact : o.Exact) (ha : Agree s) (ho : Owned s) (h : Mallocs o s size r s') :
    Owned s' := by
  obtain ⟨s₁, hprepares, hgives⟩ := h
  exact hgives.owned hexact (hprepares.agree ha) (hprepares.owned hexact ho)

theorem Owned.avoidsFrom (hexact : o.Exact) (ho : Owned s) : o.AvoidsFrom s :=
  fun _ hprepares => (hprepares.owned hexact ho).avoids hexact

theorem Moves.owned {p : Handle} {old : ℕ} (hexact : o.Exact) (ha : Agree s) (ho : Owned s)
    (h : Moves o s ptr n old p r s') : Owned s' := by
  obtain ⟨s₁, hmallocs, ⟨_, rfl⟩ | ⟨_, hfrees⟩⟩ := h
  · exact hmallocs.owned hexact ha ho
  · have ha₁ := hmallocs.agree (ho.avoidsFrom hexact) ha
    have ho₁ := hmallocs.owned hexact ha ho
    exact hfrees.owned (ha₁.of_eq rfl rfl rfl) (ho₁.same rfl rfl rfl rfl fun _ _ h _ => h)

end Moves

/-- A plain pointer to the only block of a slab, whose header is behind that of the slab. -/
def State.behindSlab (s : State) (ptr : ℕ) : Bool :=
  (s.live ptr).any fun p => p.offset = 0 ∧ (p.raw - headerSize) % 4096 ≠ 0 ∧
    slabBlocks (((s.headers.get (p.raw - headerSize)).map Header.cls).getD 0) = 1

/-- The resize of the block of a plain pointer is even, if it may be resized where it is. -/
def State.EvenAt (s : State) (ptr n : ℕ) : Prop :=
  ∀ p ∈ s.live ptr, p.offset = 0 → n ≠ 0 → ∀ r ∈ s.headers.get (p.raw - headerSize),
    r.cls = 100 ∨ slabBlocks r.cls = 1 →
      Even s.thp r.cls (s.capacity (p.raw - headerSize) r.cls) n

instance State.EvenAt.decidable (s : State) (ptr n : ℕ) : Decidable (s.EvenAt ptr n) :=
  inferInstanceAs (Decidable (∀ p ∈ s.live ptr, p.offset = 0 → n ≠ 0 →
    ∀ r ∈ s.headers.get (p.raw - headerSize), _ → Even s.thp r.cls _ n))

/-- No block behind the header of a slab becomes big where it is, and with huge pages forced
every resize is even. -/
def Call.Seated (s : State) : Call → Prop
  | .realloc ptr n => (s.behindSlab ptr = true → n ≤ 2097152) ∧ (s.thp = true → s.EvenAt ptr n)
  | _ => True

instance Call.Seated.decidable (s : State) : ∀ c, Decidable (Call.Seated s c)
  | .malloc _ => isTrue trivial
  | .calloc _ _ => isTrue trivial
  | .posixMemalign _ _ => isTrue trivial
  | .realloc _ _ => inferInstanceAs (Decidable ((_ → _) ∧ (_ → _)))
  | .free _ => isTrue trivial
  | .usableSize _ => isTrue trivial
  | .write _ _ _ => isTrue trivial

section Calls

theorem Call.Seated.grows {p : Handle} (h : Call.Seated s (.realloc ptr n)) (hn : n ≠ 0)
    (hlive : s.live ptr = some p) (hplain : p.offset = 0)
    (hget : s.headers.get (p.raw - headerSize) = some ⟨cls, true⟩)
    (hsolo : cls = 100 ∨ slabBlocks cls = 1) :
    (p.raw - headerSize) % 4096 = 0 ∨ cls = 100 ∨ newClass n ≠ 100 := by
  by_contra hnot
  rw [not_or, not_or, not_not] at hnot
  obtain ⟨hoffset, hcls, hnew⟩ := hnot
  have hbehind : s.behindSlab ptr = true := by
    simp only [State.behindSlab, hlive, Option.any_some, hget, Option.map_some, Option.getD_some,
      hplain, hoffset, hsolo.resolve_left hcls, ne_eq, not_false_eq_true, and_self, decide_true]
  cases hmatch : matchSizeClass n with
  | none =>
    have hsmall := h.1 hbehind
    rcases matchSizeClass_none hmatch with hzero | hlarge
    · exact hn hzero
    · omega
  | some c =>
    rw [(newClass_some hmatch).1] at hnew
    exact absurd (matchSizeClass_some hmatch).1 (by omega)

theorem Call.Seated.even {p : Handle} (h : Call.Seated s (.realloc ptr n)) (hn : n ≠ 0)
    (hlive : s.live ptr = some p) (hplain : p.offset = 0)
    (hget : s.headers.get (p.raw - headerSize) = some ⟨cls, true⟩)
    (hrec : Recorded s (p.raw - headerSize) cls cap)
    (hsolo : cls = 100 ∨ slabBlocks cls = 1) : Even s.thp cls cap n := by
  cases hthp : s.thp with
  | false => exact Or.inl ⟨snug_off _ _, snug_off _ _⟩
  | true =>
    have heven := h.2 hthp p hlive hplain hn _ hget hsolo
    rwa [capacity_of_recorded hrec, hthp] at heven

theorem Owned.careful (hexact : o.Exact) (ha : Agree s) (ho : Owned s) : o.Careful s where
  here := ho.avoidsFrom hexact
  freed h s₁ hfrees := (hfrees.owned ha ho).avoidsFrom hexact
  stuck h cls cap n s₁ hget hrec hsolo hresize := by
    obtain ⟨ha₁, ho₁⟩ := hresize.failed hexact ha ho hget hrec hsolo
    exact ho₁.avoidsFrom hexact

theorem Reallocs.owned {p : Handle} (hexact : o.Exact) (ha : Agree s) (ho : Owned s)
    (hseated : Call.Seated s (.realloc ptr n)) (hn : n ≠ 0) (hlive : s.live ptr = some p)
    (hget : s.headers.get (p.raw - headerSize) = some ⟨cls, true⟩)
    (hrec : Recorded s (p.raw - headerSize) cls cap)
    (h : Reallocs o s ptr n p cls cap r s') : Owned s' := by
  cases h with
  | same _ _ _ => exact ho
  | inPlace _ hplain hsolo _ hresize =>
    exact hresize.owned hexact ha ho hget hrec hsolo fun _ =>
      ⟨hseated.grows hn hlive hplain hget hsolo, hseated.even hn hlive hplain hget hrec hsolo⟩
  | moved _ _ _ hmoves => exact hmoves.owned hexact ha ho
  | movedAfter _ s₁ _ _ hsolo _ hresize hmoves =>
    obtain ⟨ha₁, ho₁⟩ := hresize.failed hexact ha ho hget hrec hsolo
    exact hmoves.owned hexact ha₁ ho₁

theorem Performs.owned (hexact : o.Exact) (ha : Agree s) (ho : Owned s) (hseated : c.Seated s)
    (h : Performs o s c r s') : Owned s' := by
  cases h with
  | written ptr i value => exact ho.same rfl rfl rfl rfl fun _ _ h _ => h
  | measured ptr v => exact ho
  | denied => exact ho
  | refused _ m _ hmallocs => exact hmallocs.owned hexact ha ho
  | made _ m header zeroed s₁ hmallocs _ _ _ =>
    exact (hmallocs.owned hexact ha ho).same rfl rfl rfl rfl fun _ _ h _ => h
  | aligned alignment size header ptr s₁ hmallocs _ _ =>
    exact (hmallocs.owned hexact ha ho).same rfl rfl rfl rfl fun _ _ h _ => h
  | freed ptr p s₁ _ hfrees => exact (hfrees.owned ha ho).same rfl rfl rfl rfl fun _ _ h _ => h
  | dropped ptr p s₁ s₂ _ hfrees hmallocs =>
    have ho₂ := hmallocs.owned hexact (hfrees.ended ha).agree (hfrees.owned ha ho)
    exact ho₂.same rfl rfl rfl rfl fun _ _ h _ => h
  | renewed ptr header p s₁ s₂ _ hfrees hmallocs =>
    have ho₂ := hmallocs.owned hexact (hfrees.ended ha).agree (hfrees.owned ha ho)
    exact ho₂.same rfl rfl rfl rfl fun _ _ h _ => h
  | resized ptr n r p cls cap s₁ hn hlive hget hrec _ hreallocs =>
    have ho₁ := hreallocs.owned hexact ha ho hseated hn hlive hget hrec
    exact ho₁.same rfl rfl rfl rfl fun _ _ h _ => h
  | unresized ptr n p cls cap s₁ hn hlive hget hrec hreallocs =>
    exact hreallocs.owned hexact ha ho hseated hn hlive hget hrec

end Calls

section Runs

theorem owned_initial (thp : Bool) : Owned (initial thp) where
  heads _ _ := nofun
  slots _ := nofun
  unique _ := nofun

/-- The state of a run: the records agree, every pointer leads to a block of its own and every
block has its place. -/
structure Sane (Q : Option Header → Option ℕ → Handle → Prop) (s : State) : Prop where
  agree : Agree s
  pointed : Pointed Q s
  owned : Owned s

variable {Q : Option Header → Option ℕ → Handle → Prop} {ok : State → Call → Prop}
  {calls : List Call} {thp : Bool}

theorem Sane.placed (hs : Sane Q s) : Placed s := hs.pointed.placed hs.agree

theorem sane_initial (thp : Bool) : Sane Q (initial thp) :=
  ⟨agree_initial thp, pointed_initial thp, owned_initial thp⟩

theorem Sane.performs (hexact : o.Exact) (hfiled : HoldsOnFiled Q) (hs : Sane Q s)
    (hseated : c.Seated s) (hkept : HoldsOnKept Q s c) (h : Performs o s c r s') : Sane Q s' := by
  have hchange := h.change (hs.owned.careful hexact hs.agree) hs.agree hs.pointed
  exact ⟨hchange.agree, hchange.pointed hfiled hs.pointed hkept,
    h.owned hexact hs.agree hs.owned hseated⟩

/-- In a run whose calls are seated all is well. -/
theorem run_sane (hexact : o.Exact) (hfiled : HoldsOnFiled Q)
    (hstep : ∀ s c, Sane Q s → ok s c → c.Seated s ∧ HoldsOnKept Q s c)
    (hok : Guarded (step o) ok (initial thp) calls)
    (hrun : run (step o) (initial thp) calls = some s) : Sane Q s := by
  refine @run_invariant _ _ (step o) ok (Sane Q)
    (fun s c s' hs hc h => ?_) _ s calls (sane_initial thp) hok
    hrun
  obtain ⟨hseated, hkept⟩ := hstep s c hs hc
  obtain ⟨_, r, _, hperforms⟩ := step_cases hs.placed h
  exact hs.performs hexact hfiled hseated hkept hperforms

theorem run_seated (hexact : o.Exact) (hok : Guarded (step o) Call.Seated (initial thp) calls)
    (hrun : run (step o) (initial thp) calls = some s) : Sane (fun _ _ _ => True) s :=
  run_sane hexact (fun _ _ _ _ _ _ _ => trivial)
    (fun _ _ _ hc => ⟨hc, fun _ _ _ _ _ _ _ _ _ _ _ => trivial⟩) hok hrun

end Runs

end Oxidalloc.Records
