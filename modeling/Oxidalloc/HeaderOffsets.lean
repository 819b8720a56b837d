import Oxidalloc.RecordOwnership

/-!
Where the headers are, whatever the calls: the header of a big block and of the only block of
a slab is at the start of a page or behind the header of a slab. The calls need not be seated,
and blocks may lie one over the other.
-/
namespace Oxidalloc.Records

open Hashmap Programs Interleaving ByteMemory

variable [Layout] {o : Oracle} {s s' : State} {c : Call} {p : Handle}
  {n r header size cls cap ptr : ℕ}

/-- Where the header of a block of a class may be. -/
def Offset (header cls : ℕ) : Prop :=
  header ≠ 0 ∧ (cls = 100 ∨ slabBlocks cls = 1 → header % 4096 = 0 ∨ header % 4096 = 32)

structure Shelved (s : State) : Prop where
  heads : ∀ h r, s.headers.get h = some r → Offset h r.cls
  slots : ∀ p ∈ s.uncarved, Offset p.1 p.2

section Blocks

omit [Layout] in
theorem Shelved.of_eq (hs : Shelved s) (hheaders : s'.headers = s.headers)
    (hslots : s'.uncarved = s.uncarved) : Shelved s' := by
  refine ⟨?_, ?_⟩
  · rw [hheaders]
    exact hs.heads
  · rw [hslots]
    exact hs.slots

omit [Layout] in
theorem Shelved.set (hs : Shelved s) {live : Bool} (hoffset : Offset header cls)
    (hheaders : s'.headers = s.headers.set header ⟨cls, live⟩)
    (hslots : ∀ p ∈ s'.uncarved, p ∈ s.uncarved) : Shelved s' := by
  refine ⟨fun h r hr => ?_, fun p hp => hs.slots p (hslots p hp)⟩
  rw [hheaders] at hr
  by_cases heq : h = header
  · subst heq
    rw [← Option.some.inj ((HeaderTable.get_set_self s.headers h ⟨cls, live⟩).symm.trans hr)]
    exact hoffset
  · exact hs.heads h r ((Function.update_of_ne heq _ _).symm.trans hr)

theorem Shelved.slab (hs : Shelved s) {hint : ℕ} (hhint : hint % 4096 = 0) :
    Shelved (s.slab cls hint) := by
  refine ⟨hs.heads, fun p hp => ?_⟩
  rcases List.mem_append.mp hp with hnew | hold
  · obtain ⟨i, hi, rfl⟩ := mem_slabSlots hnew
    refine ⟨by dsimp only; omega, fun hsolo => Or.inr ?_⟩
    rcases hsolo with hbig | hone
    · rw [show cls = 100 from hbig, slabBlocks_big] at hi
      exact absurd hi (Nat.not_lt_zero i)
    · -- the only slot is the first one
      obtain rfl : i = 0 := by
        rw [show slabBlocks cls = 1 from hone] at hi
        omega
      dsimp only
      omega
  · exact hs.slots p hold

/-- The block that an allocation gives out is in its place. -/
theorem Gives.shelved (hexact : o.Exact) (hs : Shelved s) (h : Gives o s size r s') :
    Shelved s' ∧ ∀ header, r = header + headerSize → header ≠ 0 := by
  have hfilter : ∀ (slots : List (ℕ × ℕ)) x, ∀ p ∈ slots.filter (· ≠ x), p ∈ slots :=
    fun _ _ _ hp => (List.mem_filter.mp hp).1
  cases h with
  | nothing n =>
    exact ⟨hs.of_eq rfl rfl, fun header hr => absurd hr.symm (pointer_ne_zero header)⟩
  | cached n b cls _ _ _ _ hget =>
    have hoffset := hs.heads b _ hget
    refine ⟨hs.set hoffset rfl (hfilter _ _), fun header hr => ?_⟩
    rw [← Nat.add_right_cancel hr]
    exact hoffset.1
  | carved n b cls _ _ _ _ _ hslot =>
    have hoffset := hs.slots _ hslot
    refine ⟨hs.set hoffset rfl (hfilter _ _), fun header hr => ?_⟩
    rw [← Nat.add_right_cancel hr]
    exact hoffset.1
  | opened k n hint cls _ _ hcls _ hhint hadmits =>
    have halign := (hexact.free hadmits).1
    have hslab : Shelved (s.slab cls hint) := hs.slab halign
    refine ⟨hslab.set ⟨by omega, fun _ => Or.inr (by omega)⟩ rfl (hfilter _ _), fun header hr => ?_⟩
    rw [← Nat.add_right_cancel hr]
    omega
  | big k n hint _ _ _ _ _ hhint hadmits _ _ =>
    have halign := (hexact.free hadmits).1
    refine ⟨hs.set ⟨hhint, fun _ => Or.inl halign⟩ rfl fun p hp => hp, fun header hr => ?_⟩
    rw [← Nat.add_right_cancel hr]
    exact hhint

theorem Mallocs.shelved (hexact : o.Exact) (hs : Shelved s) (h : Mallocs o s size r s') :
    Shelved s' ∧ ∀ header, r = header + headerSize → header ≠ 0 := by
  obtain ⟨s₁, hprepares, hgives⟩ := h
  obtain ⟨hheaders, _, hslots⟩ := hprepares.records
  exact hgives.shelved hexact (hs.of_eq hheaders hslots)

theorem Frees.shelved (hs : Shelved s) (h : Frees s header s') : Shelved s' := by
  cases h with
  | slab cls hget _ => exact hs.set (hs.heads header _ hget) rfl fun p hp => hp
  | big n info hget _ =>
    refine ⟨fun h r hr => ?_, hs.slots⟩
    by_cases heq : h = header
    · subst heq
      exact absurd ((HeaderTable.get_remove_self s.headers h).symm.trans hr) nofun
    · exact hs.heads h r ((Function.update_of_ne heq _ _).symm.trans hr)

theorem Reclasses.shelved {newCls : ℕ} (hs : Shelved s) (hoffset : Offset header newCls)
    (h : Reclasses s header cls newCls size s') : Shelved s' := by
  cases h with
  | removed _ _ => exact hs.set hoffset rfl fun p hp => hp
  | inserted _ _ _ _ _ => exact hs.set hoffset rfl fun p hp => hp
  | plain _ _ => exact hs.set hoffset rfl fun p hp => hp

/-- A block that is resized where it is keeps its place, and may have any class there. -/
theorem Resizes.shelved {b : Bool} (hs : Shelved s)
    (hget : s.headers.get header = some ⟨cls, true⟩) (hsolo : cls = 100 ∨ slabBlocks cls = 1)
    (h : Resizes o s header cls cap n b s') : Shelved s' := by
  obtain ⟨hne, hoffset⟩ := hs.heads header _ hget
  have hnew : Offset header (newClass n) := ⟨hne, fun _ => hoffset hsolo⟩
  cases h with
  | same _ _ hre => exact hre.shelved hs hnew
  | kept _ => exact hs
  | refusedShrink _ _ _ => exact hs.of_eq rfl rfl
  | shrunk k _ _ _ hre =>
    exact hre.shelved (hs.of_eq (State.giveBack_headers s _ _ k) (State.giveBack_uncarved s _ _ k))
      hnew
  | refused _ _ => exact hs.of_eq rfl rfl
  | grown k s₁ _ _ hext hre =>
    have hs₁ : Shelved (((s₁.extended header n).noted
        (.commit (growStart header cls cap) (growLen cls cap n))).later k) :=
      hs.of_eq hext.records.1 hext.records.2.2
    exact hre.shelved hs₁ hnew
  | stuck k s₁ _ hext _ => exact hs.of_eq hext.records.1 hext.records.2.2
  | undone k s₁ _ hext _ _ => exact hs.of_eq hext.records.1 hext.records.2.2

/-- So is the new block of `realloc`, if it is not the old one. -/
theorem Moves.shelved {old : ℕ} (hexact : o.Exact) (hs : Shelved s)
    (h : Moves o s ptr n old p r s') :
    Shelved s' ∧ (r ≠ 0 → ∃ header, r = header + headerSize ∧ header ≠ 0) := by
  obtain ⟨s₁, hmallocs, hend⟩ := h
  obtain ⟨hs₁, hheader⟩ := hmallocs.shelved hexact hs
  have hraw : r ≠ 0 → ∃ header, r = header + headerSize ∧ header ≠ 0 := by
    intro hr
    obtain ⟨header, hr'⟩ := hmallocs.exists_header hr
    exact ⟨header, hr', hheader header hr'⟩
  rcases hend with ⟨_, rfl⟩ | ⟨_, hfrees⟩
  · exact ⟨hs₁, hraw⟩
  · have hcopied : Shelved { s₁ with mem := copy s₁.mem ptr r (min old n) } := hs₁.of_eq rfl rfl
    exact ⟨hfrees.shelved hcopied, hraw⟩

theorem Reallocs.shelved (hexact : o.Exact) (hs : Shelved s)
    (hget : s.headers.get (p.raw - headerSize) = some ⟨cls, true⟩)
    (h : Reallocs o s ptr n p cls cap r s') :
    Shelved s' ∧ (r ≠ 0 → (r = ptr ∧ p.offset = 0) ∨
      ∃ header, r = header + headerSize ∧ header ≠ 0) := by
  cases h with
  | same hplain _ _ => exact ⟨hs, fun _ => Or.inl ⟨rfl, hplain⟩⟩
  | inPlace _ hplain hsolo _ hresize =>
    exact ⟨hresize.shelved hs hget hsolo, fun _ => Or.inl ⟨rfl, hplain⟩⟩
  | moved _ _ _ hmoves =>
    obtain ⟨hs', hraw⟩ := hmoves.shelved hexact hs
    exact ⟨hs', fun hr => Or.inr (hraw hr)⟩
  | movedAfter _ s₁ _ _ hsolo _ hresize hmoves =>
    obtain ⟨hs', hraw⟩ := hmoves.shelved hexact (hresize.shelved hs hget hsolo)
    exact ⟨hs', fun hr => Or.inr (hraw hr)⟩

end Blocks

/-- The pointers of the user lead to headers, and the headers are in their places. -/
structure Tidy (s : State) : Prop where
  shelved : Shelved s
  placed : Placed s
  distance : ∀ ptr p, s.live ptr = some p → ptr = p.raw + p.offset

section Calls

theorem Tidy.keep (ht : Tidy s) (hs : Shelved s') (hlive : s'.live = s.live) : Tidy s' := by
  refine ⟨hs, ⟨?_, ?_⟩, ?_⟩
  · rw [hlive]
    exact ht.placed.null
  · rw [hlive]
    exact ht.placed.header
  · rw [hlive]
    exact ht.distance

theorem Tidy.unbind (ht : Tidy s) (ptr : ℕ) : Tidy (s.unbound ptr) := by
  have hold : ∀ q p, (s.unbound ptr).live q = some p → s.live q = some p := by
    intro q p hq
    by_cases heq : q = ptr
    · subst heq
      exact absurd ((State.unbound_live_self s).symm.trans hq) nofun
    · exact (State.unbound_live_of_ne s heq).symm.trans hq
  refine ⟨ht.shelved.of_eq rfl rfl, ⟨?_, ?_⟩, ?_⟩
  · by_contra hne
    obtain ⟨p, hp⟩ := Option.ne_none_iff_exists'.mp hne
    exact absurd (ht.placed.null.symm.trans (hold 0 p hp)) nofun
  · exact fun q p hq => ht.placed.header q p (hold q p hq)
  · exact fun q p hq => ht.distance q p (hold q p hq)

/-- The user gets a pointer into a block behind its header. -/
theorem Tidy.bind (ht : Tidy s) (hheader : header ≠ 0) (hle : header + headerSize ≤ ptr)
    (size : ℕ) : Tidy (s.bound ptr (header + headerSize) size) := by
  have hhead := headerSize_cases
  have hcases : ∀ q p, (s.bound ptr (header + headerSize) size).live q = some p →
      (q = ptr ∧ p = ⟨header + headerSize, ptr - (header + headerSize), size⟩) ∨
        s.live q = some p := by
    intro q p hq
    by_cases heq : q = ptr
    · subst heq
      rw [State.bound_live_self] at hq
      exact Or.inl ⟨rfl, (Option.some.inj hq).symm⟩
    · exact Or.inr ((State.bound_live_of_ne s _ size heq).symm.trans hq)
  refine ⟨ht.shelved.of_eq rfl rfl, ⟨?_, fun q p hq => ?_⟩, fun q p hq => ?_⟩
  · exact (State.bound_live_of_ne s _ size (by omega)).trans ht.placed.null
  · rcases hcases q p hq with ⟨_, rfl⟩ | hold
    · rwa [Nat.add_sub_cancel]
    · exact ht.placed.header q p hold
  · rcases hcases q p hq with ⟨rfl, rfl⟩ | hold
    · dsimp only
      omega
    · exact ht.distance q p hold

theorem Tidy.mallocs (hexact : o.Exact) (ht : Tidy s) (h : Mallocs o s size r s') : Tidy s' :=
  ht.keep (h.shelved hexact ht.shelved).1 h.live_eq.1

theorem Performs.tidy (hexact : o.Exact) (ht : Tidy s) (h : Performs o s c r s') : Tidy s' := by
  cases h with
  | written ptr i value => exact ht.keep (ht.shelved.of_eq rfl rfl) rfl
  | measured ptr v => exact ht
  | denied => exact ht
  | refused _ m _ hmallocs => exact ht.mallocs hexact hmallocs
  | made _ m header zeroed s₁ hmallocs _ _ _ =>
    have hheader := (hmallocs.shelved hexact ht.shelved).2 header rfl
    have ht₁ := ht.mallocs hexact hmallocs
    have hzeroed : Tidy (s₁.zero (header + headerSize) zeroed) :=
      ht₁.keep (ht₁.shelved.of_eq rfl rfl) rfl
    exact hzeroed.bind hheader (Nat.le_refl _) _
  | aligned alignment size header ptr s₁ hmallocs hptr _ =>
    have hheader := (hmallocs.shelved hexact ht.shelved).2 header rfl
    have ht₁ := ht.mallocs hexact hmallocs
    have htagged : Tidy (s₁.tagged r (header + headerSize)) :=
      ht₁.keep (ht₁.shelved.of_eq rfl rfl) rfl
    exact htagged.bind hheader (by omega) size
  | freed ptr p s₁ _ hfrees =>
    exact (ht.keep (hfrees.shelved ht.shelved) hfrees.live_eq.1).unbind ptr
  | dropped ptr p s₁ s₂ _ hfrees hmallocs =>
    have ht₁ := ht.keep (hfrees.shelved ht.shelved) hfrees.live_eq.1
    exact (ht₁.mallocs hexact hmallocs).unbind ptr
  | renewed ptr header p s₁ s₂ _ hfrees hmallocs =>
    have ht₁ := ht.keep (hfrees.shelved ht.shelved) hfrees.live_eq.1
    have hheader := (hmallocs.shelved hexact ht₁.shelved).2 header rfl
    exact ((ht₁.mallocs hexact hmallocs).unbind ptr).bind hheader (Nat.le_refl _) 0
  | resized ptr n r p cls cap s₁ hn hlive hget hrec hr hreallocs =>
    obtain ⟨hs₁, hraw⟩ := hreallocs.shelved hexact ht.shelved hget
    have ht₁ := (ht.keep hs₁ hreallocs.live_eq.1).unbind ptr
    have hheader : ∃ header, r = header + headerSize ∧ header ≠ 0 := by
      rcases hraw hr with ⟨rfl, hplain⟩ | hnew
      · have hne := ht.placed.header r p hlive
        have hdistance := ht.distance r p hlive
        exact ⟨p.raw - headerSize, by omega, hne⟩
      · exact hnew
    obtain ⟨header, rfl, hne⟩ := hheader
    exact ht₁.bind hne (Nat.le_refl _) n
  | unresized ptr n p cls cap s₁ _ _ hget _ hreallocs =>
    exact ht.keep (hreallocs.shelved hexact ht.shelved hget).1 hreallocs.live_eq.1

theorem run_tidy {thp : Bool} {calls : List Call} (hexact : o.Exact)
    (hrun : run (step o) (initial thp) calls = some s) : Tidy s := by
  have hinit : Tidy (initial thp) :=
    ⟨⟨fun _ _ => nofun, fun _ => nofun⟩, ⟨rfl, fun _ _ => nofun⟩, fun _ _ => nofun⟩
  refine @run_invariant _ _ (step o) (fun _ _ => True) Tidy ?_ _ s calls hinit
    (guarded_trivial calls) hrun
  intro s c s' ht _ hstep
  obtain ⟨_, r, _, hperforms⟩ := step_cases ht.placed hstep
  exact hperforms.tidy hexact ht

end Calls

end Oxidalloc.Records
