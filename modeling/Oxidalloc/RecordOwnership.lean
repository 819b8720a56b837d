import Oxidalloc.RecordCalls

/-!
Who has which page. A big block, and the only block of a slab, has the pages of its extent
for itself; a block of a larger slab lies in the pages of the slab. The map of virtual
addresses gives out pages that nobody has.
-/
namespace Oxidalloc.Records

open Hashmap Programs ByteMemory

variable {o : Oracle} {s s' : State} {n r header size cls newCls cap addr len : ℕ}

/-- The ranges that are given out consist of whole pages without an owner. -/
def Oracle.Exact (o : Oracle) : Prop :=
  ∀ s addr len, o.admits s addr len = true →
    addr % 4096 = 0 ∧ ∀ q, Covers addr len q → s.owner q = none

theorem Oracle.Exact.free (h : o.Exact) (hadmits : o.admits (s.later n) addr len = true) :
    addr % 4096 = 0 ∧ ∀ q, Covers addr len q → s.owner q = none :=
  h (s.later n) addr len hadmits

/-- The map over the pages of the reservations: it gives out any of them without an owner. -/
def exactly (answer : ℕ → ℕ) (pages : ℕ → Bool) : Oracle where
  answer := answer
  admits s addr len := decide (addr % 4096 = 0) && (List.range (pagesOf len)).all fun i =>
    pages (addr / 4096 + i) && (s.owner (addr / 4096 + i)).isNone
  ours addr := pages (addr / 4096)

theorem exactly_admits {answer : ℕ → ℕ} {pages : ℕ → Bool}
    (h : (exactly answer pages).admits s addr len = true) :
    addr % 4096 = 0 ∧ ∀ q, Covers addr len q → pages q = true ∧ s.owner q = none := by
  obtain ⟨haddr, hall⟩ := Bool.and_eq_true_iff.mp h
  refine ⟨of_decide_eq_true haddr, fun q hq => ?_⟩
  have hmem : q - addr / 4096 ∈ List.range (pagesOf len) := by
    unfold Covers at hq
    exact List.mem_range.mpr (by omega)
  obtain ⟨hpage, hnone⟩ := Bool.and_eq_true_iff.mp (List.all_eq_true.mp hall _ hmem)
  rw [Nat.add_sub_cancel' hq.1] at hpage hnone
  exact ⟨hpage, Option.isNone_iff_eq_none.mp hnone⟩

theorem exactly_exact (answer : ℕ → ℕ) (pages : ℕ → Bool) : (exactly answer pages).Exact := by
  intro s addr len h
  obtain ⟨haddr, hall⟩ := exactly_admits h
  exact ⟨haddr, fun q hq => (hall q hq).2⟩

/-- The listed answers, and 1 after them. -/
def listed (answers : List ℕ) : Oracle := exactly (fun n => answers.getD n 1) fun _ => true

section Owners

theorem covers_pages {k q : ℕ} :
    Covers addr (k * 4096) q ↔ addr / 4096 ≤ q ∧ q < addr / 4096 + k := by
  rw [Covers, pagesOf_mul]

/-- Every page stays with its owner, but for those of one block. -/
def OwnersKept (except : Option ℕ) (s s' : State) : Prop :=
  ∀ q x, s.owner q = some x → (∀ h, except = some h → x ≠ .block h) → s'.owner q = some x

theorem ownersKept_refl (e : Option ℕ) : OwnersKept e s s := fun _ _ h _ => h

theorem OwnersKept.weaken (h : OwnersKept none s s') (e : Option ℕ) : OwnersKept e s s' :=
  fun q x hx _ => h q x hx nofun

theorem ownersKept_claim {owner : Owner} (hfree : ∀ q, Covers addr len q → s.owner q = none) :
    OwnersKept none s (s.claim addr len owner) := by
  intro q x hx _
  have hq : ¬ Covers addr len q := fun hq => absurd ((hfree q hq).symm.trans hx) nofun
  show (if Covers addr len q then some owner else s.owner q) = some x
  rw [if_neg hq, hx]

theorem ownersKept_release (hown : ∀ q, Covers addr len q → s.owner q = some (.block header)) :
    OwnersKept (some header) s (s.release addr len) := by
  intro q x hx hother
  have hq : ¬ Covers addr len q := by
    intro hq
    exact hother header rfl (Option.some.inj (hx.symm.trans (hown q hq)))
  show (if Covers addr len q then none else s.owner q) = some x
  rw [if_neg hq, hx]

theorem claim_release_owner (hfree : ∀ q, Covers addr len q → s.owner q = none) (owner : Owner) :
    ((s.claim addr len owner).release addr len).owner = s.owner := by
  funext q
  show (if Covers addr len q then none else if Covers addr len q then some owner else s.owner q) = _
  by_cases hq : Covers addr len q
  · rw [if_pos hq, hfree q hq]
  · rw [if_neg hq, if_neg hq]

theorem claim_owner_self {owner : Owner} {q : ℕ} (hq : Covers addr len q) :
    (s.claim addr len owner).owner q = some owner := if_pos hq

theorem Prepares.owner_eq (hexact : o.Exact) (h : Prepares o s s') : s'.owner = s.owner := by
  induction h with
  | refl => rfl
  | wait n _ ih => exact ih
  | undone hint len n owner _ hadmits ih =>
    rw [claim_release_owner (hexact.free hadmits).2, ih]

end Owners

section Capacity

theorem slabBlocks_big : slabBlocks 100 = 0 := by decide

theorem capacity_congr (h : s'.entry header = s.entry header) (cls : ℕ) :
    s'.capacity header cls = s.capacity header cls := by
  rw [State.capacity, State.capacity, h]

theorem capacity_slab (hcls : cls < 34) : s.capacity header cls = payload cls := if_neg (by omega)

theorem capacity_of_recorded (h : Recorded s header cls cap) : s.capacity header cls = cap := by
  rcases h with ⟨rfl, hentry⟩ | ⟨hlt, rfl⟩
  · rw [State.capacity, if_pos rfl, hentry, Option.getD_some]
  · exact capacity_slab hlt

theorem removed_entry {info : BigAllocMeta} (ha : Agree s)
    (hinfo : (s.big.remove header).2 = some info) : s.entry header = some info.size := by
  rw [(remove_get ha.sound header).2.2] at hinfo
  exact congrArg (Option.map BigAllocMeta.size) hinfo

end Capacity

variable [Layout]

section Tables

/-- No block of a slab class ends at the end of a page, also not behind a slab header. -/
theorem payload_page (h : cls < 34) :
    (payload cls + headerSize) % 4096 ≠ 0 ∧ (payload cls + headerSize + 32) % 4096 ≠ 0 ∧
      pagesOf (payload cls + headerSize + 32) = pagesOf (payload cls + headerSize) := by
  have hall : ∀ c < 34, ∀ size ∈ [16, 32], (payload c + size) % 4096 ≠ 0 ∧
      (payload c + size + 32) % 4096 ≠ 0 ∧
      pagesOf (payload c + size + 32) = pagesOf (payload c + size) := by decide
  refine hall cls h headerSize ?_
  simp only [List.mem_cons, List.not_mem_nil, or_false]
  exact headerSize_cases

end Tables

/-- The bytes of a block with pages of its own. For a big one they are what `big_malloc`
claims. -/
def span (thp : Bool) (cls cap : ℕ) : ℕ := if cls = 100 then reserved thp cap else cap + headerSize

theorem span_slab (thp : Bool) (hcls : cls < 34) :
    span thp cls cap = cap + headerSize := if_neg (by omega)

theorem span_big (thp : Bool) (cap : ℕ) : span thp 100 cap = reserved thp cap := if_pos rfl

/-- The place of a block of a class: pages of its own, or a slot of a slab. -/
inductive Place (s : State) (h cls len : ℕ) : Prop
  | alone (hoffset : h % 4096 = 0 ∨ (h % 4096 = 32 ∧ cls ≠ 100)) (hlen : len ≠ 0)
    (hown : ∀ q, Covers h len q → s.owner q = some (.block h))
  | shared (base i : ℕ) (hi : i < slabBlocks cls) (hmany : slabBlocks cls ≠ 1)
    (hslot : h = base + 32 + i * (payload cls + headerSize)) (hbase : base % 4096 = 0)
    (hown : ∀ q, Covers base (slabTotal cls) q → s.owner q = some (.slab base cls))

structure Owned (s : State) : Prop where
  heads : ∀ h r, s.headers.get h = some r →
    Place s h r.cls (span s.thp r.cls (s.capacity h r.cls))
  slots : ∀ p ∈ s.uncarved, s.headers.get p.1 = none ∧ Place s p.1 p.2 (payload p.2 + headerSize)
  unique : ∀ p ∈ s.uncarved, ∀ p' ∈ s.uncarved, p.1 = p'.1 → p = p'

section Places

theorem Place.keep {e : Option ℕ} (hkept : OwnersKept e s s') (hne : e ≠ some header)
    (h : Place s header cls len) : Place s' header cls len := by
  cases h with
  | alone hoffset hlen hown =>
    refine .alone hoffset hlen fun q hq => hkept q _ (hown q hq) fun x hx hblock => hne ?_
    rw [hx, Owner.block.inj hblock]
  | shared base i hi hmany hslot hbase hown =>
    exact .shared base i hi hmany hslot hbase fun q hq => hkept q _ (hown q hq) fun x _ => nofun

theorem Place.of_owner (h : Place s header cls len) (howner : s'.owner = s.owner) :
    Place s' header cls len := by
  refine Place.keep (e := none) (fun q x hx _ => ?_) nofun h
  rw [howner, hx]

/-- A slot lies within its slab. -/
theorem slot_bounds {base i : ℕ} (hi : i < slabBlocks cls) :
    base + 32 + i * (payload cls + headerSize) + (payload cls + headerSize) ≤
      base + slabTotal cls := by
  have hmul : (i + 1) * (payload cls + headerSize) ≤ slabBlocks cls * (payload cls + headerSize) :=
    Nat.mul_le_mul_right _ hi
  rw [Nat.add_mul, Nat.one_mul] at hmul
  unfold slabTotal
  rw [Nat.mul_comm (payload cls + headerSize)]
  omega

theorem covers_slot {base i q : ℕ} (hbase : base % 4096 = 0) (hi : i < slabBlocks cls)
    (hlo : (base + 32 + i * (payload cls + headerSize)) / 4096 ≤ q)
    (hhi : q * 4096 < base + 32 + i * (payload cls + headerSize) + (payload cls + headerSize)) :
    Covers base (slabTotal cls) q := by
  have hslot := @slot_bounds cls _ base i hi
  unfold Covers pagesOf
  omega

/-- Every page that the header reaches has an owner. -/
theorem Place.reach (h : Place s header cls len) {q : ℕ} (hlo : header / 4096 ≤ q)
    (hhi : q * 4096 < header + headerSize) : s.owner q ≠ none := by
  have hhead := headerSize_cases
  cases h with
  | alone hoffset hlen hown =>
    have hpos := pagesOf_pos hlen
    rw [hown q ⟨hlo, by omega⟩]
    exact Option.some_ne_none _
  | shared base i hi hmany hslot hbase hown =>
    subst hslot
    rw [hown q (covers_slot hbase hi hlo (by omega))]
    exact Option.some_ne_none _

theorem Place.page_ne_none (h : Place s header cls len) : s.owner (header / 4096) ≠ none := by
  have hhead := headerSize_cases
  exact h.reach (Nat.le_refl _) (by omega)

/-- A big block and the only block of a slab have pages of their own. -/
theorem Place.solo (h : Place s header cls len) (hsolo : cls = 100 ∨ slabBlocks cls = 1) :
    (header % 4096 = 0 ∨ (header % 4096 = 32 ∧ cls ≠ 100)) ∧
      ∀ q, Covers header len q → s.owner q = some (.block header) := by
  cases h with
  | alone hoffset _ hown => exact ⟨hoffset, hown⟩
  | shared base i hi hmany _ _ _ =>
    rcases hsolo with rfl | hone
    · rw [slabBlocks_big] at hi
      exact absurd hi (Nat.not_lt_zero i)
    · exact absurd hone hmany

end Places

section OwnedLemmas

theorem Owned.header_page (ho : Owned s) (h : s.headers.get header ≠ none) :
    s.owner (header / 4096) ≠ none := by
  obtain ⟨v, hv⟩ := Option.ne_none_iff_exists'.mp h
  exact (ho.heads header v hv).page_ne_none

theorem Owned.slot_ne (ho : Owned s) {p : ℕ × ℕ} (hp : p ∈ s.uncarved)
    (h : s.headers.get header ≠ none) : p.1 ≠ header := by
  rintro rfl
  exact h (ho.slots p hp).1

/-- A change of the records and the pages of one block. -/
theorem Owned.change (ho : Owned s) (honly : OnlyAt header s s')
    (hkept : OwnersKept (some header) s s')
    (hslots : ∀ p ∈ s'.uncarved, p ∈ s.uncarved ∧ p.1 ≠ header) (hthp : s'.thp = s.thp)
    (hat : ∀ r, s'.headers.get header = some r →
      Place s' header r.cls (span s.thp r.cls (s'.capacity header r.cls))) : Owned s' where
  heads h r hr := by
    rw [hthp]
    by_cases heq : h = header
    · subst heq
      exact hat r hr
    · rw [honly.headers h heq] at hr
      rw [capacity_congr (honly.entry h heq)]
      exact (ho.heads h r hr).keep hkept fun hx => heq (Option.some.inj hx).symm
  slots p hp := by
    obtain ⟨hold, hne⟩ := hslots p hp
    obtain ⟨hnone, hplace⟩ := ho.slots p hold
    refine ⟨by rw [honly.headers p.1 hne, hnone], hplace.keep hkept fun hx => ?_⟩
    exact hne (Option.some.inj hx).symm
  unique p hp p' hp' := ho.unique p (hslots p hp).1 p' (hslots p' hp').1

theorem Owned.same (ho : Owned s) (hheaders : s'.headers = s.headers) (hbig : s'.big = s.big)
    (hslots : s'.uncarved = s.uncarved) (hthp : s'.thp = s.thp) (hkept : OwnersKept none s s') :
    Owned s' where
  heads h r hr := by
    have hcap : s'.capacity h r.cls = s.capacity h r.cls :=
      capacity_congr (entry_congr (by rw [hbig])) r.cls
    rw [hheaders] at hr
    rw [hcap, hthp]
    exact (ho.heads h r hr).keep hkept nofun
  slots p hp := by
    rw [hslots] at hp
    obtain ⟨hnone, hplace⟩ := ho.slots p hp
    exact ⟨by rw [hheaders, hnone], hplace.keep hkept nofun⟩
  unique := by
    rw [hslots]
    exact ho.unique

end OwnedLemmas

section Prepare

/-- The slots of a new slab. -/
theorem place_slot {hint i : ℕ} (hcls : cls < 34) (hhint : hint % 4096 = 0)
    (hi : i < slabBlocks cls)
    (hown : ∀ q, Covers hint (slabTotal cls) q → s.owner q = some (slabOwner cls hint)) :
    Place s (hint + 32 + i * (payload cls + headerSize)) cls (payload cls + headerSize) := by
  have hhead := headerSize_cases
  by_cases hone : slabBlocks cls = 1
  · have hzero : i = 0 := by omega
    subst hzero
    rw [Nat.zero_mul, Nat.add_zero]
    refine .alone (Or.inr ⟨by omega, by omega⟩) (by omega) fun q hq => ?_
    rw [hown q ?_, slabOwner, if_pos hone]
    unfold Covers slabTotal pagesOf at *
    rw [hone]
    omega
  · refine .shared hint i hi hone rfl hhint fun q hq => ?_
    rw [hown q hq, slabOwner, if_neg hone]

theorem mem_slabSlots {hint : ℕ} {p : ℕ × ℕ} (h : p ∈ slabSlots cls hint) :
    ∃ i < slabBlocks cls, p = (hint + 32 + i * (payload cls + headerSize), cls) := by
  obtain ⟨i, hi, rfl⟩ := List.mem_map.mp h
  exact ⟨i, List.mem_range.mp hi, rfl⟩

theorem Owned.slab (ho : Owned s) {hint : ℕ} (hcls : cls < 34) (hhint : hint % 4096 = 0)
    (hfree : ∀ q, Covers hint (slabTotal cls) q → s.owner q = none) : Owned (s.slab cls hint) := by
  have hkept : OwnersKept none s (s.slab cls hint) := ownersKept_claim hfree
  -- the page of a new slot had no owner, so nothing was there
  have hfresh : ∀ p ∈ slabSlots cls hint, s.owner (p.1 / 4096) = none := by
    intro p hp
    obtain ⟨i, hi, rfl⟩ := mem_slabSlots hp
    have hhead := headerSize_cases
    exact hfree _ (covers_slot hhint hi (Nat.le_refl _) (by dsimp only; omega))
  have hold : ∀ p ∈ slabSlots cls hint, ∀ p' ∈ s.uncarved, p.1 ≠ p'.1 := by
    intro p hp p' hp' heq
    exact (ho.slots p' hp').2.page_ne_none (heq ▸ hfresh p hp)
  refine ⟨fun h r hr => ?_, fun p hp => ?_, fun p hp p' hp' heq => ?_⟩
  · exact (ho.heads h r hr).keep hkept nofun
  · rcases List.mem_append.mp hp with hnew | hpast
    · refine ⟨?_, ?_⟩
      · by_contra hhead
        exact ho.header_page hhead (hfresh p hnew)
      · obtain ⟨i, hi, rfl⟩ := mem_slabSlots hnew
        exact place_slot hcls hhint hi fun q hq => claim_owner_self hq
    · obtain ⟨hnone, hplace⟩ := ho.slots p hpast
      exact ⟨hnone, hplace.keep hkept nofun⟩
  · rcases List.mem_append.mp hp with hnew | hpast
    · rcases List.mem_append.mp hp' with hnew' | hpast'
      · obtain ⟨i, _, rfl⟩ := mem_slabSlots hnew
        obtain ⟨j, _, rfl⟩ := mem_slabSlots hnew'
        exact congrArg (fun x => (x, cls)) heq
      · exact absurd heq (hold p hnew p' hpast')
    · rcases List.mem_append.mp hp' with hnew' | hpast'
      · exact absurd heq.symm (hold p' hnew' p hpast)
      · exact ho.unique p hpast p' hpast' heq

theorem Prepares.owned (hexact : o.Exact) (ho : Owned s) (h : Prepares o s s') : Owned s' := by
  obtain ⟨hheaders, hbig, hslots⟩ := h.records
  refine ho.same hheaders hbig hslots h.live_eq.2 fun q x hx _ => ?_
  rw [h.owner_eq hexact, hx]

end Prepare

section Give

/-- No range that the map gives out has a header in it. -/
theorem Owned.avoids (hexact : o.Exact) (ho : Owned s) : o.AvoidsIn s := by
  intro k addr len hlen hadmits h hget
  obtain ⟨haddr, hfree⟩ := hexact.free hadmits
  obtain ⟨v, hv⟩ := Option.ne_none_iff_exists'.mp hget
  have hplace := ho.heads h v hv
  by_contra hnot
  -- the first page that both ranges have
  obtain ⟨q, hlo, hhi, hq⟩ :
      ∃ q, h / 4096 ≤ q ∧ q * 4096 < h + headerSize ∧ Covers addr len q := by
    have hhead := headerSize_cases
    refine ⟨max (h / 4096) (addr / 4096), Nat.le_max_left _ _, by omega, Nat.le_max_right _ _, ?_⟩
    unfold pagesOf
    omega
  exact hplace.reach hlo hhi (hfree q hq)

theorem Owned.given (ho : Owned s) {next lifeTime k : ℕ} (hcls : matchSizeClass size = some cls)
    (hfiled : Filed s size header ((s.given header cls next lifeTime).later k))
    (hplace : Place s header cls (payload cls + headerSize))
    (hslots : ∀ p ∈ s.uncarved, p ≠ (header, cls) → p.1 ≠ header) :
    Owned ((s.given header cls next lifeTime).later k) := by
  refine ho.change hfiled.only (ownersKept_refl _) (fun p hp => ?_) rfl fun r hr => ?_
  · obtain ⟨hmem, hne⟩ := List.mem_filter.mp hp
    exact ⟨hmem, hslots p hmem (of_decide_eq_true hne)⟩
  · rw [← Option.some.inj (hfiled.get.symm.trans hr), (newClass_some hcls).1,
      capacity_slab (matchSizeClass_some hcls).1, span_slab _ (matchSizeClass_some hcls).1]
    exact hplace.of_owner rfl

theorem Gives.owned (hexact : o.Exact) (ha : Agree s) (ho : Owned s) (h : Gives o s size r s') :
    Owned s' := by
  by_cases hr : r = 0
  · obtain ⟨n, rfl⟩ := (hr ▸ h).eq_later
    exact ho.same rfl rfl rfl rfl (ownersKept_refl none)
  obtain ⟨header, hheader, hne, hfiled⟩ := h.filed ha (ho.avoids hexact) hr
  cases h with
  | nothing n => exact absurd rfl hr
  | cached n b cls next lifeTime hcls _ hget =>
    obtain rfl := Nat.add_right_cancel hheader
    refine ho.given hcls hfiled ?_ fun p hp _ => ho.slot_ne hp (by rw [hget]; exact nofun)
    have hplace := ho.heads b _ hget
    rwa [capacity_slab (matchSizeClass_some hcls).1,
      span_slab _ (matchSizeClass_some hcls).1] at hplace
  | carved n b cls next lifeTime hcls _ hget hslot =>
    obtain rfl := Nat.add_right_cancel hheader
    refine ho.given hcls hfiled (ho.slots _ hslot).2 fun p hp hne heq => ?_
    exact hne (ho.unique p hp _ hslot heq)
  | opened k n hint cls next lifeTime hcls _ hhint hadmits =>
    obtain ⟨haligned, hfree⟩ := hexact.free hadmits
    have hlt := (matchSizeClass_some hcls).1
    have hslab := ho.slab hlt haligned hfree
    obtain rfl := Nat.add_right_cancel hheader
    have hslot : (hint + 32, cls) ∈ (s.slab cls hint).uncarved := by
      refine List.mem_append_left _ (List.mem_map.mpr ⟨0, ?_, ?_⟩)
      · exact List.mem_range.mpr (slabBlocks_bounds hlt).1
      · rw [Nat.zero_mul, Nat.add_zero]
    refine hslab.given hcls (hfiled.of_eq rfl rfl) (hslab.slots _ hslot).2 fun p hp hne heq => ?_
    exact hne (hslab.unique p hp _ hslot heq)
  | big k n hint mmapOk mem effects big hcls hhint hadmits hinsert hmem =>
    obtain rfl := Nat.add_right_cancel hheader
    obtain ⟨haligned, hfree⟩ := hexact.free hadmits
    have hkept : OwnersKept (some hint) s (s.claim hint (reserved s.thp size) (.block hint)) :=
      (ownersKept_claim hfree).weaken _
    have hpage : s.owner (hint / 4096) = none := by
      refine hfree _ ⟨Nat.le_refl _, ?_⟩
      have hpos := pagesOf_pos (reserved_ne_zero s.thp size)
      omega
    refine ho.change hfiled.only hkept (fun p hp => ⟨hp, fun heq => ?_⟩) rfl fun r hr => ?_
    · exact (ho.slots p hp).2.page_ne_none (heq ▸ hpage)
    · rw [← Option.some.inj (hfiled.get.symm.trans hr), capacity_of_recorded hfiled.recorded,
        (newClass_none hcls).1, (newClass_none hcls).2, span_big]
      exact .alone (Or.inl haligned) (reserved_ne_zero s.thp size) fun q hq => claim_owner_self hq

end Give

section Free

/-- A big block has the pages of its reservation, from the start of a page on. -/
theorem Owned.big_pages (ho : Owned s) (hget : s.headers.get header = some ⟨100, true⟩)
    (hentry : s.entry header = some cap) :
    header % 4096 = 0 ∧
      ∀ q, Covers header (reserved s.thp cap) q → s.owner q = some (.block header) := by
  obtain ⟨hoffset, hown⟩ := (ho.heads header _ hget).solo (Or.inl rfl)
  rw [capacity_of_recorded (Or.inl ⟨rfl, hentry⟩), span_big] at hown
  exact ⟨hoffset.resolve_right fun h => h.2 rfl, hown⟩

theorem Frees.owned (h : Frees s header s') (ha : Agree s) (ho : Owned s) : Owned s' := by
  have hended := h.ended ha
  cases h with
  | slab cls hget hcls =>
    have hslots : ∀ p ∈ s.uncarved, p ∈ s.uncarved ∧ p.1 ≠ header := fun p hp =>
      ⟨hp, ho.slot_ne hp (by rw [hget]; exact nofun)⟩
    refine ho.change hended.only (ownersKept_refl _) hslots rfl fun r hr => ?_
    have hplace := ho.heads header _ hget
    have hr' := (HeaderTable.get_set_self s.headers header ⟨cls, false⟩).symm.trans hr
    rw [← Option.some.inj hr']
    rw [capacity_slab hcls, span_slab _ hcls] at hplace ⊢
    exact hplace.of_owner rfl
  | big n info hget hinfo =>
    have hsolo := ho.big_pages hget (removed_entry ha hinfo)
    have hkept : OwnersKept (some header) s (s.release header (reserved s.thp info.size)) :=
      ownersKept_release hsolo.2
    refine ho.change hended.only hkept (fun p hp => ⟨hp, ?_⟩) rfl fun r hr => ?_
    · exact ho.slot_ne hp (by rw [hget]; exact nofun)
    · exact absurd ((HeaderTable.get_remove_self s.headers header).symm.trans hr) nofun

end Free

end Oxidalloc.Records
