import Oxidalloc.HashmapRefinement
import Oxidalloc.ReallocRecordsSpec

/-!
The headers and the map of big allocations agree: a big block has its entry from the call
that makes it big to the call that ends it, and every other header has a size class. Each
function over records changes the header and the entry of one block at most.
-/
namespace Oxidalloc.Records

open Hashmap HashmapRefinement Programs ByteMemory Function

variable {o : Oracle} {s s' : State} {n r header size cls newCls cap : ℕ}

section BigMap

variable {big big' : BigAllocMap} {key : ℕ} {info : BigAllocMeta} {mmapOk : Bool}

theorem insert_get (hsound : ∃ f, Sound big f) (h : big.insert mmapOk key info = .ok big') :
    (∃ f, Sound big' f) ∧ big'.get = update big.get key (some info) := by
  obtain ⟨f, hf⟩ := hsound
  rcases @insert_sound big f mmapOk hf key info with ⟨e, he, _⟩ | ⟨t, ht, hsound⟩
  · exact absurd (h.symm.trans he) nofun
  · obtain rfl := Except.ok.inj (h.symm.trans ht)
    refine ⟨⟨_, hsound⟩, ?_⟩
    have hold : big.get = f := funext (get_sound hf)
    rw [hold]
    exact funext (get_sound hsound)

theorem remove_get (hsound : ∃ f, Sound big f) (key : ℕ) :
    (∃ f, Sound (big.remove key).1 f) ∧ (big.remove key).1.get = update big.get key none ∧
      (big.remove key).2 = big.get key := by
  obtain ⟨f, hf⟩ := hsound
  obtain ⟨hfound, hsound⟩ := remove_sound hf key
  have hold : big.get = f := funext (get_sound hf)
  refine ⟨⟨_, hsound⟩, ?_, hfound.trans (get_sound hf key).symm⟩
  rw [hold]
  exact funext (get_sound hsound)

end BigMap

/-- The records of one block at most are changed. -/
structure OnlyAt (header : ℕ) (s s' : State) : Prop where
  headers : ∀ h, h ≠ header → s'.headers.get h = s.headers.get h
  entry : ∀ h, h ≠ header → s'.entry h = s.entry h

structure Agree (s : State) : Prop where
  sound : ∃ f, Sound s.big f
  entry_iff : ∀ h, s.entry h ≠ none ↔ s.headers.get h = some ⟨100, true⟩
  classes : ∀ h r, s.headers.get h = some r → r.cls < 34 ∨ r = ⟨100, true⟩
  sizes : ∀ h v, s.entry h = some v → matchSizeClass v = none
  slots : ∀ p ∈ s.uncarved, p.1 ≠ 0 ∧ p.2 < 34
  zero : s.headers.get 0 = none

/-- What has to hold of the records of one block. -/
structure AgreeAt (s : State) (h : ℕ) : Prop where
  entry_iff : s.entry h ≠ none ↔ s.headers.get h = some ⟨100, true⟩
  classes : ∀ r, s.headers.get h = some r → r.cls < 34 ∨ r = ⟨100, true⟩
  sizes : ∀ v, s.entry h = some v → matchSizeClass v = none

def Live (s : State) (h : ℕ) : Prop := ∃ cls, s.headers.get h = some ⟨cls, true⟩

theorem agree_initial (thp : Bool) : Agree (initial thp) where
  sound := ⟨_, sound_new⟩
  entry_iff _ := ⟨fun hne => absurd rfl hne, nofun⟩
  classes _ _ := nofun
  sizes _ _ := nofun
  slots _ := nofun
  zero := rfl

section AgreeLemmas

theorem Agree.header_ne_zero (ha : Agree s) (h : s.headers.get header ≠ none) : header ≠ 0 := by
  rintro rfl
  exact h ha.zero

theorem Agree.entry_none (ha : Agree s) (h : s.headers.get header ≠ some ⟨100, true⟩) :
    s.entry header = none := by
  by_contra hne
  exact h ((ha.entry_iff header).mp hne)

theorem Agree.of_eq (ha : Agree s) (hheaders : s'.headers = s.headers) (hbig : s'.big = s.big)
    (hslots : s'.uncarved = s.uncarved) : Agree s' := by
  have hentry : ∀ h, s'.entry h = s.entry h := fun h => by rw [State.entry, hbig, State.entry]
  constructor
  · rw [hbig]
    exact ha.sound
  · simpa only [hentry, hheaders] using ha.entry_iff
  · simpa only [hheaders] using ha.classes
  · simpa only [hentry] using ha.sizes
  · simpa only [hslots] using ha.slots
  · rw [hheaders, ha.zero]

/-- A change of the records of one block keeps the agreement if that block agrees. -/
theorem Agree.change (ha : Agree s) (honly : OnlyAt header s s') (hsound : ∃ f, Sound s'.big f)
    (hslots : ∀ p ∈ s'.uncarved, p ∈ s.uncarved) (hne : header ≠ 0) (hat : AgreeAt s' header) :
    Agree s' where
  sound := hsound
  entry_iff h := by
    by_cases heq : h = header
    · exact heq ▸ hat.entry_iff
    · rw [honly.entry h heq, honly.headers h heq]
      exact ha.entry_iff h
  classes h r hr := by
    by_cases heq : h = header
    · exact hat.classes r (heq ▸ hr)
    · rw [honly.headers h heq] at hr
      exact ha.classes h r hr
  sizes h v hv := by
    by_cases heq : h = header
    · exact hat.sizes v (heq ▸ hv)
    · rw [honly.entry h heq] at hv
      exact ha.sizes h v hv
  slots p hp := ha.slots p (hslots p hp)
  zero := (honly.headers 0 hne.symm).trans ha.zero

theorem agreeAt_big (hget : s.headers.get header = some ⟨100, true⟩)
    (hentry : s.entry header = some size) (hcls : matchSizeClass size = none) :
    AgreeAt s header where
  entry_iff := by simp only [hentry, hget, ne_eq, reduceCtorEq, not_false_eq_true]
  classes r hr := Or.inr (Option.some.inj (hr.symm.trans hget))
  sizes v hv := by rwa [← Option.some.inj (hentry.symm.trans hv)]

theorem agreeAt_slab {live : Bool} (hget : s.headers.get header = some ⟨cls, live⟩)
    (hentry : s.entry header = none) (hcls : cls < 34) : AgreeAt s header where
  entry_iff := by
    refine ⟨fun hne => absurd hentry hne, fun hbig => ?_⟩
    have hcls' := congrArg Header.cls (Option.some.inj (hget.symm.trans hbig))
    exact absurd hcls (by rw [show cls = 100 from hcls']; decide)
  classes _ hr := Or.inl (by rwa [← Option.some.inj (hget.symm.trans hr)])
  sizes _ hv := absurd (hentry.symm.trans hv) nofun

theorem agreeAt_none (hget : s.headers.get header = none) (hentry : s.entry header = none) :
    AgreeAt s header where
  entry_iff := ⟨fun hne => absurd hentry hne, fun hbig => absurd (hget.symm.trans hbig) nofun⟩
  classes _ hr := absurd (hget.symm.trans hr) nofun
  sizes _ hv := absurd (hentry.symm.trans hv) nofun

end AgreeLemmas

section Headers

theorem HeaderTable.get_set_self (t : HeaderTable) (h : ℕ) (v : Header) :
    (t.set h v).get h = some v := update_self h _ _

theorem HeaderTable.get_set_of_ne {t : HeaderTable} {h x : ℕ} {v : Header} (hne : x ≠ h) :
    (t.set h v).get x = t.get x := update_of_ne hne _ _

theorem HeaderTable.get_remove_self (t : HeaderTable) (h : ℕ) : (t.remove h).get h = none :=
  update_self h _ _

theorem HeaderTable.get_remove_of_ne {t : HeaderTable} {h x : ℕ} (hne : x ≠ h) :
    (t.remove h).get x = t.get x := update_of_ne hne _ _

theorem entry_congr (h : s'.big.get header = s.big.get header) : s'.entry header = s.entry header :=
  congrArg (Option.map BigAllocMeta.size) h

theorem onlyAt_set {v : Header} (hheaders : s'.headers = s.headers.set header v)
    (hbig : ∀ h, h ≠ header → s'.big.get h = s.big.get h) : OnlyAt header s s' where
  headers h hne := by rw [hheaders, HeaderTable.get_set_of_ne hne]
  entry h hne := entry_congr (hbig h hne)

end Headers

theorem Prepares.records (h : Prepares o s s') :
    s'.headers = s.headers ∧ s'.big = s.big ∧ s'.uncarved = s.uncarved := by
  induction h with
  | refl => exact ⟨rfl, rfl, rfl⟩
  | wait n _ ih => exact ih
  | undone hint len n owner _ _ ih => exact ih

theorem Prepares.agree (ha : Agree s) (h : Prepares o s s') : Agree s' := by
  obtain ⟨hheaders, hbig, hslots⟩ := h.records
  exact ha.of_eq hheaders hbig hslots

/-- A block gets the records of a request. -/
structure Filed (s : State) (size header : ℕ) (s' : State) : Prop where
  agree : Agree s'
  only : OnlyAt header s s'
  get : s'.headers.get header = some ⟨newClass size, true⟩
  recorded : Recorded s' header (newClass size) (newCapacity size)

theorem filed_slab {v : Header} (ha : Agree s) (hcls : matchSizeClass size = some cls)
    (hnew : v = ⟨cls, true⟩) (hold : s.headers.get header ≠ some ⟨100, true⟩) (hne : header ≠ 0)
    (hheaders : s'.headers = s.headers.set header v) (hbig : s'.big = s.big)
    (hslots : ∀ p ∈ s'.uncarved, p ∈ s.uncarved) : Filed s size header s' := by
  have hlt := (matchSizeClass_some hcls).1
  obtain ⟨hclass, hcap⟩ := newClass_some hcls
  have honly : OnlyAt header s s' := onlyAt_set hheaders fun h _ => by rw [hbig]
  have hget : s'.headers.get header = some ⟨cls, true⟩ := by
    rw [hheaders, HeaderTable.get_set_self, hnew]
  have hentry : s'.entry header = none := by
    rw [← ha.entry_none hold]
    exact entry_congr (by rw [hbig])
  refine ⟨ha.change honly ?_ hslots hne (agreeAt_slab hget hentry hlt), honly, ?_, ?_⟩
  · rw [hbig]
    exact ha.sound
  · rw [hget, hclass]
  · rw [hclass, hcap]
    exact Or.inr ⟨hlt, rfl⟩

theorem Filed.of_eq {s₀ : State} (h : Filed s size header s') (hheaders : s.headers = s₀.headers)
    (hbig : s.big = s₀.big) : Filed s₀ size header s' := by
  refine ⟨h.agree, ⟨?_, fun x hne => ?_⟩, h.get, h.recorded⟩
  · simpa only [hheaders] using h.only.headers
  · rw [h.only.entry x hne, State.entry, State.entry, hbig]

theorem Extends.records {old new : ℕ} (h : Extends o s header old new s') :
    s'.headers = s.headers ∧ s'.big = s.big ∧ s'.uncarved = s.uncarved := by
  cases h <;> exact ⟨rfl, rfl, rfl⟩

variable [Layout]

/-- The ranges that are given out cover no header of a live or cached block. -/
def Oracle.Avoids (o : Oracle) : Prop :=
  ∀ s addr len, o.admits s addr len = true →
    ∀ h, s.headers.get h ≠ none → h + headerSize ≤ addr ∨ addr + len ≤ h

/-- The same of one state and the ranges that are not empty. -/
def Oracle.AvoidsIn (o : Oracle) (s : State) : Prop :=
  ∀ k addr len, len ≠ 0 → o.admits (s.later k) addr len = true →
    ∀ h, s.headers.get h ≠ none → h + headerSize ≤ addr ∨ addr + len ≤ h

theorem slabTotal_le (hcls : cls < 34) : 32 + (payload cls + headerSize) ≤ slabTotal cls := by
  have hpos := (slabBlocks_bounds hcls).1
  have hmul : (payload cls + headerSize) * 1 ≤ (payload cls + headerSize) * slabBlocks cls :=
    Nat.mul_le_mul_left _ hpos
  unfold slabTotal
  omega

/-- The place of the first block of a new slab has no header. -/
theorem Oracle.AvoidsIn.opened (havoids : o.AvoidsIn s) {k hint : ℕ} (hcls : cls < 34)
    (hadmits : o.admits (s.later k) hint (slabTotal cls) = true) :
    s.headers.get (hint + 32) = none := by
  by_contra hget
  have htotal := slabTotal_le hcls
  have hhead := headerSize_cases
  rcases havoids k hint _ (slabTotal_ne_zero cls) hadmits (hint + 32) hget with hlt | hlt
  · omega
  · omega

theorem Agree.slab (ha : Agree s) (hcls : cls < 34) (hint : ℕ) : Agree (s.slab cls hint) := by
  refine ⟨ha.sound, ha.entry_iff, ha.classes, ha.sizes, fun p hp => ?_, ha.zero⟩
  rcases List.mem_append.mp hp with hslot | hold
  · obtain ⟨i, _, rfl⟩ := List.mem_map.mp hslot
    exact ⟨by dsimp only; omega, hcls⟩
  · exact ha.slots p hold

theorem filed_given {next lifeTime : ℕ} (ha : Agree s) (hcls : matchSizeClass size = some cls)
    (hold : s.headers.get header ≠ some ⟨100, true⟩) (hne : header ≠ 0) (k : ℕ) :
    Filed s size header ((s.given header cls next lifeTime).later k) :=
  filed_slab ha hcls rfl hold hne rfl rfl fun _ hp => (List.mem_filter.mp hp).1

theorem Gives.filed (ha : Agree s) (havoids : o.AvoidsIn s) (h : Gives o s size r s') (hr : r ≠ 0) :
    ∃ header, r = header + headerSize ∧ header ≠ 0 ∧ Filed s size header s' := by
  cases h with
  | nothing n => exact absurd rfl hr
  | cached n header cls next lifeTime hcls _ hget =>
    have hne := ha.header_ne_zero (by rw [hget]; exact Option.some_ne_none _)
    refine ⟨header, rfl, hne, filed_given ha hcls (fun hbig => ?_) hne n⟩
    exact absurd (congrArg Header.live (Option.some.inj (hget.symm.trans hbig))) Bool.false_ne_true
  | carved n header cls next lifeTime hcls _ hget hslot =>
    have hne := (ha.slots _ hslot).1
    refine ⟨header, rfl, hne, filed_given ha hcls (fun hbig => ?_) hne n⟩
    exact absurd (hget.symm.trans hbig) nofun
  | opened k n hint cls next lifeTime hcls _ hhint hadmits =>
    have hlt := (matchSizeClass_some hcls).1
    have hnone := havoids.opened hlt hadmits
    have hfiled := @filed_given (s.slab cls hint) (hint + 32) size cls _ next lifeTime
      (ha.slab hlt hint) hcls (fun hbig => absurd (hnone.symm.trans hbig) nofun) (by omega) n
    exact ⟨hint + 32, rfl, by omega, hfiled.of_eq rfl rfl⟩
  | big k n hint mmapOk mem effects big hcls hhint hadmits hinsert hmem =>
    obtain ⟨hclass, hcap⟩ := newClass_none hcls
    obtain ⟨hsound, hbig⟩ := insert_get ha.sound hinsert
    have honly := @onlyAt_set s
      { s with headers := s.headers.set hint ⟨100, true⟩, big := big } hint _ rfl
      fun h hne => by
        show big.get h = s.big.get h
        rw [hbig, update_of_ne hne]
    have hget := HeaderTable.get_set_self s.headers hint ⟨100, true⟩
    have hentry : (big.get hint).map BigAllocMeta.size = some size := by
      rw [hbig, update_self, Option.map_some]
    refine ⟨hint, rfl, hhint, ?_, ⟨honly.headers, honly.entry⟩, ?_, ?_⟩
    · exact ha.change ⟨honly.headers, honly.entry⟩ hsound (fun p hp => hp) hhint
        (agreeAt_big hget hentry hcls)
    · rw [hclass]
      exact hget
    · rw [hclass, hcap]
      exact Or.inl ⟨rfl, hentry⟩

/-- No range that an allocation may get covers a header. -/
def Oracle.AvoidsFrom (o : Oracle) (s : State) : Prop := ∀ s₁, Prepares o s s₁ → o.AvoidsIn s₁

theorem Mallocs.filed (ha : Agree s) (havoids : o.AvoidsFrom s) (h : Mallocs o s size r s')
    (hr : r ≠ 0) : ∃ header, r = header + headerSize ∧ header ≠ 0 ∧ Filed s size header s' := by
  obtain ⟨s₁, hprepares, hgives⟩ := h
  obtain ⟨hheaders, hbig, _⟩ := hprepares.records
  obtain ⟨header, hheader, hne, hfiled⟩ :=
    hgives.filed (hprepares.agree ha) (havoids s₁ hprepares) hr
  exact ⟨header, hheader, hne, hfiled.of_eq hheaders hbig⟩

theorem Mallocs.refused (ha : Agree s) (h : Mallocs o s size 0 s') :
    Agree s' ∧ s'.headers = s.headers ∧ s'.big = s.big := by
  obtain ⟨s₁, hprepares, hgives⟩ := h
  obtain ⟨n, rfl⟩ := hgives.eq_later
  exact ⟨(hprepares.agree ha).of_eq rfl rfl rfl, hprepares.records.1, hprepares.records.2.1⟩

theorem Mallocs.agree (havoids : o.AvoidsFrom s) (ha : Agree s) (h : Mallocs o s size r s') :
    Agree s' := by
  by_cases hr : r = 0
  · subst hr
    exact (h.refused ha).1
  · obtain ⟨_, _, _, hfiled⟩ := h.filed ha havoids hr
    exact hfiled.agree

theorem Gives.fresh (havoids : o.AvoidsIn s) (h : Gives o s size (header + headerSize) s') :
    ¬ Live s header := by
  have hhead := headerSize_cases
  rintro ⟨c, hlive⟩
  generalize hr : header + headerSize = r at h
  cases h with
  | nothing n => exact absurd hr (by omega)
  | cached n h cls next lifeTime hcls _ hget =>
    obtain rfl := Nat.add_right_cancel hr
    exact absurd (congrArg Header.live (Option.some.inj (hlive.symm.trans hget))) nofun
  | carved n h cls next lifeTime hcls _ hget hslot =>
    obtain rfl := Nat.add_right_cancel hr
    exact absurd (hlive.symm.trans hget) nofun
  | opened k n hint cls next lifeTime hcls _ hhint hadmits =>
    obtain rfl := Nat.add_right_cancel hr
    exact absurd (hlive.symm.trans (havoids.opened (matchSizeClass_some hcls).1 hadmits)) nofun
  | big k n hint mmapOk mem effects big hcls hhint hadmits hinsert hmem =>
    obtain rfl := Nat.add_right_cancel hr
    have hheader : s.headers.get header ≠ none := by
      rw [hlive]
      exact Option.some_ne_none _
    have hpos := reserved_ne_zero s.thp size
    rcases havoids k _ _ hpos hadmits header hheader with hlt | hlt
    · omega
    · omega

theorem Mallocs.fresh (havoids : o.AvoidsFrom s) (h : Mallocs o s size (header + headerSize) s') :
    ¬ Live s header := by
  obtain ⟨s₁, hprepares, hgives⟩ := h
  have hfresh := hgives.fresh (havoids s₁ hprepares)
  rwa [Live, hprepares.records.1] at hfresh

/-- A block that is at its end. -/
structure Ended (s : State) (header : ℕ) (s' : State) : Prop where
  agree : Agree s'
  only : OnlyAt header s s'
  dead : ¬ Live s' header

theorem Frees.ended (h : Frees s header s') (ha : Agree s) : Ended s header s' := by
  cases h with
  | slab cls hget hcls =>
    have hne := ha.header_ne_zero (by rw [hget]; exact Option.some_ne_none _)
    have honly := @onlyAt_set s { s with headers := s.headers.set header ⟨cls, false⟩ } header _ rfl
      fun h _ => rfl
    have hgot := HeaderTable.get_set_self s.headers header ⟨cls, false⟩
    refine ⟨ha.change honly ha.sound (fun p hp => hp) hne (agreeAt_slab hgot ?_ hcls), honly, ?_⟩
    · refine ha.entry_none fun hbig => ?_
      have hcls' := congrArg Header.cls (Option.some.inj (hget.symm.trans hbig))
      exact absurd hcls (by rw [show cls = 100 from hcls']; decide)
    · rintro ⟨c, hc⟩
      exact absurd (congrArg Header.live (Option.some.inj (hgot.symm.trans hc))) nofun
  | big n info hget hinfo =>
    have hne := ha.header_ne_zero (by rw [hget]; exact Option.some_ne_none _)
    obtain ⟨hsound, hbig, _⟩ := remove_get ha.sound header
    have hgot := HeaderTable.get_remove_self s.headers header
    have hentry : ((s.big.remove header).1.get header).map BigAllocMeta.size = none := by
      rw [hbig, update_self, Option.map_none]
    have honly : OnlyAt header s { s with
        headers := s.headers.remove header, big := (s.big.remove header).1 } := by
      refine ⟨fun h hne => HeaderTable.get_remove_of_ne hne, fun h hne => entry_congr ?_⟩
      show (s.big.remove header).1.get h = _
      rw [hbig, update_of_ne hne]
    refine ⟨ha.change ⟨honly.headers, honly.entry⟩ hsound (fun p hp => hp) hne
      (agreeAt_none hgot hentry), ⟨honly.headers, honly.entry⟩, ?_⟩
    · rintro ⟨c, hc⟩
      exact absurd (hgot.symm.trans hc) nofun

section Resize

theorem Reclasses.filed (h : Reclasses s header cls (newClass n) (newCapacity n) s') (ha : Agree s)
    (hget : s.headers.get header = some ⟨cls, true⟩) : Filed s n header s' := by
  have hne := ha.header_ne_zero (by rw [hget]; exact Option.some_ne_none _)
  have hgot := HeaderTable.get_set_self s.headers header ⟨newClass n, true⟩
  cases h with
  | removed hcls hnew =>
    obtain ⟨c, hc⟩ : ∃ c, matchSizeClass n = some c := by
      cases hmatch : matchSizeClass n with
      | none => exact absurd (newClass_none hmatch).1 hnew
      | some c => exact ⟨c, rfl⟩
    obtain ⟨hsound, hbig, _⟩ := remove_get ha.sound header
    have hlt : newClass n < 34 := (newClass_some hc).1 ▸ (matchSizeClass_some hc).1
    have hentry : ((s.big.remove header).1.get header).map BigAllocMeta.size = none := by
      rw [hbig, update_self, Option.map_none]
    have honly := @onlyAt_set s { s with
        headers := s.headers.set header ⟨newClass n, true⟩,
        big := (s.big.remove header).1
        mem := setClass s.mem header (newClass n) } header _
      rfl fun h hne => by
        show (s.big.remove header).1.get h = _
        rw [hbig, update_of_ne hne]
    refine ⟨ha.change honly hsound (fun p hp => hp) hne (agreeAt_slab hgot hentry hlt),
      honly, hgot, ?_⟩
    exact Or.inr ⟨hlt, by rw [(newClass_some hc).1, (newClass_some hc).2]⟩
  | inserted k mmapOk big hnew hinsert =>
    have hc : matchSizeClass n = none := by
      cases hmatch : matchSizeClass n with
      | none => rfl
      | some c =>
        have hlt := (matchSizeClass_some hmatch).1
        rw [← (newClass_some hmatch).1, hnew] at hlt
        exact absurd hlt (by decide)
    obtain ⟨hsound, hbig⟩ := insert_get ha.sound hinsert
    have hentry : (big.get header).map BigAllocMeta.size = some (newCapacity n) := by
      rw [hbig, update_self, Option.map_some]
    have honly := @onlyAt_set s (State.later { s with
        headers := s.headers.set header ⟨newClass n, true⟩, big := big
        mem := setClass s.mem header (newClass n) } k) header _ rfl
      fun h hne => by
        show big.get h = _
        rw [hbig, update_of_ne hne]
    refine ⟨ha.change honly hsound (fun p hp => hp) hne ?_, honly, hgot, Or.inl ⟨hnew, hentry⟩⟩
    rw [hnew] at hgot
    refine agreeAt_big ?_ hentry (by rw [(newClass_none hc).2, hc])
    show (s.headers.set header ⟨newClass n, true⟩).get header = _
    rw [hnew, hgot]
  | plain hcls hnew =>
    obtain ⟨c, hc⟩ : ∃ c, matchSizeClass n = some c := by
      cases hmatch : matchSizeClass n with
      | none => exact absurd (newClass_none hmatch).1 hnew
      | some c => exact ⟨c, rfl⟩
    refine filed_slab ha hc (congrArg (Header.mk · true) (newClass_some hc).1)
      (fun hbig => ?_) hne rfl
      rfl fun p hp => hp
    exact hcls (congrArg Header.cls (Option.some.inj (hget.symm.trans hbig)))

/-- The pages at the end of a block do not matter for its records. -/
theorem Reclasses.filed_giveBack {start len k : ℕ} (ha : Agree s)
    (hget : s.headers.get header = some ⟨cls, true⟩)
    (hre : Reclasses ((s.giveBack start len).later k) header cls (newClass n) (newCapacity n) s') :
    Filed s n header s' := by
  have hheaders := State.giveBack_headers s start len k
  have hbig := State.giveBack_big s start len k
  have ha' : Agree ((s.giveBack start len).later k) :=
    ha.of_eq hheaders hbig (State.giveBack_uncarved s start len k)
  exact (hre.filed ha' (hheaders ▸ hget)).of_eq hheaders hbig

/-- A resize in place files the new request, or the block is larger and keeps its records. -/
theorem Resizes.records {b : Bool} (ha : Agree s) (hget : s.headers.get header = some ⟨cls, true⟩)
    (h : Resizes o s header cls cap n b s') :
    (b = true ∧ Filed s n header s') ∨
      (s'.headers = s.headers ∧ s'.big = s.big ∧ s'.uncarved = s.uncarved ∧
        (b = true → extent (newClass n) n < extent cls cap)) := by
  cases h with
  | same _ _ hre => exact Or.inl ⟨rfl, hre.filed ha hget⟩
  | kept hlt => exact Or.inr ⟨rfl, rfl, rfl, fun _ => hlt⟩
  | refusedShrink k hlt _ => exact Or.inr ⟨rfl, rfl, rfl, fun _ => hlt⟩
  | shrunk k _ hlt _ hre => exact Or.inl ⟨rfl, hre.filed_giveBack ha hget⟩
  | refused k _ => exact Or.inr ⟨rfl, rfl, rfl, nofun⟩
  | grown k s₁ _ _ hext hre =>
    obtain ⟨hheaders, hbig, hslots⟩ := hext.records
    have hget₁ : s₁.headers.get header = some ⟨cls, true⟩ := by rw [hheaders, hget]
    have hfiled := hre.filed (ha.of_eq hheaders hbig hslots) hget₁
    exact Or.inl ⟨rfl, hfiled.of_eq hheaders hbig⟩
  | stuck k s₁ _ hext _ =>
    obtain ⟨hheaders, hbig, hslots⟩ := hext.records
    exact Or.inr ⟨hheaders, hbig, hslots, nofun⟩
  | undone k s₁ _ hext _ _ =>
    obtain ⟨hheaders, hbig, hslots⟩ := hext.records
    exact Or.inr ⟨hheaders, hbig, hslots, nofun⟩

end Resize

end Oxidalloc.Records
