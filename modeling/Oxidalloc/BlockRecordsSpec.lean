import Oxidalloc.BlockRecords

/-!
What each function over records can do, said once: every result of a call with the state
that it leaves. Only the position in the stream of answers is not spelled out.
-/
namespace Oxidalloc.Records

open Hashmap Programs ByteMemory

/-- The state with some answers read. -/
def State.later (s : State) (n : ℕ) : State := { s with tick := n }

def State.noted (s : State) (e : Effect) : State := { s with log := s.log ++ [e] }

variable {o : Oracle} {s s' : State} {n addr len header size cls ptr : ℕ} {u : Unit}

section Kernel

theorem runs_draw {a : ℕ} (h : Runs (draw o) s a s') : s' = s.later (s.tick + 1) :=
  (Prod.mk.inj (Except.ok.inj h)).2.symm

theorem runs_check {α : Type} {x : Except Halt α} {a : α} (h : Runs (check x) s a s') :
    x = .ok a ∧ s' = s := by
  obtain ⟨hx, hs'⟩ := runs_attempt.mp h
  cases x with
  | error e => exact absurd hx nofun
  | ok b => exact ⟨congrArg Except.ok (Except.ok.inj hx), hs'⟩

theorem runs_lookup {table : List ℕ} {v : ℕ} (h : Runs (lookup table cls) s v s') :
    cls < table.length ∧ v = table.getD cls 0 ∧ s' = s := by
  unfold lookup at h
  split at h
  · rename_i w hw
    obtain ⟨hv, hs'⟩ := runs_pure.mp h
    obtain ⟨hlt, _⟩ := List.getElem?_eq_some_iff.mp hw
    exact ⟨hlt, by rw [List.getD_eq_getElem?_getD, hw, hv, Option.getD_some], hs'⟩
  · exact absurd h runs_throw

theorem alignTo_page {v : ℕ} (h : alignTo size 4096 = .ok v) : v = pagesOf size * 4096 :=
  ((@alignTo_eq_ok size 12 v (by omega)).mp h).2

theorem runs_vaAlloc {owner : ℕ → Owner} {r : Option ℕ} (h : Runs (vaAlloc o size owner) s r s') :
    (r = none ∧ ∃ n, s' = s.later n) ∨
      ∃ hint n, r = some hint ∧ hint ≠ 0 ∧ o.admits (s.later n) hint size = true ∧
        s' = (s.claim hint size (owner hint)).later n := by
  rw [vaAlloc, runs_bind] at h
  obtain ⟨hint, s₁, hdraw, h⟩ := h
  rw [runs_draw hdraw, runs_get_bind] at h
  split at h
  · obtain ⟨hr, hs'⟩ := runs_pure.mp h
    exact Or.inl ⟨hr, _, hs'⟩
  · rename_i hok
    rw [not_or, Bool.not_eq_false] at hok
    rw [runs_set_bind] at h
    obtain ⟨hr, hs'⟩ := runs_pure.mp h
    exact Or.inr ⟨hint, _, hr, hok.1, hok.2, hs'⟩

theorem runs_vaFree (haddr : addr ≠ 0) (hlen : len ≠ 0) (h : Runs (vaFree addr len) s u s') :
    s' = s.release addr len := by
  rw [vaFree, if_neg (not_or.mpr ⟨haddr, hlen⟩)] at h
  exact runs_modify.mp h

theorem runs_discard {r : Bool} (h : Runs (discard o addr len) s r s') :
    (r = false ∧ ∃ n, s' = (s.noted (.discard addr len)).later n) ∨
      (r = true ∧ addr % 4096 = 0 ∧
        ∃ n, s' = ((s.noted (.discard addr len)).zero addr (pagesOf len * 4096)).later n) := by
  rw [discard, runs_bind] at h
  obtain ⟨_, s₁, hnote, h⟩ := h
  rw [runs_modify.mp hnote, runs_bind] at h
  obtain ⟨a, s₂, hdraw, h⟩ := h
  rw [runs_draw hdraw] at h
  split at h
  · rename_i hok
    rw [runs_modify_bind] at h
    obtain ⟨hr, hs'⟩ := runs_pure.mp h
    exact Or.inr ⟨hr, hok.1, _, hs'⟩
  · obtain ⟨hr, hs'⟩ := runs_pure.mp h
    exact Or.inl ⟨hr, _, hs'⟩

theorem runs_advise (h : Runs (advise o) s u s') : ∃ n, s' = s.later n := by
  rw [advise, runs_bind] at h
  obtain ⟨a, s₁, hdraw, h⟩ := h
  exact ⟨_, (runs_pure.mp h).2.trans (runs_draw hdraw)⟩

theorem runs_permit {r : Bool} (h : Runs (permit o addr len) s r s') :
    (r = false ∧ ∃ n, s' = s.later n) ∨
      (r = true ∧ addr % 4096 = 0 ∧ ∃ n, s' = (s.noted (.commit addr len)).later n) := by
  rw [permit, runs_bind] at h
  obtain ⟨a, s₁, hdraw, h⟩ := h
  rw [runs_draw hdraw] at h
  split at h
  · rename_i hok
    rw [runs_bind] at h
    obtain ⟨_, s₂, hnote, h⟩ := h
    obtain ⟨hr, hs'⟩ := runs_pure.mp h
    rw [runs_modify.mp hnote] at hs'
    exact Or.inr ⟨hr, hok.1, _, hs'⟩
  · obtain ⟨hr, hs'⟩ := runs_pure.mp h
    exact Or.inl ⟨hr, _, hs'⟩

theorem runs_forbid (h : Runs (forbid o addr len) s u s') :
    ∃ n, s' = (s.noted (.forbid addr len)).later n := by
  rw [forbid, runs_bind] at h
  obtain ⟨_, s₁, hnote, h⟩ := h
  obtain ⟨n, hs'⟩ := runs_advise h
  exact ⟨n, by rw [hs', runs_modify.mp hnote]; rfl⟩

theorem runs_mmapFixed {r : Bool} (h : Runs (mmapFixed o addr len) s r s') :
    (r = false ∧ ∃ n, s' = s.later n) ∨
      (r = true ∧ ∃ n, s' = (s.zero addr (pagesOf len * 4096)).later n) := by
  rw [mmapFixed, runs_bind] at h
  obtain ⟨a, s₁, hdraw, h⟩ := h
  rw [runs_draw hdraw] at h
  split at h
  · rw [runs_modify_bind] at h
    obtain ⟨hr, hs'⟩ := runs_pure.mp h
    exact Or.inr ⟨hr, _, hs'⟩
  · obtain ⟨hr, hs'⟩ := runs_pure.mp h
    exact Or.inl ⟨hr, _, hs'⟩

end Kernel

theorem headerSize_standard : headerSize = 16 := rfl

variable [Layout]

theorem headerSize_cases : headerSize = 16 ∨ headerSize = 32 := by
  unfold headerSize
  split
  · exact Or.inr rfl
  · exact Or.inl rfl

theorem pointer_ne_zero (header : ℕ) : header + headerSize ≠ 0 := by
  have hhead := headerSize_cases
  omega

/-- The fields of a header lie within it. -/
theorem offsets_le :
    nextOffset + 8 ≤ headerSize ∧ classOffset + 1 ≤ headerSize ∧
      lifeTimeOffset + 4 ≤ headerSize := by
  unfold nextOffset classOffset lifeTimeOffset headerSize
  split <;> decide

theorem setClass_elsewhere {m : Memory} {x : ℕ} (h : x ≠ header + classOffset) :
    setClass m header cls x = m x := store_of_not_mem (by omega)

theorem writeHeader_elsewhere {m : Memory} {next lifeTime x : ℕ}
    (h : x < header ∨ header + headerSize ≤ x) :
    writeHeader m header next cls lifeTime x = m x := by
  have hle := offsets_le
  rw [writeHeader, store_of_not_mem (by omega), setClass_elsewhere (by omega),
    store_of_not_mem (by omega)]

theorem alignTo_payload (hcls : cls < 34) :
    alignTo (payload cls + headerSize) 16 = .ok (payload cls + headerSize) := by
  obtain ⟨hdvd, _, hle⟩ := payload_bounds hcls
  have hhead := headerSize_cases
  refine (@alignTo_eq_ok (payload cls + headerSize) 4 _ (by omega)).mpr ⟨?_, by omega⟩
  have hbound : 2097152 + 32 + (2 ^ 4 - 1) < usizeBound := by decide
  omega

/-- The bytes of a slab, its owner and its slots. -/
def slabTotal (cls : ℕ) : ℕ := 32 + (payload cls + headerSize) * slabBlocks cls

def slabOwner (cls hint : ℕ) : Owner :=
  if slabBlocks cls = 1 then .block (hint + 32) else .slab hint cls

def slabSlots (cls hint : ℕ) : List (ℕ × ℕ) :=
  (List.range (slabBlocks cls)).map fun i => (hint + 32 + i * (payload cls + headerSize), cls)

/-- The bytes that `big_malloc` claims. -/
def reserved (thp : Bool) (size : ℕ) : ℕ :=
  if thp then (size + headerSize + 2097151) / 2097152 * 2097152
  else pagesOf (size + headerSize) * 4096

/-- What an allocation does before it has a block: a range that cannot be used is given
back. -/
inductive Prepares (o : Oracle) : State → State → Prop
  | refl (s : State) : Prepares o s s
  | wait {s s' : State} (n : ℕ) (h : Prepares o s s') : Prepares o s (s'.later n)
  | undone {s s' : State} (hint len n : ℕ) (owner : Owner) (h : Prepares o s s')
    (hadmits : o.admits (s'.later n) hint len = true) :
    Prepares o s ((s'.claim hint len owner).release hint len)

def State.given (s : State) (header cls next lifeTime : ℕ) : State :=
  { s with
    headers := s.headers.set header ⟨cls, true⟩
    uncarved := s.uncarved.filter (· ≠ (header, cls))
    mem := writeHeader s.mem header next cls lifeTime }

/-- The state with a new slab of which no block is carved yet. -/
def State.slab (s : State) (cls hint : ℕ) : State :=
  { (s.claim hint (slabTotal cls) (slabOwner cls hint)).zero hint
      (pagesOf (slabTotal cls) * 4096) with
    uncarved := slabSlots cls hint ++ s.uncarved }

/-- A link in the header of a block of a class. -/
def State.Links (s : State) (cls next : ℕ) : Prop :=
  Layout.hardened = true ∨ next = 0 ∨ s.Listed cls next

/-- The block that an allocation gives out: one of a cache, the next one of a slab, the first
one of a new slab, or a new big one. -/
inductive Gives (o : Oracle) (s : State) (size : ℕ) : ℕ → State → Prop
  | nothing (n : ℕ) : Gives o s size 0 (s.later n)
  | cached (n header cls next lifeTime : ℕ) (hcls : matchSizeClass size = some cls)
    (hnext : s.Links cls next) (hget : s.headers.get header = some ⟨cls, false⟩) :
    Gives o s size (header + headerSize) ((s.given header cls next lifeTime).later n)
  | carved (n header cls next lifeTime : ℕ) (hcls : matchSizeClass size = some cls)
    (hnext : s.Links cls next) (hget : s.headers.get header = none)
    (hslot : (header, cls) ∈ s.uncarved) :
    Gives o s size (header + headerSize) ((s.given header cls next lifeTime).later n)
  | opened (k n hint cls next lifeTime : ℕ) (hcls : matchSizeClass size = some cls)
    (hnext : (s.slab cls hint).Links cls next) (hhint : hint ≠ 0)
    (hadmits : o.admits (s.later k) hint (slabTotal cls) = true) :
    Gives o s size (hint + 32 + headerSize)
      (((s.slab cls hint).given (hint + 32) cls next lifeTime).later n)
  | big (k n hint : ℕ) (mmapOk : Bool) (mem : Memory) (effects : List Effect) (big : BigAllocMap)
    (hcls : matchSizeClass size = none) (hhint : hint ≠ 0)
    (hadmits : o.admits (s.later k) hint (reserved s.thp size) = true)
    (hinsert : s.big.insert mmapOk hint ⟨size, 100, 0, 0⟩ = .ok big)
    (hmem : (mem = s.mem ∧ effects = [.commit hint (reserved s.thp size)]) ∨
      (mem = fill s.mem hint (pagesOf (reserved s.thp size) * 4096) 0 ∧ effects = [])) :
    Gives o s size (hint + headerSize)
      ({ s.claim hint (reserved s.thp size) (.block hint) with
        headers := s.headers.set hint ⟨100, true⟩
        big := big
        mem := writeHeader mem hint 0 100 0
        log := (s.claim hint (reserved s.thp size) (.block hint)).log ++ effects }.later n)

/-- `malloc` gives a block for the request, or none. -/
def Mallocs (o : Oracle) (s : State) (size r : ℕ) (s' : State) : Prop :=
  ∃ s₁, Prepares o s s₁ ∧ Gives o s₁ size r s'

section Slab

theorem runs_link {next : ℕ} (h : Runs (link o cls) s next s') :
    s.Links cls next ∧ s' = s.later (s.tick + 1) := by
  rw [link, runs_bind] at h
  obtain ⟨a, s₁, hdraw, h⟩ := h
  rw [runs_draw hdraw, runs_get_bind] at h
  obtain ⟨rfl, rfl⟩ := runs_pure.mp h
  refine ⟨?_, rfl⟩
  split
  · rename_i hhard
    exact Or.inl hhard
  · split
    · rename_i hlisted
      exact Or.inr (Or.inr hlisted)
    · exact Or.inr (Or.inl rfl)

theorem runs_giveOut {next r : ℕ} (h : Runs (giveOut o header cls next) s r s') :
    r = header + headerSize ∧
      ∃ lifeTime, s' = (s.given header cls next lifeTime).later (s.tick + 1) := by
  rw [giveOut, runs_bind] at h
  obtain ⟨lifeTime, s₁, hdraw, h⟩ := h
  rw [runs_draw hdraw, runs_modify_bind] at h
  obtain ⟨hr, hs'⟩ := runs_pure.mp h
  exact ⟨hr, lifeTime, hs'⟩

theorem runs_takeBlock {r : ℕ} (hcls : matchSizeClass size = some cls)
    (h : Runs (takeBlock o cls) s r s') : Gives o s size r s' := by
  rw [takeBlock, runs_bind] at h
  obtain ⟨block, s₁, hdraw, h⟩ := h
  rw [runs_draw hdraw, runs_bind] at h
  obtain ⟨next, s₂, hlink, h⟩ := h
  obtain ⟨hnext, rfl⟩ := runs_link hlink
  rw [runs_get_bind] at h
  split at h
  · rename_i header hheader
    split at h
    · rename_i hcached
      obtain ⟨rfl, lifeTime, rfl⟩ := runs_giveOut h
      refine .cached _ block cls next lifeTime hcls hnext (hheader.trans (congrArg some ?_))
      obtain ⟨c, l⟩ := header
      exact congrArg₂ Header.mk hcached.2 hcached.1
    · obtain ⟨rfl, rfl⟩ := runs_pure.mp h
      exact .nothing _
  · rename_i hnone
    split at h
    · rename_i hslot
      obtain ⟨rfl, lifeTime, rfl⟩ := runs_giveOut h
      exact .carved _ block cls next lifeTime hcls hnext hnone hslot
    · obtain ⟨rfl, rfl⟩ := runs_pure.mp h
      exact .nothing _

theorem slabTotal_ne_zero (cls : ℕ) : slabTotal cls ≠ 0 := by
  unfold slabTotal
  omega

theorem runs_bulkFill {r : ℕ} (hcls : matchSizeClass size = some cls)
    (h : Runs (bulkFill o cls) s r s') : ∃ s₁, Prepares o s s₁ ∧ Gives o s₁ size r s' := by
  rw [bulkFill, runs_bind] at h
  obtain ⟨payloadSize, s₁, hpayload, h⟩ := h
  obtain ⟨hlt, rfl, rfl⟩ := runs_lookup hpayload
  rw [runs_bind] at h
  obtain ⟨blockSize, s₂, hblock, h⟩ := h
  obtain ⟨hsize, rfl⟩ := runs_check hblock
  obtain rfl := Except.ok.inj (hsize.symm.trans (alignTo_payload hlt))
  rw [runs_bind] at h
  obtain ⟨numBlocks, s₃, hnum, h⟩ := h
  obtain ⟨_, rfl, rfl⟩ := runs_lookup hnum
  dsimp only at h
  rw [runs_bind] at h
  obtain ⟨alloc, s₄, halloc, h⟩ := h
  rcases runs_vaAlloc halloc with ⟨rfl, _⟩ | ⟨hint, m, rfl, hhint, hadmits, rfl⟩
  · exact absurd h runs_throw
  · dsimp only at h
    rw [runs_bind] at h
    obtain ⟨mapped, s₅, hmap, h⟩ := h
    rcases runs_mmapFixed hmap with ⟨rfl, k, rfl⟩ | ⟨rfl, k, rfl⟩
    · rw [if_neg Bool.false_ne_true, runs_bind] at h
      obtain ⟨_, s₆, hfree, h⟩ := h
      obtain ⟨rfl, rfl⟩ := runs_pure.mp h
      rw [runs_vaFree hhint (slabTotal_ne_zero cls) hfree]
      exact ⟨_, .undone hint _ m (slabOwner cls hint) (.refl s₃) hadmits, .nothing k⟩
    · rw [if_pos rfl, runs_modify_bind, runs_bind] at h
      obtain ⟨next, s₆, hlink, h⟩ := h
      obtain ⟨hnext, rfl⟩ := runs_link hlink
      obtain ⟨rfl, lifeTime, rfl⟩ := runs_giveOut h
      exact ⟨s₃, .refl s₃, .opened m _ hint cls next lifeTime hcls hnext hhint hadmits⟩

theorem Gives.eq_later (h : Gives o s size 0 s') : ∃ n, s' = s.later n := by
  have hhead := headerSize_cases
  generalize hr : (0 : ℕ) = r at h
  cases h with
  | nothing n => exact ⟨n, rfl⟩
  | cached n b c _ _ _ _ _ => exact absurd hr (by omega)
  | carved n b c _ _ _ _ _ _ => exact absurd hr (by omega)
  | opened k n hint _ _ _ _ _ _ _ => exact absurd hr (by omega)
  | big k n hint _ _ _ _ _ _ _ _ _ => exact absurd hr (by omega)

omit [Layout] in
theorem Prepares.trans {s₁ s₂ : State} (h : Prepares o s s₁) (h' : Prepares o s₁ s₂) :
    Prepares o s s₂ := by
  induction h' with
  | refl => exact h
  | wait n _ ih => exact .wait n ih
  | undone hint len n owner _ hadmits ih => exact .undone hint len n owner ih hadmits

/-- An allocation that has failed is only a preparation of the next one. -/
theorem Mallocs.retry {s₁ : State} {r : ℕ} (h : Mallocs o s size 0 s₁)
    (h' : Mallocs o s₁ size r s') :
    Mallocs o s size r s' := by
  obtain ⟨s₂, hprepares, hgives⟩ := h
  obtain ⟨n, rfl⟩ := hgives.eq_later
  obtain ⟨s₃, hprepares', hgives'⟩ := h'
  exact ⟨s₃, (Prepares.wait n hprepares).trans hprepares', hgives'⟩

theorem runs_fillAttempts {r : ℕ} (hcls : matchSizeClass size = some cls) (k : ℕ)
    (h : Runs (fillAttempts o cls k) s r s') : Mallocs o s size r s' := by
  induction k generalizing s with
  | zero =>
    obtain ⟨rfl, rfl⟩ := runs_pure.mp h
    exact ⟨s', .refl s', .nothing s'.tick⟩
  | succ k ih =>
    rw [fillAttempts, runs_bind] at h
    obtain ⟨block, s₁, hfill, h⟩ := h
    have hfirst := runs_bulkFill hcls hfill
    split at h
    · rename_i hzero
      subst hzero
      exact Mallocs.retry hfirst (ih h)
    · obtain ⟨rfl, rfl⟩ := runs_pure.mp h
      exact hfirst

theorem runs_allocate {r : ℕ} (hcls : matchSizeClass size = some cls)
    (h : Runs (allocate o cls) s r s') : Mallocs o s size r s' := by
  rw [allocate, runs_bind] at h
  obtain ⟨block, s₁, htake, h⟩ := h
  have htakes : Mallocs o s size block s₁ := ⟨s, .refl s, runs_takeBlock hcls htake⟩
  split at h
  · rename_i hzero
    subst hzero
    exact htakes.retry (runs_fillAttempts hcls 3 h)
  · obtain ⟨rfl, rfl⟩ := runs_pure.mp h
    exact htakes

end Slab

section Big

theorem runs_bigTotal {total : ℕ} (h : Runs (bigTotal o size) s total s') :
    total = reserved s.thp size ∧ s' = s := by
  rw [bigTotal, CInterface.bigTotal, runs_read_bind] at h
  obtain ⟨htotal, hs'⟩ := runs_check h
  refine ⟨?_, hs'⟩
  unfold reserved
  cases hthp : s.thp with
  | false =>
    rw [hthp] at htotal
    exact alignTo_page htotal
  | true =>
    rw [hthp] at htotal
    exact ((@alignTo_eq_ok (size + headerSize) 21 total (by omega)).mp htotal).2

omit [Layout] in
theorem pagesOf_pos (h : len ≠ 0) : 0 < pagesOf len := by
  unfold pagesOf
  omega

theorem reserved_ne_zero (thp : Bool) (size : ℕ) : reserved thp size ≠ 0 := by
  have hhead := headerSize_cases
  unfold reserved pagesOf
  cases thp <;> simp only [if_true, Bool.false_eq_true, if_false] <;> omega

/-- A range is made writable, or mapped anew. -/
theorem runs_commit {hint total : ℕ} {r : Bool} (h : Runs (commit o hint total) s r s') :
    (r = false ∧ ∃ n, s' = s.later n) ∨
      (r = true ∧ ∃ n, s' = (s.noted (.commit hint total)).later n ∨
        s' = (s.zero hint (pagesOf total * 4096)).later n) := by
  rw [commit, CInterface.commit, runs_bind] at h
  obtain ⟨permitted, s₁, hpermit, h⟩ := h
  rcases runs_permit hpermit with ⟨rfl, m, rfl⟩ | ⟨rfl, _, m, rfl⟩
  · rw [if_neg Bool.false_ne_true] at h
    rcases runs_mmapFixed h with ⟨hr, n, rfl⟩ | ⟨hr, n, rfl⟩
    · exact Or.inl ⟨hr, n, rfl⟩
    · exact Or.inr ⟨hr, n, Or.inr rfl⟩
  · rw [if_pos rfl] at h
    obtain ⟨hr, hs'⟩ := runs_pure.mp h
    exact Or.inr ⟨hr, m, Or.inl hs'⟩

theorem runs_adviseIfHuge {total : ℕ} {advice : Advice}
    (h : Runs (adviseIfHuge o addr total advice) s u s') :
    ∃ n, s' = s.later n := by
  unfold adviseIfHuge CInterface.adviseIfHuge at h
  split at h
  · exact runs_advise h
  · exact ⟨s.tick, (runs_pure.mp h).2⟩

omit [Layout] in
theorem runs_bigInsert (h : Runs (bigInsert o header size) s u s') :
    ∃ n mmapOk big, s.big.insert mmapOk header ⟨size, 100, 0, 0⟩ = .ok big ∧
      s' = { s with big := big }.later n := by
  rw [bigInsert, runs_bind] at h
  obtain ⟨answer, s₁, hdraw, h⟩ := h
  rw [runs_draw hdraw, runs_get_bind, runs_bind] at h
  obtain ⟨big, s₂, hinsert, h⟩ := h
  obtain ⟨hbig, rfl⟩ := runs_check hinsert
  exact ⟨_, _, big, hbig, runs_set.mp h⟩

omit [Layout] in
theorem runs_bigRemove {r : Option BigAllocMeta} (h : Runs (bigRemove header) s r s') :
    r = (s.big.remove header).2 ∧ s' = { s with big := (s.big.remove header).1 } := by
  rw [bigRemove, runs_get_bind, runs_set_bind] at h
  exact runs_pure.mp h

theorem runs_bigMalloc_cases {r : ℕ} (hcls : matchSizeClass size = none)
    (h : Runs (bigMalloc o size) s r s') :
    (r = 0 ∧ Mallocs o s size 0 s') ∨ Gives o s size r s' := by
  rw [bigMalloc, CInterface.bigMalloc, runs_bind] at h
  obtain ⟨total, s₁, htotal, h⟩ := h
  obtain ⟨rfl, rfl⟩ := runs_bigTotal htotal
  rw [runs_bind] at h
  obtain ⟨alloc, s₂, halloc, h⟩ := h
  rcases runs_vaAlloc halloc with ⟨rfl, n, rfl⟩ | ⟨hint, k, rfl, hhint, hadmits, rfl⟩
  · obtain ⟨rfl, rfl⟩ := runs_pure.mp h
    exact Or.inr (.nothing n)
  · dsimp only at h
    rw [runs_bind] at h
    obtain ⟨committed, s₃, hcommit, h⟩ := h
    rcases runs_commit hcommit with ⟨rfl, m, rfl⟩ | ⟨rfl, m, hs₃⟩
    · rw [if_neg Bool.false_ne_true, runs_bind] at h
      obtain ⟨_, s₄, hfree, h⟩ := h
      obtain ⟨rfl, rfl⟩ := runs_pure.mp h
      rw [runs_vaFree hhint (reserved_ne_zero s₁.thp size) hfree]
      exact Or.inl ⟨rfl, _, .undone hint _ k (.block hint) (.refl s₁) hadmits, .nothing m⟩
    · rw [if_pos rfl, runs_bind] at h
      obtain ⟨_, s₄, hadvise, h⟩ := h
      obtain ⟨m', rfl⟩ := runs_adviseIfHuge hadvise
      rw [runs_modify_bind, runs_bind] at h
      obtain ⟨_, s₅, hinsert, h⟩ := h
      obtain ⟨n, mmapOk, big, hbig, rfl⟩ := runs_bigInsert hinsert
      obtain ⟨rfl, rfl⟩ := runs_pure.mp h
      refine Or.inr ?_
      rcases hs₃ with rfl | rfl
      · exact .big k n hint mmapOk _ _ big hcls hhint hadmits hbig (Or.inl ⟨rfl, rfl⟩)
      · have hgives := Gives.big k n hint mmapOk _ [] big hcls hhint hadmits hbig
          (Or.inr ⟨rfl, rfl⟩)
        rw [List.append_nil] at hgives
        exact hgives

theorem runs_bigMalloc {r : ℕ} (hcls : matchSizeClass size = none)
    (h : Runs (bigMalloc o size) s r s') : Mallocs o s size r s' := by
  rcases runs_bigMalloc_cases hcls h with ⟨rfl, hmallocs⟩ | hgives
  · exact hmallocs
  · exact ⟨s, .refl s, hgives⟩

theorem runs_malloc {r : ℕ} (h : Runs (malloc o size) s r s') : Mallocs o s size r s' := by
  unfold malloc CInterface.malloc at h
  split at h
  · rename_i hsmall
    split at h
    · rename_i cls hlut
      refine runs_allocate ?_ h
      rw [matchSizeClass, if_neg (by omega), if_pos hsmall.1]
      exact hlut
    · exact absurd (runs_check (x := .error .fault) h).1 (by simp)
  · split at h
    · rw [runs_pure_bind] at h
      obtain ⟨rfl, rfl⟩ := runs_pure.mp h
      exact ⟨s', .refl s', .nothing s'.tick⟩
    · split at h
      · rename_i cls hcls
        exact runs_allocate hcls h
      · rename_i hcls
        rw [CInterface.allocateCold, runs_pure_bind] at h
        exact runs_bigMalloc hcls h

end Big

section Free

/-- The end of a block: in a cache of its class, or with its pages. -/
inductive Frees (s : State) (header : ℕ) : State → Prop
  | slab (cls : ℕ) (hget : s.headers.get header = some ⟨cls, true⟩) (hcls : cls < 34) :
    Frees s header { s with headers := s.headers.set header ⟨cls, false⟩ }
  | big (n : ℕ) (info : BigAllocMeta) (hget : s.headers.get header = some ⟨100, true⟩)
    (hinfo : (s.big.remove header).2 = some info) :
    Frees s header
      ({ ((s.noted (.discard header (reserved s.thp info.size))).noted
            (.forbid header (reserved s.thp info.size))).release header
              (reserved s.thp info.size) with
        headers := s.headers.remove header
        big := (s.big.remove header).1
        mem := fill s.mem header (reserved s.thp info.size) 0 }.later n)

omit [Layout] in
theorem runs_validatePtrForAbi (h : Runs (validatePtrForAbi header) s u s') :
    ∃ cls, s.headers.get header = some ⟨cls, true⟩ ∧ s' = s := by
  rw [validatePtrForAbi, runs_get_bind] at h
  split at h
  · exact absurd h runs_throw
  · rename_i r hr
    split at h
    · rename_i hlive
      exact ⟨r.cls, hr.trans (congrArg some (congrArg (Header.mk r.cls) hlive)),
        (runs_pure.mp h).2⟩
    · exact absurd h runs_throw

omit [Layout] in
theorem runs_classOf (h : Runs (classOf header) s cls s') :
    ∃ live, s.headers.get header = some ⟨cls, live⟩ ∧ s' = s := by
  rw [classOf, runs_get_bind] at h
  split at h
  · exact absurd h runs_throw
  · rename_i r hr
    obtain ⟨rfl, rfl⟩ := runs_pure.mp h
    exact ⟨r.live, hr, rfl⟩

theorem reserved_pages (thp : Bool) (size : ℕ) :
    pagesOf (reserved thp size) * 4096 = reserved thp size := by
  unfold reserved pagesOf
  cases thp <;> simp only [if_true, Bool.false_eq_true, if_false] <;> omega

theorem runs_wipe {total : ℕ} (htotal : pagesOf total * 4096 = total)
    (h : Runs (wipe o header total) s u s') :
    ∃ n, s' = ((s.noted (.discard header total)).zero header total).later n := by
  rw [wipe, CInterface.wipe, runs_bind] at h
  obtain ⟨given, s₁, hdiscard, h⟩ := h
  rcases runs_discard hdiscard with ⟨rfl, n, rfl⟩ | ⟨rfl, _, n, rfl⟩
  · rw [if_neg Bool.false_ne_true] at h
    exact ⟨n, runs_modify.mp h⟩
  · rw [if_pos rfl] at h
    rw [htotal] at h
    exact ⟨n, (runs_pure.mp h).2⟩

theorem runs_bigFree (hheader : header ≠ 0) (hget : s.headers.get header = some ⟨100, true⟩)
    (h : Runs (bigFree o header) s u s') : Frees s header s' := by
  rw [bigFree, CInterface.bigFree, runs_bind] at h
  obtain ⟨found, s₁, hremove, h⟩ := h
  obtain ⟨rfl, rfl⟩ := runs_bigRemove hremove
  split at h
  · exact absurd h runs_throw
  · rename_i info hinfo
    rw [runs_bind] at h
    obtain ⟨total, s₂, htotal, h⟩ := h
    obtain ⟨rfl, rfl⟩ := runs_bigTotal htotal
    rw [runs_bind] at h
    obtain ⟨_, s₃, hadvise, h⟩ := h
    obtain ⟨m, rfl⟩ := runs_adviseIfHuge hadvise
    rw [runs_modify_bind, runs_bind] at h
    obtain ⟨_, s₄, hwipe, h⟩ := h
    obtain ⟨k, rfl⟩ := runs_wipe (reserved_pages s.thp info.size) hwipe
    rw [runs_bind] at h
    obtain ⟨_, s₅, hforbid, h⟩ := h
    obtain ⟨n, rfl⟩ := runs_forbid hforbid
    rw [runs_vaFree hheader (reserved_ne_zero s.thp info.size) h]
    exact .big n info hget hinfo

omit [Layout] in
theorem runs_slabFree (h : Runs (slabFree cls header) s u s') :
    cls < 34 ∧ s' = { s with headers := s.headers.set header ⟨cls, false⟩ } := by
  rw [slabFree, runs_bind] at h
  obtain ⟨v, s₁, hlookup, h⟩ := h
  obtain ⟨hcls, _, rfl⟩ := runs_lookup hlookup
  exact ⟨hcls, runs_modify.mp h⟩

theorem runs_freeInternal {rawPtr : ℕ} (hraw : rawPtr - headerSize ≠ 0)
    (h : Runs (freeInternal o rawPtr) s u s') : Frees s (rawPtr - headerSize) s' := by
  rw [freeInternal, CInterface.freeInternal, runs_bind] at h
  obtain ⟨_, s₁, hvalid, h⟩ := h
  obtain ⟨cls, hget, rfl⟩ := runs_validatePtrForAbi hvalid
  rw [runs_bind] at h
  obtain ⟨cls', s₂, hclass, h⟩ := h
  obtain ⟨live, hget', rfl⟩ := runs_classOf hclass
  obtain ⟨rfl, rfl⟩ := Header.mk.inj (Option.some.inj (hget.symm.trans hget'))
  split at h
  · rename_i hbig
    rw [hbig] at hget
    exact runs_bigFree hraw hget h
  · obtain ⟨hcls, rfl⟩ := runs_slabFree h
    exact .slab cls hget hcls

omit [Layout] in
theorem runs_resolve {p : ℕ × ℕ} (h : Runs (resolve ptr) s p s') :
    ∃ handle, s.live ptr = some handle ∧ p = (handle.raw, handle.offset) ∧ s' = s := by
  rw [resolve, runs_get_bind] at h
  split at h
  · rename_i handle hhandle
    obtain ⟨hp, hs'⟩ := runs_pure.mp h
    exact ⟨handle, hhandle, hp, hs'⟩
  · exact absurd h runs_throw

/-- `free` is the end of the block of its pointer. -/
theorem runs_free {handle : Handle} (hptr : ptr ≠ 0) (hlive : s.live ptr = some handle)
    (hraw : handle.raw - headerSize ≠ 0) (h : Runs (free o ptr) s u s') :
    Frees s (handle.raw - headerSize) s' := by
  rw [free, CInterface.free, runs_pure_bind, CInterface.freeMain, if_neg hptr, runs_pure_bind,
    if_neg (by decide), runs_bind] at h
  obtain ⟨p, s₁, hresolve, h⟩ := h
  obtain ⟨handle', hlive', rfl, rfl⟩ := runs_resolve hresolve
  obtain rfl := Option.some.inj (hlive.symm.trans hlive')
  exact runs_freeInternal hraw h

end Free

end Oxidalloc.Records
