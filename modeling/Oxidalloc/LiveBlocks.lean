import Oxidalloc.OwnPages

/-!
The payloads of the live pointers. In runs of seated calls they are disjoint, they lie in
claimed pages, and they spare the headers of all blocks and slabs. A payload is as large as the
request, unless `realloc` has kept a block of size zero as it is.
-/
namespace Oxidalloc.Records

open Hashmap Programs Interleaving ByteMemory

variable {o : Oracle} {s s' : State} {c : Call} {n r header size cls cap ptr q x : ℕ}

/-- The slots of a slab do not meet. -/
theorem slot_index {w y i j : ℕ} (hi : i * w ≤ y) (hi' : y < i * w + w) (hj : j * w ≤ y)
    (hj' : y < j * w + w) : i = j := by
  have hpos : 0 < w := by omega
  rw [← Nat.div_eq_of_lt_le hi (by rwa [Nat.succ_mul]),
    Nat.div_eq_of_lt_le hj (by rwa [Nat.succ_mul])]

section Apart

variable [Layout] {thp : Bool}

/-- The pages of the bytes of a block. -/
theorem Place.byte (h : Place s header cls (span thp cls cap))
    (hcls : cls = 100 ∨ (cls < 34 ∧ cap = payload cls))
    (hlo : header ≤ x) (hhi : x < header + headerSize + cap) :
    s.owner (x / 4096) = some (.block header) ∨
      ∃ base i, header = base + 32 + i * (payload cls + headerSize) ∧ cap = payload cls ∧
        (base % 4096 = 0 ∧ s.owner (base / 4096) = some (.slab base cls)) ∧
        s.owner (x / 4096) = some (.slab base cls) := by
  cases h with
  | alone hoffset _ hown =>
    refine Or.inl (hown _ (covers_span ⟨by omega, ?_⟩))
    rcases hoffset with halign | ⟨hoffset, hne⟩
    · unfold pagesOf
      omega
    · obtain ⟨hlt, rfl⟩ := hcls.resolve_left hne
      have hpage := payload_page hlt
      unfold pagesOf at *
      omega
  | shared base i hi hmany hslot hbase hown =>
    have hcap : cap = payload cls := by
      rcases hcls with rfl | ⟨_, hcap⟩
      · rw [slabBlocks_big] at hi
        exact absurd hi (Nat.not_lt_zero i)
      · exact hcap
    subst hslot
    have hfirst : Covers base (slabTotal cls) (base / 4096) := by
      have hslot := @slot_bounds cls _ base i hi
      unfold Covers pagesOf
      omega
    exact Or.inr ⟨base, i, rfl, hcap, ⟨hbase, hown _ hfirst⟩,
      hown _ (covers_slot hbase hi (by omega) (by omega))⟩

/-- No byte belongs to two blocks. -/
theorem Place.apart {header' cls' cap' : ℕ} (h : Place s header cls (span thp cls cap))
    (h' : Place s header' cls' (span thp cls' cap'))
    (hcls : cls = 100 ∨ (cls < 34 ∧ cap = payload cls))
    (hcls' : cls' = 100 ∨ (cls' < 34 ∧ cap' = payload cls')) (hne : header ≠ header')
    (hlo : header ≤ x) (hhi : x < header + headerSize + cap) :
    ¬ (header' ≤ x ∧ x < header' + headerSize + cap') := by
  rintro ⟨hlo', hhi'⟩
  rcases h.byte hcls hlo hhi with hown | ⟨base, i, hslot, hcap, _, hown⟩
  · rcases h'.byte hcls' hlo' hhi' with hown' | ⟨_, _, _, _, _, hown'⟩
    · exact hne (Owner.block.inj (Option.some.inj (hown.symm.trans hown')))
    · exact absurd (hown.symm.trans hown') nofun
  · rcases h'.byte hcls' hlo' hhi' with hown' | ⟨base', j, hslot', hcap', _, hown'⟩
    · exact absurd (hown.symm.trans hown') nofun
    · obtain ⟨rfl, rfl⟩ := Owner.slab.inj (Option.some.inj (hown.symm.trans hown'))
      have hindex : i = j :=
        @slot_index (payload cls + headerSize) (x - (base + 32)) i j (by omega) (by omega)
        (by omega) (by omega)
      rw [hslot, hslot', hindex] at hne
      exact hne rfl

/-- The slab header in front of the blocks of a slab, or of its only block. -/
def MetaOf (s : State) (header base : ℕ) : Prop :=
  (∃ cls, s.owner (header / 4096) = some (.slab base cls)) ∨
    (s.owner (header / 4096) = some (.block header) ∧ header % 4096 = 32 ∧ header = base + 32)

/-- The header of a slab is in front of the bytes of all blocks. -/
theorem Place.spares_meta {header' cls' cap' base : ℕ}
    (h : Place s header cls (span thp cls cap))
    (h' : Place s header' cls' (span thp cls' cap'))
    (hcls : cls = 100 ∨ (cls < 34 ∧ cap = payload cls))
    (hcls' : cls' = 100 ∨ (cls' < 34 ∧ cap' = payload cls')) (hmeta : MetaOf s header' base)
    (hlo : header ≤ x) (hhi : x < header + headerSize + cap) : ¬ (base ≤ x ∧ x < base + 32) := by
  have hhead := headerSize_cases
  rintro ⟨hlo', hhi'⟩
  rcases hmeta with ⟨c, hslab⟩ | ⟨hblock, hoffset, rfl⟩
  · rcases h'.byte hcls' (Nat.le_refl _) (by omega) with
      hown' | ⟨base', j, _, _, ⟨hbase, hfirst⟩, hown'⟩
    · exact absurd (hslab.symm.trans hown') nofun
    · obtain ⟨rfl, rfl⟩ := Owner.slab.inj (Option.some.inj (hslab.symm.trans hown'))
      have hpage : x / 4096 = base / 4096 := by omega
      rcases h.byte hcls hlo hhi with hown | ⟨base', i, hslot, _, _, hown⟩
      · rw [hpage, hfirst] at hown
        exact absurd hown nofun
      · rw [hpage, hfirst] at hown
        obtain ⟨rfl, _⟩ := Owner.slab.inj (Option.some.inj hown)
        omega
  · have hpage : x / 4096 = (base + 32) / 4096 := by omega
    rcases h.byte hcls hlo hhi with hown | ⟨_, _, _, _, _, hown⟩
    · rw [hpage, hblock] at hown
      have heq := Owner.block.inj (Option.some.inj hown)
      omega
    · rw [hpage, hblock] at hown
      exact absurd hown nofun

end Apart

/-- The usable size of a live pointer. -/
def Usable [Layout] (s : State) (ptr v : ℕ) : Prop :=
  (s.live ptr).isSome = true ∧ Runs (mallocUsableSize ptr) s v s

theorem Agree.recorded (ha : Agree s) {v : Header} (hget : s.headers.get header = some v) :
    ∃ cap, Recorded s header v.cls cap := by
  rcases ha.classes header v hget with hlt | rfl
  · exact ⟨payload v.cls, Or.inr ⟨hlt, rfl⟩⟩
  · obtain ⟨cap, hcap⟩ := Option.ne_none_iff_exists'.mp ((ha.entry_iff header).mpr hget)
    exact ⟨cap, Or.inl ⟨rfl, hcap⟩⟩

section Safety

variable [Layout] {Q : Option Header → Option ℕ → Handle → Prop}

/-- The usable bytes are those of the block behind the pointer. -/
theorem Usable.block {v : ℕ} (hs : Sane Q s) (h : Usable s ptr v) :
    ∃ header p cls cap, s.live ptr = some p ∧ p.raw = header + headerSize ∧
      ptr = header + headerSize + p.offset ∧ s.headers.get header = some ⟨cls, true⟩ ∧
      Recorded s header cls cap ∧ v = cap - p.offset := by
  obtain ⟨p, hlive⟩ := Option.isSome_iff_exists.mp h.1
  obtain ⟨hptr, _⟩ := hs.pointed.place hs.agree hlive
  obtain ⟨header, hraw, hblock, _⟩ := hs.pointed.header ptr p hlive
  have hrun := h.2
  rw [mallocUsableSize, CInterface.mallocUsableSize, if_neg hptr, runs_pure_bind,
    if_neg (by decide), runs_bind] at hrun
  obtain ⟨found, s₁, hresolve, hrun⟩ := hrun
  obtain ⟨p', hlive', rfl, rfl⟩ := runs_resolve hresolve
  obtain rfl := Option.some.inj (hlive.symm.trans hlive')
  dsimp only at hrun
  rw [runs_bind] at hrun
  obtain ⟨cap, s₂, hrecorded, hrun⟩ := hrun
  obtain ⟨cls, live, hget, hrec, rfl⟩ := runs_recorded (o := .silent) hrecorded
  have hsub : p.raw - headerSize = header := by omega
  rw [hsub] at hget hrec
  obtain ⟨_, hheader⟩ := hblock
  obtain ⟨_, rfl⟩ := Header.mk.inj (Option.some.inj (hget.symm.trans hheader))
  refine ⟨header, p, _, cap, hlive, hraw, ?_, hget, hrec, (runs_pure.mp hrun).1⟩
  rw [hs.pointed.distance ptr p hlive, hraw]

theorem Owned.place (ho : Owned s) {v : Header} (hget : s.headers.get header = some v)
    (hrec : Recorded s header v.cls cap) :
    Place s header v.cls (span s.thp v.cls cap) ∧
      (v.cls = 100 ∨ (v.cls < 34 ∧ cap = payload v.cls)) := by
  have hplace := ho.heads header v hget
  rw [capacity_of_recorded hrec] at hplace
  exact ⟨hplace, hrec.imp_left fun h => h.1⟩

/-- The bytes of a live block belong to no other block and to no header of a slab. -/
theorem Sane.spares (hs : Sane Q s) (hget : s.headers.get header = some ⟨cls, true⟩)
    (hrec : Recorded s header cls cap) (hlo : header ≤ x) (hhi : x < header + headerSize + cap)
    {h : ℕ} {v : Header} (hv : s.headers.get h = some v) :
    (h ≠ header → ∀ cap', Recorded s h v.cls cap' → ¬ (h ≤ x ∧ x < h + headerSize + cap')) ∧
      ∀ base, MetaOf s h base → ¬ (base ≤ x ∧ x < base + 32) := by
  obtain ⟨hplace, hkind⟩ := hs.owned.place hget hrec
  refine ⟨fun hne cap' hrec' => ?_, fun base hmeta => ?_⟩
  · obtain ⟨hplace', hkind'⟩ := hs.owned.place hv hrec'
    exact hplace.apart hplace' hkind hkind' hne.symm hlo hhi
  · obtain ⟨cap', hrec'⟩ := hs.agree.recorded hv
    obtain ⟨hplace', hkind'⟩ := hs.owned.place hv hrec'
    exact hplace.spares_meta hplace' hkind hkind' hmeta hlo hhi

/-- The payloads are disjoint and in claimed pages, and they spare all headers. -/
theorem live_blocks_are_apart (answer : ℕ → ℕ) (pages : ℕ → Bool) (thp : Bool)
    (calls : List Call) (s : State)
    (hok : Guarded (step (exactly answer pages)) Call.Seated (initial thp) calls)
    (hrun : run (step (exactly answer pages)) (initial thp) calls = some s) (ptr v x : ℕ)
    (husable : Usable s ptr v) (hlo : ptr ≤ x) (hhi : x < ptr + v) :
    (∀ ptr' v', ptr' ≠ ptr → Usable s ptr' v' → ¬ (ptr' ≤ x ∧ x < ptr' + v')) ∧
      s.owner (x / 4096) ≠ none ∧
      ∀ h, s.headers.get h ≠ none → ¬ (h ≤ x ∧ x < h + headerSize) ∧
        ∀ base, MetaOf s h base → ¬ (base ≤ x ∧ x < base + 32) := by
  have hs := run_seated (exactly_exact answer pages) hok hrun
  obtain ⟨header, p, cls, cap, hlive, hraw, rfl, hget, hrec, rfl⟩ := husable.block hs
  have hbyte : header ≤ x ∧ x < header + headerSize + cap := by omega
  refine ⟨fun ptr' v' hne husable' => ?_, ?_, fun h hh => ?_⟩
  · obtain ⟨header', p', cls', cap', hlive', hraw', rfl, hget', hrec', rfl⟩ := husable'.block hs
    have hother : header' ≠ header := fun heq =>
      hne (hs.pointed.inj _ _ p' p hlive' hlive (by rw [hraw, hraw', heq]))
    have hapart := (hs.spares hget hrec hbyte.1 hbyte.2 hget').1 hother cap' hrec'
    exact fun hin => hapart ⟨by omega, by omega⟩
  · obtain ⟨hplace, hkind⟩ := hs.owned.place hget hrec
    rcases hplace.byte hkind hbyte.1 hbyte.2 with hown | ⟨_, _, _, _, _, hown⟩
    · simp only [hown, ne_eq, reduceCtorEq, not_false_eq_true]
    · simp only [hown, ne_eq, reduceCtorEq, not_false_eq_true]
  · obtain ⟨v, hv⟩ := Option.ne_none_iff_exists'.mp hh
    obtain ⟨hapart, hmeta⟩ := hs.spares hget hrec hbyte.1 hbyte.2 hv
    refine ⟨fun hin => ?_, hmeta⟩
    by_cases heq : h = header
    · omega
    · obtain ⟨cap', hrec'⟩ := hs.agree.recorded hv
      exact hapart heq cap' hrec' ⟨hin.1, by omega⟩

end Safety

/-- Two blocks of a slab of many and a big one; and a block of 4096 bytes that was grown, with
a big one behind it. -/
theorem usable_sizes_results :
    ((run (step (listed [0, 0, 1048576, 1, 1, 1, 1048688, 0, 1, 2097152])) (initial false)
      [.malloc 64, .malloc 64, .malloc 3000000]).bind fun s =>
        (outcome (mallocUsableSize 1048704) s).map fun x => (x.1, (s.live 1048704).isSome)) =
      some (64, true) ∧
    ((run (step (listed [0, 0, 1048576, 1, 1, 1, 1, 1, 1, 5242880])) (initial false)
      [.malloc 4096, .realloc 1048624 4194288, .malloc 3000000]).map fun s =>
        ((s.live 1048624).isSome && (s.live 5242896).isSome,
          (outcome (mallocUsableSize 1048624) s).map Prod.fst,
          (outcome (mallocUsableSize 5242896) s).map Prod.fst)) =
      some (true, some 4194288, some 3000000) := by
  decide +kernel

/-- Two blocks of a slab of many, and a big one. -/
theorem live_blocks_are_apart_three :
    ∃ s, run (step (listed [0, 0, 1048576, 1, 1, 1, 1048688, 0, 1, 2097152])) (initial false)
        [.malloc 64, .malloc 64, .malloc 3000000] = some s ∧
      Usable s 1048704 64 ∧ s.owner (1048720 / 4096) ≠ none ∧
      ∀ ptr' v', ptr' ≠ 1048704 → Usable s ptr' v' → ¬ (ptr' ≤ 1048720 ∧ 1048720 < ptr' + v') := by
  obtain ⟨s, v, s', hrun, hruns, hs'⟩ := exists_outcome usable_sizes_results.1
  obtain ⟨rfl, hlive⟩ := Prod.mk.inj hs'
  obtain rfl := runs_mallocUsableSize hruns
  have hsize : Usable s' 1048704 64 := ⟨hlive, hruns⟩
  obtain ⟨hothers, hclaimed, _⟩ := live_blocks_are_apart _ _ false
    [.malloc 64, .malloc 64, .malloc 3000000] s'
    ⟨trivial, fun _ _ => ⟨trivial, fun _ _ => ⟨trivial, fun _ _ => trivial⟩⟩⟩ hrun
      1048704 64 1048720
    hsize (by decide) (by decide)
  exact ⟨s', hrun, hsize, hclaimed, hothers⟩

/-- A block of 4096 bytes that was grown to 4194288 bytes meets the big block behind it. -/
theorem grown_slab_block_meets_its_neighbour :
    ∃ s, run (step (listed [0, 0, 1048576, 1, 1, 1, 1, 1, 1, 5242880])) (initial false)
        [.malloc 4096, .realloc 1048624 4194288, .malloc 3000000] = some s ∧
      Usable s 1048624 4194288 ∧ Usable s 5242896 3000000 ∧
      ∃ x, (1048624 ≤ x ∧ x < 1048624 + 4194288) ∧ 5242896 ≤ x ∧ x < 5242896 + 3000000 := by
  obtain ⟨s, hrun, hs⟩ := Option.map_eq_some_iff.mp usable_sizes_results.2
  simp only [Prod.mk.injEq, Bool.and_eq_true] at hs
  obtain ⟨hlives, hfirst, hsecond⟩ := hs
  obtain ⟨⟨v, s₁⟩, hfirst, rfl⟩ := Option.map_eq_some_iff.mp hfirst
  obtain ⟨⟨w, s₂⟩, hsecond, rfl⟩ := Option.map_eq_some_iff.mp hsecond
  have hruns := outcome_eq_some.mp hfirst
  have hruns' := outcome_eq_some.mp hsecond
  obtain rfl := runs_mallocUsableSize hruns
  obtain rfl := runs_mallocUsableSize hruns'
  exact ⟨_, hrun, ⟨hlives.1, hruns⟩, ⟨hlives.2, hruns'⟩, 5242900, by decide, by decide, by decide⟩

/-- The recorded payload holds what was asked for. -/
def Fits (v : Option Header) (entry : Option ℕ) (p : Handle) : Prop :=
  ∃ cls cap, v = some ⟨cls, true⟩ ∧
    ((cls = 100 ∧ entry = some cap) ∨ (cls < 34 ∧ cap = payload cls)) ∧
    p.offset + p.size ≤ cap

theorem holdsOnFiled_fits : HoldsOnFiled Fits := by
  intro s h m p hget hrec hfit
  exact ⟨newClass m, newCapacity m, hget, hrec, hfit⟩

theorem payload_gap (h : cls < 34) : payload cls ≤ 3840 ∨ 4096 ≤ payload cls := by
  have hall : ∀ c < 34, payload c ≤ 3840 ∨ 4096 ≤ payload c := by decide
  exact hall cls h

theorem runs_recorded_of [Layout] {o : Oracle} {message : String} {live : Bool}
    (hget : s.headers.get header = some ⟨cls, live⟩) (h : Recorded s header cls cap) :
    Runs (recorded o header message) s cap s := by
  have hclass : Runs (classOf header) s cls s := by
    rw [classOf, runs_get_bind, hget]
    exact runs_pure.mpr ⟨rfl, rfl⟩
  rw [recorded, CInterface.recorded, runs_bind_iff hclass]
  rcases h with ⟨rfl, hentry⟩ | ⟨hcls, rfl⟩
  · obtain ⟨info, hinfo, rfl⟩ := Option.map_eq_some_iff.mp hentry
    rw [if_pos rfl, runs_read_bind, hinfo]
    exact runs_pure.mpr ⟨rfl, rfl⟩
  · have hlen : cls < sizeClasses.length := hcls
    have htable : sizeClasses[cls]? = some (payload cls) := by
      rw [payload, List.getD_eq_getElem _ _ hlen]
      exact List.getElem?_eq_getElem hlen
    rw [if_neg (by omega)]
    dsimp only
    rw [lookup, htable]
    exact runs_pure.mpr ⟨rfl, rfl⟩

section Capacity

variable [Layout]

/-- A plain pointer to a big block that is recorded with the size zero. -/
def State.emptyBlock (s : State) (ptr : ℕ) : Bool :=
  (s.live ptr).any fun p => p.offset = 0 ∧ s.entry (p.raw - headerSize) = some 0

/-- No block of size zero is resized to a size that is kept as it is. -/
def Call.Sized (s : State) : Call → Prop
  | .realloc ptr n => s.emptyBlock ptr = true → n = 0 ∨ 3840 < n
  | _ => True

instance Call.Sized.decidable (s : State) : ∀ c, Decidable (Call.Sized s c)
  | .malloc _ => isTrue trivial
  | .calloc _ _ => isTrue trivial
  | .posixMemalign _ _ => isTrue trivial
  | .realloc _ _ => inferInstanceAs (Decidable (_ → _))
  | .free _ => isTrue trivial
  | .usableSize _ => isTrue trivial
  | .write _ _ _ => isTrue trivial

/-- The two conditions on the calls. -/
def Call.Regular (s : State) (c : Call) : Prop := c.Seated s ∧ c.Sized s

instance Call.Regular.decidable (s : State) (c : Call) : Decidable (c.Regular s) :=
  inferInstanceAs (Decidable (_ ∧ _))

/-- A request that is kept in a larger block fits, if the block is not of size zero. -/
theorem le_of_extent_lt (ha : Agree s) (hrec : Recorded s header cls cap)
    (hlt : extent (newClass n) n < extent cls cap)
    (hzero : cap = 0 → n = 0 ∨ 3840 < n) : n ≤ cap := by
  have hfit := (newExtent_bounds n).2
  have hle := le_newCapacity n
  have hhead := headerSize_cases
  rcases hrec with ⟨rfl, hentry⟩ | ⟨hcls, rfl⟩
  · rw [extent_big] at hlt
    cases hmatch : matchSizeClass n with
    | none =>
      rw [(newClass_none hmatch).1, extent_big] at hlt
      unfold pagesOf at hlt
      omega
    | some c =>
      obtain ⟨hc, _, _, hsmall⟩ := matchSizeClass_some hmatch
      rcases matchSizeClass_none (ha.sizes header cap hentry) with rfl | hlarge
      · have hgap := payload_gap hc
        rw [(newClass_some hmatch).1, extent_slab hc] at hlt
        rw [(newClass_some hmatch).2] at hle
        unfold pagesOf at hlt
        omega
      · omega
  · rw [extent_slab hcls] at hlt
    omega

theorem holdsOnKept_fits (ha : Agree s) (hsized : c.Sized s) : HoldsOnKept Fits s c := by
  rintro ptr n p cls cap rfl hlive hplain hget hrec hfit
  refine ⟨cls, cap, hget, hrec, ?_⟩
  show 0 + n ≤ cap
  rw [Nat.zero_add]
  rcases hfit with ⟨_, hle⟩ | hlt
  · exact hle
  · refine le_of_extent_lt ha hrec hlt ?_
    rintro rfl
    refine hsized ?_
    rcases hrec with ⟨_, hentry⟩ | ⟨hcls, hpayload⟩
    · simp only [State.emptyBlock, hlive, Option.any_some, hplain, hentry, and_self, decide_true]
    · have hpos := (payload_bounds hcls).2
      omega

theorem run_regular {thp : Bool} {calls : List Call} (hexact : o.Exact)
    (hok : Guarded (step o) Call.Regular (initial thp) calls)
    (hrun : run (step o) (initial thp) calls = some s) : Sane Fits s :=
  run_sane hexact holdsOnFiled_fits
    (fun _ _ hs hc => ⟨hc.1, holdsOnKept_fits hs.agree hc.2⟩) hok hrun

/-- The pointer that a call returns has the size of the request. -/
theorem Performs.adopted (h : Performs o s c r s') (hr : r ≠ 0) (hc : ∀ ptr, c ≠ .usableSize ptr) :
    ∃ p, s'.live r = some p ∧ p.size = c.request := by
  cases h with
  | written _ _ _ => exact absurd rfl hr
  | measured ptr _ => exact absurd rfl (hc ptr)
  | denied _ => exact absurd rfl hr
  | refused _ _ _ _ => exact absurd rfl hr
  | made _ _ header _ _ _ _ _ _ => exact ⟨_, State.bound_live_self _ _ _, rfl⟩
  | aligned _ _ _ _ _ _ _ _ => exact ⟨_, State.bound_live_self _ _ _, rfl⟩
  | freed _ _ _ _ _ => exact absurd rfl hr
  | dropped _ _ _ _ _ _ _ => exact absurd rfl hr
  | renewed _ _ _ _ _ _ _ _ => exact ⟨_, State.bound_live_self _ _ _, rfl⟩
  | resized _ _ _ _ _ _ _ _ _ _ _ _ _ => exact ⟨_, State.bound_live_self _ _ _, rfl⟩
  | unresized _ _ _ _ _ _ _ _ _ _ _ => exact absurd rfl hr

/-- The usable size of a pointer to a block that holds its request. -/
theorem Sane.usable (hs : Sane Fits s) {p : Handle} (hlive : s.live ptr = some p) :
    ∃ v, Runs (mallocUsableSize ptr) s v s ∧ p.size ≤ v := by
  obtain ⟨hptr, _⟩ := hs.pointed.place hs.agree hlive
  obtain ⟨header, hraw, _, cls, cap, hget, hrec, hfit⟩ := hs.pointed.header ptr p hlive
  have hsub : p.raw - headerSize = header := by omega
  refine ⟨cap - p.offset, ?_, by omega⟩
  have hresolve : Runs (resolve ptr) s (p.raw, p.offset) s := by
    rw [resolve, runs_get_bind, hlive]
    exact runs_pure.mpr ⟨rfl, rfl⟩
  rw [mallocUsableSize, CInterface.mallocUsableSize, if_neg hptr, runs_pure_bind,
    if_neg (by decide), runs_bind_iff hresolve]
  dsimp only
  rw [hsub]
  exact runs_bind.mpr ⟨cap, s, runs_recorded_of (o := .silent) hget hrec,
    runs_pure.mpr ⟨rfl, rfl⟩⟩

/-- After a call that allocates, the usable size covers the request. -/
theorem usable_size_covers_request (answer : ℕ → ℕ) (pages : ℕ → Bool) (thp : Bool)
    (calls : List Call) (s s' : State)
    (hok : Guarded (step (exactly answer pages)) Call.Regular (initial thp) calls)
    (hrun : run (step (exactly answer pages)) (initial thp) calls = some s) (c : Call) (n r : ℕ)
    (hc : c = .malloc n ∨ (∃ nmemb size, c = .calloc nmemb size ∧ n = nmemb * size) ∨
      (∃ alignment, c = .posixMemalign alignment n) ∨ ∃ ptr, c = .realloc ptr n ∧ 0 < n)
    (hcall : c.Ok s) (hregular : c.Regular s)
    (hperform : Runs (perform (exactly answer pages) c) s r s') (hr : r ≠ 0) :
    ∃ v, Runs (mallocUsableSize r) s' v s' ∧ n ≤ v := by
  have hexact := exactly_exact answer pages
  have hs := run_regular hexact hok hrun
  have hperforms := perform_cases hs.placed hcall hperform
  have hs' := hs.performs hexact holdsOnFiled_fits hregular.1 (holdsOnKept_fits hs.agree hregular.2)
    hperforms
  have hrequest : c.request = n ∧ ∀ ptr, c ≠ .usableSize ptr := by
    rcases hc with rfl | ⟨_, _, rfl, rfl⟩ | ⟨_, rfl⟩ | ⟨_, rfl, _⟩ <;> exact ⟨rfl, nofun⟩
  obtain ⟨p, hlive, hsize⟩ := hperforms.adopted hr hrequest.2
  obtain ⟨v, hv, hle⟩ := hs'.usable hlive
  exact ⟨v, hv, by rwa [← hrequest.1, ← hsize]⟩

end Capacity

/-- A block of size zero that is resized to 4000 bytes, or to 100. -/
theorem empty_block_result :
    (run (step (listed [4096])) (initial false) [.malloc 0]).bind (fun s =>
      (outcome (perform (listed [4096]) (.realloc 4112 4000)) s).bind fun x =>
        (outcome (perform (listed [4096]) (.realloc 4112 100)) s).map fun y =>
          (x.1, decide (Call.Ok s (.realloc 4112 4000) ∧ Call.Regular s (.realloc 4112 4000)),
            y.1, (outcome (mallocUsableSize 4112) y.2).map Prod.fst)) =
      some (4112, true, 4112, some 0) := by
  decide +kernel

/-- The block of size zero grows to 4000 bytes. -/
theorem usable_size_covers_request_zero :
    ∃ s s', run (step (listed [4096])) (initial false) [.malloc 0] = some s ∧
      Runs (perform (listed [4096]) (.realloc 4112 4000)) s 4112 s' ∧
      ∃ v, Runs (mallocUsableSize 4112) s' v s' ∧ 4000 ≤ v := by
  obtain ⟨s, hrun, hs⟩ := Option.bind_eq_some_iff.mp empty_block_result
  obtain ⟨⟨r, s'⟩, hperform, hs⟩ := Option.bind_eq_some_iff.mp hs
  obtain ⟨_, _, hs'⟩ := Option.map_eq_some_iff.mp hs
  simp only [Prod.mk.injEq] at hs'
  obtain ⟨rfl, hfacts, _⟩ := hs'
  obtain ⟨hcall, hregular⟩ := of_decide_eq_true hfacts
  have hruns := outcome_eq_some.mp hperform
  refine ⟨s, s', hrun, hruns, ?_⟩
  exact usable_size_covers_request _ _ false [.malloc 0] s s'
    ⟨⟨trivial, trivial⟩, fun _ _ => trivial⟩ hrun
    (.realloc 4112 4000)
    4000 4112 (Or.inr (Or.inr (Or.inr ⟨4112, rfl, by decide⟩))) hcall hregular hruns (by decide)

/-- The block of size zero is kept for 100 bytes, and has no usable bytes. -/
theorem empty_block_keeps_its_size :
    ∃ s s', run (step (listed [4096])) (initial false) [.malloc 0] = some s ∧
      Runs (perform (listed [4096]) (.realloc 4112 100)) s 4112 s' ∧
      Runs (mallocUsableSize 4112) s' 0 s' := by
  obtain ⟨s, hrun, hs⟩ := Option.bind_eq_some_iff.mp empty_block_result
  obtain ⟨_, _, hs⟩ := Option.bind_eq_some_iff.mp hs
  obtain ⟨⟨r, s'⟩, hperform, hs'⟩ := Option.map_eq_some_iff.mp hs
  simp only [Prod.mk.injEq] at hs'
  obtain ⟨_, _, rfl, husable⟩ := hs'
  obtain ⟨⟨v, s₁⟩, husable, rfl⟩ := Option.map_eq_some_iff.mp husable
  have hmeasured := outcome_eq_some.mp husable
  obtain rfl := runs_mallocUsableSize hmeasured
  exact ⟨s, _, hrun, outcome_eq_some.mp hperform, hmeasured⟩

end Oxidalloc.Records
