import Oxidalloc.SlabConservation

/-!
The blocks of `posix_memalign`. The pointer that `malloc` returned is moved up to the next
multiple of the alignment behind room for a record of two words, the tag and the pointer
itself; `malloc_usable_size` finds the record and takes the distance off the payload.
-/
namespace Oxidalloc

open ByteMemory Programs SlabConservation

/-- A block as `malloc` returns it: the header in front of the pointer records the size of the
payload, and the words of the payload are ours. -/
structure RawBlock (w : World) (raw usable : ℕ) : Prop where
  header : headerSize ≤ raw
  aligned : 8 ∣ raw
  recorded : ∀ missing, Runs (recorded (raw - headerSize) missing) w usable w
  ours : ∀ x, raw ≤ x → x < raw + usable → 8 ∣ x → w.isOurs x = true

/-- The memory with the record of an aligned pointer. -/
def record (m : Memory) (aligned raw : ℕ) : Memory :=
  store (store m (aligned - tagSize) 8 oxAlignTag) (aligned - offsetSize) 8 raw

/-- The state with the record of an aligned pointer. -/
def World.tagged (w : World) (aligned raw : ℕ) : World := { w with mem := record w.mem aligned raw }

section Record

variable {m : Memory} {aligned raw x : ℕ}

theorem record_of_not_mem (h : x < aligned - tagSize ∨ aligned ≤ x) (htag : tagSize ≤ aligned) :
    record m aligned raw x = m x := by
  unfold tagSize at h htag
  unfold record offsetSize tagSize
  rw [store_of_not_mem (by omega), store_of_not_mem (by omega)]

theorem load_tag (htag : tagSize ≤ aligned) :
    load (record m aligned raw) (aligned - tagSize) 8 = oxAlignTag := by
  unfold tagSize at htag
  unfold record offsetSize tagSize
  rw [load_congr fun x _ _ => store_of_not_mem (by omega)]
  exact load_store (by decide)

theorem load_original (hraw : raw < usizeBound) :
    load (record m aligned raw) (aligned - offsetSize) 8 = raw :=
  load_store hraw

end Record

section Blocks

variable {w w' : World} {raw usable result alignment start : ℕ}

theorem runs_recorded_congr {header : ℕ} {missing : String}
    (hcls : OxHeader.cls w'.mem header = OxHeader.cls w.mem header) (hbig : w'.big = w.big)
    (h : Runs (recorded header missing) w usable w) :
    Runs (recorded header missing) w' usable w' := by
  rw [recorded, CInterface.recorded, runs_read_bind] at h ⊢
  rw [hcls]
  split at h
  · rename_i hcls
    rw [if_pos hcls, runs_read_bind, hbig]
    rw [runs_read_bind] at h
    cases hget : w.big.get header with
    | none =>
      rw [hget] at h
      exact absurd h runs_throw
    | some info =>
      rw [hget] at h
      exact runs_pure.mpr ⟨(runs_pure.mp h).1, rfl⟩
  · rename_i hslab
    rw [if_neg hslab]
    exact runs_attempt.mpr ⟨(runs_attempt.mp h).1, rfl⟩

/-- The block is the same in a memory with a record inside its payload. -/
theorem RawBlock.tagged (h : RawBlock w raw usable) (hlo : raw + tagSize ≤ result) :
    RawBlock (w.tagged result raw) raw usable := by
  have hheader := h.header
  have hmem : ∀ x, raw - headerSize ≤ x → x < raw - headerSize + 16 →
      (w.tagged result raw).mem x = w.mem x := by
    intro x _ hx
    unfold headerSize at hheader hx
    exact record_of_not_mem (Or.inl (by omega)) (by omega)
  have hcls := (OxHeader.fields_congr hmem).2.1
  exact ⟨hheader, h.aligned, fun missing => runs_recorded_congr hcls rfl (h.recorded missing),
    h.ours⟩

theorem eight_dvd (hpower : IsPowerOfTwo alignment) (hle : 8 ≤ alignment) : 8 ∣ alignment := by
  rw [← show 2 ^ Nat.log2 alignment = alignment from hpower] at hle ⊢
  exact Nat.pow_dvd_pow 2 ((Nat.pow_le_pow_iff_right (by decide : 1 < 2)).mp
    (show 2 ^ 3 ≤ _ from hle))

/-- Rounding up a sum that stays in range ends, at a multiple of the alignment. -/
theorem alignAfter_spec (hpower : IsPowerOfTwo alignment)
    (hbound : start + alignment < usizeBound) :
    ∃ aligned, alignAfter start alignment = .ok aligned ∧ alignment ∣ aligned ∧ start ≤ aligned ∧
      aligned < start + alignment := by
  have hpos : 0 < alignment := hpower ▸ Nat.two_pow_pos _
  have hlog : Nat.log2 alignment ≤ 64 := by
    by_contra hgt
    have hle : 2 ^ 64 ≤ 2 ^ Nat.log2 alignment := Nat.pow_le_pow_right Nat.two_pos (by omega)
    rw [show 2 ^ Nat.log2 alignment = alignment from hpower] at hle
    unfold usizeBound at hbound
    omega
  have hround := (@alignTo_eq_ok start (Nat.log2 alignment) _ hlog).mpr
    ⟨by rw [show 2 ^ Nat.log2 alignment = alignment from hpower]; omega, rfl⟩
  rw [show 2 ^ Nat.log2 alignment = alignment from hpower] at hround
  obtain ⟨_, hle, hlt⟩ := alignTo_bounds hpower (by omega) hround
  refine ⟨_, ?_, Nat.dvd_mul_left alignment _, hle, hlt⟩
  rw [alignAfter, if_neg (by omega)]
  exact hround

/-- `malloc_usable_size` finds the record and takes the distance off the payload. -/
theorem RawBlock.usable_tagged (h : RawBlock w raw usable) (hdvd : 8 ∣ result)
    (hlo : raw + tagSize ≤ result) (hhi : result < raw + usable)
    (hend : raw + usable < usizeBound) :
    Runs (mallocUsableSize result) (w.tagged result raw)
      (raw + usable - result) (w.tagged result raw) := by
  have htag : tagSize ≤ result := by omega
  have hours : (w.tagged result raw).isOurs result = true := h.ours result (by omega) hhi hdvd
  have hraw : (w.tagged result raw).isOurs raw = true :=
    h.ours raw (Nat.le_refl raw) (by omega) h.aligned
  have htagged : (w.tagged result raw).mem = record w.mem result raw := rfl
  have hresolve : Runs (resolve result) (w.tagged result raw)
      (raw, result - raw) (w.tagged result raw) := by
    rw [resolve, runs_get_bind]
    dsimp only
    rw [htagged, load_tag htag, load_original (by omega), if_pos ⟨rfl, hraw⟩]
    refine runs_pure.mpr ⟨Prod.ext rfl ?_, rfl⟩
    show result - raw = (result + (usizeBound - raw)) % usizeBound
    rw [show result + (usizeBound - raw) = result - raw + usizeBound by omega, Nat.add_mod_right]
    exact (Nat.mod_eq_of_lt (by omega)).symm
  rw [mallocUsableSize, CInterface.mallocUsableSize, if_neg (by unfold tagSize at htag; omega),
    runs_read_bind, hours, if_neg (by decide),
    runs_bind_iff hresolve, runs_bind_iff ((h.tagged hlo).recorded _)]
  exact runs_pure.mpr ⟨by omega, rfl⟩

/-- Every block of the allocator is a block as `malloc` returns it. -/
theorem Inv.rawBlock {g : Layout} {h : ℕ} {pl : Place} (hinv : Inv w g)
    (hplace : g.place h = some pl) : RawBlock w (h + 16) (w.capacity h) := by
  have hblock := (hinv.blocks h pl hplace).1
  have haligned := hblock.isBlock.aligned
  refine ⟨Nat.le_add_left 16 h, by omega, fun missing => ?_, fun x hlo hhi hdvd => ?_⟩
  · show Runs (recorded h missing) w (w.capacity h) w
    rw [recorded, CInterface.recorded, runs_read_bind]
    unfold World.capacity
    rcases hblock.cls with hlt | ⟨hbig, info, hget, _⟩
    · rw [if_neg (by omega), if_neg (by omega)]
      exact runs_attempt.mpr ⟨index_sizeClasses.mpr ⟨hlt, rfl⟩, rfl⟩
    · rw [if_pos hbig, if_pos hbig, runs_read_bind, World.bigSize, hget]
      exact runs_pure.mpr ⟨rfl, rfl⟩
  · have hown := hblock.extent x (by omega) hhi
    exact hinv.isOurs_of_own (by rw [hown]; exact nofun) (Nat.mod_eq_zero_of_dvd hdvd)

/-- A request that has a class gets such a block, with room for it. -/
theorem mallocTwice_rawBlock {g : Layout} {t size : ℕ} (hinv : Inv w g) (hno : NoLoose g)
    (hpos : 0 < size) (hmax : size ≤ 2097152) (h : Runs (mallocTwice t size) w raw w')
    (hraw : raw ≠ 0) : ∃ usable, RawBlock w' raw usable ∧ size ≤ usable ∧ usable ≤ 2097152 := by
  obtain ⟨cls, hcls⟩ := exists_class hpos hmax
  have hgiven : ∀ w₀ g₀, Inv w₀ g₀ → NoLoose g₀ → Runs (allocateClass t cls) w₀ raw w' →
      ∃ usable, RawBlock w' raw usable ∧ size ≤ usable ∧ usable ≤ 2097152 := by
    intro w₀ g₀ hinv₀ hno₀ hrun
    rcases allocateClass_spec hinv₀ hno₀ hrun with
      ⟨hzero, _⟩ | ⟨header, g', hr, hhands, hlt, hclass⟩
    · exact absurd hzero hraw
    · have hcap : w'.capacity header = payload cls := by
        rw [World.capacity, hclass, if_neg (by omega)]
      refine ⟨_, hr ▸ hhands.inv.rawBlock hhands.held, ?_, ?_⟩
      · rw [hcap]
        exact (matchSizeClass_some hcls).2.1
      · rw [hcap]
        exact (payload_bounds hlt).2.2
  have hmalloc : CInterface.malloc (backend t) size = allocateClass t cls := malloc_of_class hcls
  rw [mallocTwice, CInterface.mallocTwice, runs_bind, hmalloc] at h
  obtain ⟨first, w₁, hfirst, h⟩ := h
  split at h
  · rename_i hzero
    rcases allocateClass_spec hinv hno hfirst with ⟨_, g₁, hreach⟩ | ⟨header, _, hr, _⟩
    · exact hgiven w₁ g₁ hreach.inv hreach.loose h
    · omega
  · obtain ⟨rfl, rfl⟩ := runs_pure.mp h
    exact hgiven w g hinv hno hfirst

end Blocks

/-- An aligned pointer and its record are inside the block that `malloc` returned, no sum on
the way overflows, and the usable size reaches to the end of that block. -/
theorem aligned_block_is_contained (t alignment size : ℕ) (halignment : 8 ≤ alignment)
    (hpower : IsPowerOfTwo alignment) (w w₁ : World) (raw usable : ℕ)
    (hmalloc : Runs (mallocTwice t (size + alignment + tagSize)) w raw w₁)
    (hblock : RawBlock w₁ raw usable) (husable : size + alignment + tagSize ≤ usable)
    (hend : raw + usable < 2 ^ 48) :
    size + alignment + tagSize < usizeBound ∧ raw + tagSize + alignment < usizeBound ∧
      ∃ result, Runs (posixMemalign t alignment size) w (0, result)
          (w₁.tagged result raw) ∧
        alignment ∣ result ∧ raw + tagSize ≤ result ∧ result + size ≤ raw + usable ∧
        Runs (mallocUsableSize result) (w₁.tagged result raw)
          (raw + usable - result) (w₁.tagged result raw) := by
  have hbound : raw + tagSize + alignment < usizeBound := by
    unfold usizeBound
    omega
  have htotal : size + alignment + tagSize < usizeBound := by
    unfold usizeBound
    omega
  obtain ⟨result, hround, hdvd, hlo, hhi⟩ := alignAfter_spec hpower hbound
  refine ⟨htotal, hbound, result, ?_, hdvd, hlo, by omega, ?_⟩
  · have hne : raw ≠ 0 := by
      have hheader := hblock.header
      unfold headerSize at hheader
      omega
    refine runs_bind.mpr ⟨.ok (raw, result), w₁.tagged result raw, ?_, runs_pure.mpr ⟨rfl, rfl⟩⟩
    rw [CInterface.posixMemalign, if_neg (not_or.mpr ⟨by omega, not_not.mpr hpower⟩),
      if_neg (by omega), runs_bind_iff hmalloc, if_neg hne]
    refine runs_attempt_bind.mpr ⟨result, ?_, ?_⟩
    · rwa [Nat.min_eq_left (by omega)]
    · rw [runs_modify_bind]
      exact runs_pure.mpr ⟨rfl, rfl⟩
  · have height : 8 ∣ alignment := eight_dvd hpower halignment
    exact hblock.usable_tagged (height.trans hdvd) hlo (by omega) (by unfold usizeBound; omega)

/-- A hundred bytes at a multiple of 64, in a block of a slab. -/
theorem aligned_block_is_contained_slab :
    ∃ raw usable w₁ result, RawBlock w₁ raw usable ∧
      Runs (posixMemalign 0 64 100) (World.new ⟨none, none, 1⟩ grantAll) (0, result)
        (w₁.tagged result raw) ∧
      64 ∣ result ∧ raw + 16 ≤ result ∧ result + 100 ≤ raw + usable := by
  have hresult : (outcome (mallocTwice 0 180) (World.new ⟨none, none, 1⟩ grantAll)).map
      (fun x => decide (x.1 ≠ 0 ∧ x.1 < 2 ^ 40)) = some true := by
    decide +kernel
  obtain ⟨⟨raw, w₁⟩, hmalloc, hfacts⟩ := Option.map_eq_some_iff.mp hresult
  obtain ⟨hne, hlt⟩ := of_decide_eq_true hfacts
  have hruns := outcome_eq_some.mp hmalloc
  obtain ⟨usable, hblock, husable, hmax⟩ :=
    mallocTwice_rawBlock (inv_new _ _) nofun (by decide) (by decide) hruns hne
  obtain ⟨_, _, result, hposix, hdvd, hlo, hhi, _⟩ :=
    aligned_block_is_contained 0 64 100 (by decide)
    (by decide) (World.new ⟨none, none, 1⟩ grantAll) w₁ raw usable hruns hblock husable (by omega)
  exact ⟨raw, usable, w₁, result, hblock, hposix, hdvd, hlo, hhi⟩

end Oxidalloc
