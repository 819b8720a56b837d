import Oxidalloc.AlignTo

/-!
The size classes of the slab layer. A request of at most 2 MiB belongs to the first
class whose payload holds it; up to 4096 bytes the class is read from a table with one
entry for every 16 bytes. An index beyond the end of a table panics.
-/
namespace Oxidalloc

def headerSize : ℕ := 16

/-- `size_of::<MetaData>()`: three words, padded to the alignment of 16. -/
def metaDataSize : ℕ := 32

def sizeClasses : List ℕ :=
  [16, 32, 48, 64, 80, 96, 128,
    160, 192, 256, 320, 384, 512,
    768, 1024, 1280, 1536, 1792, 2048, 2560, 3072,
    3840, 4096, 8192, 12288, 16384, 24576,
    32768, 65536, 131072, 262144, 524288, 1048576, 2097152]

def iterations : List ℕ :=
  [409, 341, 292, 255, 227, 153, 170,
    36, 31, 25, 21, 18, 14,
    9, 7, 6, 2, 4, 3, 1, 2,
    1, 1, 1, 1, 1, 1,
    1, 1, 1, 1, 1, 1, 1]

def numSizeClasses : ℕ := sizeClasses.length

def index (table : List ℕ) (i : ℕ) : Except Halt ℕ :=
  match table[i]? with
  | some v => .ok v
  | none => .error .panic

def tlsBigClassBytes : ℕ := 1024 * 64
def tlsMediumClassBytes : ℕ := 1024 * 96
def tlsSmallClassBytes : ℕ := 1024 * 128

/-- The entry of `TLS_MAX_BLOCKS` for a class. -/
def tlsMaxBlocks (cls : ℕ) : Except Halt ℕ := do
  let payload ← index sizeClasses cls
  let blockSize ← alignTo (payload + headerSize) 16
  let blocks :=
    if 1024 * 1024 * 16 < blockSize then 0
    else if payload < 256 then tlsSmallClassBytes / blockSize
    else if payload < 1024 * 16 then tlsMediumClassBytes / blockSize
    else tlsBigClassBytes / blockSize
  .ok (if blocks = 0 then 1 else blocks)

def sizeLut : List ℕ :=
  (List.range 256).map fun i => (sizeClasses.takeWhile (· < (i + 1) * 16)).length

def getSize4096Class : ℕ := (sizeClasses.findIdx? (4096 ≤ ·)).getD 0

def slowPathMatch (size : ℕ) : Option ℕ := sizeClasses.findIdx? (size ≤ ·)

def matchSizeClass (size : ℕ) : Option ℕ :=
  if size = 0 ∨ 2097152 < size then none
  else if size ≤ 4096 then sizeLut[(size - 1) >>> 4]?
  else slowPathMatch size

/-- The payload of a class, zero beyond the table. -/
def payload (cls : ℕ) : ℕ := sizeClasses.getD cls 0

/-- The number of blocks in a slab of a class, zero beyond the table. -/
def slabBlocks (cls : ℕ) : ℕ := iterations.getD cls 0

variable {cls size v : ℕ}

theorem index_eq_ok {table : List ℕ} :
    index table cls = .ok v ↔ cls < table.length ∧ v = table.getD cls 0 := by
  unfold index
  rw [List.getD_eq_getElem?_getD]
  by_cases h : cls < table.length
  · rw [List.getElem?_eq_getElem h]
    simp [h, eq_comm]
  · rw [List.getElem?_eq_none (by omega)]
    simp [h]

theorem index_sizeClasses : index sizeClasses cls = .ok v ↔ cls < 34 ∧ v = payload cls :=
  index_eq_ok

theorem index_iterations : index iterations cls = .ok v ↔ cls < 34 ∧ v = slabBlocks cls :=
  index_eq_ok

theorem payload_bounds (h : cls < 34) :
    16 ∣ payload cls ∧ 16 ≤ payload cls ∧ payload cls ≤ 2097152 := by
  have hall : ∀ c < 34, 16 ∣ payload c ∧ 16 ≤ payload c ∧ payload c ≤ 2097152 := by decide
  exact hall cls h

/-- The size of a block is a multiple of 16 already. -/
theorem alignTo_payload (hcls : cls < 34) :
    alignTo (payload cls + headerSize) 16 = .ok (payload cls + 16) := by
  obtain ⟨hdvd, _, hle⟩ := payload_bounds hcls
  refine (@alignTo_eq_ok (payload cls + 16) 4 _ (by omega)).mpr ⟨?_, by omega⟩
  have hbound : 2097152 + 16 + (2 ^ 4 - 1) < usizeBound := by decide
  omega

theorem slabBlocks_bounds (h : cls < 34) : 0 < slabBlocks cls ∧ slabBlocks cls ≤ 409 := by
  have hall : ∀ c < 34, 0 < slabBlocks c ∧ slabBlocks c ≤ 409 := by decide
  exact hall cls h

theorem sizeLut_spec {i : ℕ} (h : i < 256) :
    ∃ c, sizeLut[i]? = some c ∧ c < 34 ∧ (i + 1) * 16 ≤ payload c := by
  have hlut : sizeLut[i]? = some (sizeClasses.takeWhile (· < (i + 1) * 16)).length := by
    rw [sizeLut, List.getElem?_map, List.getElem?_range h, Option.map_some]
  refine ⟨_, hlut, ?_⟩
  -- the entry is the index of the first class that is large enough
  have hexists : ∃ x ∈ sizeClasses, (!decide (x < (i + 1) * 16)) = true :=
    ⟨2097152, by decide, by simp only [Bool.not_eq_true', decide_eq_false_iff_not]; omega⟩
  have hlt := List.findIdx_lt_length_of_exists hexists
  have hfirst := List.findIdx_getElem (w := hlt)
  rw [List.takeWhile_eq_take_findIdx_not, List.length_take_of_le (Nat.le_of_lt hlt)]
  refine ⟨hlt, ?_⟩
  rw [payload, List.getD_eq_getElem?_getD, List.getElem?_eq_getElem hlt]
  simpa only [Option.getD_some, Bool.not_eq_true', decide_eq_false_iff_not, Nat.not_lt] using hfirst

theorem slowPathMatch_spec (h : size ≤ 2097152) :
    ∃ c, slowPathMatch size = some c ∧ c < 34 ∧ size ≤ payload c := by
  have hsome : (slowPathMatch size).isSome = true := by
    unfold slowPathMatch
    rw [List.findIdx?_isSome, List.any_eq_true]
    exact ⟨2097152, by decide, decide_eq_true h⟩
  obtain ⟨c, hc⟩ := Option.isSome_iff_exists.mp hsome
  obtain ⟨hlt, hle, _⟩ := List.findIdx?_eq_some_iff_getElem.mp hc
  refine ⟨c, hc, hlt, ?_⟩
  rw [payload, List.getD_eq_getElem?_getD, List.getElem?_eq_getElem hlt]
  exact of_decide_eq_true hle

/-- A request has a class exactly if it is not empty and at most 2 MiB, and the class
holds the request. -/
theorem matchSizeClass_some (h : matchSizeClass size = some cls) :
    cls < 34 ∧ size ≤ payload cls ∧ 0 < size ∧ size ≤ 2097152 := by
  unfold matchSizeClass at h
  split at h
  · contradiction
  · rename_i hrange
    split at h
    · have hshift : (size - 1) >>> 4 = (size - 1) / 16 := Nat.shiftRight_eq_div_pow _ 4
      obtain ⟨c, hlut, hc, hpayload⟩ := @sizeLut_spec ((size - 1) >>> 4) (by omega)
      rw [hlut] at h
      have heq := Option.some.inj h
      subst heq
      exact ⟨hc, by omega, by omega, by omega⟩
    · obtain ⟨c, hslow, hc, hpayload⟩ := @slowPathMatch_spec size (by omega)
      rw [hslow] at h
      have heq := Option.some.inj h
      subst heq
      exact ⟨hc, hpayload, by omega, by omega⟩

theorem matchSizeClass_none (h : matchSizeClass size = none) : size = 0 ∨ 2097152 < size := by
  by_contra hrange
  unfold matchSizeClass at h
  rw [if_neg hrange] at h
  split at h
  · have hshift : (size - 1) >>> 4 = (size - 1) / 16 := Nat.shiftRight_eq_div_pow _ 4
    obtain ⟨c, hlut, _⟩ := @sizeLut_spec ((size - 1) >>> 4) (by omega)
    rw [hlut] at h
    contradiction
  · obtain ⟨c, hslow, _⟩ := @slowPathMatch_spec size (by omega)
    rw [hslow] at h
    contradiction

theorem matchSizeClass_payload (h : cls < 34) : matchSizeClass (payload cls) = some cls := by
  have hall : ∀ c < 34, matchSizeClass (payload c) = some c := by decide +kernel
  exact hall cls h

end Oxidalloc
