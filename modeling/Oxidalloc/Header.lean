import Oxidalloc.ByteMemory
import Oxidalloc.Halting

/-!
The two records that the allocator keeps in the memory it hands out: the 16-byte
`OxHeader` in front of every block (next pointer, class, magic and life time, at the
offsets 0, 8, 9 and 12) and the `MetaData` at the beginning of every slab (start, end
and next, a word each). Writing a header leaves its two padding bytes as they are.
-/
namespace Oxidalloc

open ByteMemory

namespace OxHeader

def next (m : Memory) (h : ℕ) : ℕ := load m h 8
def cls (m : Memory) (h : ℕ) : ℕ := (m (h + 8)).toNat
def magic (m : Memory) (h : ℕ) : UInt8 := m (h + 9)
def lifeTime (m : Memory) (h : ℕ) : ℕ := load m (h + 12) 4

def setNext (m : Memory) (h ptr : ℕ) : Memory := store m h 8 ptr
def setClass (m : Memory) (h c : ℕ) : Memory := store m (h + 8) 1 c
def setMagic (m : Memory) (h : ℕ) (b : UInt8) : Memory := fill m (h + 9) 1 b
def setLifeTime (m : Memory) (h t : ℕ) : Memory := store m (h + 12) 4 t

def write (m : Memory) (h ptr c : ℕ) (b : UInt8) (t : ℕ) : Memory :=
  setLifeTime (setMagic (setClass (setNext m h ptr) h c) h b) h t

variable {m m' : Memory} {h ptr c t x : ℕ} {b : UInt8}

/-- The memories have the same bytes, except perhaps in the header at h. -/
def Elsewhere (h : ℕ) (m m' : Memory) : Prop := ∀ x, x < h ∨ h + 16 ≤ x → m' x = m x

theorem setNext_elsewhere : Elsewhere h m (setNext m h ptr) :=
  fun _ hx => store_of_not_mem (by omega)

theorem setClass_elsewhere : Elsewhere h m (setClass m h c) :=
  fun _ hx => store_of_not_mem (by omega)

theorem setMagic_elsewhere : Elsewhere h m (setMagic m h b) :=
  fun _ hx => fill_of_not_mem (by omega)

theorem setLifeTime_elsewhere : Elsewhere h m (setLifeTime m h t) :=
  fun _ hx => store_of_not_mem (by omega)

theorem Elsewhere.trans {m₁ m₂ : Memory} (h₁ : Elsewhere h m m₁) (h₂ : Elsewhere h m₁ m₂) :
    Elsewhere h m m₂ := fun x hx => (h₂ x hx).trans (h₁ x hx)

theorem write_elsewhere : Elsewhere h m (write m h ptr c b t) :=
  ((setNext_elsewhere.trans setClass_elsewhere).trans setMagic_elsewhere).trans
    setLifeTime_elsewhere

@[simp] theorem next_setNext (hptr : ptr < usizeBound) : next (setNext m h ptr) h = ptr :=
  load_store hptr

@[simp] theorem cls_setNext : cls (setNext m h ptr) h = cls m h := by
  rw [cls, setNext, store_of_not_mem (by omega), cls]

@[simp] theorem magic_setNext : magic (setNext m h ptr) h = magic m h := by
  rw [magic, setNext, store_of_not_mem (by omega), magic]

@[simp] theorem next_setClass : next (setClass m h c) h = next m h :=
  load_congr fun _ _ _ => store_of_not_mem (by omega)

@[simp] theorem cls_setClass (hc : c < 256) : cls (setClass m h c) h = c := by
  rw [cls, setClass, store, if_pos ⟨by omega, by omega⟩, Nat.sub_self, Nat.pow_zero, Nat.div_one,
    UInt8.toNat_ofNat']
  exact Nat.mod_eq_of_lt hc

@[simp] theorem magic_setClass : magic (setClass m h c) h = magic m h := by
  rw [magic, setClass, store_of_not_mem (by omega), magic]

@[simp] theorem next_setMagic : next (setMagic m h b) h = next m h :=
  load_congr fun _ _ _ => fill_of_not_mem (by omega)

@[simp] theorem cls_setMagic : cls (setMagic m h b) h = cls m h := by
  rw [cls, setMagic, fill_of_not_mem (by omega), cls]

@[simp] theorem magic_setMagic : magic (setMagic m h b) h = b :=
  if_pos ⟨by omega, by omega⟩

@[simp] theorem next_setLifeTime : next (setLifeTime m h t) h = next m h :=
  load_congr fun _ _ _ => store_of_not_mem (by omega)

@[simp] theorem cls_setLifeTime : cls (setLifeTime m h t) h = cls m h := by
  rw [cls, setLifeTime, store_of_not_mem (by omega), cls]

@[simp] theorem magic_setLifeTime : magic (setLifeTime m h t) h = magic m h := by
  rw [magic, setLifeTime, store_of_not_mem (by omega), magic]

theorem next_write (hptr : ptr < usizeBound) : next (write m h ptr c b t) h = ptr := by
  simp [write, hptr]

theorem cls_write (hc : c < 256) : cls (write m h ptr c b t) h = c := by
  simp [write, hc]

theorem magic_write : magic (write m h ptr c b t) h = b := by
  simp [write]

/-- The fields that are read back depend only on the bytes of the header. -/
theorem fields_congr (heq : ∀ x, h ≤ x → x < h + 16 → m' x = m x) :
    next m' h = next m h ∧ cls m' h = cls m h ∧ magic m' h = magic m h := by
  refine ⟨load_congr fun x hlo hhi => heq x hlo (by omega), ?_, heq _ (by omega) (by omega)⟩
  rw [cls, heq _ (by omega) (by omega), cls]

end OxHeader

namespace MetaData

def stop (m : Memory) (b : ℕ) : ℕ := load m (b + 8) 8
def next (m : Memory) (b : ℕ) : ℕ := load m (b + 16) 8

def setNext (m : Memory) (b ptr : ℕ) : Memory := store m (b + 16) 8 ptr

def write (m : Memory) (b start stop next : ℕ) : Memory :=
  setNext (store (store m b 8 start) (b + 8) 8 stop) b next

variable {m m' : Memory} {b ptr first last x : ℕ}

theorem setNext_elsewhere (hx : x < b ∨ b + 32 ≤ x) : setNext m b ptr x = m x :=
  store_of_not_mem (by omega)

@[simp] theorem next_setNext (hptr : ptr < usizeBound) : next (setNext m b ptr) b = ptr :=
  load_store hptr

@[simp] theorem stop_setNext : stop (setNext m b ptr) b = stop m b :=
  load_congr fun _ _ _ => store_of_not_mem (by omega)

theorem write_elsewhere (hx : x < b ∨ b + 32 ≤ x) : write m b first last ptr x = m x := by
  rw [write, setNext_elsewhere hx, store_of_not_mem (by omega), store_of_not_mem (by omega)]

theorem next_write (hptr : ptr < usizeBound) : next (write m b first last ptr) b = ptr :=
  next_setNext hptr

theorem stop_write (hlast : last < usizeBound) : stop (write m b first last ptr) b = last := by
  rw [write, stop_setNext]
  exact load_store hlast

theorem fields_congr (heq : ∀ x, b ≤ x → x < b + 32 → m' x = m x) :
    next m' b = next m b ∧ stop m' b = stop m b :=
  ⟨load_congr fun x _ _ => heq x (by omega) (by omega),
    load_congr fun x _ _ => heq x (by omega) (by omega)⟩

end MetaData

end Oxidalloc
