import Oxidalloc.HashmapRefinement
import Oxidalloc.HeadPacking
import Oxidalloc.LinkedChain
import Oxidalloc.Slab
import Oxidalloc.VaRanges

/-!
Who owns the memory of the process. A `Layout` gives every byte at most one owner (a
block, the metadata of a slab, the part of a slab that a thread has still to carve, or no
one any more) and every block one place (with the user, in one of the caches, or loose in the hands
of a running operation), so blocks with different headers are disjoint and no block is
in two caches. `Inv` ties a layout to the state: the owned bytes lie on taken pages,
each cache is a null-terminated chain of as many blocks as its counter says, and each
header agrees with the place of its block.
-/
namespace Oxidalloc

open ByteMemory HeadPacking Hashmap LinkedChain Programs VaBitmap

/-- A list of free blocks: a bin of a thread, or a list of the shared cache. -/
inductive Cache where
  | bin (t cls : ℕ)
  | shard (cpu cls : ℕ)
  deriving DecidableEq

def Cache.cls : Cache → ℕ
  | .bin _ cls => cls
  | .shard _ cls => cls

inductive Place where
  | held
  | loose (cls : ℕ)
  | cached (k : Cache)
  deriving DecidableEq

inductive Owner where
  | free
  | metaData (b : ℕ)
  | pending (t cls : ℕ)
  | lost
  | block (h : ℕ)
  deriving DecidableEq

structure Layout where
  place : ℕ → Option Place
  own : ℕ → Owner

/-- The blocks of a list change their place. -/
def Layout.move (g : Layout) (l : List ℕ) (pl : Place) : Layout :=
  { g with place := fun h => if h ∈ l then some pl else g.place h }

namespace World

def binOf (w : World) (t cls : ℕ) : TlsBin :=
  match w.engines t with
  | some e => e.tls cls
  | none => ⟨0, 0⟩

def pendingOf (w : World) (t cls : ℕ) : ℕ :=
  match w.engines t with
  | some e => e.pending cls
  | none => 0

def headOf (w : World) : Cache → ℕ
  | .bin t cls => (w.binOf t cls).head
  | .shard cpu cls => headPtr (w.icc.list cpu cls)

def usageOf (w : World) : Cache → ℕ
  | .bin t cls => (w.binOf t cls).usage
  | .shard cpu cls => w.icc.usage cpu cls

def bigSize (w : World) (h : ℕ) : ℕ :=
  match w.big.get h with
  | some info => info.size
  | none => 0

/-- The payload of the block with a header, as it is recorded. -/
def capacity (w : World) (h : ℕ) : ℕ :=
  if OxHeader.cls w.mem h = 100 then w.bigSize h else payload (OxHeader.cls w.mem h)

/-- Huge pages are not forced, now or at the bootstrap. -/
def ThpOff (w : World) : Prop := w.forceThp = false ∧ w.env.forceThp ≠ some 1

end World

/-- The blocks of a cache, in their order. -/
def Chain (w : World) (k : Cache) (l : List ℕ) : Prop :=
  Linked 0 (OxHeader.next w.mem) (w.headOf k) l 0

/-- A block that has its pages for itself, so that `realloc` may resize it in place. Its
header is at the beginning of its first page, or behind the metadata of its slab. -/
structure Solo (w : World) (g : Layout) (h base : ℕ) : Prop where
  aligned : base % 4096 = 0
  offset : h = base ∨ h = base + 32 ∧ OxHeader.cls w.mem h ≠ 100
  fits : Fits w.va base (pagesOf (w.capacity h + 16))
  own : ∀ x, h ≤ x → x < base + pagesOf (w.capacity h + 16) * 4096 → g.own x = .block h

/-- A record of the map: only an empty block, or one too large for the classes, has it. -/
def IsBig (w : World) (h : ℕ) : Prop :=
  ∃ info, w.big.get h = some info ∧ (info.size = 0 ∨ 2097152 < info.size)

structure BlockOk (w : World) (g : Layout) (h : ℕ) : Prop where
  isBlock : IsBlock h
  extent : ∀ x, h ≤ x → x < h + 16 + w.capacity h → g.own x = .block h
  next : 16 ∣ OxHeader.next w.mem h
  cls : OxHeader.cls w.mem h < 34 ∨ OxHeader.cls w.mem h = 100 ∧ IsBig w h
  solo : OxHeader.cls w.mem h = 100 ∨ slabBlocks (OxHeader.cls w.mem h) = 1 →
    ∃ base, Solo w g h base

/-- What the header says, by the place of the block. -/
def PlaceOk (w : World) (h : ℕ) : Place → Prop
  | .held => OxHeader.magic w.mem h = w.magic
  | .loose cls =>
    cls < 34 ∧ OxHeader.cls w.mem h = cls ∧ OxHeader.magic w.mem h = w.freedMagic
  | .cached k =>
    k.cls < 34 ∧ OxHeader.cls w.mem h = k.cls ∧ OxHeader.magic w.mem h = w.freedMagic

def slot (b cls i : ℕ) : ℕ := b + 32 + i * (payload cls + 16)

def slabPages (cls : ℕ) : ℕ := pagesOf (32 + (payload cls + 16) * slabBlocks cls)

/-- Where the part of a slab begins that is left after k blocks. -/
def areaStart (b cls k : ℕ) : ℕ :=
  if k < slabBlocks cls then slot b cls k else b + slabPages cls * 4096

/-- A slab of which the first k blocks are carved and the rest is for thread t. -/
structure Area (w : World) (g : Layout) (t cls b k : ℕ) : Prop where
  cls_lt : cls < 34
  le : k ≤ slabBlocks cls
  fits : Fits w.va b (slabPages cls)
  next : MetaData.next w.mem b = slot b cls k
  stop : MetaData.stop w.mem b = slot b cls (slabBlocks cls)
  metaOwn : ∀ x, b ≤ x → x < b + 32 → g.own x = .metaData b
  rawOwn : ∀ x, areaStart b cls k ≤ x → x < b + slabPages cls * 4096 → g.own x = .pending t cls

/-- The slot is in the part that some thread has still to carve. -/
def Uncarved (w : World) (t cls b s : ℕ) : Prop :=
  w.pendingOf t cls = b ∧ b ≠ 0 ∧ MetaData.next w.mem b ≤ s

structure SlabOk (w : World) (g : Layout) (b cls : ℕ) : Prop where
  cls_lt : cls < 34
  aligned : b % 4096 = 0
  metaOwn : ∀ x, b ≤ x → x < b + 32 → g.own x = .metaData b
  slots : ∀ i < slabBlocks cls,
    (g.place (slot b cls i) ≠ none ∧
      (slabBlocks cls ≠ 1 → OxHeader.cls w.mem (slot b cls i) = cls)) ∨
    (∃ t, Uncarved w t cls b (slot b cls i)) ∨ slot b cls i ∈ w.slabs.lost

structure Inv (w : World) (g : Layout) : Prop where
  wf : Wf w.va
  taken : ∀ x, g.own x ≠ .free → Taken w.va (x / 4096)
  chains : ∀ k, ∃ l, Chain w k l ∧ w.usageOf k = l.length ∧
    ∀ h, h ∈ l ↔ g.place h = some (.cached k)
  blocks : ∀ h pl, g.place h = some pl → BlockOk w g h ∧ PlaceOk w h pl
  pendings : ∀ t cls, w.pendingOf t cls ≠ 0 → ∃ k, Area w g t cls (w.pendingOf t cls) k
  slabs : ∀ b cls, (b, cls) ∈ w.slabs.made → SlabOk w g b cls
  lost : ∀ h ∈ w.slabs.lost, g.own h = .lost
  big : ∃ f, HashmapRefinement.Sound w.big f
  boot : w.booted = true ∨ w.hotReady = false ∧ ∀ h, g.place h = none

/-- Nothing is owned when the process starts. -/
theorem inv_new (env : Env) (sys : ℕ → ℕ) :
    Inv (World.new env sys) ⟨fun _ => none, fun _ => .free⟩ where
  wf := wf_new defaultReservation sys
  taken := fun _ hx => absurd rfl hx
  chains := by
    intro k
    refine ⟨[], ?_, ?_, fun h => ⟨nofun, nofun⟩⟩
    · cases k with
      | bin t cls => rfl
      | shard cpu cls => exact (by decide : headPtr 0 = 0)
    · cases k <;> rfl
  blocks := nofun
  pendings := fun _ _ hne => absurd rfl hne
  slabs := nofun
  lost := nofun
  big := ⟨_, HashmapRefinement.sound_new⟩
  boot := Or.inr ⟨rfl, fun _ => rfl⟩

section Pages

variable {va : VaBitmap} {b n x : ℕ}

theorem inPages_of_mem (hb : b % 4096 = 0) (hlo : b ≤ x) (hhi : x < b + n * 4096) :
    InPages b n (x / 4096) := by
  show b / 4096 ≤ x / 4096 ∧ x / 4096 < b / 4096 + n
  omega

/-- A byte of a taken page is an address of a segment. -/
theorem VaBitmap.Wf.inSegment_of_taken (h : Wf va) (hx : Taken va (x / 4096)) :
    ∃ s ∈ va.segments, InSegment s x := by
  obtain ⟨s, hs, i, hpage, hbit⟩ := hx
  have hi := h.inside s hs i hbit
  have haligned := h.aligned s hs
  refine ⟨s, hs, ?_⟩
  unfold InSegment
  unfold Segment.maxBits blockSize at hi
  unfold firstPage blockSize at hpage
  unfold blockSize at haligned
  omega

theorem VaBitmap.Wf.end_lt_of_fits (h : Wf va) (hfits : Fits va b n) :
    b + n * 4096 < usizeBound := by
  obtain ⟨_, s, hs, _, hhi⟩ := hfits
  exact Nat.lt_of_le_of_lt hhi (h.registered.bounds s hs).2

end Pages

section Read

variable {w : World} {g : Layout} {h x : ℕ} {pl : Place}

theorem Inv.own_succ_lt (hinv : Inv w g) (hx : g.own x ≠ .free) : x + 1 < usizeBound := by
  obtain ⟨s, hs, hin⟩ := hinv.wf.inSegment_of_taken (hinv.taken x hx)
  have hlt := hin.2
  have hend := (hinv.wf.registered.bounds s hs).2
  omega

theorem Inv.own_header (hinv : Inv w g) (hplace : g.place h = some pl) (hlo : h ≤ x)
    (hhi : x < h + 16) : g.own x = .block h :=
  (hinv.blocks h pl hplace).1.extent x hlo (by omega)

theorem Inv.isOurs_of_own (hinv : Inv w g) (hx : g.own x ≠ .free) (haligned : x % 8 = 0) :
    w.isOurs x = true := by
  unfold World.isOurs
  rw [Bool.and_eq_true, decide_eq_true_iff]
  exact ⟨haligned, hinv.wf.registered.isOurs_iff.mpr
    (hinv.wf.inSegment_of_taken (hinv.taken x hx))⟩

/-- The header of a block is an address of ours. -/
theorem Inv.isOurs_block (hinv : Inv w g) (hplace : g.place h = some pl) : w.isOurs h = true := by
  have hown := hinv.own_header hplace (Nat.le_refl h) (by omega)
  have haligned := (hinv.blocks h pl hplace).1.isBlock.aligned
  exact hinv.isOurs_of_own (by rw [hown]; exact nofun) (by omega)

/-- Bytes of a block belong to no other block. -/
theorem Inv.header_ne (hinv : Inv w g) {h' : ℕ} (hplace : g.place h = some pl)
    (hne : h' ≠ h) (hx : g.own x = .block h') : x < h ∨ h + 16 ≤ x := by
  by_contra hin
  have hown := hinv.own_header hplace (x := x) (by omega) (by omega)
  rw [hx] at hown
  exact hne (Owner.block.inj hown)

end Read

end Oxidalloc
