import Oxidalloc.AlignedBlocks
import Oxidalloc.BufferRefinement
import Oxidalloc.CallEffects
import Oxidalloc.ResizeSpec
import Oxidalloc.ThreadExitSpec

/-!
The process as a whole: any number of threads call the functions of the C interface and write
to the memory that they got; the caches of threads are cleaned up, the caches are trimmed, and
the clock goes on, in any order. A thread that ends makes no step: the destructor that cleans
up its cache belongs to a `#[thread_local]` static, which no exit of a thread drops. Beside the
state of the allocator stand the pointers of the user with the sizes that were asked for.
`Valid` pairs the pointers with the blocks that the user holds, one with one, and a step that
touches one block changes at most one pointer.
-/
namespace Oxidalloc.Process

open ByteMemory Programs Interleaving Buffers Effects Function
open Records (bytes bytes_congr)

structure State where
  world : World
  live : ℕ → Option ℕ

def initial (env : Env) (sys : ℕ → ℕ) : State := ⟨World.new env sys, fun _ => none⟩

/-- The clock and the memory pressure are set from outside. -/
inductive Action where
  | call (t : ℕ) (c : Records.Call)
  | trim (pad : ℕ)
  | cleanup (t : ℕ)
  | observe (stamp pressure : ℕ)

/-- A call of thread t with its answer; `posix_memalign` stores its pointer if the code is 0. -/
def perform (t : ℕ) : Records.Call → OxM ℕ
  | .malloc size => malloc t size
  | .calloc nmemb size => calloc t nmemb size
  | .realloc ptr size => realloc t ptr size
  | .posixMemalign alignment size => do
    let (code, aligned) ← posixMemalign t alignment size
    pure (if code = 0 then aligned else 0)
  | .free ptr => do
    free t ptr
    pure 0
  | .usableSize ptr => mallocUsableSize ptr
  | .write ptr i value => do
    modify fun w => { w with mem := update w.mem (ptr + i) value }
    pure 0

theorem checked_perform {t : ℕ} {c : Records.Call} : Checked (perform t c) := by
  cases c with
  | malloc size => exact tame_malloc.anyError
  | calloc nmemb size => exact checked_calloc
  | realloc ptr size => exact checked_realloc
  | posixMemalign alignment size =>
    exact within_bind tame_posixMemalign.anyError fun _ => within_pure
  | free ptr => exact within_bind checked_free fun _ => within_pure
  | usableSize ptr => exact checked_usableSize
  | write ptr i value => exact within_bind tame_write.anyError fun _ => within_pure

def adopt (live : ℕ → Option ℕ) (r size : ℕ) : ℕ → Option ℕ :=
  if r = 0 then live else update live r (some size)

/-- The pointers after a call with answer r. A pointer that `realloc` gives back null for
stays with the user, unless the new size is zero. -/
def pointers (live : ℕ → Option ℕ) (r : ℕ) : Records.Call → ℕ → Option ℕ
  | .malloc size => adopt live r size
  | .calloc nmemb size => adopt live r (nmemb * size)
  | .realloc ptr size =>
    if r = 0 ∧ size ≠ 0 then live else adopt (update live ptr none) r size
  | .posixMemalign _ size => adopt live r size
  | .free ptr => update live ptr none
  | .usableSize _ => live
  | .write _ _ _ => live

/-- Only pointers of the user are handed back; `realloc` takes the null pointer too. The user
writes within the requested size. -/
def Allowed (s : State) : Records.Call → Prop
  | .realloc ptr _ => ptr = 0 ∨ (s.live ptr).isSome = true
  | .free ptr => (s.live ptr).isSome = true
  | .usableSize ptr => (s.live ptr).isSome = true
  | .write ptr i _ => ((s.live ptr).any fun size => i < size) = true
  | _ => True

instance Allowed.decidable (s : State) : ∀ c, Decidable (Allowed s c)
  | .malloc _ => isTrue trivial
  | .calloc _ _ => isTrue trivial
  | .posixMemalign _ _ => isTrue trivial
  | .realloc _ _ => inferInstanceAs (Decidable (_ ∨ _))
  | .free _ => inferInstanceAs (Decidable (_ = _))
  | .usableSize _ => inferInstanceAs (Decidable (_ = _))
  | .write _ _ _ => inferInstanceAs (Decidable (_ = _))

/-- A call that aborts ends the run. The cleanup of a thread's cache records the slots that it
passes over, which is no part of the program. -/
def step (s : State) : Action → Option State
  | .call t c =>
    if Allowed s c then
      (outcome (perform t c) s.world).map fun (r, w) => ⟨w, pointers s.live r c⟩
    else none
  | .trim pad => (outcome (GTrim.trim pad) s.world).map fun (_, w) => ⟨w, s.live⟩
  | .cleanup t =>
    (outcome (cleanupThreadCache t) s.world).map fun (_, w) =>
      ⟨w.losing (s.world.passedOver t), s.live⟩
  | .observe stamp pressure =>
    some ⟨{ s.world with currentStamp := stamp, lastPressureCheck := pressure }, s.live⟩

/-- What the user sees of the state. -/
def contents (s : State) : Heap ℕ UInt8 := fun ptr =>
  (s.live ptr).map fun size => bytes s.world.mem ptr size

section Pointers

variable {w w' : World} {g g' : Layout} {ptr size size' h h' t : ℕ} {touched : Set ℕ}

/-- The pointer leads to the block with header h, and the bytes that were asked for are in
it. It is right behind the header, or the record of `posix_memalign` is in front of it. -/
structure Points (w : World) (g : Layout) (ptr size h : ℕ) : Prop where
  held : g.place h = some .held
  fits : ptr + size ≤ h + 16 + w.capacity h
  found : ptr = h + 16 ∨ (h + 32 ≤ ptr ∧ ptr < h + 16 + w.capacity h ∧ 8 ∣ ptr ∧
    load w.mem (ptr - tagSize) 8 = oxAlignTag ∧ load w.mem (ptr - offsetSize) 8 = h + 16)

theorem Points.start (hp : Points w g ptr size h) : h + 16 ≤ ptr := by
  rcases hp.found with rfl | ⟨hlo, _⟩ <;> omega

theorem Points.own (hp : Points w g ptr size h) (hinv : Inv w g) : g.own ptr = .block h := by
  rcases hp.found with rfl | ⟨hlo, hhi, _⟩
  · exact hinv.own_first hp.held
  · exact (hinv.blocks h _ hp.held).1.extent ptr (by omega) hhi

theorem Points.header_eq (hp : Points w g ptr size h) (hp' : Points w g ptr size' h')
    (hinv : Inv w g) : h = h' := by
  have hown := hp.own hinv
  rw [hp'.own hinv] at hown
  exact (Owner.block.inj hown).symm

/-- A pointer to a block that a step does not touch. -/
theorem Points.frame (hp : Points w g ptr size h) (hinv : Inv w g)
    (hframe : Frame w g w' g' touched) (hh : h ∉ touched) :
    Points w' g' ptr size h ∧ bytes w'.mem ptr size = bytes w.mem ptr size := by
  have hblock := (hinv.blocks h _ hp.held).1
  have hbytes : ∀ x, h ≤ x → x < h + 16 + w.capacity h → w'.mem x = w.mem x :=
    fun x hlo hhi => (hframe.bytes h x hh hp.held (hblock.extent x hlo hhi)).2
  have hsame : SameBlock w w' g g' h :=
    ⟨fun x hlo hhi => hbytes x hlo (by omega), hframe.big h hh,
      fun x hx => (hframe.bytes h x hh hp.held hx).1⟩
  have hstart := hp.start
  have hfits := hp.fits
  refine ⟨⟨(hframe.held h hh).mpr hp.held, ?_, ?_⟩, ?_⟩
  · rwa [hsame.capacity_eq]
  · rw [hsame.capacity_eq]
    refine hp.found.imp id fun hfound => ?_
    obtain ⟨hlo, hhi, hdvd, htag, horiginal⟩ := hfound
    unfold tagSize at htag ⊢
    unfold offsetSize at horiginal ⊢
    refine ⟨hlo, hhi, hdvd, ?_, ?_⟩
    · rw [load_congr fun x hx hx' => hbytes x (by omega) (by omega), htag]
    · rw [load_congr fun x hx hx' => hbytes x (by omega) (by omega), horiginal]
  · apply bytes_congr
    intro i hi
    exact hbytes (ptr + i) (by omega) (by omega)

theorem Points.isOurs (hp : Points w g ptr size h) (hinv : Inv w g) : w.isOurs ptr = true := by
  rcases hp.found with rfl | ⟨_, _, hdvd, _⟩
  · exact hinv.isOurs_payload hp.held
  · refine hinv.isOurs_of_own ?_ (Nat.mod_eq_zero_of_dvd hdvd)
    rw [hp.own hinv]
    simp

/-- The test for the tag finds the block of a pointer. -/
theorem Points.resolve (hp : Points w g ptr size h) (hinv : Inv w g) :
    Runs (resolve ptr) w (h + 16, ptr - (h + 16)) w := by
  have hown := hp.own hinv
  have hlt := hinv.own_succ_lt (x := ptr) (by simp [hown])
  rcases hp.found with rfl | ⟨hlo, _, _, htag, horiginal⟩
  · rw [Nat.sub_self]
    exact resolve_plain (hinv.blocks h _ hp.held).1.next
  · have hours : w.isOurs (load w.mem (ptr - offsetSize) 8) = true := by
      rw [horiginal]
      exact hinv.isOurs_payload hp.held
    rw [Oxidalloc.resolve, runs_get_bind]
    dsimp only
    rw [if_pos ⟨htag, hours⟩, horiginal]
    refine runs_pure.mpr ⟨Prod.ext rfl ?_, rfl⟩
    show ptr - (h + 16) = (ptr + (usizeBound - (h + 16))) % usizeBound
    rw [show ptr + (usizeBound - (h + 16)) = ptr - (h + 16) + usizeBound by omega,
      Nat.add_mod_right]
    exact (Nat.mod_eq_of_lt (by omega)).symm

/-- The header of a block in use passes the check of the magic number. -/
theorem Points.validate (hp : Points w g ptr size h) (hinv : Inv w g) :
    Runs (validatePtrForAbi h) w () w := by
  have hmagic : OxHeader.magic w.mem h = w.magic := (hinv.blocks h _ hp.held).2
  rw [validatePtrForAbi, runs_get_bind, if_pos hmagic]
  exact runs_pure.mpr ⟨rfl, rfl⟩

theorem Points.recorded (hp : Points w g ptr size h) (hinv : Inv w g) (missing : String) :
    Runs (recorded h missing) w (w.capacity h) w :=
  (hinv.rawBlock hp.held).recorded missing

/-- `malloc_usable_size` answers with what is left of the block behind the pointer. -/
theorem Points.usable (hp : Points w g ptr size h) (hinv : Inv w g) :
    Runs (mallocUsableSize ptr) w (w.capacity h - (ptr - (h + 16))) w := by
  have hstart := hp.start
  rw [mallocUsableSize, CInterface.mallocUsableSize, if_neg (by omega), runs_read_bind,
    hp.isOurs hinv, if_neg (by decide), runs_bind_iff (hp.resolve hinv)]
  dsimp only
  rw [show h + 16 - headerSize = h from Nat.add_sub_cancel h 16,
    runs_bind_iff (hp.recorded hinv _)]
  exact runs_pure.mpr ⟨rfl, rfl⟩

/-- A write to the payload of a held block. -/
theorem payload_reaches {m : Memory} (hinv : Inv w g) (hno : NoLoose g)
    (hheld : g.place h = some .held)
    (hm : ∀ x, x < h + 16 ∨ h + 16 + w.capacity h ≤ x → m x = w.mem x) :
    Reaches w g { w with mem := m } g {h} ∧ ({ w with mem := m } : World).capacity h =
      w.capacity h := by
  have hextent := (hinv.blocks h _ hheld).1.extent
  -- a byte that changes is of this block, and behind its header
  have hother : ∀ x, g.own x ≠ .block h ∨ x < h + 16 → m x = w.mem x := by
    intro x hx
    apply hm
    by_contra hin
    have hown := hextent x (by omega) (by omega)
    rcases hx with hne | hlt
    · exact hne hown
    · omega
  have hcontrol : ∀ x, Control g x → m x = w.mem x := by
    rintro x (⟨h', hown, hlt⟩ | ⟨b, hown⟩)
    · by_cases heq : h' = h
      · exact hother x (Or.inr (heq ▸ hlt))
      · exact hother x (Or.inl (by simp [hown, heq]))
    · exact hother x (Or.inl (by simp [hown]))
  refine ⟨⟨hinv.writeBytes hcontrol, hno, ?_⟩, ?_⟩
  · refine ⟨fun _ _ => Iff.rfl, ?_, fun _ _ => rfl, id, id, fun _ _ => id, rfl,
      fun _ => ⟨rfl, rfl⟩⟩
    intro h' x hne hheld' hown
    refine ⟨hown, hother x (Or.inl ?_)⟩
    rw [hown]
    exact fun heq => hne (Owner.block.inj heq)
  · exact (hinv.sameBlock_of_control hcontrol hheld).capacity_eq

end Pointers

section Steps

variable {s : State} {w' : World} {g g' : Layout} {ptr q size n h : ℕ} {v : Option ℕ}

/-- The pointers of the user and the blocks that it holds are paired. -/
structure Valid (s : State) (g : Layout) : Prop where
  inv : Inv s.world g
  loose : NoLoose g
  thp : s.world.ThpOff
  header : ∀ ptr size, s.live ptr = some size → ∃ h, Points s.world g ptr size h
  pointer : ∀ h, g.place h = some .held →
    ∃ ptr size, s.live ptr = some size ∧ Points s.world g ptr size h
  unique : ∀ ptr ptr' size size' h, s.live ptr = some size → s.live ptr' = some size' →
    Points s.world g ptr size h → Points s.world g ptr' size' h → ptr = ptr'

theorem valid_initial {env : Env} {sys : ℕ → ℕ} (henv : env.forceThp ≠ some 1) :
    Valid (initial env sys) ⟨fun _ => none, fun _ => .free⟩ := by
  refine ⟨inv_new env sys, ?_, ⟨rfl, henv⟩, ?_, ?_, ?_⟩
  · intro h cls hloose
    contradiction
  · intro ptr size hlive
    contradiction
  · intro h hheld
    contradiction
  · intro ptr ptr' size size' h hlive
    contradiction

theorem contents_eq_none (h : s.live ptr = none) : contents s ptr = none := by
  rw [contents, h]
  rfl

theorem contents_eq_some (h : s.live ptr = some size) :
    contents s ptr = some (bytes s.world.mem ptr size) := by
  rw [contents, h]
  rfl

theorem Valid.null (hs : Valid s g) : s.live 0 = none := by
  cases hlive : s.live 0 with
  | none => rfl
  | some size =>
    obtain ⟨h, hp⟩ := hs.header 0 size hlive
    have hstart := hp.start
    omega

/-- A step of the allocator that touches the block with header h. The pointer that leads to
it is the only one that changes, and may come or go with it. -/
structure Changes (s : State) (g : Layout) (w' : World) (g' : Layout) (h ptr : ℕ)
    (v : Option ℕ) : Prop extends Reaches s.world g w' g' {h} where
  before : ∀ q size, s.live q = some size → (Points s.world g q size h ↔ q = ptr)
  after : ∀ n, v = some n → Points w' g' ptr n h
  gone : v = none → g'.place h ≠ some .held

/-- What the other pointers see of the step. -/
theorem Changes.other (hc : Changes s g w' g' h ptr v) (hs : Valid s g) (hq : q ≠ ptr)
    (hlive : s.live q = some size) : ∃ h', h' ≠ h ∧ Points s.world g q size h' ∧
      Points w' g' q size h' ∧ bytes w'.mem q size = bytes s.world.mem q size := by
  obtain ⟨h', hp⟩ := hs.header q size hlive
  have hne : h' ≠ h := fun heq => hq ((hc.before q size hlive).mp (heq ▸ hp))
  obtain ⟨hp', hbytes⟩ := hp.frame hs.inv hc.frame hne
  exact ⟨h', hne, hp, hp', hbytes⟩

theorem Changes.valid (hc : Changes s g w' g' h ptr v) (hs : Valid s g) :
    Valid ⟨w', update s.live ptr v⟩ g' := by
  refine ⟨hc.inv, hc.loose, hc.frame.thp hs.thp, ?_, ?_, ?_⟩
  · intro q size hlive
    by_cases hq : q = ptr
    · subst hq
      exact ⟨h, hc.after size (by simpa using hlive)⟩
    · obtain ⟨h', _, _, hp', _⟩ := hc.other hs hq ((update_of_ne hq ..).symm.trans hlive)
      exact ⟨h', hp'⟩
  · intro h' hheld
    by_cases hh : h' = h
    · subst hh
      cases hval : v with
      | none => exact absurd hheld (hc.gone hval)
      | some n => exact ⟨ptr, n, update_self .., hc.after n hval⟩
    · obtain ⟨q, size, hlive, hp⟩ := hs.pointer h' ((hc.frame.held h' hh).mp hheld)
      have hq : q ≠ ptr := fun heq =>
        hh (hp.header_eq ((hc.before q size hlive).mpr heq) hs.inv)
      exact ⟨q, size, (update_of_ne hq ..).trans hlive,
        (hp.frame hs.inv hc.frame hh).1⟩
  · -- two pointers to one block: to a block that was there before, or to the touched one
    have hkeep : ∀ {q size h'}, update s.live ptr v q = some size →
        Points w' g' q size h' → (h' = h ↔ q = ptr) ∧ (q ≠ ptr → s.live q = some size ∧
          Points s.world g q size h') := by
      intro q size h' hlive hp'
      by_cases hq : q = ptr
      · subst hq
        have hnew := hc.after size (by simpa using hlive)
        exact ⟨⟨fun _ => rfl, fun _ => hp'.header_eq hnew hc.inv⟩, fun hne => absurd rfl hne⟩
      · have hold := (update_of_ne hq ..).symm.trans hlive
        obtain ⟨h₀, hne, hp, hp₀, _⟩ := hc.other hs hq hold
        obtain rfl := hp₀.header_eq hp' hc.inv
        exact ⟨⟨fun heq => absurd heq hne, fun heq => absurd heq hq⟩, fun _ => ⟨hold, hp⟩⟩
    intro q q' size size' h' hlive hlive' hp hp'
    obtain ⟨hiff, hold⟩ := hkeep hlive hp
    obtain ⟨hiff', hold'⟩ := hkeep hlive' hp'
    by_cases hq : q = ptr
    · rw [hq, hiff'.mp (hiff.mpr hq)]
    · have hq' : q' ≠ ptr := fun heq => hq (hiff.mp (hiff'.mpr heq))
      exact hs.unique q q' size size' h' (hold hq).1 (hold' hq').1 (hold hq).2 (hold' hq').2

theorem Changes.contents (hc : Changes s g w' g' h ptr v) (hs : Valid s g) :
    contents ⟨w', update s.live ptr v⟩ =
      update (contents s) ptr (v.map (bytes w'.mem ptr)) := by
  funext q
  by_cases hq : q = ptr
  · subst hq
    simp [Process.contents]
  · rw [update_of_ne hq]
    cases hlive : s.live q with
    | none =>
      rw [contents_eq_none hlive]
      exact contents_eq_none ((update_of_ne hq ..).trans hlive)
    | some size =>
      obtain ⟨_, _, _, _, hbytes⟩ := hc.other hs hq hlive
      rw [contents_eq_some hlive, ← hbytes]
      exact contents_eq_some ((update_of_ne hq ..).trans hlive)

/-- A step that touches no block of the user. It may lose slots that are not carved. -/
theorem Valid.loses (hs : Valid s g) (l : List ℕ) (hinv : Inv (w'.losing l) g')
    (hno : NoLoose g') (hframe : Frame s.world g w' g' ∅) :
    Valid ⟨w'.losing l, s.live⟩ g' ∧
      Process.contents ⟨w'.losing l, s.live⟩ = Process.contents s := by
  have hkeep : ∀ {q size h'}, Points s.world g q size h' → Points (w'.losing l) g' q size h' ∧
      bytes w'.mem q size = bytes s.world.mem q size := by
    intro q size h' hp
    obtain ⟨hp', hbytes⟩ := hp.frame hs.inv hframe (Set.notMem_empty _)
    exact ⟨⟨hp'.held, hp'.fits, hp'.found⟩, hbytes⟩
  refine ⟨⟨hinv, hno, hframe.thp hs.thp, ?_, ?_, ?_⟩, ?_⟩
  · intro q size hlive
    obtain ⟨h', hp⟩ := hs.header q size hlive
    exact ⟨h', (hkeep hp).1⟩
  · intro h' hheld
    obtain ⟨q, size, hlive, hp⟩ :=
      hs.pointer h' ((hframe.held h' (Set.notMem_empty _)).mp hheld)
    exact ⟨q, size, hlive, (hkeep hp).1⟩
  · intro q q' size size' h' hlive hlive' hp hp'
    obtain ⟨h₁, hp₁⟩ := hs.header q size hlive
    obtain ⟨h₂, hp₂⟩ := hs.header q' size' hlive'
    obtain rfl := (hkeep hp₁).1.header_eq hp hinv
    obtain rfl := (hkeep hp₂).1.header_eq hp' hinv
    exact hs.unique q q' size size' h₂ hlive hlive' hp₁ hp₂
  · funext q
    cases hlive : s.live q with
    | none =>
      rw [contents_eq_none hlive]
      exact contents_eq_none hlive
    | some size =>
      obtain ⟨h', hp⟩ := hs.header q size hlive
      rw [contents_eq_some hlive, ← (hkeep hp).2]
      exact contents_eq_some hlive

theorem Valid.silent (hs : Valid s g) (hreach : Reaches s.world g w' g' ∅) :
    Valid ⟨w', s.live⟩ g' ∧ Process.contents ⟨w', s.live⟩ = Process.contents s :=
  hs.loses [] hreach.inv hreach.loose hreach.frame

/-- A new block with a pointer that no one has. -/
theorem Valid.made (hs : Valid s g) (hhands : Hands s.world g w' g' h)
    (hp : Points w' g' ptr n h) :
    s.live ptr = none ∧ Changes s g w' g' h ptr (some n) := by
  have hnone : s.live ptr = none := by
    cases hlive : s.live ptr with
    | none => rfl
    | some size =>
      obtain ⟨h', hp'⟩ := hs.header ptr size hlive
      have hne : h' ≠ h := fun heq => hhands.fresh (heq ▸ hp'.held)
      have hkept := (hp'.frame hs.inv hhands.frame hne).1
      exact absurd (hkept.header_eq hp hhands.inv) hne
  refine ⟨hnone, hhands.toReaches, ?_, ?_, ?_⟩
  · intro q size hlive
    constructor
    · intro hp'
      exact absurd hp'.held hhands.fresh
    · intro hq
      rw [hq, hnone] at hlive
      contradiction
  · intro n' hn
    obtain rfl := Option.some.inj hn
    exact hp
  · simp

/-- A step that touches the block of one pointer. -/
theorem Valid.changed (hs : Valid s g) (hlive : s.live ptr = some size)
    (hp : Points s.world g ptr size h) (hreach : Reaches s.world g w' g' {h})
    (hafter : ∀ n, v = some n → Points w' g' ptr n h)
    (hgone : v = none → g'.place h ≠ some .held) : Changes s g w' g' h ptr v := by
  refine ⟨hreach, ?_, hafter, hgone⟩
  intro q size' hlive'
  constructor
  · intro hp'
    exact hs.unique q ptr size' size h hlive' hlive hp' hp
  · rintro rfl
    rw [Option.some.inj (hlive'.symm.trans hlive)]
    exact hp

end Steps

end Oxidalloc.Process
