import Oxidalloc.BigBlocks
import Oxidalloc.LiveBlocks

/-!
`realloc` in place, with the real bitmap, map and headers. The block keeps its header and
its first bytes; the pages that it gives back are its last ones, and those that it takes
were free. A block behind the header of a slab must not become big where it is.
-/
namespace Oxidalloc

open ByteMemory HeadPacking Hashmap Programs VaBitmap
open Records (newClass newCapacity extent extent_big extent_slab newClass_none newClass_some
  newClass_cases le_newCapacity payload_page alignTo_page)

variable {w w₁ w' : World} {g : Layout} {h base n cls cap : ℕ}

section Sizes

/-- A class with a payload that a block of the class may have. -/
def HasSize (cls cap : ℕ) : Prop :=
  (cls = 100 ∧ (cap = 0 ∨ 2097152 < cap)) ∨ (cls < 34 ∧ cap = payload cls)

theorem BlockOk.hasSize (hb : BlockOk w g h) : HasSize (OxHeader.cls w.mem h) (w.capacity h) := by
  rcases hb.cls with hlt | ⟨hbig, info, hget, hsize⟩
  · exact Or.inr ⟨hlt, if_neg (by omega)⟩
  · left
    rw [World.capacity, if_pos hbig, World.bigSize, hget]
    exact ⟨hbig, hsize⟩

theorem hasSize_new (n : ℕ) : HasSize (newClass n) (newCapacity n) := by
  cases hmatch : matchSizeClass n with
  | none =>
    obtain ⟨hclass, hcap⟩ := newClass_none hmatch
    rw [hclass, hcap]
    exact Or.inl ⟨rfl, matchSizeClass_none hmatch⟩
  | some c =>
    obtain ⟨hclass, hcap⟩ := newClass_some hmatch
    rw [hclass, hcap]
    exact Or.inr ⟨(matchSizeClass_some hmatch).1, rfl⟩

theorem extent_newCapacity (n : ℕ) :
    extent (newClass n) (newCapacity n) = extent (newClass n) n := by
  cases hmatch : matchSizeClass n with
  | none => rw [(newClass_none hmatch).2]
  | some c =>
    rw [(newClass_some hmatch).1, extent_slab (matchSizeClass_some hmatch).1,
      extent_slab (matchSizeClass_some hmatch).1]

theorem HasSize.total {total : ℕ} (hs : HasSize cls cap)
    (htotal : alignTo (cap + headerSize) (if cls = 100 then 4096 else 16) = .ok total) :
    total = extent cls cap := by
  rcases hs with ⟨rfl, _⟩ | ⟨hcls, rfl⟩
  · rw [if_pos rfl] at htotal
    rw [extent_big]
    exact alignTo_page htotal
  · rw [if_neg (by omega), alignTo_payload hcls] at htotal
    rw [extent_slab hcls]
    exact (Except.ok.inj htotal).symm

/-- A block needs the last of its pages. -/
theorem HasSize.bounds (hs : HasSize cls cap) :
    extent cls cap ≤ pagesOf (cap + 16) * 4096 ∧ cap + 16 ≤ extent cls cap := by
  rcases hs with ⟨rfl, _⟩ | ⟨hcls, rfl⟩
  · rw [extent_big, Records.headerSize_standard]
    unfold pagesOf
    omega
  · rw [extent_slab hcls, Records.headerSize_standard]
    unfold pagesOf
    omega

theorem HasSize.big_iff (hs : HasSize cls cap) : extent cls cap % 4096 = 0 ↔ cls = 100 :=
  Records.extent_mod (hs.elim (fun hbig => Or.inr hbig.1) fun hslab => Or.inl hslab.1) cap

/-- The end of a block is in the last of its pages, also behind the header of a slab. -/
theorem HasSize.end_page (hs : HasSize cls cap) (halign : base % 4096 = 0)
    (hoffset : h = base ∨ h = base + 32 ∧ cls ≠ 100) :
    pagesOf (h + extent cls cap) * 4096 = base + pagesOf (cap + 16) * 4096 := by
  have hbounds := hs.bounds
  rcases hoffset with rfl | ⟨rfl, hne⟩
  · unfold pagesOf at *
    omega
  · obtain ⟨hlt, rfl⟩ := hs.resolve_left fun hbig => hne hbig.1
    have hpage := (payload_page hlt).2.2
    rw [extent_slab hlt]
    rw [Records.headerSize_standard] at hpage ⊢
    unfold pagesOf at *
    omega

/-- A request for which a larger block is kept fits into the block, unless it is empty. -/
theorem HasSize.fits_kept (hs : HasSize cls cap)
    (hlt : extent (newClass n) n < extent cls cap) (hzero : cap = 0 → 3840 < n) : n ≤ cap := by
  have hnew := (hasSize_new n).bounds
  have hle := le_newCapacity n
  rw [extent_newCapacity] at hnew
  rcases hs with ⟨rfl, hcap⟩ | ⟨hcls, rfl⟩
  · rw [extent_big] at hlt
    cases hmatch : matchSizeClass n with
    | none =>
      rw [(newClass_none hmatch).1, extent_big] at hlt
      unfold pagesOf at hlt
      omega
    | some c =>
      obtain ⟨hc, _, _, hsmall⟩ := matchSizeClass_some hmatch
      rcases hcap with rfl | hlarge
      · have hgap := Records.payload_gap hc
        rw [(newClass_some hmatch).1, extent_slab hc] at hlt
        rw [(newClass_some hmatch).2] at hle
        unfold pagesOf at hlt
        omega
      · omega
  · rw [extent_slab hcls, Records.headerSize_standard] at hlt
    omega

theorem HasSize.pages (hs : HasSize cls cap) :
    pagesOf (extent cls cap) = pagesOf (cap + 16) := by
  have hbounds := hs.bounds
  unfold pagesOf at *
  omega

/-- What a block keeps, and what it gives back, when it gets smaller by whole pages. -/
structure Shrinks (cls cap n h base : ℕ) : Prop where
  offset : h = base ∨ h = base + 32 ∧ newClass n ≠ 100
  start : pagesOf (h + extent (newClass n) n) * 4096 = base + pagesOf (newCapacity n + 16) * 4096
  freed : extent cls cap - extent (newClass n) n =
    (pagesOf (cap + 16) - pagesOf (newCapacity n + 16)) * 4096
  fewer : pagesOf (newCapacity n + 16) < pagesOf (cap + 16)
  kept : h + 16 + n ≤ base + pagesOf (newCapacity n + 16) * 4096

theorem HasSize.shrinks (hs : HasSize cls cap) (halign : base % 4096 = 0)
    (hoffset : h = base ∨ h = base + 32 ∧ cls ≠ 100) (hlt : extent (newClass n) n < extent cls cap)
    (hlen : (extent cls cap - extent (newClass n) n) % 4096 = 0) : Shrinks cls cap n h base := by
  have hnew := hasSize_new n
  -- both extents end in the same place of a page, so both blocks are big or none is
  have hsame : cls = 100 ↔ newClass n = 100 := by
    rw [← hs.big_iff, ← hnew.big_iff, extent_newCapacity]
    omega
  rw [Ne, hsame] at hoffset
  have hstart := hnew.end_page halign hoffset
  have hbounds := hnew.bounds
  have hpages := hnew.pages
  have hold := hs.pages
  have hfit := le_newCapacity n
  rw [extent_newCapacity] at hstart hbounds hpages
  refine ⟨hoffset, hstart, ?_, ?_, ?_⟩
  · rw [← hold, ← hpages]
    unfold pagesOf
    omega
  · rw [← hold, ← hpages]
    unfold pagesOf
    omega
  · have hnear : h ≤ base + 32 := by
      rcases hoffset with heq | ⟨heq, _⟩ <;> omega
    rw [← hstart]
    unfold pagesOf
    omega

end Sizes

section Reclass

/-- The class and the record of a block are those of a request. -/
structure Reclassed (w w' : World) (h n : ℕ) : Prop where
  caches : SameCaches w w'
  mem : w'.mem = OxHeader.setClass w.mem h (newClass n)
  va : Keeps w.va w'.va
  sound : ∃ f, HashmapRefinement.Sound w'.big f
  others : ∀ x, x ≠ h → w'.big.get x = w.big.get x
  get : newClass n = 100 → w'.big.get h = some ⟨newCapacity n, 100, 0, 0⟩

theorem Files.reclassed {w₀ : World} {info : Option BigAllocMeta}
    (hfiles : Files { w₀ with mem := OxHeader.setClass w₀.mem h (newClass n) } w' h info)
    (hget : newClass n = 100 → info = some ⟨newCapacity n, 100, 0, 0⟩) : Reclassed w₀ w' h n where
  caches := (sameCaches_update ..).trans hfiles.caches
  mem := hfiles.mem
  va := hfiles.va
  sound := hfiles.sound
  others := fun x hx => by rw [hfiles.get, Function.update_of_ne hx]
  get := fun hbig => by rw [hfiles.get, Function.update_self, hget hbig]

theorem reclass_spec {u : Unit} (hwf : Wf w.va) (hsound : ∃ f, HashmapRefinement.Sound w.big f)
    (hrun : Runs (reclass h cls (newClass n) (newCapacity n)) w u w') : Reclassed w w' h n := by
  rw [reclass, CInterface.reclass, runs_modify_bind] at hrun
  split at hrun
  · rename_i hgone
    rw [runs_bind] at hrun
    obtain ⟨info, w₁, hremove, hrun⟩ := hrun
    rw [(runs_pure.mp hrun).2]
    have hfiles := (bigRemove_files (w := { w with mem := OxHeader.setClass w.mem h (newClass n) })
      hwf hsound hremove).1
    exact hfiles.reclassed fun hbig => absurd hbig hgone.2
  · split at hrun
    · have hfiles := bigInsert_files (w := { w with mem := OxHeader.setClass w.mem h (newClass n) })
        hwf hsound hrun
      exact hfiles.reclassed fun _ => rfl
    · rename_i hslab
      rw [(runs_pure.mp hrun).2]
      exact ⟨sameCaches_update .., rfl, Keeps.refl hwf, hsound, fun _ _ => rfl,
        fun hbig => absurd hbig hslab⟩

theorem newClass_lt (n : ℕ) : newClass n < 256 := by
  have hcases := newClass_cases n
  omega

theorem Reclassed.cls_eq (hre : Reclassed w w' h n) : OxHeader.cls w'.mem h = newClass n := by
  rw [hre.mem, OxHeader.cls_setClass (newClass_lt n)]

theorem Reclassed.capacity (hre : Reclassed w w' h n) : w'.capacity h = newCapacity n := by
  rw [World.capacity, hre.cls_eq]
  split
  · rename_i hbig
    rw [World.bigSize, hre.get hbig]
  · rename_i hslab
    cases hmatch : matchSizeClass n with
    | none => exact absurd (newClass_none hmatch).1 hslab
    | some c => rw [(newClass_some hmatch).1, (newClass_some hmatch).2]

end Reclass

section Repage

/-- A step that leaves the block with other pages, behind what is kept of its payload. -/
structure Repages (w : World) (g : Layout) (w' : World) (h base pages n : ℕ) : Prop where
  caches : SameCaches w w'
  big : w'.big = w.big
  others : ∀ x, g.own x ≠ .free → g.own x ≠ .block h →
    w'.mem x = w.mem x ∧ Taken w'.va (x / 4096)
  kept : ∀ x, h ≤ x → x < h + 16 + n → w'.mem x = w.mem x
  room : ∀ x, h ≤ x → x < base + pages * 4096 → g.own x = .free ∨ g.own x = .block h
  wf : Wf w'.va
  grows : Extends w.va w'.va
  fits : Fits w'.va base pages
  seat : ∀ x, h ≤ x → x < base + pages * 4096 → Taken w'.va (x / 4096)

/-- The block with header h has room for n bytes where it is, and the bytes that fit are
those from before. -/
def Resized (w : World) (g : Layout) (w' : World) (h n : ℕ) : Prop :=
  ∃ g', Reaches w g w' g' {h} ∧ g'.place h = some .held ∧ n ≤ w'.capacity h ∧
    ∀ i < n, i < w.capacity h → w'.mem (h + 16 + i) = w.mem (h + 16 + i)

theorem Repages.reseats {pages : ℕ} (hp : Repages w g w₁ h base pages n)
    (hre : Reclassed w₁ w' h n) (hheader : ∀ x, h ≤ x → x < h + 16 → g.own x = .block h) :
    Reseats w g w' h (base + pages * 4096) where
  caches := hp.caches.trans hre.caches
  room := hp.room
  mem := by
    intro x hfree hother
    rw [hre.mem, OxHeader.setClass_elsewhere x, (hp.others x hfree hother).1]
    by_contra hin
    exact hother (hheader x (by omega) (by omega))
  big := by
    intro x hx
    rw [hre.others x hx, hp.big]
  sound := hre.sound
  wf := hre.va.wf
  grows := hp.grows.trans hre.va.grows
  others := fun x hfree hother => (hre.va.taken _).mpr (hp.others x hfree hother).2
  seat := fun x hlo hhi => (hre.va.taken _).mpr (hp.seat x hlo hhi)

theorem Repages.resized (hp : Repages w g w₁ h base (pagesOf (newCapacity n + 16)) n)
    (hre : Reclassed w₁ w' h n) (hinv : Inv w g) (hno : NoLoose g)
    (hheld : g.place h = some .held)
    (hsolo : OxHeader.cls w.mem h = 100 ∨ slabBlocks (OxHeader.cls w.mem h) = 1)
    (halign : base % 4096 = 0) (hoffset : h = base ∨ h = base + 32 ∧ newClass n ≠ 100) :
    Resized w g w' h n := by
  obtain ⟨hblock, hmagic⟩ := hinv.blocks h _ hheld
  have hbooted : w.booted = true := hinv.boot.resolve_right fun hboot => by
    rw [hboot.2 h] at hheld
    contradiction
  have hfields := OxHeader.fields_congr fun x hlo hhi => hp.kept x hlo (by omega)
  have hreach := (hp.reseats hre fun x => hinv.own_header hheld).reaches (p := some .held) hinv hno
    (by simp [hheld]) (Or.inr rfl) hbooted (fun _ => hinv.keepsSlots_solo hsolo) fun _ => ⟨?_, ?_⟩
  · refine ⟨_, hreach, Layout.reseat_place_self, ?_, fun i hi _ => ?_⟩
    · rw [hre.capacity]
      exact le_newCapacity n
    · rw [hre.mem, OxHeader.setClass_elsewhere _ (by omega), hp.kept _ (by omega) (by omega)]
  · refine blockOk_reseat hre.va.wf halign ?_ ?_ ?_ ?_ ?_
    · rw [hre.cls_eq]
      exact hoffset
    · rw [hre.capacity]
      exact hp.fits.extends hre.va.grows
    · rw [hre.capacity]
    · rw [hre.mem, OxHeader.next_setClass, hfields.1]
      exact hblock.next
    · rw [hre.cls_eq]
      refine (newClass_cases n).imp_right fun hbig => ⟨hbig, _, hre.get hbig, ?_⟩
      rcases hasSize_new n with ⟨_, hsize⟩ | ⟨hlt, _⟩
      · exact hsize
      · omega
  · have hheld' : OxHeader.magic w.mem h = w.magic := hmagic
    rw [hre.mem, OxHeader.magic_setClass, hfields.2.2, hheld', hre.caches.magic, hp.caches.magic]

end Repage

section Inplace

/-- Nothing happens, and the block has room already. -/
theorem Inv.resized_kept (hinv : Inv w g) (hno : NoLoose g) (hheld : g.place h = some .held)
    (hs : SameHeap w w') (hle : n ≤ w.capacity h) : Resized w g w' h n := by
  have hcap : w'.capacity h = w.capacity h := by
    unfold World.capacity World.bigSize
    rw [hs.mem, hs.big]
  refine ⟨g, ⟨hinv.sameHeap hs, hno, hs.frame⟩, hheld, ?_, fun i _ _ => ?_⟩
  · rw [hcap]
    exact hle
  · rw [hs.mem]

theorem VaBitmap.Fits.shrink {va : VaBitmap} {addr m k : ℕ} (hfits : Fits va addr m)
    (hle : k ≤ m) : Fits va addr k := by
  obtain ⟨halign, s, hs, hlo, hhi⟩ := hfits
  have hbytes : k * blockSize ≤ m * blockSize := Nat.mul_le_mul_right blockSize hle
  exact ⟨halign, s, hs, hlo, by omega⟩

/-- The last blocks of a run of blocks. -/
theorem VaBitmap.Fits.tail {va : VaBitmap} {addr m k : ℕ} (hfits : Fits va addr m)
    (hle : k ≤ m) : Fits va (addr + k * 4096) (m - k) := by
  obtain ⟨halign, s, hs, hlo, hhi⟩ := hfits
  refine ⟨?_, s, hs, ?_, ?_⟩
  · unfold blockSize at *
    omega
  · omega
  · unfold blockSize at *
    omega

theorem Solo.page_of_own (hsolo : Solo w g h base) {x : ℕ} (hlo : base + 4096 ≤ x)
    (hhi : x < base + pagesOf (w.capacity h + 16) * 4096) : g.own x = .block h := by
  refine hsolo.own x ?_ hhi
  rcases hsolo.offset with heq | ⟨heq, _⟩ <;> omega

/-- The last pages of a block are given back. -/
theorem Repages.shrunk {w₁ : World} {va' : VaBitmap} {pages : ℕ} (hinv : Inv w g)
    (hsolo : Solo w g h base) (hpos : 0 < pages) (hle : pages ≤ pagesOf (w.capacity h + 16))
    (hkept : h + 16 + n ≤ base + pages * 4096)
    (htouches : Touches w w₁ (base + pages * 4096)
      (base + pagesOf (w.capacity h + 16) * 4096))
    (hreleases : Releases w₁.va (base + pages * 4096) (pagesOf (w.capacity h + 16) - pages) va') :
    Repages w g { w₁ with va := va' } h base pages n := by
  have halign := hsolo.aligned
  have hbytes : base + pages * 4096 ≤ base + pagesOf (w.capacity h + 16) * 4096 :=
    Nat.add_le_add_left (Nat.mul_le_mul_right 4096 hle) base
  have hgone : ∀ x, InPages (base + pages * 4096) (pagesOf (w.capacity h + 16) - pages)
      (x / 4096) ↔ base + pages * 4096 ≤ x ∧ x < base + pagesOf (w.capacity h + 16) * 4096 := by
    intro x
    unfold InPages blockSize
    omega
  have htaken : ∀ x, g.own x ≠ .free →
      ¬ (base + pages * 4096 ≤ x ∧ x < base + pagesOf (w.capacity h + 16) * 4096) →
      Taken va' (x / 4096) := by
    intro x hx hout
    refine (hreleases.taken _).mpr ⟨(htouches.va.taken _).mpr (hinv.taken x hx), ?_⟩
    rwa [hgone]
  refine ⟨?_, htouches.big, ?_, ?_, ?_, hreleases.wf, ?_, ?_, ?_⟩
  · exact htouches.caches.trans (sameCaches_update ..)
  · intro x hfree hother
    have hout : ¬ (base + pages * 4096 ≤ x ∧ x < base + pagesOf (w.capacity h + 16) * 4096) :=
      fun hin => hother (hsolo.page_of_own (by omega) hin.2)
    exact ⟨htouches.mem x (by omega), htaken x hfree hout⟩
  · intro x _ hhi
    exact htouches.mem x (by omega)
  · intro x hlo hhi
    exact Or.inr (hsolo.own x hlo (Nat.lt_of_lt_of_le hhi hbytes))
  · exact htouches.va.grows.trans hreleases.grows
  · exact ((hsolo.fits.shrink hle).extends htouches.va.grows).extends hreleases.grows
  · intro x hlo hhi
    have hown := hsolo.own x hlo (Nat.lt_of_lt_of_le hhi hbytes)
    exact htaken x (by simp [hown]) (by omega)

/-- The pages behind the smaller block are free, and the block has its new class. -/
theorem shrunk_resized {w₂ : World} {va' : VaBitmap} {u u' : Unit} (hinv : Inv w g)
    (hno : NoLoose g) (hheld : g.place h = some .held)
    (hone : OxHeader.cls w.mem h = 100 ∨ slabBlocks (OxHeader.cls w.mem h) = 1)
    (hsolo : Solo w g h base) (hs : Shrinks (OxHeader.cls w.mem h) (w.capacity h) n h base)
    (htouches : Touches w w₂ (base + pagesOf (newCapacity n + 16) * 4096)
      (base + pagesOf (w.capacity h + 16) * 4096))
    (hfree : Runs (VaBitmap.free (base + pagesOf (newCapacity n + 16) * 4096)
      ((pagesOf (w.capacity h + 16) - pagesOf (newCapacity n + 16)) * 4096)) w₂.va u va')
    (hreclass : Runs (reclass h (OxHeader.cls w.mem h) (newClass n) (newCapacity n))
      { w₂ with va := va' } u' w') : Resized w g w' h n := by
  have hfewer := hs.fewer
  have htail := (hsolo.fits.tail (Nat.le_of_lt hfewer)).extends htouches.va.grows
  have hreleases := free_releases htouches.va.wf (by omega) (blocksOf_fits htouches.va.wf htail)
    htail hfree
  have hpos : 0 < pagesOf (newCapacity n + 16) := by
    unfold pagesOf
    omega
  have hrepages := Repages.shrunk hinv hsolo hpos (Nat.le_of_lt hfewer) hs.kept htouches hreleases
  have hsound : ∃ f, HashmapRefinement.Sound w₂.big f := by
    rw [htouches.big]
    exact hinv.big
  have hre := reclass_spec (w := { w₂ with va := va' }) hreleases.wf hsound hreclass
  exact hrepages.resized hre hinv hno hheld hone hsolo.aligned hs.offset

theorem shrinkInplace_spec {u : Unit} (hinv : Inv w g) (hno : NoLoose g)
    (hheld : g.place h = some .held)
    (hone : OxHeader.cls w.mem h = 100 ∨ slabBlocks (OxHeader.cls w.mem h) = 1)
    (hlt : extent (newClass n) n < extent (OxHeader.cls w.mem h) (w.capacity h))
    (hzero : w.capacity h = 0 → 3840 < n)
    (hrun : Runs (shrinkInplace h (OxHeader.cls w.mem h) (newClass n) (newCapacity n)
      (extent (OxHeader.cls w.mem h) (w.capacity h)) (extent (newClass n) n)) w u w') :
    Resized w g w' h n := by
  have hblock := (hinv.blocks h _ hheld).1
  have hsize := hblock.hasSize
  have hle : n ≤ w.capacity h := hsize.fits_kept hlt hzero
  rw [shrinkInplace, CInterface.shrinkInplace] at hrun
  dsimp only at hrun
  obtain ⟨start, hstart, hrun⟩ := runs_attempt_bind.mp hrun
  obtain rfl := alignTo_page hstart
  split at hrun
  · rename_i hlen
    obtain ⟨base, hsolo⟩ := hblock.solo hone
    have hs := hsize.shrinks hsolo.aligned hsolo.offset hlt hlen.2
    have hfewer := hs.fewer
    have hrange : base + pagesOf (newCapacity n + 16) * 4096 +
        (pagesOf (w.capacity h + 16) - pagesOf (newCapacity n + 16)) * 4096 =
          base + pagesOf (w.capacity h + 16) * 4096 := by
      omega
    rw [hs.start, hs.freed, runs_bind] at hrun
    obtain ⟨given, w₁, hadvise, hrun⟩ := hrun
    obtain ⟨htouches, hrefused⟩ := madvise_touches hinv.wf hadvise
    rw [Records.pagesOf_mul, hrange] at htouches
    cases given with
    | false =>
      rw [(runs_pure.mp hrun).2]
      exact hinv.resized_kept hno hheld (hrefused rfl) hle
    | true =>
      rw [if_pos rfl, runs_bind] at hrun
      obtain ⟨_, w₂, hprotect, hrun⟩ := hrun
      have hs₂ := forbid_sameHeap htouches.va.wf hprotect
      rw [runs_bind] at hrun
      obtain ⟨_, w₃, hfree, hreclass⟩ := hrun
      obtain ⟨va', hva', rfl⟩ := runs_onVa.mp hfree
      exact shrunk_resized hinv hno hheld hone hsolo hs (htouches.trans hs₂.touches) hva' hreclass
  · rw [(runs_pure.mp hrun).2]
    exact hinv.resized_kept hno hheld (SameHeap.refl hinv.wf) hle

/-- A run of blocks has become longer, by blocks that were free. -/
structure Widens (va : VaBitmap) (addr old new : ℕ) (va' : VaBitmap) : Prop where
  le : old ≤ new
  wf : Wf va'
  grows : Extends va va'
  fits : Fits va' addr new
  free : ∀ q, InPages (addr + old * 4096) (new - old) q → ¬ Taken va q
  taken : ∀ q, Taken va' q ↔ Taken va q ∨ InPages (addr + old * 4096) (new - old) q

theorem not_inPages_none {addr old new q : ℕ} (heq : new = old) :
    ¬ InPages addr (new - old) q := by
  unfold InPages
  omega

/-- `realloc_inplace` counts from the page of its address. -/
theorem VaBitmap.Wf.reallocInplace_near {va va' : VaBitmap} {m old new : ℕ} {r : Option ℕ}
    (hwf : Wf va) (hfits : Fits va base m) (hm : 0 < m) (hlo : base ≤ h) (hhi : h < base + 4096)
    (hrun : Runs (reallocInplace h old new) va r va') :
    Runs (reallocInplace base old new) va r va' := by
  obtain ⟨s, hs, hlocate, hin, hend, haddr, _, _⟩ := hwf.locate_of_fits hfits hm
  unfold blockSize at hend haddr
  have hstart := hin.1
  have hin' : InSegment s h := ⟨by omega, by omega⟩
  have hlocate' : va.locate h = .ok (some s) := by
    rw [locate, hwf.registered.radixLookup_iff.mpr ⟨hs, hin'⟩]
    rfl
  have hsame : s.reallocInplace h old new = s.reallocInplace base old new := by
    have hindex : (h - s.vaStart) / blockSize = (base - s.vaStart) / blockSize := by
      unfold blockSize
      omega
    unfold Segment.reallocInplace
    rw [hindex]
  rw [reallocInplace, runs_get_bind] at hrun ⊢
  obtain ⟨found, hfound, hrun⟩ := runs_attempt_bind.mp hrun
  obtain rfl : some s = found := Except.ok.inj (hlocate'.symm.trans hfound)
  refine runs_attempt_bind.mpr ⟨some s, hlocate, ?_⟩
  dsimp only at hrun ⊢
  rw [← hsame]
  exact hrun

theorem VaBitmap.Wf.widens {va va' : VaBitmap} {old new : ℕ} {r : Option ℕ} (hwf : Wf va)
    (hfits : Fits va base old) (hold : 0 < old) (hle : old ≤ new) (hlo : base ≤ h)
    (hhi : h < base + 4096)
    (hrun : Runs (reallocInplace h (old * 4096) (new * 4096)) va r va') :
    (r = none ∧ va' = va) ∨ (r = some (new * 4096) ∧ Widens va base old new va') := by
  have hnear := hwf.reallocInplace_near hfits hold hlo hhi hrun
  obtain ⟨newBlocks, hnew, hcases⟩ :=
    reallocInplace_result hwf (by omega) (blocksOf_fits hwf hfits) hfits hnear
  obtain rfl := blocksOf_pages hnew
  rcases hcases with ⟨heq, hr, rfl⟩ | ⟨hlt, _⟩ | ⟨_, hr, hclaims, hfits'⟩ | ⟨_, hr, hva'⟩
  · refine Or.inr ⟨hr, hle, hwf, Extends.refl _, ?_, ?_, ?_⟩
    · rw [heq]
      exact hfits
    · intro q hq
      exact absurd hq (not_inPages_none heq)
    · intro q
      exact ⟨Or.inl, fun hq => hq.resolve_right (not_inPages_none heq)⟩
  · omega
  · exact Or.inr ⟨hr, hle, hclaims.wf, hclaims.grows, hfits', hclaims.free, hclaims.taken⟩
  · exact Or.inl ⟨hr, hva'⟩

/-- The block takes the pages behind its own. -/
theorem Repages.grown {va₁ : VaBitmap} {pages : ℕ} (hinv : Inv w g) (hsolo : Solo w g h base)
    (hwidens : Widens w.va base (pagesOf (w.capacity h + 16)) pages va₁)
    (hs : SameHeap { w with va := va₁ } w₁) : Repages w g w₁ h base pages n := by
  have halign := hsolo.aligned
  have hbehind : ∀ x, base + pagesOf (w.capacity h + 16) * 4096 ≤ x → x < base + pages * 4096 →
      InPages (base + pagesOf (w.capacity h + 16) * 4096)
        (pages - pagesOf (w.capacity h + 16)) (x / 4096) := by
    intro x hlo hhi
    unfold InPages blockSize
    omega
  have hmem : ∀ x, w₁.mem x = w.mem x := fun x => by rw [hs.mem]
  have hold : ∀ x, g.own x ≠ .free → Taken w₁.va (x / 4096) := fun x hx =>
    (hs.va.taken _).mpr ((hwidens.taken _).mpr (Or.inl (hinv.taken x hx)))
  refine ⟨?_, hs.big, fun x hx _ => ⟨hmem x, hold x hx⟩, fun x _ _ => hmem x, ?_, hs.va.wf, ?_,
    hwidens.fits.extends hs.va.grows, ?_⟩
  · exact (sameCaches_update ..).trans hs.toSameCaches
  · intro x hlo hhi
    by_cases hin : x < base + pagesOf (w.capacity h + 16) * 4096
    · exact Or.inr (hsolo.own x hlo hin)
    · exact Or.inl (hinv.free_of_not_taken (hwidens.free _ (hbehind x (by omega) hhi)))
  · exact hwidens.grows.trans hs.va.grows
  · intro x hlo hhi
    by_cases hin : x < base + pagesOf (w.capacity h + 16) * 4096
    · exact hold x (by simp [hsolo.own x hlo hin])
    · exact (hs.va.taken _).mpr ((hwidens.taken _).mpr (Or.inr (hbehind x (by omega) hhi)))

/-- Pages that are taken but not used, or given back again, are nobody's. -/
theorem Inv.widened {va₁ va' : VaBitmap} {old pages : ℕ} (hinv : Inv w g) (hno : NoLoose g)
    (hwidens : Widens w.va base old pages va₁) (hs : SameHeap { w with va := va₁ } w₁)
    (hva : va' = w₁.va ∨ Releases w₁.va (base + old * 4096) (pages - old) va') :
    Reaches w g { w₁ with va := va' } g ∅ := by
  have hkept : ∀ x, g.own x ≠ .free → Taken w₁.va (x / 4096) := fun x hx =>
    (hs.va.taken _).mpr ((hwidens.taken _).mpr (Or.inl (hinv.taken x hx)))
  have hinv₁ := (hinv.setVa hwidens.wf hwidens.grows fun x hx =>
    (hwidens.taken _).mpr (Or.inl (hinv.taken x hx))).sameHeap hs
  refine ⟨?_, hno, frame_va.trans (hs.frame.trans frame_va)⟩
  rcases hva with rfl | hreleases
  · exact hinv₁
  · refine hinv₁.setVa hreleases.wf hreleases.grows fun x hx => ?_
    refine (hreleases.taken _).mpr ⟨hkept x hx, fun hin => ?_⟩
    exact hwidens.free _ hin (hinv.taken x hx)

/-- Only the pages of a big block are given back if they cannot be made writable. -/
theorem HasSize.big_of_end (hs : HasSize cls cap) (halign : base % 4096 = 0)
    (hoffset : h = base ∨ h = base + 32 ∧ cls ≠ 100) (hend : (h + extent cls cap) % 4096 = 0) :
    cls = 100 ∧ h = base := by
  rcases hoffset with rfl | ⟨rfl, hne⟩
  · exact ⟨hs.big_iff.mp (by omega), rfl⟩
  · obtain ⟨hlt, rfl⟩ := hs.resolve_left fun hbig => hne hbig.1
    have hpage := (payload_page hlt).2.1
    rw [extent_slab hlt] at hend
    omega

/-- The pages behind the block are writable, and the block has its new class. -/
theorem grown_resized {va₁ : VaBitmap} {u : Unit} (hinv : Inv w g) (hno : NoLoose g)
    (hheld : g.place h = some .held)
    (hone : OxHeader.cls w.mem h = 100 ∨ slabBlocks (OxHeader.cls w.mem h) = 1)
    (hsolo : Solo w g h base) (hoffset : h = base ∨ h = base + 32 ∧ newClass n ≠ 100)
    (hwidens : Widens w.va base (pagesOf (w.capacity h + 16)) (pagesOf (newCapacity n + 16)) va₁)
    (hs : SameHeap { w with va := va₁ } w₁)
    (hreclass : Runs (reclass h (OxHeader.cls w.mem h) (newClass n) (newCapacity n)) w₁ u w') :
    Resized w g w' h n := by
  have hsound : ∃ f, HashmapRefinement.Sound w₁.big f := by
    rw [hs.big]
    exact hinv.big
  have hre := reclass_spec hs.va.wf hsound hreclass
  exact (Repages.grown hinv hsolo hwidens hs).resized hre hinv hno hheld hone hsolo.aligned hoffset

/-- The pages of a big block that cannot be made writable are given back. -/
theorem Inv.regrown {va₁ va' : VaBitmap} {u : Unit} {old pages : ℕ} (hinv : Inv w g)
    (hno : NoLoose g) (hlt : old < pages) (hwidens : Widens w.va base old pages va₁)
    (hs : SameHeap { w with va := va₁ } w₁)
    (hfree : Runs (VaBitmap.free (base + old * 4096) (pages * 4096 - old * 4096)) w₁.va u va') :
    Reaches w g { w₁ with va := va' } g ∅ := by
  have hlen : pages * 4096 - old * 4096 = (pages - old) * 4096 := by
    omega
  have htail := (hwidens.fits.tail (Nat.le_of_lt hlt)).extends hs.va.grows
  rw [hlen] at hfree
  have hreleases := free_releases hs.va.wf (by omega) (blocksOf_fits hs.va.wf htail) htail hfree
  exact hinv.widened hno hwidens hs (Or.inr hreleases)

theorem growInplace_spec {r : Bool} (hinv : Inv w g) (hno : NoLoose g)
    (hheld : g.place h = some .held)
    (hone : OxHeader.cls w.mem h = 100 ∨ slabBlocks (OxHeader.cls w.mem h) = 1)
    (hgt : extent (OxHeader.cls w.mem h) (w.capacity h) < extent (newClass n) n)
    (hseat : h % 4096 = 0 ∨ newClass n ≠ 100)
    (hrun : Runs (growInplace h (OxHeader.cls w.mem h) (newClass n) (w.capacity h) (newCapacity n)
      (extent (OxHeader.cls w.mem h) (w.capacity h))) w r w') :
    (r = true ∧ Resized w g w' h n) ∨ (r = false ∧ Reaches w g w' g ∅) := by
  have hblock := (hinv.blocks h _ hheld).1
  have hsize := hblock.hasSize
  obtain ⟨base, hsolo⟩ := hblock.solo hone
  have halign := hsolo.aligned
  have hnear : base ≤ h ∧ h < base + 4096 := by
    rcases hsolo.offset with heq | ⟨heq, _⟩ <;> omega
  have hbounds := hsize.bounds
  have hnew := (hasSize_new n).bounds
  rw [extent_newCapacity] at hnew
  have hpos : 0 < pagesOf (w.capacity h + 16) := by
    unfold pagesOf
    omega
  have hmore : pagesOf (w.capacity h + 16) ≤ pagesOf (newCapacity n + 16) := by
    unfold pagesOf at *
    omega
  rw [growInplace, CInterface.growInplace] at hrun
  dsimp only at hrun
  obtain ⟨oldVa, holdVa, hrun⟩ := runs_attempt_bind.mp hrun
  obtain rfl : oldVa = pagesOf (w.capacity h + 16) * 4096 := alignTo_page holdVa
  obtain ⟨newVa, hnewVa, hrun⟩ := runs_attempt_bind.mp hrun
  obtain rfl : newVa = pagesOf (newCapacity n + 16) * 4096 := alignTo_page hnewVa
  rw [runs_bind] at hrun
  obtain ⟨found, w₁, hextend, hrun⟩ := hrun
  obtain ⟨va₁, hva₁, rfl⟩ := runs_onVa.mp hextend
  rcases hinv.wf.widens hsolo.fits hpos hmore hnear.1 hnear.2 hva₁ with
    ⟨rfl, rfl⟩ | ⟨rfl, hwidens⟩
  · obtain ⟨hr, rfl⟩ := runs_pure.mp hrun
    exact Or.inr ⟨hr, hinv, hno, frame_va⟩
  · dsimp only at hrun
    obtain ⟨start, _, hrun⟩ := runs_attempt_bind.mp hrun
    split at hrun
    · exact absurd (runs_attempt.mp hrun).1 (by simp)
    · rw [runs_bind] at hrun
      obtain ⟨allowed, w₂, hprotect, hrun⟩ := hrun
      have hs := protectMemory_sameHeap (w := { w with va := va₁ }) hwidens.wf hprotect
      cases allowed with
      | true =>
        rw [if_pos rfl, runs_bind] at hrun
        obtain ⟨_, w₃, hreclass, hrun⟩ := hrun
        obtain ⟨hr, rfl⟩ := runs_pure.mp hrun
        have hoffset : h = base ∨ h = base + 32 ∧ newClass n ≠ 100 :=
          hsolo.offset.imp_right fun hslab => ⟨hslab.1, hseat.resolve_left (by omega)⟩
        exact Or.inl ⟨hr, grown_resized hinv hno hheld hone hsolo hoffset hwidens hs hreclass⟩
      | false =>
        rw [if_neg Bool.false_ne_true] at hrun
        split at hrun
        · rename_i haligned
          rw [runs_bind] at hrun
          obtain ⟨_, w₃, hundo, hrun⟩ := hrun
          obtain ⟨hr, rfl⟩ := runs_pure.mp hrun
          obtain ⟨va', hva', rfl⟩ := runs_onVa.mp hundo
          obtain ⟨hbig, rfl⟩ := hsize.big_of_end halign hsolo.offset haligned.1
          rw [hbig, extent_big, Records.headerSize_standard] at hgt hva'
          exact Or.inr ⟨hr, hinv.regrown hno (by omega) hwidens hs hva'⟩
        · obtain ⟨hr, rfl⟩ := runs_pure.mp hrun
          exact Or.inr ⟨hr, hinv.widened hno hwidens hs (Or.inl rfl)⟩

/-- `realloc` in place: the block has room where it is, or all is as before. -/
theorem resizeInplace_spec {r : Bool} (hinv : Inv w g) (hno : NoLoose g)
    (hheld : g.place h = some .held)
    (hone : OxHeader.cls w.mem h = 100 ∨ slabBlocks (OxHeader.cls w.mem h) = 1)
    (hseat : h % 4096 = 0 ∨ newClass n ≠ 100) (hzero : w.capacity h = 0 → 3840 < n)
    (hrun : Runs (resizeInplace h (OxHeader.cls w.mem h) (w.capacity h) n) w r w') :
    (r = true ∧ Resized w g w' h n) ∨ (r = false ∧ Reaches w g w' g ∅) := by
  have hblock := (hinv.blocks h _ hheld).1
  have hsize := hblock.hasSize
  obtain ⟨base, hsolo⟩ := hblock.solo hone
  rw [resizeInplace, CInterface.resizeInplace] at hrun
  obtain ⟨oldTotal, hold, hrun⟩ := runs_attempt_bind.mp hrun
  obtain rfl := hsize.total hold
  obtain ⟨p, hextent, hrun⟩ := runs_attempt_bind.mp hrun
  dsimp only at hextent
  rw [headerSize, ← Records.headerSize_standard] at hextent
  obtain ⟨rfl, hclass⟩ := Records.newExtent_eq hextent
  dsimp only at hrun hclass
  rw [hclass] at hrun
  split at hrun
  · rename_i heq
    rw [runs_bind] at hrun
    obtain ⟨_, w₁, hreclass, hrun⟩ := hrun
    obtain ⟨hr, rfl⟩ := runs_pure.mp hrun
    -- the same extent means the same pages and the same kind of block
    have hsame : OxHeader.cls w.mem h = 100 ↔ newClass n = 100 := by
      rw [← hsize.big_iff, ← (hasSize_new n).big_iff, extent_newCapacity, heq]
    have hpages : pagesOf (newCapacity n + 16) = pagesOf (w.capacity h + 16) := by
      rw [← (hasSize_new n).pages, extent_newCapacity, heq, hsize.pages]
    have hoffset : h = base ∨ h = base + 32 ∧ newClass n ≠ 100 := by
      have hslab := hsolo.offset
      rwa [Ne, hsame] at hslab
    have hwidens : Widens w.va base (pagesOf (w.capacity h + 16))
        (pagesOf (newCapacity n + 16)) w.va := by
      refine ⟨Nat.le_of_eq hpages.symm, hinv.wf, Extends.refl _, ?_, ?_, ?_⟩
      · rw [hpages]
        exact hsolo.fits
      · intro q hq
        exact absurd hq (not_inPages_none hpages)
      · intro q
        exact ⟨Or.inl, fun hq => hq.resolve_right (not_inPages_none hpages)⟩
    exact Or.inl ⟨hr, grown_resized hinv hno hheld hone hsolo hoffset hwidens
      (SameHeap.refl hinv.wf) hreclass⟩
  · rename_i hne
    split at hrun
    · rename_i hlt
      rw [runs_bind] at hrun
      obtain ⟨_, w₁, hshrink, hrun⟩ := hrun
      obtain ⟨hr, rfl⟩ := runs_pure.mp hrun
      exact Or.inl ⟨hr, shrinkInplace_spec hinv hno hheld hone hlt hzero hshrink⟩
    · exact growInplace_spec hinv hno hheld hone (by omega) hseat hrun

end Inplace

end Oxidalloc
