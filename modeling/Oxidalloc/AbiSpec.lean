import Oxidalloc.Abi
import Oxidalloc.AllocateSpec

/-!
The C interface on pointers to blocks. The first word of a header is a pointer to
another header, so it is never the tag of an aligned pointer, and a pointer right behind
a header leads to that header. A request that has a class is served by the slab layer.
-/
namespace Oxidalloc

open ByteMemory Programs VaBitmap

variable {w w' : World} {g : Layout} {t h size cls : ℕ} {pl : Place}

section Pointers

theorem Inv.own_first (hinv : Inv w g) (hplace : g.place h = some pl) :
    g.own (h + 16) = .block h := by
  have hblock := (hinv.blocks h pl hplace).1
  rcases hblock.cls with hlt | ⟨hbig, _⟩
  · have hpos := (payload_bounds hlt).2.1
    have hcap : w.capacity h = payload (OxHeader.cls w.mem h) := if_neg (by omega)
    exact hblock.extent (h + 16) (by omega) (by omega)
  · obtain ⟨base, haligned, hoffset, _, hown⟩ := hblock.solo (Or.inl hbig)
    have hbase : h = base := hoffset.resolve_right fun hslab => hslab.2 hbig
    have hpages : 1 ≤ pagesOf (w.capacity h + 16) := by
      unfold pagesOf
      omega
    exact hown (h + 16) (by omega) (by omega)

theorem Inv.isOurs_payload (hinv : Inv w g) (hplace : g.place h = some pl) :
    w.isOurs (h + 16) = true := by
  have haligned := (hinv.blocks h pl hplace).1.isBlock.aligned
  exact hinv.isOurs_of_own (by rw [hinv.own_first hplace]; exact nofun) (by omega)

theorem resolve_plain (hnext : 16 ∣ OxHeader.next w.mem h) :
    Runs (resolve (h + 16)) w (h + 16, 0) w := by
  have htag : load w.mem (h + 16 - tagSize) 8 ≠ oxAlignTag := by
    show OxHeader.next w.mem h ≠ oxAlignTag
    unfold oxAlignTag
    omega
  simp only [resolve, runs_get_bind, htag, false_and, if_false, runs_pure, and_self]

theorem freeMain_plain (hinv : Inv w g) (hplace : g.place h = some pl) :
    freeMain t (h + 16) w = freeInternal t (h + 16) w := by
  have hours := hinv.isOurs_payload hplace
  have hresolve := resolve_plain (hinv.blocks h pl hplace).1.next
  rw [freeMain, CInterface.freeMain, if_neg (by omega), bind_of_runs (runs_read.mpr ⟨rfl, rfl⟩),
    if_neg (by simp [hours]), bind_of_runs hresolve]

/-- `free` counts the call as long as the hot path is not ready. -/
theorem free_plain (hinv : Inv w g) (hplace : g.place h = some pl) :
    ∃ n, free t (h + 16) w = freeInternal t (h + 16) { w with totalMallocFree := n } := by
  obtain ⟨n, hcount⟩ : ∃ n, Runs countFree w () { w with totalMallocFree := n } := by
    rw [countFree]
    simp only [runs_get_bind]
    split
    · exact ⟨w.totalMallocFree, runs_pure.mpr ⟨rfl, rfl⟩⟩
    · exact ⟨_, runs_set.mpr rfl⟩
  refine ⟨n, ?_⟩
  rw [free, CInterface.free, bind_of_runs hcount]
  have hinv' : Inv { w with totalMallocFree := n } g :=
    hinv.statics rfl rfl rfl rfl rfl rfl (Or.inl ⟨rfl, rfl⟩) hinv.boot
  exact freeMain_plain hinv' hplace

end Pointers

section Slab

theorem malloc_of_class (h : matchSizeClass size = some cls) :
    malloc t size = allocateClass t cls := by
  obtain ⟨_, _, hpos, hmax⟩ := matchSizeClass_some h
  unfold malloc CInterface.malloc
  by_cases hsmall : size ≤ 4096
  · have hlut : sizeLut[(size - 1) >>> 4]? = some cls := by
      rw [matchSizeClass, if_neg (by omega), if_pos hsmall] at h
      exact h
    rw [if_pos ⟨hsmall, hpos⟩, hlut]
  · have hrequest : ¬ maxRequest < size := by
      unfold maxRequest
      omega
    rw [if_neg fun hand => hsmall hand.1, if_neg hrequest, h]

theorem exists_class (hpos : 0 < size) (hmax : size ≤ 2097152) :
    ∃ cls, matchSizeClass size = some cls := by
  cases hcls : matchSizeClass size with
  | some cls => exact ⟨cls, rfl⟩
  | none => exact absurd (matchSizeClass_none hcls) (by omega)

/-- `free_internal` on a held block of a slab class is the slab side of `free`. -/
theorem freeInternal_slab {u : Unit} (hinv : Inv w g) (hheld : g.place h = some .held)
    (hcls : OxHeader.cls w.mem h < 34) (hrun : Runs (freeInternal t (h + 16)) w u w') :
    Runs (slabFree t (OxHeader.cls w.mem h) h) w u w' := by
  have hmagic : OxHeader.magic w.mem h = w.magic := (hinv.blocks h _ hheld).2
  rw [freeInternal, CInterface.freeInternal] at hrun
  dsimp only at hrun
  rw [show h + 16 - headerSize = h from Nat.add_sub_cancel h 16, runs_bind] at hrun
  obtain ⟨_, w₁, hvalid, hrun⟩ := hrun
  rw [validatePtrForAbi, runs_get_bind, if_pos hmagic] at hvalid
  rw [(runs_pure.mp hvalid).2, runs_read_bind, if_neg (by omega)] at hrun
  exact hrun

/-- A block of a slab class that the user gives back goes into a cache. -/
theorem free_slab_spec {u : Unit} (hinv : Inv w g) (hno : NoLoose g)
    (hheld : g.place h = some .held) (hcls : OxHeader.cls w.mem h < 34)
    (hrun : Runs (free t (h + 16)) w u w') :
    ∃ g', Reaches w g w' g' {h} ∧ g'.place h ≠ some .held ∧ g'.place h ≠ none := by
  obtain ⟨n, heq⟩ := free_plain (t := t) hinv hheld
  have hinv' : Inv { w with totalMallocFree := n } g :=
    hinv.statics rfl rfl rfl rfl rfl rfl (Or.inl ⟨rfl, rfl⟩) hinv.boot
  rw [Runs, heq] at hrun
  obtain ⟨g', hreach, hplaces⟩ := slabFree_spec hinv' hno hheld rfl hcls
    (freeInternal_slab hinv' hheld hcls hrun)
  have hframe : Frame w g { w with totalMallocFree := n } g {h} :=
    frame_of_eq rfl rfl rfl id id fun _ => ⟨rfl, rfl⟩
  exact ⟨g', hframe.reaches hreach, hplaces⟩

/-- A block that carries the mark of freed blocks is not taken back. -/
theorem free_marked (hinv : Inv w g) (hplace : g.place h = some pl)
    (hmagic : OxHeader.magic w.mem h = w.freedMagic) (hne : w.freedMagic ≠ w.magic) :
    free t (h + 16) w = .error (.abort .doubleFree "Pointer is tagged as in_use") := by
  obtain ⟨n, heq⟩ := free_plain (t := t) hinv hplace
  rw [heq, freeInternal, CInterface.freeInternal]
  show (validatePtrForAbi (h + 16 - headerSize) { w with totalMallocFree := n }).bind _ = _
  rw [show h + 16 - headerSize = h from Nat.add_sub_cancel h 16, validatePtrForAbi]
  show ((if OxHeader.magic w.mem h = w.magic then pure () else _ : OxM Unit) _).bind _ = _
  rw [if_neg (by rw [hmagic]; exact hne), if_pos hmagic]
  rfl

end Slab

end Oxidalloc
