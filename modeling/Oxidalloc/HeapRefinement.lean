import Oxidalloc.Process
import Oxidalloc.SlabConservation

/-!
The allocator with all of its state refines the heap of independent buffers: the free lists
of the threads and of the shared cache, the slabs and their uncarved rests, the bitmap of the
pages, the map of the big blocks, headers, magic numbers and tags. Every call of a run
changes the buffer that it names and no other, and trims, cleanups of caches and the clock
change none.
-/
namespace Oxidalloc.Process

open ByteMemory Programs Interleaving Buffers Function
open Records (bytes bytes_congr bytes_set bytes_zero getElem?_bytes length_bytes newClass)

variable {s s' : State} {w w₁ w' : World} {g g' : Layout} {ptr size n r h t : ℕ}

/-- A call of the heap of buffers, with a state that is valid again. -/
def Refines (s : State) (c : Buffers.Call ℕ UInt8) (r : ℕ) (s' : State) : Prop :=
  (∃ g', Valid s' g') ∧ Step 0 0 (contents s) c r (contents s')

section Make

theorem payload_hands {m : Memory} (hh : Hands w g w₁ g' h)
    (hm : ∀ x, x < h + 16 ∨ h + 16 + w₁.capacity h ≤ x → m x = w₁.mem x) :
    Hands w g { w₁ with mem := m } g' h ∧
      ({ w₁ with mem := m } : World).capacity h = w₁.capacity h := by
  obtain ⟨hreach, hcap⟩ := payload_reaches hh.inv hh.loose hh.held hm
  exact ⟨⟨hh.frame.reaches hreach, hh.fresh, hh.held⟩, hcap⟩

theorem points_new (hh : Hands w g w' g' h) (hsize : n ≤ w'.capacity h) :
    Points w' g' (h + 16) n h :=
  ⟨hh.held, by omega, Or.inl rfl⟩

/-- A new block, or none. -/
theorem Valid.make_refines (hs : Valid s g)
    (halloc : Allocates s.world g w' r fun h => size ≤ w'.capacity h) :
    Refines s (.make size) r ⟨w', adopt s.live r size⟩ := by
  rcases halloc with ⟨rfl, g', hreach⟩ | ⟨h, g', rfl, hhands, hsize⟩
  · obtain ⟨hvalid, hcontents⟩ := hs.silent hreach
    rw [adopt, if_pos rfl]
    refine ⟨⟨g', hvalid⟩, ?_⟩
    rw [hcontents]
    exact .refused size
  · obtain ⟨hnone, hc⟩ := hs.made hhands (points_new hhands hsize)
    rw [adopt, if_neg (by omega)]
    refine ⟨⟨g', hc.valid hs⟩, ?_⟩
    rw [hc.contents hs]
    exact .made size _ _ (by omega) (contents_eq_none hnone) length_bytes

theorem runs_clear {u : Unit} (hinv : Inv w g) (hheld : g.place h = some .held)
    (hrun : Runs (clear (h + 16) n) w u w') :
    w' = { w with mem := fill w.mem (h + 16) (min (w.capacity h) n) 0 } := by
  rw [clear, CInterface.clear, runs_bind_iff ((hinv.rawBlock hheld).recorded _)] at hrun
  exact runs_modify.mp hrun

/-- `calloc` hands out a block in which all bytes that were asked for are zero. -/
theorem calloc_spec {nmemb : ℕ} (hinv : Inv w g) (hno : NoLoose g) (hthp : w.ThpOff)
    (hrun : Runs (calloc t nmemb size) w r w') :
    Allocates w g w' r fun h =>
      nmemb * size ≤ w'.capacity h ∧ ∀ i < nmemb * size, w'.mem (h + 16 + i) = 0 := by
  rw [calloc, CInterface.calloc] at hrun
  split at hrun
  · dsimp only at hrun
    rw [setErrno, runs_modify_bind] at hrun
    obtain ⟨hr, rfl⟩ := runs_pure.mp hrun
    refine Or.inl ⟨hr, g, ?_, hno, frame_of_eq rfl rfl rfl id id fun _ => ⟨rfl, rfl⟩⟩
    exact hinv.statics rfl rfl rfl rfl rfl rfl (Or.inl ⟨rfl, rfl⟩) hinv.boot
  · dsimp only at hrun
    have hle : nmemb * size ≤ if nmemb * size = 0 then 1 else nmemb * size := by
      split <;> omega
    generalize (if nmemb * size = 0 then 1 else nmemb * size) = total at hrun hle
    rw [runs_bind] at hrun
    obtain ⟨raw, w₁, hmalloc, hrun⟩ := hrun
    rcases malloc_spec hinv hno hthp hmalloc with hnull | ⟨h, g', rfl, hhands, hroom⟩
    · rw [if_pos hnull.1] at hrun
      obtain ⟨hr, rfl⟩ := runs_pure.mp hrun
      exact Or.inl ⟨hr, hnull.2⟩
    · rw [if_neg (by omega), runs_bind] at hrun
      obtain ⟨u, w₂, hclear, hrun⟩ := hrun
      obtain ⟨rfl, rfl⟩ := runs_pure.mp hrun
      rw [runs_clear hhands.inv hhands.held hclear]
      obtain ⟨hhands', hcap⟩ := payload_hands hhands
        (m := fill w₁.mem (h + 16) (min (w₁.capacity h) total) 0)
        (fun x hx => fill_of_not_mem (by omega))
      refine Or.inr ⟨h, g', rfl, hhands', ?_, ?_⟩
      · rw [hcap]
        omega
      · intro i hi
        exact if_pos (by omega)

theorem Valid.calloc_refines {nmemb : ℕ} (hs : Valid s g)
    (hrun : Runs (calloc t nmemb size) s.world r w') :
    Refines s (.makeZero (nmemb * size)) r ⟨w', adopt s.live r (nmemb * size)⟩ := by
  rcases calloc_spec hs.inv hs.loose hs.thp hrun with
    ⟨rfl, g', hreach⟩ | ⟨h, g', rfl, hhands, hroom, hzero⟩
  · obtain ⟨hvalid, hcontents⟩ := hs.silent hreach
    rw [adopt, if_pos rfl]
    refine ⟨⟨g', hvalid⟩, ?_⟩
    rw [hcontents]
    exact .refusedZero _
  · obtain ⟨hnone, hc⟩ := hs.made hhands (points_new hhands hroom)
    rw [adopt, if_neg (by omega)]
    refine ⟨⟨g', hc.valid hs⟩, ?_⟩
    rw [hc.contents hs, Option.map_some, bytes_zero hzero]
    exact .madeZero _ _ (by omega) (contents_eq_none hnone)

theorem mallocTwice_spec (hinv : Inv w g) (hno : NoLoose g) (hthp : w.ThpOff)
    (hrun : Runs (mallocTwice t size) w r w') :
    Allocates w g w' r fun h => size ≤ w'.capacity h := by
  rw [mallocTwice, CInterface.mallocTwice, runs_bind] at hrun
  obtain ⟨first, w₁, hfirst, hrun⟩ := hrun
  have hspec := malloc_spec hinv hno hthp hfirst
  split at hrun
  · rename_i hzero
    rcases hspec with ⟨_, g₁, hreach⟩ | ⟨h, _, rfl, _⟩
    · exact hreach.frame.allocates
        (malloc_spec hreach.inv hreach.loose (hreach.frame.thp hthp) hrun)
    · omega
  · obtain ⟨rfl, rfl⟩ := runs_pure.mp hrun
    exact hspec

/-- A record in the payload of a new block, and the pointer behind it. -/
theorem points_tagged {aligned : ℕ} (hh : Hands w g w₁ g' h) (hdvd : 8 ∣ aligned)
    (hlo : h + 32 ≤ aligned) (hfits : aligned + size ≤ h + 16 + w₁.capacity h)
    (hlt : aligned < h + 16 + w₁.capacity h) (hend : h + 16 + w₁.capacity h < usizeBound) :
    Hands w g (w₁.tagged aligned (h + 16)) g' h ∧
      Points (w₁.tagged aligned (h + 16)) g' aligned size h := by
  obtain ⟨hhands, hcap⟩ := payload_hands hh (m := record w₁.mem aligned (h + 16)) (by
    intro x hx
    exact record_of_not_mem (by unfold tagSize; omega) (by unfold tagSize; omega))
  have htagged : (w₁.tagged aligned (h + 16)).capacity h = w₁.capacity h := hcap
  refine ⟨hhands, hh.held, by rwa [htagged], Or.inr ⟨hlo, by rwa [htagged], hdvd, ?_, ?_⟩⟩
  · exact load_tag (by unfold tagSize; omega)
  · exact load_original (by omega)

/-- `posix_memalign` puts the pointer and its record into the payload of a new block. -/
theorem aligned_hands {alignment : ℕ} {p : Except ℕ (ℕ × ℕ)} (hinv : Inv w g) (hno : NoLoose g)
    (hthp : w.ThpOff) (hrun : Runs (CInterface.posixMemalign (backend t) alignment size) w p w') :
    (∃ code g', p = .error code ∧ code ≠ 0 ∧ Reaches w g w' g' ∅) ∨
      ∃ h g' aligned, p = .ok (h + 16, aligned) ∧ Hands w g w' g' h ∧
        Points w' g' aligned size h := by
  have hself : Reaches w g w g ∅ :=
    ⟨hinv, hno, frame_refl⟩
  rw [CInterface.posixMemalign] at hrun
  split at hrun
  · obtain ⟨rfl, rfl⟩ := runs_pure.mp hrun
    exact Or.inl ⟨einval, g, rfl, by decide, hself⟩
  rename_i halign
  obtain ⟨hpower, hmin⟩ : IsPowerOfTwo alignment ∧ 8 ≤ alignment := by
    rw [not_or, not_not] at halign
    exact ⟨halign.2, by omega⟩
  split at hrun
  · obtain ⟨rfl, rfl⟩ := runs_pure.mp hrun
    exact Or.inl ⟨enomem, g, rfl, by decide, hself⟩
  rw [runs_bind] at hrun
  obtain ⟨raw, w₁, hmalloc, hrun⟩ := hrun
  rcases mallocTwice_spec hinv hno hthp hmalloc with
    ⟨rfl, g', hreach⟩ | ⟨h, g', rfl, hhands, hroom⟩
  · rw [if_pos rfl] at hrun
    obtain ⟨rfl, rfl⟩ := runs_pure.mp hrun
    exact Or.inl ⟨enomem, g', rfl, by decide, hreach⟩
  · unfold tagSize at hroom hrun
    have hblock := (hhands.inv.blocks h _ hhands.held).1
    -- the last byte of the payload is an address, so no sum on the way overflows
    have hlast : h + 16 + w₁.capacity h < usizeBound := by
      have hown := hblock.extent (h + 15 + w₁.capacity h) (by omega) (by omega)
      have hlt := hhands.inv.own_succ_lt (x := h + 15 + w₁.capacity h) (by simp [hown])
      omega
    rw [if_neg (by omega), Nat.min_eq_left (by omega)] at hrun
    obtain ⟨aligned, halignAfter, hrun⟩ := runs_attempt_bind.mp hrun
    rw [runs_modify_bind] at hrun
    obtain ⟨rfl, rfl⟩ := runs_pure.mp hrun
    obtain ⟨_, heq, hdvd, hlo, hhi⟩ :=
      @alignAfter_spec alignment (h + 16 + 16) hpower (by omega)
    obtain rfl := Except.ok.inj (halignAfter.symm.trans heq)
    exact Or.inr ⟨h, g', _, rfl, points_tagged hhands ((eight_dvd hpower hmin).trans hdvd)
      (by omega) (by omega) (by omega) (by omega)⟩

theorem posixMemalign_spec {alignment : ℕ} {p : ℕ × ℕ} (hinv : Inv w g) (hno : NoLoose g)
    (hthp : w.ThpOff) (hrun : Runs (posixMemalign t alignment size) w p w') :
    (p.1 ≠ 0 ∧ ∃ g', Reaches w g w' g' ∅) ∨
      ∃ h g', p.1 = 0 ∧ Hands w g w' g' h ∧ Points w' g' p.2 size h := by
  rw [posixMemalign, runs_bind] at hrun
  obtain ⟨found, w₁, haligned, hrun⟩ := hrun
  rcases aligned_hands hinv hno hthp haligned with
    ⟨code, g', rfl, hcode, hreach⟩ | ⟨h, g', aligned, rfl, hhands, hp⟩
  · obtain ⟨rfl, rfl⟩ := runs_pure.mp hrun
    exact Or.inl ⟨hcode, g', hreach⟩
  · obtain ⟨rfl, rfl⟩ := runs_pure.mp hrun
    exact Or.inr ⟨h, g', rfl, hhands, hp⟩

theorem Valid.posixMemalign_refines {alignment : ℕ} (hs : Valid s g)
    (hrun : Runs (perform t (.posixMemalign alignment size)) s.world r w') :
    Refines s (.make size) r ⟨w', adopt s.live r size⟩ := by
  rw [perform, runs_bind] at hrun
  obtain ⟨⟨code, aligned⟩, w₁, hposix, hrun⟩ := hrun
  obtain ⟨rfl, rfl⟩ := runs_pure.mp hrun
  rcases posixMemalign_spec hs.inv hs.loose hs.thp hposix with
    ⟨hcode, g', hreach⟩ | ⟨h, g', rfl, hhands, hp⟩
  · obtain ⟨hvalid, hcontents⟩ := hs.silent hreach
    rw [if_neg hcode, adopt, if_pos rfl]
    refine ⟨⟨g', hvalid⟩, ?_⟩
    rw [hcontents]
    exact .refused size
  · obtain ⟨hnone, hc⟩ := hs.made hhands hp
    have hstart := hp.start
    dsimp only at hstart
    rw [if_pos rfl, adopt, if_neg (by omega)]
    refine ⟨⟨g', hc.valid hs⟩, ?_⟩
    rw [hc.contents hs]
    exact .made size _ _ (by omega) (contents_eq_none hnone) length_bytes

end Make

section Change

/-- The call is counted as long as the hot path is not ready. -/
theorem runs_countFree {u : Unit} (hrun : Runs countFree w u w') :
    ∃ n, w' = { w with totalMallocFree := n } := by
  rw [countFree, runs_get_bind] at hrun
  split at hrun
  · exact ⟨_, (runs_pure.mp hrun).2⟩
  · exact ⟨_, runs_set.mp hrun⟩

/-- `free` takes back the block of a pointer, aligned or not. -/
theorem Points.free_spec {u : Unit} (hp : Points w g ptr size h) (hinv : Inv w g)
    (hno : NoLoose g) (hthp : w.ThpOff) (hrun : Runs (free t ptr) w u w') :
    ∃ g', Reaches w g w' g' {h} ∧ g'.place h ≠ some .held := by
  rw [free, CInterface.free, runs_bind] at hrun
  obtain ⟨_, w₁, hcount, hrun⟩ := hrun
  obtain ⟨n, rfl⟩ := runs_countFree hcount
  have hframe : Frame w g { w with totalMallocFree := n } g {h} :=
    frame_of_eq rfl rfl rfl id id fun _ => ⟨rfl, rfl⟩
  have hinv' : Inv { w with totalMallocFree := n } g :=
    hinv.statics rfl rfl rfl rfl rfl rfl (Or.inl ⟨rfl, rfl⟩) hinv.boot
  have hp' : Points { w with totalMallocFree := n } g ptr size h := ⟨hp.held, hp.fits, hp.found⟩
  have hours := hp'.isOurs hinv'
  have hstart := hp.start
  rw [CInterface.freeMain, if_neg (by omega), runs_read_bind, hours,
    if_neg (by decide), runs_bind_iff (hp'.resolve hinv')] at hrun
  obtain ⟨g', hreach, hgone⟩ := freeInternal_spec hinv' hno (hframe.thp hthp) hp.held hrun
  exact ⟨g', hframe.reaches hreach, hgone⟩

theorem Valid.free_refines (hs : Valid s g) (hlive : s.live ptr = some size)
    (hrun : Runs (perform t (.free ptr)) s.world r w') :
    Refines s (.drop ptr) r ⟨w', update s.live ptr none⟩ := by
  rw [perform, runs_bind] at hrun
  obtain ⟨u, w₁, hfree, hrun⟩ := hrun
  obtain ⟨rfl, rfl⟩ := runs_pure.mp hrun
  obtain ⟨h, hp⟩ := hs.header ptr size hlive
  obtain ⟨g', hreach, hgone⟩ := hp.free_spec hs.inv hs.loose hs.thp hfree
  have hc := hs.changed (v := none) hlive hp hreach (by simp) (fun _ => hgone)
  refine ⟨⟨g', hc.valid hs⟩, ?_⟩
  rw [hc.contents hs]
  exact .dropped ptr _ (contents_eq_some hlive)

/-- What is written behind one pointer is behind no other, and in no header. -/
theorem Valid.write_refines {i : ℕ} {value : UInt8} (hs : Valid s g)
    (hlive : s.live ptr = some size) (hi : i < size)
    (hrun : Runs (perform t (.write ptr i value)) s.world r w') :
    Refines s (.put ptr i value) r ⟨w', s.live⟩ := by
  rw [perform, runs_modify_bind] at hrun
  obtain ⟨rfl, rfl⟩ := runs_pure.mp hrun
  obtain ⟨h, hp⟩ := hs.header ptr size hlive
  have hstart := hp.start
  have hfits := hp.fits
  obtain ⟨hreach, hcap⟩ := payload_reaches (m := update s.world.mem (ptr + i) value)
    hs.inv hs.loose hp.held (fun x hx => update_of_ne (by omega) ..)
  have hp' : Points { s.world with mem := update s.world.mem (ptr + i) value } g ptr size
      h := by
    refine ⟨hp.held, by rwa [hcap], ?_⟩
    rw [hcap]
    refine hp.found.imp id fun hfound => ?_
    obtain ⟨hlo, hhi, hdvd, htag, horiginal⟩ := hfound
    unfold tagSize at htag ⊢
    unfold offsetSize at horiginal ⊢
    refine ⟨hlo, hhi, hdvd, ?_, ?_⟩
    · rw [load_congr fun x hx hx' => update_of_ne (by omega) .., htag]
    · rw [load_congr fun x hx hx' => update_of_ne (by omega) .., horiginal]
  have hc := hs.changed (v := some size) hlive hp hreach
    (fun n hn => Option.some.inj hn ▸ hp') (by simp)
  have hsame : update s.live ptr (some size) = s.live := by
    rw [← hlive]
    exact update_eq_self ..
  have hvalid := hc.valid hs
  have hcontents := hc.contents hs
  rw [hsame] at hvalid hcontents
  refine ⟨⟨g, hvalid⟩, ?_⟩
  rw [hcontents, Option.map_some, bytes_set]
  exact .put ptr i value _ (contents_eq_some hlive) (by simpa using hi)

end Change

section Realloc

/-- A block that stays where it is. -/
theorem Valid.resize_same (hs : Valid s g) (hlive : s.live ptr = some size)
    (hc : Changes s g w' g' h ptr (some n))
    (hkept : ∀ i < n, i < size → w'.mem (ptr + i) = s.world.mem (ptr + i)) :
    Refines s (.resize ptr n) ptr ⟨w', pointers s.live ptr (.realloc ptr n)⟩ := by
  have hne : ptr ≠ 0 := by
    have hstart := (hc.after n rfl).start
    omega
  have hpointers : pointers s.live ptr (.realloc ptr n) =
      update s.live ptr (some n) := by
    rw [pointers, if_neg (fun hzero => hne hzero.1), adopt, if_neg hne, update_idem]
  rw [hpointers]
  refine ⟨⟨g', hc.valid hs⟩, ?_⟩
  have hstep : Step 0 0 (contents s) (.resize ptr n) ptr (update
      (update (contents s) ptr none) ptr (some (bytes w'.mem ptr n))) := by
    refine .resized ptr n ptr _ _ hne (contents_eq_some hlive) ?_ length_bytes ?_
    · exact update_self ..
    · intro i hi hn
      rw [length_bytes] at hi
      rw [getElem?_bytes hn, getElem?_bytes hi, hkept i hn hi]
  rw [update_idem] at hstep
  rw [hc.contents hs]
  exact hstep

/-- The copy goes into the new block, and leaves the old one alone. -/
theorem Points.copied {h₁ c : ℕ} (hp : Points w g ptr size h) (hinv : Inv w g)
    (hhands : Hands w g w₁ g' h₁) (hroom : n ≤ w₁.capacity h₁) :
    Hands w g { w₁ with mem := copy w₁.mem ptr (h₁ + 16) (min c n) } g' h₁ ∧
      Points { w₁ with mem := copy w₁.mem ptr (h₁ + 16) (min c n) } g' (h₁ + 16) n h₁ ∧
      Points { w₁ with mem := copy w₁.mem ptr (h₁ + 16) (min c n) } g' ptr size h ∧
      bytes w₁.mem ptr size = bytes w.mem ptr size := by
  have hne : h ≠ h₁ := fun heq => hhands.fresh (heq ▸ hp.held)
  obtain ⟨hhands', hcap⟩ := payload_hands hhands
    (m := copy w₁.mem ptr (h₁ + 16) (min c n)) (fun x hx => copy_of_not_mem (by omega))
  exact ⟨hhands', points_new hhands' (by rwa [hcap]), (hp.frame hinv hhands'.frame hne).1,
    (hp.frame hinv hhands.frame hne).2⟩

/-- A block that moves: a new block, a copy, and the release of the old block. -/
theorem Valid.move_refines {cap : ℕ} (hs : Valid s g) (hlive : s.live ptr = some size)
    (hp : Points s.world g ptr size h) (hn : n ≠ 0) (hsize : size ≤ cap)
    (hrun : Runs (moveBlock t ptr n cap) s.world r w') :
    Refines s (.resize ptr n) r ⟨w', pointers s.live r (.realloc ptr n)⟩ := by
  rw [moveBlock, CInterface.moveBlock, runs_bind] at hrun
  obtain ⟨newPtr, w₁, hmalloc, hrun⟩ := hrun
  rcases malloc_spec hs.inv hs.loose hs.thp hmalloc with
    ⟨rfl, g₁, hreach⟩ | ⟨h₁, g₁, rfl, hhands, hroom⟩
  · rw [if_pos rfl] at hrun
    obtain ⟨rfl, rfl⟩ := runs_pure.mp hrun
    obtain ⟨hvalid, hcontents⟩ := hs.silent hreach
    rw [pointers, if_pos ⟨rfl, hn⟩]
    refine ⟨⟨g₁, hvalid⟩, ?_⟩
    rw [hcontents]
    exact .refusedResize ptr n hn
  · rw [if_neg (by omega), runs_modify_bind, runs_bind] at hrun
    obtain ⟨u, w₂, hfree, hrun⟩ := hrun
    dsimp only at hfree
    obtain ⟨rfl, rfl⟩ := runs_pure.mp hrun
    obtain ⟨hhands', hnew, hp₁, hold⟩ := hp.copied (c := cap) hs.inv hhands hroom
    generalize hm : copy w₁.mem ptr (h₁ + 16) (min cap n) = m' at hfree hhands' hnew hp₁
    -- the user has both blocks until the old one is free
    obtain ⟨hnone, hc⟩ := hs.made hhands' hnew
    have hs₁ := hc.valid hs
    have hptr : ptr ≠ h₁ + 16 := by
      rintro rfl
      rw [hnone] at hlive
      contradiction
    have hlive₁ := (update_of_ne hptr (some n) s.live).trans hlive
    obtain ⟨g', hreach, hgone⟩ := hp₁.free_spec hs₁.inv hs₁.loose hs₁.thp hfree
    have hc' := hs₁.changed (v := none) hlive₁ hp₁ hreach (by simp) (fun _ => hgone)
    have hpointers : pointers s.live (h₁ + 16) (.realloc ptr n) =
        update (update s.live (h₁ + 16) (some n)) ptr none := by
      rw [pointers, if_neg (by omega), adopt, if_neg (by omega),
        update_comm hptr.symm]
    rw [hpointers]
    refine ⟨⟨g', hc'.valid hs₁⟩, ?_⟩
    rw [hc'.contents hs₁, hc.contents hs, Option.map_none, Option.map_some,
      update_comm hptr.symm]
    refine .resized ptr n _ _ _ (by omega) (contents_eq_some hlive) ?_ length_bytes ?_
    · rw [update_of_ne hptr.symm]
      exact contents_eq_none hnone
    · intro i hi hlt
      rw [length_bytes] at hi
      rw [getElem?_bytes hlt, ← hold, getElem?_bytes hi, ← hm]
      exact congrArg some (copy_apply (by omega))

/-- `realloc` to the size zero, which frees and allocates. -/
theorem Valid.renew_refines (hs : Valid s g) (hlive : s.live ptr = some size)
    (hp : Points s.world g ptr size h) {u : Unit} (hfree : Runs (free t ptr) s.world u w₁)
    (hmalloc : Runs (malloc t 1) w₁ r w') :
    Refines s (.resize ptr 0) r ⟨w', pointers s.live r (.realloc ptr 0)⟩ := by
  obtain ⟨g₁, hreach, hgone⟩ := hp.free_spec hs.inv hs.loose hs.thp hfree
  have hc := hs.changed (v := none) hlive hp hreach (by simp) (fun _ => hgone)
  have hs₁ := hc.valid hs
  have hcontents₁ := hc.contents hs
  rw [pointers, if_neg (by simp)]
  rcases malloc_spec hs₁.inv hs₁.loose hs₁.thp hmalloc with
    ⟨rfl, g', hreach'⟩ | ⟨h', g', rfl, hhands, _⟩
  · obtain ⟨hvalid, hcontents⟩ := hs₁.silent hreach'
    rw [adopt, if_pos rfl]
    refine ⟨⟨g', hvalid⟩, ?_⟩
    rw [hcontents, hcontents₁]
    exact .emptied ptr _ (contents_eq_some hlive)
  · obtain ⟨hnone, hc'⟩ := hs₁.made hhands (points_new hhands (Nat.zero_le _))
    rw [adopt, if_neg (by omega)]
    refine ⟨⟨g', hc'.valid hs₁⟩, ?_⟩
    rw [hc'.contents hs₁, hcontents₁]
    refine .resized ptr 0 _ _ _ (by omega) (contents_eq_some hlive) ?_ length_bytes ?_
    · rw [← Option.map_none (f := bytes w₁.mem ptr), ← hcontents₁]
      exact contents_eq_none hnone
    · intro i _ hi
      omega

/-- `realloc` of a block that has its pages for itself is not asked to make a block behind
the header of a slab big, and no block of size zero to hold what fits into its page. -/
def Regular (s : State) : Action → Prop
  | .call _ (.realloc ptr n) =>
    ptr ≠ 0 → load s.world.mem (ptr - tagSize) 8 ≠ oxAlignTag →
      (n ≤ 2097152 ∨ (ptr - 16) % 4096 = 0 ∨
        slabBlocks (OxHeader.cls s.world.mem (ptr - 16)) ≠ 1) ∧
      (s.world.capacity (ptr - 16) = 0 → n = 0 ∨ 3840 < n)
  | _ => True

instance Regular.decidable (s : State) : ∀ a, Decidable (Regular s a)
  | .call _ (.realloc _ _) => inferInstanceAs (Decidable (_ → _ → _ ∧ _))
  | .call _ (.malloc _) => isTrue trivial
  | .call _ (.calloc _ _) => isTrue trivial
  | .call _ (.posixMemalign _ _) => isTrue trivial
  | .call _ (.free _) => isTrue trivial
  | .call _ (.usableSize _) => isTrue trivial
  | .call _ (.write _ _ _) => isTrue trivial
  | .trim _ => isTrue trivial
  | .cleanup _ => isTrue trivial
  | .observe _ _ => isTrue trivial

/-- The branches of `realloc` behind the lookup of the number of blocks of a slab. -/
def resizeOrMove (t h ptr n cls cap it : ℕ) : OxM ℕ :=
  if ptr - (h + 16) ≠ 0 then moveBlock t ptr n (cap - (ptr - (h + 16)))
  else if matchSizeClass n = some cls ∧ n ≤ cap - (ptr - (h + 16)) then pure ptr
  else if cls = 100 ∨ it = 1 then do
    if ← resizeInplace h cls cap n then pure ptr
    else moveBlock t ptr n (cap - (ptr - (h + 16)))
  else moveBlock t ptr n (cap - (ptr - (h + 16)))

/-- The checks of `realloc` pass for a pointer of the user. -/
theorem Points.reallocBlock_eq (hp : Points w g ptr size h) (hinv : Inv w g) :
    ∃ it, (it = 1 → slabBlocks (OxHeader.cls w.mem h) = 1) ∧ reallocBlock t ptr n w =
      resizeOrMove t h ptr n (OxHeader.cls w.mem h) (w.capacity h) it w := by
  rw [reallocBlock, CInterface.reallocBlock, bind_of_runs (hp.resolve hinv)]
  dsimp only
  rw [show h + 16 - headerSize = h from Nat.add_sub_cancel h 16,
    bind_of_runs (hp.validate hinv), bind_of_runs (hp.recorded hinv _),
    bind_of_runs (runs_read.mpr ⟨rfl, rfl⟩), CInterface.iterationsOf]
  by_cases hbig : OxHeader.cls w.mem h = 100
  · rw [if_pos hbig]
    exact ⟨1000, by omega, rfl⟩
  · rw [if_neg hbig]
    dsimp only
    have hlt := (hinv.blocks h _ hp.held).1.cls.resolve_right fun hand => hbig hand.1
    have hindex : index iterations (OxHeader.cls w.mem h) =
        .ok (slabBlocks (OxHeader.cls w.mem h)) :=
      index_eq_ok.mpr ⟨hlt, rfl⟩
    rw [hindex]
    exact ⟨slabBlocks (OxHeader.cls w.mem h), id, rfl⟩

/-- What `realloc` does with a block, by its place and class. -/
inductive Reallocs (t : ℕ) (w : World) (h ptr n r : ℕ) (w' : World) : Prop
  | moved (hmove : Runs (moveBlock t ptr n (w.capacity h - (ptr - (h + 16)))) w r w')
  | same (hptr : ptr = h + 16) (hroom : n ≤ w.capacity h) (hr : r = ptr) (hw : w' = w)
  | inPlace (hptr : ptr = h + 16)
    (hone : OxHeader.cls w.mem h = 100 ∨ slabBlocks (OxHeader.cls w.mem h) = 1)
    (hresize : Runs (resizeInplace h (OxHeader.cls w.mem h) (w.capacity h) n) w true w')
    (hr : r = ptr)
  | movedAfter (w₁ : World) (hptr : ptr = h + 16)
    (hone : OxHeader.cls w.mem h = 100 ∨ slabBlocks (OxHeader.cls w.mem h) = 1)
    (hresize : Runs (resizeInplace h (OxHeader.cls w.mem h) (w.capacity h) n) w false w₁)
    (hmove : Runs (moveBlock t ptr n (w.capacity h - (ptr - (h + 16)))) w₁ r w')

theorem Points.runs_reallocBlock (hp : Points w g ptr size h) (hinv : Inv w g)
    (hrun : Runs (reallocBlock t ptr n) w r w') : Reallocs t w h ptr n r w' := by
  have hstart := hp.start
  obtain ⟨it, hone, heq⟩ := hp.reallocBlock_eq (t := t) (n := n) hinv
  rw [Runs, heq] at hrun
  change Runs (resizeOrMove t h ptr n _ _ it) w r w' at hrun
  unfold resizeOrMove at hrun
  split at hrun
  · exact .moved hrun
  rename_i hoffset
  have hptr : ptr = h + 16 := by omega
  split at hrun
  · rename_i hsame
    obtain ⟨hr, hw'⟩ := runs_pure.mp hrun
    exact .same hptr (by omega) hr hw'
  split at hrun
  · rename_i hsolo
    rw [runs_bind] at hrun
    obtain ⟨kept, w₁, hresize, hrun⟩ := hrun
    cases kept with
    | true =>
      obtain ⟨hr, rfl⟩ := runs_pure.mp hrun
      exact .inPlace hptr (hsolo.imp id hone) hresize hr
    | false => exact .movedAfter w₁ hptr (hsolo.imp id hone) hresize hrun
  · exact .moved hrun

/-- A regular call meets the conditions of the resize in place. -/
theorem Valid.regular_inplace (hs : Valid s g) (hheld : g.place h = some .held) (hn : n ≠ 0)
    (hone : OxHeader.cls s.world.mem h = 100 ∨ slabBlocks (OxHeader.cls s.world.mem h) = 1)
    (hregular : Regular s (.call t (.realloc (h + 16) n))) :
    (h % 4096 = 0 ∨ newClass n ≠ 100) ∧ (s.world.capacity h = 0 → 3840 < n) := by
  have hnext := (hs.inv.blocks h _ hheld).1.next
  have htag : load s.world.mem (h + 16 - tagSize) 8 ≠ oxAlignTag := by
    show OxHeader.next s.world.mem h ≠ oxAlignTag
    unfold oxAlignTag
    omega
  obtain ⟨hplace, hzero⟩ := hregular (by omega) htag
  rw [Nat.add_sub_cancel] at hplace hzero
  refine ⟨?_, fun hcap => (hzero hcap).resolve_left hn⟩
  rcases hone with hbig | hslab
  · exact Or.inl (hs.inv.big_solo hheld hbig).1.aligned
  · rcases hplace with hle | halign | hmany
    · obtain ⟨cls, hcls⟩ := exists_class (Nat.pos_of_ne_zero hn) hle
      have hlt := (matchSizeClass_some hcls).1
      rw [(Records.newClass_some hcls).1]
      omega
    · exact Or.inl halign
    · exact absurd hslab hmany

theorem Valid.reallocBlock_refines (hs : Valid s g) (hlive : s.live ptr = some size)
    (hn : n ≠ 0) (hregular : Regular s (.call t (.realloc ptr n)))
    (hrun : Runs (reallocBlock t ptr n) s.world r w') :
    Refines s (.resize ptr n) r ⟨w', pointers s.live r (.realloc ptr n)⟩ := by
  obtain ⟨h, hp⟩ := hs.header ptr size hlive
  have hstart := hp.start
  have hfits := hp.fits
  cases hp.runs_reallocBlock hs.inv hrun with
  | moved hmove => exact hs.move_refines hlive hp hn (by omega) hmove
  | same hptr hroom hr hw =>
    subst hptr hr hw
    have hreach : Reaches s.world g s.world g {h} :=
      ⟨hs.inv, hs.loose, frame_refl⟩
    have hnew : Points s.world g (h + 16) n h := ⟨hp.held, by omega, Or.inl rfl⟩
    exact hs.resize_same hlive (hs.changed hlive hp hreach
      (fun k hk => Option.some.inj hk ▸ hnew) (by simp)) (fun _ _ _ => rfl)
  | inPlace hptr hone hresize hr =>
    subst hptr hr
    obtain ⟨hseat, hzero⟩ := hs.regular_inplace hp.held hn hone hregular
    obtain ⟨_, g', hreach, hheld, hroom, hbytes⟩ := (resizeInplace_spec hs.inv hs.loose hp.held
      hone hseat hzero hresize).resolve_right (by simp)
    have hnew : Points w' g' (h + 16) n h := ⟨hheld, by omega, Or.inl rfl⟩
    refine hs.resize_same hlive (hs.changed hlive hp hreach
      (fun k hk => Option.some.inj hk ▸ hnew) (by simp)) ?_
    intro i hi hsize
    exact hbytes i hi (by omega)
  | movedAfter w₁ hptr hone hresize hmove =>
    subst hptr
    obtain ⟨hseat, hzero⟩ := hs.regular_inplace hp.held hn hone hregular
    obtain ⟨_, hreach⟩ := (resizeInplace_spec hs.inv hs.loose hp.held
      hone hseat hzero hresize).resolve_left (by simp)
    -- the attempt in place changed nothing that the user sees
    obtain ⟨hvalid, hcontents⟩ := hs.silent hreach
    obtain ⟨hp₁, _⟩ := hp.frame hs.inv hreach.frame (Set.notMem_empty _)
    have hrefines := hvalid.move_refines hlive hp₁ hn (by omega) hmove
    rwa [Refines, hcontents] at hrefines

theorem Valid.realloc_refines (hs : Valid s g) (hlive : s.live ptr = some size)
    (hregular : Regular s (.call t (.realloc ptr n)))
    (hrun : Runs (realloc t ptr n) s.world r w') :
    Refines s (.resize ptr n) r ⟨w', pointers s.live r (.realloc ptr n)⟩ := by
  obtain ⟨h, hp⟩ := hs.header ptr size hlive
  have hstart := hp.start
  rw [realloc, CInterface.realloc, if_neg (by omega)] at hrun
  split at hrun
  · rename_i hlarge
    have hn : n ≠ 0 := by omega
    dsimp only at hrun
    rw [setErrno, runs_modify_bind] at hrun
    obtain ⟨rfl, rfl⟩ := runs_pure.mp hrun
    have hreach : Reaches s.world g { s.world with errno := enomem } g ∅ := by
      refine ⟨?_, hs.loose, frame_of_eq rfl rfl rfl id id fun _ => ⟨rfl, rfl⟩⟩
      exact hs.inv.statics rfl rfl rfl rfl rfl rfl (Or.inl ⟨rfl, rfl⟩) hs.inv.boot
    obtain ⟨hvalid, hcontents⟩ := hs.silent hreach
    rw [pointers, if_pos ⟨rfl, hn⟩]
    refine ⟨⟨g, hvalid⟩, ?_⟩
    rw [hcontents]
    exact .refusedResize ptr n hn
  rw [runs_read_bind, hp.isOurs hs.inv, if_neg (by decide)] at hrun
  split at hrun
  · rename_i hzero
    subst hzero
    rw [runs_bind] at hrun
    obtain ⟨u, w₁, hfree, hmalloc⟩ := hrun
    exact hs.renew_refines hlive hp hfree hmalloc
  · rename_i hn
    exact hs.reallocBlock_refines hlive hn hregular hrun

end Realloc

section Runs

/-- Every call that the user may make is a call of the heap of buffers. -/
theorem Valid.perform_refines {c : Records.Call} (hs : Valid s g) (hallowed : Allowed s c)
    (hregular : Regular s (.call t c)) (hrun : Runs (perform t c) s.world r w') :
    Refines s c.onBuffers r ⟨w', pointers s.live r c⟩ := by
  cases c with
  | malloc size => exact hs.make_refines (malloc_spec hs.inv hs.loose hs.thp hrun)
  | calloc nmemb size => exact hs.calloc_refines hrun
  | realloc ptr size =>
    by_cases hptr : ptr = 0
    · subst hptr
      rw [perform, realloc, CInterface.realloc, if_pos rfl] at hrun
      have hmake := hs.make_refines (malloc_spec hs.inv hs.loose hs.thp hrun)
      have hnull : update s.live 0 none = s.live := by
        rw [← hs.null]
        exact update_eq_self ..
      have hpointers : pointers s.live r (.realloc 0 size) = adopt s.live r size := by
        rw [pointers, hnull]
        split
        · rename_i hand
          rw [adopt, if_pos hand.1]
        · rfl
      rwa [Records.Call.onBuffers, if_pos rfl, hpointers]
    · obtain ⟨old, hlive⟩ := Option.isSome_iff_exists.mp (hallowed.resolve_left hptr)
      rw [Records.Call.onBuffers, if_neg hptr]
      exact hs.realloc_refines hlive hregular hrun
  | posixMemalign alignment size => exact hs.posixMemalign_refines hrun
  | free ptr =>
    obtain ⟨size, hlive⟩ := Option.isSome_iff_exists.mp hallowed
    exact hs.free_refines hlive hrun
  | usableSize ptr =>
    obtain ⟨size, hlive⟩ := Option.isSome_iff_exists.mp hallowed
    obtain ⟨h, hp⟩ := hs.header ptr size hlive
    obtain ⟨_, rfl⟩ := hrun.unique (hp.usable hs.inv)
    exact ⟨⟨g, hs⟩, .looked ptr r⟩
  | write ptr i value =>
    obtain ⟨size, hlive, hi⟩ := (Option.any_eq_true ..).mp hallowed
    exact hs.write_refines hlive (of_decide_eq_true hi) hrun

/-- The calls of the heap that an action is, with their answers: one for a call of the user,
and none for the rest. -/
def events (s : State) : Action → List (Buffers.Call ℕ UInt8 × ℕ)
  | .call t c => ((outcome (perform t c) s.world).map fun (r, _) => (c.onBuffers, r)).toList
  | _ => []

def history (s : State) : List Action → List (Buffers.Call ℕ UInt8 × ℕ)
  | [] => []
  | a :: rest =>
    match step s a with
    | none => []
    | some s' => events s a ++ history s' rest

/-- One action, as a history of at most one call. -/
theorem Valid.step_trace {a : Action} (hs : Valid s g) (hregular : Regular s a)
    (hstep : step s a = some s') :
    (∃ g', Valid s' g') ∧ Trace 0 0 (contents s) (events s a) (contents s') := by
  cases a with
  | call t c =>
    rw [step] at hstep
    split at hstep
    · rename_i hallowed
      obtain ⟨⟨r, w'⟩, hrun, rfl⟩ := Option.map_eq_some_iff.mp hstep
      obtain ⟨hvalid, hbuffers⟩ :=
        hs.perform_refines hallowed hregular (outcome_eq_some.mp hrun)
      refine ⟨hvalid, ?_⟩
      rw [events, hrun]
      exact .cons hbuffers (.nil _)
    · contradiction
  | trim pad =>
    obtain ⟨⟨r, w'⟩, hrun, rfl⟩ := Option.map_eq_some_iff.mp hstep
    obtain ⟨g', hreach⟩ := GTrim.trim_spec hs.inv hs.loose (outcome_eq_some.mp hrun)
    obtain ⟨hvalid, hcontents⟩ := hs.silent hreach
    refine ⟨⟨g', hvalid⟩, ?_⟩
    rw [hcontents]
    exact .nil _
  | cleanup t =>
    obtain ⟨⟨u, w'⟩, hrun, rfl⟩ := Option.map_eq_some_iff.mp hstep
    obtain ⟨g', hinv, hno, hframe, _⟩ :=
      cleanupThreadCache_spec hs.inv hs.loose (outcome_eq_some.mp hrun)
    obtain ⟨hvalid, hcontents⟩ := hs.loses _ hinv hno hframe
    refine ⟨⟨g', hvalid⟩, ?_⟩
    rw [hcontents]
    exact .nil _
  | observe stamp pressure =>
    obtain rfl := Option.some.inj hstep
    have hreach : Reaches s.world g
        { s.world with currentStamp := stamp, lastPressureCheck := pressure } g ∅ := by
      refine ⟨?_, hs.loose, frame_of_eq rfl rfl rfl id id fun _ => ⟨rfl, rfl⟩⟩
      exact hs.inv.statics rfl rfl rfl rfl rfl rfl (Or.inl ⟨rfl, rfl⟩) hs.inv.boot
    obtain ⟨hvalid, hcontents⟩ := hs.silent hreach
    refine ⟨⟨g, hvalid⟩, ?_⟩
    rw [hcontents]
    exact .nil _

theorem Valid.run_trace {actions : List Action} (hs : Valid s g)
    (hok : Guarded step Regular s actions) (hrun : run step s actions = some s') :
    (∃ g', Valid s' g') ∧ Trace 0 0 (contents s) (history s actions) (contents s') := by
  induction actions generalizing s g with
  | nil =>
    obtain rfl : s = s' := Option.some.inj hrun
    exact ⟨⟨g, hs⟩, .nil _⟩
  | cons a rest ih =>
    obtain ⟨s₁, hstep, hrest⟩ := run_cons hrun
    obtain ⟨⟨g₁, hs₁⟩, hfirst⟩ := hs.step_trace hok.1 hstep
    obtain ⟨hvalid, htrace⟩ := ih hs₁ (hok.2 s₁ hstep) hrest
    rw [history, hstep]
    exact ⟨hvalid, hfirst.append htrace⟩

/-- The process refines the heap of buffers. -/
theorem process_refines_buffers (env : Env) (henv : env.forceThp ≠ some 1) (sys : ℕ → ℕ)
    (actions : List Action) (s : State) (hok : Guarded step Regular (initial env sys) actions)
    (hrun : run step (initial env sys) actions = some s) :
    Trace 0 0 (fun _ => none) (history (initial env sys) actions) (contents s) :=
  ((valid_initial henv).run_trace hok hrun).2

/-- One thread allocates a block and writes to it, another one grows it where it is and
frees it after the cache of the first one has been cleaned up. -/
def handedOver : List Action :=
  [.call 0 (.malloc 9000), .call 0 (.write 4294971440 3 7), .call 1 (.realloc 4294971440 20000),
    .cleanup 0, .trim 0, .call 1 (.posixMemalign 64 9000), .call 1 (.free 4294971440)]

theorem handedOver_result :
    (run step (initial ⟨none, none, 1⟩ SlabConservation.grantAll) handedOver).isSome = true ∧
      history (initial ⟨none, none, 1⟩ SlabConservation.grantAll) handedOver =
        [(.make 9000, 4294971440), (.put 4294971440 3 7, 0),
          (.resize 4294971440 20000, 4294971440), (.make 9000, 4295000128),
          (.drop 4294971440, 0)] := by
  decide +kernel

theorem process_refines_buffers_handedOver :
    ∃ s, run step (initial ⟨none, none, 1⟩ SlabConservation.grantAll) handedOver = some s ∧
      Trace 0 0 (fun _ => none) [(.make 9000, 4294971440), (.put 4294971440 3 7, 0),
        (.resize 4294971440 20000, 4294971440), (.make 9000, 4295000128),
        (.drop 4294971440, 0)] (contents s) := by
  obtain ⟨s, hrun⟩ := Option.isSome_iff_exists.mp handedOver_result.1
  refine ⟨s, hrun, ?_⟩
  rw [← handedOver_result.2]
  exact process_refines_buffers ⟨none, none, 1⟩ (by decide) SlabConservation.grantAll handedOver s
    (by decide +kernel) hrun

end Runs

end Oxidalloc.Process
