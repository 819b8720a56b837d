import Oxidalloc.AlignTo
import Oxidalloc.Carving

/-!
`bulk_fill` turns pages of the bitmap into free blocks. Every call keeps the invariant,
takes nothing from the user and leaves no block loose, whether it carves more of the
pending slab, makes a new slab, or fails to map one and gives the pages back.
-/
namespace Oxidalloc

open ByteMemory HeadPacking LinkedChain Programs VaBitmap Function

section Kernel

variable {w w' : World} {g : Layout}

theorem mmapFixed_spec {addr len : ℕ} {r : Bool} (hwf : Wf w.va)
    (h : Runs (mmapFixed addr len) w r w') :
    ∃ w₁, SameHeap w w₁ ∧ ((r = false ∧ w' = w₁) ∨
      (r = true ∧ addr % 4096 = 0 ∧
        w' = { w₁ with mem := fill w.mem addr (pagesOf len * 4096) 0 })) := by
  rw [mmapFixed, runs_bind] at h
  obtain ⟨answer, w₁, hdraw, h⟩ := h
  have hs := draw_sameHeap hwf hdraw
  split at h
  · obtain ⟨hr, hw'⟩ := runs_pure.mp h
    exact ⟨w₁, hs, Or.inl ⟨hr, hw'⟩⟩
  · rename_i hok
    rw [runs_modify_bind] at h
    obtain ⟨hr, hw'⟩ := runs_pure.mp h
    refine ⟨{ w₁ with access := w'.access }, hs.trans ?_, Or.inr ⟨hr, by omega, ?_⟩⟩
    · exact ⟨sameCaches_update .., rfl, Keeps.refl hs.va.wf, rfl⟩
    · rw [hw', hs.mem]

theorem madvise_spec {addr len : ℕ} {advice : Advice} {r : Bool} (hwf : Wf w.va)
    (h : Runs (madvise addr len advice) w r w') :
    ∃ w₁, SameHeap w w₁ ∧ (w' = w₁ ∨
      (advice = .dontNeed ∧ addr % 4096 = 0 ∧
        w' = { w₁ with mem := fill w.mem addr (pagesOf len * 4096) 0 })) := by
  rw [madvise, runs_bind] at h
  obtain ⟨answer, w₁, hdraw, h⟩ := h
  have hs := draw_sameHeap hwf hdraw
  refine ⟨w₁, hs, ?_⟩
  split at h
  · exact Or.inl (runs_pure.mp h).2
  · rename_i hok
    cases advice with
    | dontNeed =>
      rw [runs_modify_bind] at h
      refine Or.inr ⟨rfl, by omega, ?_⟩
      rw [(runs_pure.mp h).2, hs.mem]
    | hugepage => exact Or.inl (runs_pure.mp h).2
    | normal => exact Or.inl (runs_pure.mp h).2

end Kernel

section FreeBytes

variable {w : World} {g : Layout} {m' : Memory}

theorem Inv.writeFree (hinv : Inv w g) (hm : ∀ x, g.own x ≠ .free → m' x = w.mem x) :
    Inv { w with mem := m' } g := by
  refine hinv.writeBytes fun x hx => hm x ?_
  rcases hx with ⟨h, hown, _⟩ | ⟨b, hown⟩
  · rw [hown]
    exact nofun
  · rw [hown]
    exact nofun

theorem frame_write
    (hm : ∀ h x, g.place h = some .held → g.own x = .block h → m' x = w.mem x) :
    Frame w g { w with mem := m' } g ∅ where
  held := fun _ _ => Iff.rfl
  bytes := fun h x _ hheld hown => ⟨hown, hm h x hheld hown⟩
  big := fun _ _ => rfl
  booted := id
  thp := id
  placed := fun _ _ => id
  lost := rfl
  magics := fun _ => ⟨rfl, rfl⟩

end FreeBytes

section InitBlocks

variable {w w' : World} {g : Layout} {t cls b k : ℕ} {l : List ℕ}

theorem slots_succ (b cls k n : ℕ) :
    slots b cls k (n + 1) = slots b cls k n ++ [slot b cls (k + n)] := by
  unfold slots
  rw [List.range_succ, List.map_append, List.map_singleton]

theorem slots_nodup (b cls k n : ℕ) : (slots b cls k n).Nodup := by
  unfold slots
  refine List.Nodup.map_on (fun i _ j _ heq => ?_) List.nodup_range
  have := slot_inj heq
  omega

theorem length_slots (b cls k n : ℕ) : (slots b cls k n).length = n := by
  unfold slots
  rw [List.length_map, List.length_range]

theorem remainingBlocks_eq (ha : Area w g t cls b k) :
    remainingBlocks w.mem b (payload cls + 16) = slabBlocks cls - k := by
  have hle := ha.le
  have hsplit : slot b cls (slabBlocks cls) =
      slot b cls k + (slabBlocks cls - k) * (payload cls + 16) := by
    rw [← slot_add]
    congr 1
    omega
  unfold remainingBlocks
  rw [ha.next, ha.stop, hsplit, Nat.add_sub_cancel_left, Nat.mul_div_cancel _ (by omega)]

/-- The loop of `init_blocks` in terms of the slots of a slab. -/
theorem carve_slots {n stamp head tail : ℕ} {m : Memory} (hinv : Inv w g)
    (ha : Area w g t cls b k) (hn : 0 < n) (hk : k + n ≤ slabBlocks cls)
    (hcarve : carve cls (slot b cls k) (payload cls + 16) w.freedMagic stamp n w.mem 0 0 =
      (m, head, tail)) :
    Linked 0 (OxHeader.next m) head (slots b cls k n) 0 ∧
      (∀ h ∈ slots b cls k n, OxHeader.cls m h = cls ∧ OxHeader.magic m h = w.freedMagic ∧
        16 ∣ OxHeader.next m h) ∧
      (∀ x, x < slot b cls k ∨ slot b cls (k + n) ≤ x → m x = w.mem x) ∧
      tail = slot b cls (k + (n - 1)) := by
  have hlt : slot b cls k + n * (payload cls + 16) < usizeBound := by
    rw [← slot_add]
    exact Nat.lt_of_le_of_lt (Nat.le_trans (slot_le hk) (slot_end b cls))
      (hinv.wf.end_lt_of_fits ha.fits)
  have hb0 := hinv.wf.addr_ne_zero ha.fits
  have hne : slot b cls k ≠ 0 := by
    unfold slot
    omega
  have hpay := payload_bounds ha.cls_lt
  have hbs16 : 16 ∣ payload cls + 16 := Nat.dvd_add hpay.1 (by decide)
  have hb : b % 4096 = 0 := ha.fits.1
  have hbase16 : 16 ∣ slot b cls k := by
    unfold slot
    exact Nat.dvd_add (Nat.dvd_add (by omega) (by decide)) (Nat.dvd_mul_left_of_dvd hbs16 k)
  have hcls : cls < 256 := Nat.lt_trans ha.cls_lt (by decide)
  have hspec := @carve_spec cls (slot b cls k) (payload cls + 16) stamp 0 0
    w.freedMagic w.mem [] n (Nat.le_add_left 16 _) hbs16 hne hbase16 hcls hlt (by decide)
    (Nat.dvd_zero 16) rfl nofun
  rw [hcarve, List.append_nil] at hspec
  obtain ⟨hlinked, hfields, helse, htail⟩ := hspec
  have hslots : (List.range n).map (fun i => slot b cls k + i * (payload cls + 16)) =
      slots b cls k n := List.map_congr_left fun i _ => (slot_add b cls k i).symm
  rw [hslots] at hlinked
  rw [← slot_add] at helse
  refine ⟨hlinked, fun h hh => ?_, helse, ?_⟩
  · obtain ⟨i, hki, hin, hs⟩ := mem_slots.mp hh
    have hi : slot b cls i = slot b cls k + (i - k) * (payload cls + 16) := by
      rw [← slot_add, Nat.add_sub_cancel' hki]
    rw [hs, hi]
    exact hfields (i - k) (by omega)
  · rw [slot_add]
    exact htail.trans (if_pos ⟨rfl, hn⟩)

/-- The metadata lies below all slots, so its update changes no header. -/
theorem setNext_header {m : Memory} {v h n : ℕ} (hh : h ∈ slots b cls k n) :
    ∀ x, h ≤ x → x < h + 16 → MetaData.setNext m b v x = m x := by
  intro x hlo _
  obtain ⟨i, _, _, hs⟩ := mem_slots.mp hh
  have hstart : b + 32 ≤ h := by
    rw [hs, slot]
    exact Nat.le_add_right _ _
  exact MetaData.setNext_elsewhere (by omega)

theorem carves_of_carve {n stamp head tail : ℕ} {m : Memory} (hinv : Inv w g)
    (ha : Area w g t cls b k) (hn : 0 < n) (hk : k + n ≤ slabBlocks cls)
    (hpending : w.pendingOf t cls = b ∨ w.pendingOf t cls = 0)
    (hcarve : carve cls (slot b cls k) (payload cls + 16) w.freedMagic stamp n w.mem 0 0 =
      (m, head, tail)) :
    Carves w g (MetaData.setNext m b (slot b cls (k + n))) t cls b k n ∧
      Linked 0 (OxHeader.next (MetaData.setNext m b (slot b cls (k + n)))) head
        (slots b cls k n) 0 ∧
      tail = slot b cls (k + (n - 1)) := by
  obtain ⟨hlinked, hfields, helse, htail⟩ := carve_slots hinv ha hn hk hcarve
  have hstart : b + 32 ≤ slot b cls k := by
    rw [slot]
    exact Nat.le_add_right _ _
  have hlt : slot b cls (k + n) < usizeBound :=
    Nat.lt_of_le_of_lt (Nat.le_trans (slot_le hk) (slot_end b cls))
      (hinv.wf.end_lt_of_fits ha.fits)
  refine ⟨⟨ha, hn, hk, hpending, ?_, ?_, MetaData.next_setNext hlt, ?_⟩, ?_, htail⟩
  · intro x hmeta hrange
    rw [MetaData.setNext, store_of_not_mem (by omega)]
    exact helse x hrange
  · rw [MetaData.stop_setNext]
    exact (MetaData.fields_congr fun x _ hhi => helse x (by omega)).2
  · intro h hh
    obtain ⟨hnext, hclass, hmagic⟩ := OxHeader.fields_congr (setNext_header hh)
    rw [hnext, hclass, hmagic]
    exact hfields h hh
  · exact hlinked.congr fun h hh => (OxHeader.fields_congr (setNext_header hh)).1

/-- `init_blocks` carves as many blocks as it may, and none only if none is left. The
blocks are linked in the order of their addresses. -/
theorem initBlocks_linked {r : ℕ × ℕ × ℕ} {maxBlocks : ℕ} (hinv : Inv w g)
    (ha : Area w g t cls b k) (hpending : w.pendingOf t cls = b ∨ w.pendingOf t cls = 0)
    (hmax : 0 < maxBlocks) (h : Runs (initBlocks cls b (payload cls + 16) maxBlocks) w r w') :
    (r.2.2 = 0 ∧ w' = w ∧ k = slabBlocks cls) ∨
      (r.2.2 = min (slabBlocks cls - k) maxBlocks ∧ 0 < r.2.2 ∧ ∃ m', w' = { w with mem := m' } ∧
        Carves w g m' t cls b k r.2.2 ∧
        Linked 0 (OxHeader.next m') r.1 (slots b cls k r.2.2) 0 ∧
        r.2.1 = slot b cls (k + (r.2.2 - 1))) := by
  rw [initBlocks, runs_get_bind] at h
  dsimp only at h
  rw [remainingBlocks_eq ha, ha.next] at h
  have hle := ha.le
  split at h
  · rename_i hnone
    obtain ⟨hr, hw'⟩ := runs_pure.mp h
    rw [hr]
    exact Or.inl ⟨rfl, hw', by omega⟩
  · rename_i hsome
    rw [runs_set_bind] at h
    obtain ⟨hr, hw'⟩ := runs_pure.mp h
    have hcount : 0 < min (slabBlocks cls - k) maxBlocks := by omega
    have hbound : k + min (slabBlocks cls - k) maxBlocks ≤ slabBlocks cls := by omega
    generalize min (slabBlocks cls - k) maxBlocks = n at hr hw' hcount hbound ⊢
    obtain ⟨m, head, tail, hcarve⟩ : ∃ m head tail, carve cls (slot b cls k) (payload cls + 16)
        w.freedMagic w.currentStamp n w.mem 0 0 = (m, head, tail) := ⟨_, _, _, rfl⟩
    rw [hcarve] at hr hw'
    obtain ⟨hc, hlinked, htail⟩ := carves_of_carve hinv ha hcount hbound hpending hcarve
    rw [← slot_add] at hw'
    rw [hr]
    exact Or.inr ⟨rfl, hcount, _, hw', hc, hlinked, htail⟩

theorem initBlocks_carve {r : ℕ × ℕ × ℕ} {maxBlocks : ℕ} (hinv : Inv w g)
    (ha : Area w g t cls b k) (hpending : w.pendingOf t cls = b ∨ w.pendingOf t cls = 0)
    (hl : LooseAre g cls l) (hmax : 0 < maxBlocks)
    (h : Runs (initBlocks cls b (payload cls + 16) maxBlocks) w r w') :
    (r.2.2 = 0 ∧ w' = w ∧ k = slabBlocks cls) ∨
      (r.2.2 = min (slabBlocks cls - k) maxBlocks ∧ 0 < r.2.2 ∧ ∃ m' m, w' = { w with mem := m' } ∧
        Carves w g m' t cls b k r.2.2 ∧ Batch w' (g.carve cls b k r.2.2) cls r.1 m r.2.1 l ∧
        m ++ [r.2.1] = slots b cls k r.2.2) := by
  rcases initBlocks_linked hinv ha hpending hmax h with
    hnone | ⟨hmin, hcount, m', hw', hc, hlinked, htail⟩
  · exact Or.inl hnone
  · have hsplit : slots b cls k (r.2.2 - 1) ++ [r.2.1] = slots b cls k r.2.2 := by
      rw [htail, ← slots_succ, Nat.sub_add_cancel hcount]
    obtain ⟨hloose, hdisjoint⟩ := hc.looseAre hinv hl
    refine Or.inr ⟨hmin, hcount, m', slots b cls k (r.2.2 - 1), hw', hc, ?_, hsplit⟩
    rw [hw']
    refine ⟨?_, ⟨0, ?_⟩, ?_, ?_⟩
    · rw [hsplit]
      exact hloose
    · rw [hsplit]
      exact hlinked
    · rw [hsplit]
      exact slots_nodup b cls k r.2.2
    · rw [hsplit]
      exact hdisjoint

theorem initBlocks_spec {r : ℕ × ℕ × ℕ} {maxBlocks : ℕ} (hinv : Inv w g)
    (ha : Area w g t cls b k) (hpending : w.pendingOf t cls = b ∨ w.pendingOf t cls = 0)
    (hbooted : w.booted = true) (hl : LooseAre g cls l) (hmax : 0 < maxBlocks)
    (h : Runs (initBlocks cls b (payload cls + 16) maxBlocks) w r w') :
    (r.2.2 = 0 ∧ w' = w ∧ k = slabBlocks cls) ∨
      (0 < r.2.2 ∧ ∃ m' g' m, w' = { w with mem := m' } ∧ Inv w' g' ∧ Frame w g w' g' ∅ ∧
        Area w' g' t cls b (k + r.2.2) ∧ Batch w' g' cls r.1 m r.2.1 l ∧
        m ++ [r.2.1] = slots b cls k r.2.2) := by
  rcases initBlocks_carve hinv ha hpending hl hmax h with
    hnone | ⟨_, hpos, m', m, hw', hc, hbatch, hsplit⟩
  · exact Or.inl hnone
  · refine Or.inr ⟨hpos, m', _, m, hw', ?_, ?_, ?_, hbatch, hsplit⟩
    · rw [hw']
      exact hinv.carve hc hbooted
    · rw [hw']
      exact hc.frame hinv
    · rw [hw']
      exact hc.area_rest

end InitBlocks

section BulkFill

variable {w w' : World} {g : Layout} {t cls : ℕ} {l : List ℕ}

/-- The two sizes that `bulk_fill` and `drain_pending` begin with. -/
theorem runs_sizes_bind {σ α : Type} {f : ℕ → ℕ → Program Halt σ α} {s s' : σ} {a : α}
    (h : Runs (do
      let payloadSize ← attempt (index sizeClasses cls)
      let blockSize ← attempt (alignTo (payloadSize + headerSize) 16)
      f payloadSize blockSize) s a s') :
    cls < 34 ∧ Runs (f (payload cls) (payload cls + 16)) s a s' := by
  obtain ⟨payloadSize, hindex, hrest⟩ := runs_attempt_bind.mp h
  obtain ⟨hcls, hpayload⟩ := index_sizeClasses.mp hindex
  subst hpayload
  obtain ⟨blockSize, hblock, hrun⟩ := runs_attempt_bind.mp hrest
  have hsize := Except.ok.inj (hblock.symm.trans (alignTo_payload hcls))
  rw [hsize] at hrun
  exact ⟨hcls, hrun⟩

theorem maxInit_pos (blockSize : ℕ) : 0 < maxInit blockSize := by
  unfold maxInit
  split <;> omega

theorem handOut_spec {u : Unit} {head tail count : ℕ} {m : List ℕ} (hinv : Inv w g)
    (hbatch : Batch w g cls head m tail l) (hcount : count = (m ++ [tail]).length)
    (h : Runs (handOut t cls head tail count) w u w') : Leaves w g w' cls l := by
  rw [handOut, runs_bind] at h
  obtain ⟨e, w₁, he, h⟩ := h
  obtain ⟨_, hw₁⟩ := runs_engine.mp he
  subst hw₁
  obtain ⟨bin, _, h⟩ := runs_attempt_bind.mp h
  obtain ⟨limit, _, h⟩ := runs_attempt_bind.mp h
  split at h
  · exact tryPush_spec hinv hbatch hcount h
  · exact pushToThreadTailed_spec hinv hbatch hcount h

theorem runs_setPending {u : Unit} {v : ℕ} (h : Runs (setPending t cls v) w u w') :
    ∃ e, w.engines t = some e ∧
      w' = { w with engines := update w.engines t (some (e.setPending cls v)) } := by
  rw [setPending, runs_bind] at h
  obtain ⟨e, w₁, he, h⟩ := h
  obtain ⟨he, hw₁⟩ := runs_engine.mp he
  subst hw₁
  exact ⟨e, he, runs_modify.mp h⟩

theorem pendingOf_setPending {e : ThreadLocalEngine} {v : ℕ} :
    World.pendingOf
      { w with engines := update w.engines t (some (e.setPending cls v)) } t cls = v := by
  unfold World.pendingOf
  simp only [update_self, ThreadLocalEngine.setPending]

/-- An operation of the allocator itself: nothing changes for the user, and no block is
left loose. -/
def Settles (w : World) (g : Layout) (w' : World) (cls : ℕ) : Prop :=
  ∃ g', Inv w' g' ∧ Frame w g w' g' ∅ ∧ LooseAre g' cls []

theorem Frame.settles {w₁ : World} {g₁ : Layout} (h : Frame w g w₁ g₁ ∅)
    (h' : Settles w₁ g₁ w' cls) : Settles w g w' cls := by
  obtain ⟨g', hinv, hframe, hloose⟩ := h'
  exact ⟨g', hinv, h.trans hframe, hloose⟩

/-- The mapping has failed: the pages of the slab are given back. -/
theorem unmapped_settles {va₁ va' : VaBitmap} {hint n : ℕ} {w₁ : World} (hinv : Inv w g)
    (hclaims : Claims w.va hint n va₁) (hs : SameHeap { w with va := va₁ } w₁)
    (hreleases : Releases w₁.va hint n va') (hl : LooseAre g cls []) :
    Settles w g { w₁ with va := va' } cls := by
  have hinv₁ := (hinv.claims hclaims).sameHeap hs
  refine ⟨g, hinv₁.setVa hreleases.wf hreleases.grows fun x hx => ?_, ?_, hl⟩
  · refine (hreleases.taken _).mpr ⟨hinv₁.taken x hx, fun hin => ?_⟩
    exact hclaims.free _ hin (hinv.taken x hx)
  · exact frame_va.trans (hs.frame.trans frame_va)

/-- All slots of a new slab are accounted for. -/
theorem newSlab_slabOk {b n : ℕ} (ha : Area w g t cls b n)
    (hplaced : ∀ h ∈ slots b cls 0 n, g.place h ≠ none ∧ OxHeader.cls w.mem h = cls)
    (hrest : n < slabBlocks cls → w.pendingOf t cls = b) (hb : b ≠ 0) : SlabOk w g b cls := by
  refine ⟨ha.cls_lt, ha.fits.1, ha.metaOwn, fun i hi => ?_⟩
  by_cases hin : i < n
  · obtain ⟨hplace, hclass⟩ := hplaced _ (mem_slots.mpr ⟨i, Nat.zero_le i, by omega, rfl⟩)
    exact Or.inl ⟨hplace, fun _ => hclass⟩
  · refine Or.inr (Or.inl ⟨t, hrest (by omega), hb, ?_⟩)
    rw [ha.next]
    exact slot_le (by omega)

/-- The pages of a new slab are mapped and its metadata is written. -/
theorem mapped_slab {va₁ : VaBitmap} {hint : ℕ} {w₁ : World} {m₁ : Memory} (hinv : Inv w g)
    (hcls : cls < 34) (hclaims : Claims w.va hint (slabPages cls) va₁)
    (hs : SameHeap { w with va := va₁ } w₁)
    (hm : ∀ x, x < hint ∨ hint + slabPages cls * 4096 ≤ x → m₁ x = w.mem x)
    (hnext : MetaData.next m₁ hint = slot hint cls 0)
    (hstop : MetaData.stop m₁ hint = slot hint cls (slabBlocks cls)) :
    Inv { w₁ with mem := m₁ } (g.reserve t cls hint) ∧
      Area { w₁ with mem := m₁ } (g.reserve t cls hint) t cls hint 0 ∧
      Frame w g { w₁ with mem := m₁ } (g.reserve t cls hint) ∅ := by
  have hfree : ∀ x, hint ≤ x → x < hint + slabPages cls * 4096 → g.own x = .free :=
    fun x hlo hhi => hinv.free_of_not_taken
      (hclaims.free _ (inPages_of_mem hclaims.fits.1 hlo hhi))
  have hm₁ : ∀ x, g.own x ≠ .free → m₁ x = w₁.mem x := by
    intro x hx
    rw [show w₁.mem = w.mem from hs.mem]
    apply hm x
    by_contra hin
    exact hx (hfree x (by omega) (by omega))
  have hinv₁ := ((hinv.claims hclaims).sameHeap hs).writeFree hm₁
  have htaken : ∀ q, InPages hint (slabPages cls) q → Taken w₁.va q := fun q hq =>
    (hs.va.taken q).mpr ((hclaims.taken q).mpr (Or.inr hq))
  obtain ⟨hinv₂, harea⟩ := @Inv.reserve { w₁ with mem := m₁ } g t cls hint hinv₁ hcls
    (hclaims.fits.extends hs.va.grows) htaken hfree hnext hstop
  refine ⟨hinv₂, harea, ?_⟩
  have hwrite : Frame w₁ g { w₁ with mem := m₁ } g ∅ :=
    frame_write fun h x _ hown => hm₁ x (by rw [hown]; exact nofun)
  exact frame_va.trans (hs.frame.trans (hwrite.trans (Layout.reserve_frame _ hfree)))

theorem blocksOf_slab {n : ℕ}
    (h : blocksOf (metaDataSize + (payload cls + 16) * slabBlocks cls) = .ok n) :
    n = slabPages cls :=
  (Segment.blocksOf_eq_ok.mp h).2

/-- The rest of a new slab stays with the thread, and the slab is noted. -/
theorem note_slab {b n : ℕ} {u : Unit} {w₁ : World} (hinv : Inv w g) (hl : LooseAre g cls [])
    (hb : b ≠ 0) (ha : Area w g t cls b n)
    (hplaced : ∀ h ∈ slots b cls 0 n, g.place h ≠ none ∧ OxHeader.cls w.mem h = cls)
    (hpending : w.pendingOf t cls = 0) (h : Runs (keepRest t cls b (payload cls + 16)) w u w₁) :
    Settles w g { w₁ with slabs := w₁.slabs.add b cls } cls := by
  rw [keepRest, runs_get_bind, remainingBlocks_eq ha] at h
  split at h
  · obtain ⟨e, he, hw₁⟩ := runs_setPending h
    subst hw₁
    have hinv₁ := hinv.setPending he (fun hne => absurd hpending hne) fun _ => ⟨n, ha⟩
    refine ⟨g, hinv₁.addSlab ?_, frame_of_eq rfl rfl rfl id id fun _ => ⟨rfl, rfl⟩, hl⟩
    exact newSlab_slabOk (ha.keep (Extends.refl w.va) rfl) hplaced
      (fun _ => pendingOf_setPending) hb
  · rename_i hnone
    have hw₁ := (runs_pure.mp h).2
    subst hw₁
    have hslab := newSlab_slabOk ha hplaced (fun hlt => absurd hlt (by omega)) hb
    exact ⟨g, hinv.addSlab hslab, frame_of_eq rfl rfl rfl id id fun _ => ⟨rfl, rfl⟩, hl⟩

theorem adviseSlab_sameHeap {hint payloadSize : ℕ} {u : Unit} (hwf : Wf w.va)
    (h : Runs (adviseSlab cls hint payloadSize) w u w') : SameHeap w w' := by
  rw [adviseSlab] at h
  split at h
  · rw [runs_bind] at h
    obtain ⟨_, w₁, hadvise, h⟩ := h
    obtain ⟨w₂, hs, hw₁⟩ := madvise_spec hwf hadvise
    rw [(runs_pure.mp h).2, hw₁.resolve_right fun hne => absurd hne.1 nofun]
    exact hs
  · rw [(runs_pure.mp h).2]
    exact SameHeap.refl hwf

theorem openSlab_spec {b : ℕ} {r : Bool} (hinv : Inv w g) (hl : LooseAre g cls [])
    (ha : Area w g t cls b 0) (hbooted : w.booted = true) (hpending : w.pendingOf t cls = 0)
    (h : Runs (openSlab t cls b (payload cls + 16)) w r w') : Settles w g w' cls := by
  rw [openSlab, runs_bind] at h
  obtain ⟨⟨head, tail, count⟩, w₁, hinit, h⟩ := h
  have hpos := (slabBlocks_bounds ha.cls_lt).1
  rcases initBlocks_spec hinv ha (Or.inr hpending) hbooted hl (maxInit_pos _) hinit with
    ⟨_, _, hnone⟩ | ⟨hcount, m', g₁, m, hw₁, hinv₁, hframe₁, harea₁, hbatch, hslots⟩
  · omega
  · dsimp only at hcount harea₁ hbatch hslots h
    rw [if_neg (by omega), runs_bind] at h
    obtain ⟨_, w₂, hhand, h⟩ := h
    have hlen : count = (m ++ [tail]).length := by rw [hslots, length_slots]
    obtain ⟨g₂, hinv₂, hstep, hl₂, _⟩ := handOut_spec hinv₁ hbatch hlen hhand
    rw [runs_bind] at h
    obtain ⟨_, w₃, hkeep, h⟩ := h
    rw [runs_modify_bind] at h
    rw [(runs_pure.mp h).2]
    refine hframe₁.settles (hstep.frame.settles ?_)
    have harea₂ := harea₁.cacheStep hstep
    rw [Nat.zero_add] at harea₂
    refine note_slab hinv₂ hl₂ (hinv.wf.addr_ne_zero ha.fits) harea₂ (fun h hh => ?_) ?_ hkeep
    · have hloose : g₁.place h = some (.loose cls) := hbatch.place (by rw [hslots]; exact hh)
      obtain ⟨hplace, hclass⟩ := hstep.blocks h (by rw [hloose]; exact nofun)
      exact ⟨hplace, hclass.trans (hinv₁.blocks h _ hloose).2.2.1⟩
    · rw [hstep.pending, hw₁]
      exact hpending

/-- The part of `newSlab` before the first blocks: the slab is mapped, or there is none. -/
def mapSlab (cls payloadSize blockSize numBlocks : ℕ) : OxM (Option ℕ) := do
  let total := metaDataSize + blockSize * numBlocks
  match ← onVa (VaBitmap.alloc total) with
  | none => throw (.abort .vaBitmapExhausted "VA bitmap exhausted | This is expected")
  | some hint => do
    if ← mmapFixed hint total then do
      modify fun w =>
        { w with mem := MetaData.write w.mem hint hint (hint + total) (hint + metaDataSize) }
      adviseSlab cls hint payloadSize
      pure (some hint)
    else do
      onVa (VaBitmap.free hint total)
      pure none

theorem newSlab_eq (t cls payloadSize blockSize numBlocks : ℕ) :
    newSlab t cls payloadSize blockSize numBlocks =
      mapSlab cls payloadSize blockSize numBlocks >>= fun found =>
        found.elim (pure false) fun hint => openSlab t cls hint blockSize := by
  simp only [newSlab, mapSlab, bind_assoc]
  refine bind_congr fun found => ?_
  cases found with
  | none => rfl
  | some hint =>
    simp only [bind_assoc]
    refine bind_congr fun mapped => ?_
    cases mapped <;> simp only [if_true, bind_assoc, pure_bind, Option.elim,
      Bool.false_eq_true, if_false]

/-- The pages of a new slab are the ones that were free, and all of it is still to carve. -/
theorem mapSlab_spec {r : Option ℕ} (hinv : Inv w g) (hl : LooseAre g cls []) (hcls : cls < 34)
    (hbooted : w.booted = true)
    (h : Runs (mapSlab cls (payload cls) (payload cls + 16) (slabBlocks cls)) w r w') :
    (∀ t' cls', w'.pendingOf t' cls' = w.pendingOf t' cls') ∧ w'.booted = true ∧
      ((r = none ∧ Settles w g w' cls) ∨
        ∃ hint, r = some hint ∧ Inv w' (g.reserve t cls hint) ∧
          Area w' (g.reserve t cls hint) t cls hint 0 ∧
          Frame w g w' (g.reserve t cls hint) ∅) := by
  rw [mapSlab, runs_bind] at h
  obtain ⟨found, w₁, halloc, h⟩ := h
  obtain ⟨va₁, halloc, hw₁⟩ := runs_onVa.mp halloc
  have htotal : metaDataSize + (payload cls + 16) * slabBlocks cls ≠ 0 := by
    unfold metaDataSize
    omega
  obtain ⟨n, hn, hresult⟩ := alloc_result hinv.wf htotal halloc
  have hpages := blocksOf_slab hn
  subst hpages hw₁
  cases found with
  | none => exact absurd h runs_throw
  | some hint =>
    have hclaims : Claims w.va hint (slabPages cls) va₁ := hresult
    rw [runs_bind] at h
    obtain ⟨mapped, w₂, hmap, h⟩ := h
    obtain ⟨w₃, hs, hmapped⟩ :=
      mmapFixed_spec (show Wf { w with va := va₁ }.va from hclaims.wf) hmap
    rcases hmapped with ⟨hfalse, hw₂⟩ | ⟨htrue, _, hw₂⟩
    · subst hfalse hw₂
      rw [if_neg Bool.false_ne_true, runs_bind] at h
      obtain ⟨_, w₄, hfree, h⟩ := h
      obtain ⟨va', hfree, hw₄⟩ := runs_onVa.mp hfree
      obtain ⟨hr, hw'⟩ := runs_pure.mp h
      rw [hw', hw₄]
      have hreleases := free_releases hs.va.wf htotal hn
        (hclaims.fits.extends hs.va.grows) hfree
      exact ⟨hs.pending, hs.booted.trans hbooted,
        Or.inl ⟨hr, unmapped_settles hinv hclaims hs hreleases hl⟩⟩
    · subst htrue hw₂
      rw [if_pos rfl, runs_modify_bind, runs_bind] at h
      obtain ⟨_, w₄, hadvise, h⟩ := h
      obtain ⟨hr, hw'⟩ := runs_pure.mp h
      have hend := hclaims.wf.end_lt_of_fits hclaims.fits
      have hlast := slot_end hint cls
      have hstop : hint + (metaDataSize + (payload cls + 16) * slabBlocks cls) =
          slot hint cls (slabBlocks cls) := by
        rw [slot, Nat.mul_comm (slabBlocks cls), metaDataSize, Nat.add_assoc]
      have hfirst : hint + metaDataSize = slot hint cls 0 := by
        rw [slot, Nat.zero_mul, metaDataSize]
      have hfirstLe := @slot_le hint cls 0 (slabBlocks cls) (Nat.zero_le _)
      rw [hstop, hfirst] at hadvise
      have hpos := slabPages_pos cls
      have hwritten : ∀ x, x < hint ∨ hint + slabPages cls * 4096 ≤ x →
          MetaData.write (fill w.mem hint (slabPages cls * 4096) 0) hint hint
            (slot hint cls (slabBlocks cls)) (slot hint cls 0) x = w.mem x := by
        intro x hx
        rw [MetaData.write_elsewhere (by omega), fill_of_not_mem (by omega)]
      obtain ⟨hinv₃, harea, hframe⟩ := mapped_slab (t := t) hinv hcls hclaims hs hwritten
        (MetaData.next_write (by omega)) (MetaData.stop_write (by omega))
      have hs₄ := adviseSlab_sameHeap hinv₃.wf hadvise
      rw [hw']
      refine ⟨fun t' cls' => (hs₄.pending t' cls').trans (hs.pending t' cls'),
        hs₄.booted.trans (hs.booted.trans hbooted), Or.inr ⟨hint, hr, hinv₃.sameHeap hs₄,
          harea.keep hs₄.va.grows hs₄.mem, hframe.trans hs₄.frame⟩⟩

theorem newSlab_spec {r : Bool} (hinv : Inv w g) (hl : LooseAre g cls []) (hcls : cls < 34)
    (hbooted : w.booted = true) (hpending : w.pendingOf t cls = 0)
    (h : Runs (newSlab t cls (payload cls) (payload cls + 16) (slabBlocks cls)) w r w') :
    Settles w g w' cls := by
  rw [newSlab_eq, runs_bind] at h
  obtain ⟨found, w₁, hmap, h⟩ := h
  obtain ⟨hpend, hbooted₁, hfound⟩ := mapSlab_spec (t := t) hinv hl hcls hbooted hmap
  rcases hfound with ⟨hnone, hsettles⟩ | ⟨hint, hsome, hinv₁, harea, hframe⟩
  · rw [hnone] at h
    rw [(runs_pure.mp h).2]
    exact hsettles
  · rw [hsome] at h
    exact hframe.settles
      (openSlab_spec hinv₁ hl harea hbooted₁ ((hpend t cls).trans hpending) h)

/-- A pending slab without blocks left is dropped, any other is kept. -/
theorem dropRest_spec {b k : ℕ} {u : Unit} (hinv : Inv w g) (hl : LooseAre g cls [])
    (ha : Area w g t cls b k) (hpending : w.pendingOf t cls = b)
    (h : Runs (dropRest t cls b (payload cls + 16)) w u w') : Settles w g w' cls := by
  rw [dropRest, runs_get_bind, remainingBlocks_eq ha] at h
  split at h
  · rename_i hnone
    obtain ⟨e, he, hw'⟩ := runs_setPending h
    have hend : k = slabBlocks cls := Nat.le_antisymm ha.le (Nat.le_of_sub_eq_zero hnone)
    rw [hw']
    refine ⟨g, hinv.setPending he (fun _ => ?_) (fun hne => absurd rfl hne),
      frame_of_eq rfl rfl rfl id id fun _ => ⟨rfl, rfl⟩, hl⟩
    rw [hpending, ← hend]
    exact ha
  · rw [(runs_pure.mp h).2]
    exact ⟨g, hinv, (SameHeap.refl hinv.wf).frame, hl⟩

theorem bulkFill_spec {r : Bool} (hinv : Inv w g) (hl : LooseAre g cls [])
    (hbooted : w.booted = true) (h : Runs (bulkFill t cls) w r w') : Settles w g w' cls := by
  rw [bulkFill] at h
  obtain ⟨hcls, h₁⟩ := runs_sizes_bind h
  obtain ⟨numBlocks, hcounted, h₂⟩ := runs_attempt_bind.mp h₁
  have hnum := (index_iterations.mp hcounted).2
  subst hnum
  clear h h₁
  rw [runs_bind] at h₂
  obtain ⟨e, w₁, hengine, h⟩ := h₂
  obtain ⟨he, hw₁⟩ := runs_engine.mp hengine
  subst hw₁
  dsimp only at h
  have hpending : w₁.pendingOf t cls = e.pending cls := by
    unfold World.pendingOf
    rw [he]
  split at h
  · rename_i hnone
    exact newSlab_spec hinv hl hcls hbooted (hpending.trans hnone) h
  · rename_i hsome
    rw [← hpending] at h hsome
    obtain ⟨k, ha⟩ := hinv.pendings t cls hsome
    rw [runs_bind] at h
    obtain ⟨⟨head, tail, count⟩, w₂, hinit, h⟩ := h
    rcases initBlocks_spec hinv ha (Or.inl rfl) hbooted hl (maxInit_pos _) hinit with
      ⟨hcount, hw₂, hend⟩ | ⟨hcount, m', g₂, m, hw₂, hinv₂, hframe₂, harea₂, hbatch, hslots⟩
    · -- the pending slab is used up
      dsimp only at hcount h
      rw [if_neg (by omega), runs_bind] at h
      obtain ⟨_, w₃, hdrop, h⟩ := h
      subst hw₂
      obtain ⟨e', he', hw₃⟩ := runs_setPending hdrop
      subst hw₃
      have hinv₃ := hinv.setPending he' (fun _ => hend ▸ ha) (fun hne => absurd rfl hne)
      obtain ⟨g', hinv', hframe, hl'⟩ :=
        newSlab_spec hinv₃ hl hcls hbooted pendingOf_setPending h
      refine ⟨g', hinv', Frame.trans ?_ hframe, hl'⟩
      exact frame_of_eq rfl rfl rfl id id fun _ => ⟨rfl, rfl⟩
    · dsimp only at hcount harea₂ hbatch hslots h
      rw [if_pos hcount, runs_bind] at h
      obtain ⟨_, w₃, hpush, h⟩ := h
      have hlen : count = (m ++ [tail]).length := by rw [hslots, length_slots]
      obtain ⟨g₃, hinv₃, hstep, hl₃, _⟩ := pushToThreadTailed_spec hinv₂ hbatch hlen hpush
      rw [runs_bind] at h
      obtain ⟨_, w₄, hdrop, h⟩ := h
      rw [(runs_pure.mp h).2]
      refine hframe₂.settles (hstep.frame.settles
        (dropRest_spec hinv₃ hl₃ (harea₂.cacheStep hstep) ?_ hdrop))
      rw [hstep.pending, hw₂]
      rfl

end BulkFill

end Oxidalloc
