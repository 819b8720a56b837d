import Oxidalloc.CarvingTrace
import Oxidalloc.SlabConservation
import Oxidalloc.ThreadExitSpec

/-!
How a slab is used up. A thread carves its pending slab in chunks, one for each call of
`bulk_fill` and a last one in `drain_pending`, and remembers where it stopped in the
metadata of the slab. The chunks are the consecutive parts of the slab: no block is left
out, none is made twice and none lies beyond the end, whatever else happens to the heap
between the calls.
-/
namespace Oxidalloc.SlabPartition

open ByteMemory GhostState Interleaving LinkedChain Programs

section Partition

/-- The blocks of a chunk, in the order in which they are linked. -/
def Chunk.headers (c : Chunk) : List ℕ := trail (OxHeader.next c.mem) c.count c.head

def Region.headers (r : Region) : List ℕ := r.chunks.flatMap Chunk.headers

/-- The next pointers lead through the blocks, upwards to the tail, and end there. -/
structure Chunk.Chained (c : Chunk) : Prop where
  linked : Linked 0 (OxHeader.next c.mem) c.head c.headers 0
  ascending : c.headers.Pairwise (· < ·)
  last : c.headers.getLast? = some c.tail

/-- The chunks of a slab are its first n blocks. -/
structure Partition (cls : ℕ) (r : Region) (n : ℕ) : Prop where
  le : n ≤ slabBlocks cls
  headers : r.headers =
    (List.range n).map fun i => r.base + metaDataSize + i * (payload cls + headerSize)
  once : r.headers.Nodup
  chained : ∀ c ∈ r.chunks, c.Chained
  stop : ∀ c ∈ r.chunks, MetaData.stop c.mem r.base =
    r.base + metaDataSize + slabBlocks cls * (payload cls + headerSize)

/-- A chunk that begins with block k of the slab. -/
structure ChunkAt (cls b k : ℕ) (c : Chunk) : Prop where
  pos : 0 < c.count
  le : k + c.count ≤ slabBlocks cls
  linked : Linked 0 (OxHeader.next c.mem) c.head (slots b cls k c.count) 0
  tail : c.tail = slot b cls (k + (c.count - 1))
  stop : MetaData.stop c.mem b = slot b cls (slabBlocks cls)

variable {cls b k n : ℕ} {c : Chunk} {r : Region}

theorem slots_ascending (b cls k n : ℕ) : (slots b cls k n).Pairwise (· < ·) := by
  apply List.pairwise_map.mpr
  apply List.Pairwise.imp _ List.pairwise_lt_range
  intro i j hij
  exact slot_lt (by omega)

theorem slots_append (b cls k n m : ℕ) :
    slots b cls k n ++ slots b cls (k + n) m = slots b cls k (n + m) := by
  simp only [slots, List.range_add, List.map_append, List.map_map]
  congr 1
  apply List.map_congr_left
  intro i _
  simp only [Function.comp_apply, Nat.add_assoc]

theorem ChunkAt.headers (h : ChunkAt cls b k c) : c.headers = slots b cls k c.count := by
  have htrail := h.linked.trail_eq
  rwa [length_slots] at htrail

theorem ChunkAt.chained (h : ChunkAt cls b k c) : c.Chained where
  linked := by
    rw [h.headers]
    exact h.linked
  ascending := by
    rw [h.headers]
    exact slots_ascending b cls k c.count
  last := by
    rw [h.headers, ← Nat.sub_add_cancel h.pos, slots_succ, List.getLast?_concat, h.tail]

theorem partition_nil (cls b : ℕ) : Partition cls ⟨b, []⟩ 0 where
  le := Nat.zero_le _
  headers := rfl
  once := List.nodup_nil
  chained := by simp
  stop := by simp

theorem partition_slots (h : Partition cls r n) : r.headers = slots r.base cls 0 n := by
  rw [h.headers, slots]
  simp only [slot, Nat.zero_add]
  rfl

/-- The next chunk begins where the last one has ended. -/
theorem Partition.add (h : Partition cls r n) (hc : ChunkAt cls r.base n c) :
    Partition cls (r.add c) (n + c.count) := by
  have hheaders : (r.add c).headers = slots r.base cls 0 (n + c.count) := by
    have hlast : (r.add c).headers = r.headers ++ c.headers := by
      simp [Region.headers, Region.add]
    rw [hlast, partition_slots h, hc.headers, ← slots_append, Nat.zero_add]
  refine ⟨hc.le, ?_, ?_, fun c' hc' => ?_, fun c' hc' => ?_⟩
  · rw [hheaders, slots]
    simp only [slot, Nat.zero_add]
    rfl
  · rw [hheaders]
    exact slots_nodup _ _ _ _
  · rcases List.mem_append.mp hc' with hold | hnew
    · exact h.chained c' hold
    · rw [List.mem_singleton.mp hnew]
      exact hc.chained
  · rcases List.mem_append.mp hc' with hold | hnew
    · exact h.stop c' hold
    · rw [List.mem_singleton.mp hnew]
      exact hc.stop

end Partition

section Carving

variable {w w' : World} {g : Layout} {t cls b k n : ℕ} {regions regions' older : List Region}

/-- Where the thread stands with a slab of which n blocks have been made: the slab is
pending as long as there are more. -/
def Stands (w : World) (t cls b n : ℕ) : Prop :=
  (w.pendingOf t cls = b ∧ b ≠ 0 ∧ n < slabBlocks cls ∧ MetaData.next w.mem b = slot b cls n) ∨
    (w.pendingOf t cls = 0 ∧ n = slabBlocks cls)

theorem tracedInitBlocks_runs {metadata blockSize maxBlocks : ℕ} {r : ℕ × ℕ × ℕ}
    {s : World × List Region}
    (h : Runs (tracedInitBlocks cls metadata blockSize maxBlocks) (w, regions) r s) :
    ∃ w', Runs (initBlocks cls metadata blockSize maxBlocks) w r w' ∧
      s = (w', addChunk ⟨r.1, r.2.1, r.2.2, w'.mem⟩ regions) := by
  rw [tracedInitBlocks, runs_quietly_bind] at h
  obtain ⟨⟨head, tail, count⟩, w₁, hinit, h⟩ := h
  rw [runs_quietly_bind] at h
  obtain ⟨w₂, w₃, hget, h⟩ := h
  obtain ⟨hw₂, hw₃⟩ := runs_get.mp hget
  rw [hw₂, hw₃, runs_record_bind] at h
  obtain ⟨hr, hs⟩ := runs_pure.mp h
  rw [hr, hs]
  exact ⟨w₁, hinit, rfl⟩

/-- `init_blocks` on a slab with blocks left: what it returns is the next chunk, and the
blocks are in the hands of the caller. -/
theorem initBlocks_advances {maxBlocks head tail count : ℕ} (hinv : Inv w g) (hno : NoLoose g)
    (hbooted : w.booted = true) (ha : Area w g t cls b k)
    (hpending : w.pendingOf t cls = b ∨ w.pendingOf t cls = 0) (hk : k < slabBlocks cls)
    (hmax : 0 < maxBlocks)
    (h : Runs (initBlocks cls b (payload cls + 16) maxBlocks) w (head, tail, count) w') :
    count = min (slabBlocks cls - k) maxBlocks ∧ ChunkAt cls b k ⟨head, tail, count, w'.mem⟩ ∧
      w'.pendingOf t cls = w.pendingOf t cls ∧ w'.booted = true ∧
      ∃ g' m, Inv w' g' ∧ Area w' g' t cls b (k + count) ∧ Batch w' g' cls head m tail [] ∧
        count = (m ++ [tail]).length := by
  have hl : LooseAre g cls [] := looseAre_nil.mpr hno
  rcases initBlocks_linked hinv ha hpending hmax h with
    ⟨_, _, hend⟩ | ⟨hcount, hpos, m', hw', hc, hlinked, htail⟩
  · omega
  · rcases initBlocks_spec hinv ha hpending hbooted hl hmax h with
      ⟨_, _, hend⟩ | ⟨_, _, g', m, _, hinv', hframe, harea, hbatch, hslots⟩
    · omega
    · refine ⟨hcount, ?_, ?_, hframe.booted hbooted, g', m, hinv', harea, hbatch, ?_⟩
      · rw [hw']
        exact ⟨hpos, hc.le, hlinked, htail, hc.stop.trans ha.stop⟩
      · rw [hw']
        rfl
      · rw [hslots, length_slots]

theorem pendingOf_setPending_world {v : ℕ} {u : Unit} (h : Runs (setPending t cls v) w u w') :
    w'.pendingOf t cls = v ∧ w'.mem = w.mem := by
  obtain ⟨e, _, hw'⟩ := runs_setPending h
  rw [hw']
  exact ⟨pendingOf_setPending, rfl⟩

/-- The new slab is noted as pending if it has blocks left. -/
theorem keepRest_stands {u : Unit} (ha : Area w g t cls b n) (hb : b ≠ 0)
    (hpending : w.pendingOf t cls = 0)
    (h : Runs (keepRest t cls b (payload cls + 16)) w u w') : Stands w' t cls b n := by
  rw [keepRest, runs_get_bind, remainingBlocks_eq ha] at h
  have hle := ha.le
  split at h
  · obtain ⟨hset, hmem⟩ := pendingOf_setPending_world h
    refine Or.inl ⟨hset, hb, by omega, ?_⟩
    rw [hmem]
    exact ha.next
  · rw [(runs_pure.mp h).2]
    exact Or.inr ⟨hpending, by omega⟩

/-- The pending slab is forgotten if it has no blocks left. -/
theorem dropRest_stands {u : Unit} (ha : Area w g t cls b n) (hb : b ≠ 0)
    (hpending : w.pendingOf t cls = b)
    (h : Runs (dropRest t cls b (payload cls + 16)) w u w') : Stands w' t cls b n := by
  rw [dropRest, runs_get_bind, remainingBlocks_eq ha] at h
  have hle := ha.le
  split at h
  · exact Or.inr ⟨(pendingOf_setPending_world h).1, by omega⟩
  · rw [(runs_pure.mp h).2]
    exact Or.inl ⟨hpending, hb, by omega, ha.next⟩

theorem tracedOpenSlab_stands {r : Bool} (hinv : Inv w g) (hno : NoLoose g)
    (ha : Area w g t cls b 0) (hbooted : w.booted = true) (hpending : w.pendingOf t cls = 0)
    (h : Runs (tracedOpenSlab t cls b (payload cls + 16)) (w, regions) r (w', regions')) :
    ∃ c, regions' = ⟨b, [c]⟩ :: regions ∧ ChunkAt cls b 0 c ∧ Stands w' t cls b c.count := by
  rw [tracedOpenSlab, runs_record_bind, runs_bind] at h
  obtain ⟨⟨head, tail, count⟩, s₁, htraced, h⟩ := h
  obtain ⟨w₁, hinit, hs₁⟩ := tracedInitBlocks_runs htraced
  rw [hs₁] at h
  have hpos := (slabBlocks_bounds ha.cls_lt).1
  obtain ⟨_, hchunk, hpending₁, _, g₁, m, hinv₁, harea₁, hbatch, hlen⟩ :=
    initBlocks_advances hinv hno hbooted ha (Or.inr hpending) hpos (maxInit_pos _) hinit
  dsimp only at h
  rw [if_neg (Nat.ne_of_gt hchunk.pos), runs_quietly_bind] at h
  obtain ⟨_, w₂, hhand, h⟩ := h
  obtain ⟨g₂, hleaves⟩ := handOut_spec hinv₁ hbatch hlen hhand
  have harea₂ := harea₁.cacheStep hleaves.step
  rw [Nat.zero_add] at harea₂
  have hpending₂ : w₂.pendingOf t cls = 0 := by
    rw [hleaves.step.pending, hpending₁, hpending]
  rw [runs_quietly_bind] at h
  obtain ⟨_, w₃, hkeep, h⟩ := h
  have hstands := keepRest_stands harea₂ (hinv.wf.addr_ne_zero ha.fits) hpending₂ hkeep
  rw [runs_quietly_bind] at h
  obtain ⟨_, w₄, hnote, h⟩ := h
  obtain ⟨_, heq⟩ := runs_pure.mp h
  obtain ⟨hw', hregions⟩ := Prod.mk.inj heq
  refine ⟨_, hregions, hchunk, ?_⟩
  rw [hw', runs_modify.mp hnote]
  exact hstands

/-- All blocks of these slabs have been made. -/
def Complete (cls : ℕ) (regions : List Region) : Prop :=
  ∀ r ∈ regions, Partition cls r (slabBlocks cls)

/-- The record and the pending slab of the thread fit together. A pending slab without
blocks left is possible only before the first slab of the record. -/
inductive Tracks (t cls : ℕ) (w : World) : List Region → Prop
  | idle {regions : List Region} (complete : Complete cls regions)
      (pending : w.pendingOf t cls = 0) : Tracks t cls w regions
  | spent (next : MetaData.next w.mem (w.pendingOf t cls) =
      slot (w.pendingOf t cls) cls (slabBlocks cls)) : Tracks t cls w []
  | carving {r : Region} {older : List Region} {n : ℕ} (complete : Complete cls older)
      (part : Partition cls r n) (lt : n < slabBlocks cls) (base : r.base ≠ 0)
      (pending : w.pendingOf t cls = r.base)
      (next : MetaData.next w.mem r.base = slot r.base cls n) : Tracks t cls w (r :: older)

theorem Stands.tracks {r : Region} (h : Stands w t cls r.base n) (hpart : Partition cls r n)
    (hcomplete : Complete cls older) : Tracks t cls w (r :: older) := by
  rcases h with ⟨hpending, hbase, hlt, hnext⟩ | ⟨hpending, hend⟩
  · exact .carving hcomplete hpart hlt hbase hpending hnext
  · refine .idle ?_ hpending
    rw [hend] at hpart
    exact List.forall_mem_cons.mpr ⟨hpart, hcomplete⟩

/-- A thread without a pending slab has no slab with blocks left. -/
theorem Tracks.complete (h : Tracks t cls w regions) (hpending : w.pendingOf t cls = 0) :
    Complete cls regions := by
  cases h with
  | idle hcomplete _ => exact hcomplete
  | spent _ => exact List.forall_mem_nil _
  | carving _ _ _ hbase hpend _ => exact absurd (hpend.symm.trans hpending) hbase

theorem tracedNewSlab_tracks {r : Bool} (hinv : Inv w g) (hno : NoLoose g) (hcls : cls < 34)
    (hbooted : w.booted = true) (hpending : w.pendingOf t cls = 0)
    (hcomplete : Complete cls regions)
    (h : Runs (tracedNewSlab t cls (payload cls) (payload cls + 16) (slabBlocks cls)) (w, regions) r
      (w', regions')) : Tracks t cls w' regions' := by
  rw [tracedNewSlab, runs_quietly_bind] at h
  obtain ⟨found, w₁, hmap, h⟩ := h
  obtain ⟨hpend, hbooted₁, hfound⟩ :=
    mapSlab_spec (t := t) hinv (looseAre_nil.mpr hno) hcls hbooted hmap
  have hpending₁ := (hpend t cls).trans hpending
  rcases hfound with ⟨hnone, _⟩ | ⟨hint, hsome, hinv₁, harea, _⟩
  · rw [hnone] at h
    obtain ⟨hw', hregions⟩ := Prod.mk.inj (runs_pure.mp h).2
    rw [hw', hregions]
    exact .idle hcomplete hpending₁
  · rw [hsome] at h
    obtain ⟨c, hregions, hchunk, hstands⟩ :=
      tracedOpenSlab_stands hinv₁ hno harea hbooted₁ hpending₁ h
    have hpart := (partition_nil cls hint).add hchunk
    rw [Nat.zero_add] at hpart
    rw [hregions]
    exact hstands.tracks hpart hcomplete

/-- The blocks that are left of the pending slab, from the record. -/
theorem Tracks.area (h : Tracks t cls w regions) (hinv : Inv w g)
    (hpending : w.pendingOf t cls ≠ 0) :
    (regions = [] ∧ Area w g t cls (w.pendingOf t cls) (slabBlocks cls)) ∨
      ∃ r older n, regions = r :: older ∧ Complete cls older ∧ Partition cls r n ∧
        n < slabBlocks cls ∧ r.base = w.pendingOf t cls ∧ Area w g t cls (w.pendingOf t cls) n := by
  obtain ⟨k, ha⟩ := hinv.pendings t cls hpending
  cases h with
  | idle _ hzero => exact absurd hzero hpending
  | spent hnext =>
    rw [slot_inj (ha.next.symm.trans hnext)] at ha
    exact Or.inl ⟨rfl, ha⟩
  | @carving r older n hcomplete hpart hlt hbase hpend hnext =>
    rw [hpend] at ha
    rw [slot_inj (ha.next.symm.trans hnext), ← hpend] at ha
    exact Or.inr ⟨r, older, n, rfl, hcomplete, hpart, hlt, hpend.symm, ha⟩

theorem pendingOf_engine {e : ThreadLocalEngine} (he : w.engines t = some e) :
    w.pendingOf t cls = e.pending cls := by
  unfold World.pendingOf
  rw [he]

theorem tracedBulkFill_tracks {r : Bool} (hinv : Inv w g) (hno : NoLoose g)
    (hbooted : w.booted = true) (htracks : Tracks t cls w regions)
    (h : Runs (tracedBulkFill t cls) (w, regions) r (w', regions')) :
    Tracks t cls w' regions' := by
  rw [tracedBulkFill] at h
  obtain ⟨hcls, h⟩ := runs_sizes_bind h
  obtain ⟨numBlocks, hcounted, h⟩ := runs_attempt_bind.mp h
  have hnum := (index_iterations.mp hcounted).2
  subst hnum
  rw [runs_quietly_bind] at h
  obtain ⟨e, w₁, hengine, h⟩ := h
  obtain ⟨he, hw₁⟩ := runs_engine.mp hengine
  rw [hw₁] at h
  dsimp only at h
  rw [← pendingOf_engine he] at h
  split at h
  · rename_i hnone
    exact tracedNewSlab_tracks hinv hno hcls hbooted hnone (htracks.complete hnone) h
  · rename_i hsome
    rw [runs_bind] at h
    obtain ⟨⟨head, tail, count⟩, s₂, htraced, h⟩ := h
    obtain ⟨w₂, hinit, hs₂⟩ := tracedInitBlocks_runs htraced
    rw [hs₂] at h
    rcases htracks.area hinv hsome with
      ⟨hregions, ha⟩ | ⟨region, older, n, hregions, hcomplete, hpart, hlt, hbase, ha⟩
    · -- nothing is left, so there is a new slab
      rcases initBlocks_linked hinv ha (Or.inl rfl) (maxInit_pos _) hinit with
        ⟨hcount, hw₂, _⟩ | ⟨hmin, hpos, _⟩
      · dsimp only at hcount h
        rw [if_neg (by omega), runs_quietly_bind] at h
        obtain ⟨_, w₃, hdrop, h⟩ := h
        rw [hw₂] at hdrop
        obtain ⟨e', he', hw₃⟩ := runs_setPending hdrop
        subst hw₃
        have hinv₃ := hinv.setPending he' (fun _ => ha) (fun hne => absurd rfl hne)
        rw [hregions] at h
        exact tracedNewSlab_tracks hinv₃ hno hcls hbooted pendingOf_setPending
          (List.forall_mem_nil _) h
      · omega
    · obtain ⟨_, hchunk, hpending₂, _, g₂, m, hinv₂, harea₂, hbatch, hlen⟩ :=
        initBlocks_advances hinv hno hbooted ha (Or.inl rfl) hlt (maxInit_pos _) hinit
      dsimp only at h
      rw [if_pos hchunk.pos, runs_quietly_bind] at h
      obtain ⟨_, w₃, hpush, h⟩ := h
      obtain ⟨g₃, hleaves⟩ := pushToThreadTailed_spec hinv₂ hbatch hlen hpush
      have hpending₃ := (hleaves.step.pending t cls).trans hpending₂
      rw [runs_quietly_bind] at h
      obtain ⟨_, w₄, hdrop, h⟩ := h
      have hstands := dropRest_stands (harea₂.cacheStep hleaves.step) hsome hpending₃ hdrop
      obtain ⟨hw', hregions'⟩ := Prod.mk.inj (runs_pure.mp h).2
      rw [hw', hregions', hregions]
      rw [← hbase] at hchunk hstands
      exact Stands.tracks (r := region.add _) hstands (hpart.add hchunk) hcomplete

/-- `drain_pending` makes the rest of the slab one chunk. -/
theorem tracedDrainPending_tracks {e e' : ThreadLocalEngine} (hinv : Inv w g) (hno : NoLoose g)
    (hbooted : w.booted = true) (htracks : Tracks t cls w regions) (he : w.engines t = some e)
    (hsome : w.pendingOf t cls ≠ 0)
    (h : Runs (tracedDrainPending e cls) (w, regions) e' (w', regions')) :
    e' = e.setPending cls 0 ∧ w'.engines t = some e ∧ w'.booted = true ∧ Complete cls regions' ∧
      ∃ g', Inv w' g' ∧ NoLoose g' ∧ Area w' g' t cls (w'.pendingOf t cls) (slabBlocks cls) := by
  rw [tracedDrainPending] at h
  dsimp only at h
  rw [← pendingOf_engine he, if_neg hsome] at h
  obtain ⟨hcls, h⟩ := runs_sizes_bind h
  rw [runs_quietly_bind] at h
  obtain ⟨w₁, w₂, hget, h⟩ := h
  obtain ⟨hw₁, hw₂⟩ := runs_get.mp hget
  rw [hw₁, hw₂] at h
  rcases htracks.area hinv hsome with
    ⟨hregions, ha⟩ | ⟨region, older, n, hregions, hcomplete, hpart, hlt, hbase, ha⟩
  · rw [remainingBlocks_eq ha, if_neg (by omega)] at h
    obtain ⟨he', heq⟩ := runs_pure.mp h
    obtain ⟨hw', hregions'⟩ := Prod.mk.inj heq
    rw [hw', hregions', hregions]
    exact ⟨he', he, hbooted, List.forall_mem_nil _, g, hinv, hno, ha⟩
  · rw [remainingBlocks_eq ha, if_pos (by omega), runs_bind] at h
    obtain ⟨⟨head, tail, count⟩, s₃, htraced, h⟩ := h
    obtain ⟨w₃, hinit, hs₃⟩ := tracedInitBlocks_runs htraced
    rw [hs₃] at h
    obtain ⟨hmin, hchunk, hpending₃, hbooted₃, g₃, m, hinv₃, harea₃, hbatch, hlen⟩ :=
      initBlocks_advances hinv hno hbooted ha (Or.inl rfl) hlt (by omega) hinit
    have hall : n + count = slabBlocks cls := by omega
    dsimp only at h
    rw [if_pos hchunk.pos, runs_quietly_bind] at h
    obtain ⟨_, w₄, hpush, h⟩ := h
    obtain ⟨g₄, hleaves⟩ := tryPush_spec hinv₃ hbatch hlen hpush
    obtain ⟨he', heq⟩ := runs_pure.mp h
    obtain ⟨hw', hregions'⟩ := Prod.mk.inj heq
    rw [hw', hregions', hregions]
    refine ⟨he', ?_, hleaves.step.booted.trans hbooted₃, ?_, g₄, hleaves.inv,
      looseAre_nil.mp hleaves.loose, ?_⟩
    · rw [(tryPush_blind _ _ _ _).engines hpush, (initBlocks_blind _ _ _ _).engines hinit,
        he]
    · have hpart' := hpart.add (hbase ▸ hchunk)
      rw [show n + Chunk.count _ = _ from hall] at hpart'
      exact List.forall_mem_cons.mpr ⟨hpart', hcomplete⟩
    · rw [hleaves.step.pending, hpending₃, ← hall]
      exact harea₃.cacheStep hleaves.step

theorem tracedDrain_tracks {u : Unit} (hinv : Inv w g) (hno : NoLoose g) (hbooted : w.booted = true)
    (htracks : Tracks t cls w regions)
    (h : Runs (tracedDrain t cls) (w, regions) u (w', regions')) :
    (∃ g', Inv w' g' ∧ NoLoose g') ∧ w'.booted = true ∧ Tracks t cls w' regions' := by
  rw [tracedDrain, runs_quietly_bind] at h
  obtain ⟨e, w₁, hengine, h⟩ := h
  obtain ⟨he, hw₁⟩ := runs_engine.mp hengine
  rw [hw₁, runs_bind] at h
  obtain ⟨e', ⟨w₂, regions₂⟩, hdrain, h⟩ := h
  obtain ⟨w₃, hset, heq⟩ := runs_zoom.mp h
  obtain ⟨hw', hregions'⟩ := Prod.mk.inj heq
  rw [hw', hregions', runs_modify.mp hset]
  by_cases hzero : w.pendingOf t cls = 0
  · rw [tracedDrainPending] at hdrain
    dsimp only at hdrain
    rw [← pendingOf_engine he, if_pos hzero] at hdrain
    obtain ⟨he', heq⟩ := runs_pure.mp hdrain
    obtain ⟨hw₂, hregions₂⟩ := Prod.mk.inj heq
    subst hw₂ hregions₂ he'
    rw [← he, Function.update_eq_self]
    exact ⟨⟨g, hinv, hno⟩, hbooted, htracks⟩
  · obtain ⟨he', he₂, hbooted₂, hcomplete, g₂, hinv₂, hno₂, harea⟩ :=
      tracedDrainPending_tracks hinv hno hbooted htracks he hzero hdrain
    subst he'
    exact ⟨⟨g₂, hinv₂.setPending he₂ (fun _ => harea) (fun hne => absurd rfl hne), hno₂⟩, hbooted₂,
      .idle hcomplete pendingOf_setPending⟩

end Carving

section System

variable {t cls : ℕ} {s s' : World × List Region}

/-- The thread calls `bulk_fill` or `drain_pending` for the class, or the heap is changed
by anything else. -/
inductive Event where
  | fill
  | drain
  | other (w : World)

def step (t cls : ℕ) (s : World × List Region) : Event → Option (World × List Region)
  | .fill => (outcome (tracedBulkFill t cls) s).map Prod.snd
  | .drain => (outcome (tracedDrain t cls) s).map Prod.snd
  | .other w => some (w, s.2)

/-- A heap of a started process, with no operation under way. -/
def Heap (w : World) : Prop := w.booted = true ∧ ∃ g, Inv w g ∧ NoLoose g

/-- Whatever else happens keeps the heap in order and leaves the pending slab of the thread
and the pointer in its metadata alone. Nobody else has a pointer to them. -/
def Undisturbed (t cls : ℕ) (s : World × List Region) : Event → Prop
  | .other w => Heap w ∧ w.pendingOf t cls = s.1.pendingOf t cls ∧
      (s.1.pendingOf t cls ≠ 0 →
        MetaData.next w.mem (s.1.pendingOf t cls) = MetaData.next s.1.mem (s.1.pendingOf t cls))
  | _ => True

/-- The newest slab of the thread is carved up to some block, and it is pending exactly as
long as there are more; all blocks of the older ones have been made. -/
structure Accounted (t cls : ℕ) (s : World × List Region) : Prop where
  newest : ∀ r older, s.2 = r :: older → ∃ n, Partition cls r n ∧
    (s.1.pendingOf t cls = 0 ↔ n = slabBlocks cls) ∧
    (n < slabBlocks cls → s.1.pendingOf t cls = r.base ∧
      remainingBlocks s.1.mem r.base (payload cls + headerSize) = slabBlocks cls - n)
  older : ∀ r older, s.2 = r :: older → Complete cls older

theorem Tracks.other {w w' : World} {regions : List Region} (h : Tracks t cls w regions)
    (hpending : w'.pendingOf t cls = w.pendingOf t cls)
    (hnext : w.pendingOf t cls ≠ 0 →
      MetaData.next w'.mem (w.pendingOf t cls) = MetaData.next w.mem (w.pendingOf t cls)) :
    Tracks t cls w' regions := by
  by_cases hzero : w.pendingOf t cls = 0
  · exact .idle (h.complete hzero) (hpending.trans hzero)
  · have hsame := hnext hzero
    cases h with
    | idle _ hpend => exact absurd hpend hzero
    | spent hend => exact .spent (by rw [hpending, hsame, hend])
    | carving hcomplete hpart hlt hbase hpend hstop =>
      rw [hpend] at hsame
      exact .carving hcomplete hpart hlt hbase (hpending.trans hpend) (hsame.trans hstop)

theorem step_tracks {a : Event} (hs : Heap s.1 ∧ Tracks t cls s.1 s.2) (hok : Undisturbed t cls s a)
    (h : step t cls s a = some s') : Heap s'.1 ∧ Tracks t cls s'.1 s'.2 := by
  obtain ⟨⟨hbooted, g, hinv, hno⟩, htracks⟩ := hs
  cases a with
  | fill =>
    obtain ⟨⟨r, s₁⟩, hrun, heq⟩ := Option.map_eq_some_iff.mp h
    subst heq
    have hfill : Runs (tracedBulkFill t cls) (s.1, s.2) r (s₁.1, s₁.2) := outcome_eq_some.mp hrun
    obtain ⟨g', hinv', hframe, hl'⟩ := bulkFill_spec hinv (looseAre_nil.mpr hno) hbooted
      ((bulkFill_erases t cls).erased hfill)
    exact ⟨⟨hframe.booted hbooted, g', hinv', looseAre_nil.mp hl'⟩,
      tracedBulkFill_tracks hinv hno hbooted htracks hfill⟩
  | drain =>
    obtain ⟨⟨u, s₁⟩, hrun, heq⟩ := Option.map_eq_some_iff.mp h
    subst heq
    have hdrain : Runs (tracedDrain t cls) (s.1, s.2) u (s₁.1, s₁.2) := outcome_eq_some.mp hrun
    obtain ⟨hheap, hbooted', htracks'⟩ := tracedDrain_tracks hinv hno hbooted htracks hdrain
    exact ⟨⟨hbooted', hheap⟩, htracks'⟩
  | other w =>
    rw [← Option.some.inj h]
    exact ⟨hok.1, htracks.other hok.2.1 hok.2.2⟩

theorem Tracks.accounted (hheap : Heap s.1) (h : Tracks t cls s.1 s.2) : Accounted t cls s := by
  obtain ⟨_, g, hinv, _⟩ := hheap
  refine ⟨fun r older hregions => ?_, fun r older hregions => ?_⟩
  · by_cases hzero : s.1.pendingOf t cls = 0
    · have hcomplete := h.complete hzero
      rw [hregions] at hcomplete
      exact ⟨slabBlocks cls, hcomplete r List.mem_cons_self, iff_of_true hzero rfl,
        fun hlt => absurd hlt (Nat.lt_irrefl _)⟩
    · rcases h.area hinv hzero with ⟨hnil, _⟩ | ⟨r', older', n, hcons, _, hpart, hlt, hbase, ha⟩
      · rw [hregions] at hnil
        contradiction
      · obtain ⟨hr, _⟩ := List.cons.inj (hregions.symm.trans hcons)
        subst hr
        refine ⟨n, hpart, iff_of_false hzero (by omega), fun _ => ⟨hbase.symm, ?_⟩⟩
        rw [hbase]
        exact remainingBlocks_eq ha
  · rw [hregions] at h
    cases h with
    | idle hcomplete _ => exact fun r' hr' => hcomplete r' (List.mem_cons_of_mem _ hr')
    | carving hcomplete _ _ _ _ _ => exact hcomplete

/-- From any heap in which the thread has no pending slab with blocks left: the slabs that
the thread opens are carved exactly, one after the other. -/
theorem slab_carving_partitions (t cls : ℕ) (w₀ : World) (hheap : Heap w₀)
    (hstart : w₀.pendingOf t cls = 0 ∨
      remainingBlocks w₀.mem (w₀.pendingOf t cls) (payload cls + headerSize) = 0)
    (events : List Event) (s : World × List Region)
    (hok : Guarded (step t cls) (Undisturbed t cls) (w₀, []) events)
    (hrun : run (step t cls) (w₀, []) events = some s) : Accounted t cls s := by
  have htracks : Tracks t cls w₀ [] := by
    by_cases hzero : w₀.pendingOf t cls = 0
    · exact .idle (List.forall_mem_nil _) hzero
    · obtain ⟨_, g, hinv, _⟩ := hheap
      obtain ⟨k, ha⟩ := hinv.pendings t cls hzero
      have hnone : slabBlocks cls - k = 0 :=
        (remainingBlocks_eq ha).symm.trans (hstart.resolve_left hzero)
      have hle := ha.le
      refine .spent ?_
      rw [ha.next, show k = slabBlocks cls by omega]
  have hfinal : Heap s.1 ∧ Tracks t cls s.1 s.2 :=
    @run_invariant _ _ (step t cls) (Undisturbed t cls) (fun s => Heap s.1 ∧ Tracks t cls s.1 s.2)
      (fun _ _ _ hs hok hstep => step_tracks hs hok hstep) _ _ _ ⟨hheap, htracks⟩ hok hrun
  exact hfinal.2.accounted hfinal.1

/-- A thread that has allocated a block of another class carves a slab of three blocks in
three chunks, the last of them in `drain_pending`. -/
theorem carved_result :
    ((run SlabConservation.step (SlabConservation.initial ⟨none, none, 1⟩ SlabConservation.grantAll)
        [.malloc 0 20]).bind fun s₀ =>
      (run (step 0 18) (s₀.world, []) [.fill, .fill, .drain]).map fun s =>
        (s₀.world.booted, s₀.world.pendingOf 0 18,
          s.2.map fun r => (r.base, r.chunks.map Chunk.count))) =
      some (true, 0, [(4294979584, [1, 1, 1])]) := by
  decide +kernel

theorem slab_carving_partitions_drained :
    ∃ w s, run (step 0 18) (w, []) [.fill, .fill, .drain] = some s ∧
      s.2.map (fun r => (r.base, r.chunks.map Chunk.count)) = [(4294979584, [1, 1, 1])] ∧
      Accounted 0 18 s := by
  obtain ⟨s₀, hstart, hrest⟩ := Option.bind_eq_some_iff.mp carved_result
  obtain ⟨s, hrun, heq⟩ := Option.map_eq_some_iff.mp hrest
  obtain ⟨hbooted, heq⟩ := Prod.mk.inj heq
  obtain ⟨hpending, hregions⟩ := Prod.mk.inj heq
  obtain ⟨⟨g, hlaid⟩, _⟩ := SlabConservation.run_laid hstart
  have hok : Guarded (step 0 18) (Undisturbed 0 18) (s₀.world, []) [.fill, .fill, .drain] :=
    ⟨trivial, fun _ _ => ⟨trivial, fun _ _ => ⟨trivial, fun _ _ => trivial⟩⟩⟩
  exact ⟨s₀.world, s, hrun, hregions, slab_carving_partitions 0 18 s₀.world
    ⟨hbooted, g, hlaid.inv, hlaid.loose⟩ (Or.inl hpending) _ s hok hrun⟩

end System

end Oxidalloc.SlabPartition
