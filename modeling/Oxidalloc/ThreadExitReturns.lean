import Oxidalloc.SlabConservation
import Oxidalloc.ThreadExitSpec

/-!
What the cleanup of a thread's cache leaves behind. The shared cache takes over all blocks
of the bins and of the pending slabs, each once, and its counters grow by their number,
exactly if every class with uncarved blocks has a block in its bin. A class whose bin is
empty is passed over, and the uncarved blocks of its pending slab are lost.
-/
namespace Oxidalloc

open LinkedChain Programs

/-- The blocks in the first n shards of a class, shard after shard. -/
def ShardBlocks (w : World) (n cls : ℕ) (l : List ℕ) : Prop :=
  ∃ lists : ℕ → List ℕ, (∀ cpu, Chain w (.shard cpu cls) (lists cpu)) ∧
    l = (List.range n).flatMap lists

def shardUsage (w : World) (n cls : ℕ) : ℕ := ((List.range n).map (w.icc.usage · cls)).sum

/-- The shared cache after the cleanup of thread t, for one class. The shards are those of
the tables that are there after it. -/
structure Returned (w : World) (t : ℕ) (w' : World) (cls : ℕ) : Prop where
  blocks : ∃ before bin after, ShardBlocks w w'.icc.ncpu cls before ∧ Chain w (.bin t cls) bin ∧
    ShardBlocks w' w'.icc.ncpu cls after ∧ after.Nodup ∧
    after.Perm (before ++ bin ++ uncarved w t cls)
  usage : shardUsage w' w'.icc.ncpu cls =
    shardUsage w w'.icc.ncpu cls + (w.binOf t cls).usage + (uncarved w t cls).length

/-- The tables of the shared cache are there, and the kernel names no CPU beyond them. -/
def CpusKnown (w : World) : Prop :=
  w.icc.once = true ∧ ∀ n, w.va.tick ≤ n → w.va.sys n - 1 < w.icc.ncpu

section Blocks

variable {w w' : World} {g g' : Layout} {t cls n : ℕ}

theorem Inv.shardBlocks (hinv : Inv w g) (n cls : ℕ) : ∃ l, ShardBlocks w n cls l ∧ l.Nodup ∧
    (∀ x, x ∈ l ↔ ∃ cpu < n, g.place x = some (.cached (.shard cpu cls))) ∧
    shardUsage w n cls = l.length := by
  choose lists hchain husage hmem using fun cpu => hinv.chains (.shard cpu cls)
  refine ⟨(List.range n).flatMap lists, ⟨lists, hchain, rfl⟩, ?_, fun x => ?_, ?_⟩
  · refine List.nodup_flatMap.mpr ⟨fun cpu _ => (hchain cpu).nodup, ?_⟩
    refine List.nodup_range.imp fun hne => ?_
    intro x hx hx'
    have hplace := (hmem _ x).mp hx
    rw [(hmem _ x).mp hx', Option.some.injEq, Place.cached.injEq, Cache.shard.injEq] at hplace
    exact hne hplace.1.symm
  · simp only [List.mem_flatMap, List.mem_range, hmem]
  · rw [shardUsage, List.length_flatMap]
    congr 1
    exact List.map_congr_left fun cpu _ => husage cpu

theorem Inv.uncarved_nodup (hinv : Inv w g) : (uncarved w t cls).Nodup := by
  by_cases hzero : w.pendingOf t cls = 0
  · unfold uncarved
    rw [if_pos hzero]
    exact List.nodup_nil
  · obtain ⟨k, ha⟩ := hinv.pendings t cls hzero
    rw [uncarved_eq ha hzero]
    exact slots_nodup _ cls k _

/-- The shards have the blocks of the bin and the uncarved ones, if nothing else moves. -/
theorem returned_of_places (hinv : Inv w g) (hinv' : Inv w' g')
    (hplace : ∀ x, (∃ cpu < w'.icc.ncpu, g'.place x = some (.cached (.shard cpu cls))) ↔
      (∃ cpu < w'.icc.ncpu, g.place x = some (.cached (.shard cpu cls))) ∨
        g.place x = some (.cached (.bin t cls)) ∨ x ∈ uncarved w t cls) :
    Returned w t w' cls := by
  obtain ⟨before, hbefore, hnodup, hmem, husage⟩ := hinv.shardBlocks w'.icc.ncpu cls
  obtain ⟨after, hafter, hnodup', hmem', husage'⟩ := hinv'.shardBlocks w'.icc.ncpu cls
  obtain ⟨bin, hbin, hlength, hmemBin⟩ := hinv.chains (.bin t cls)
  have hall : (before ++ bin ++ uncarved w t cls).Nodup := by
    refine List.nodup_append'.mpr ⟨List.nodup_append'.mpr ⟨hnodup, hbin.nodup, ?_⟩,
      hinv.uncarved_nodup, ?_⟩
    · intro x hx hx'
      obtain ⟨cpu, _, hshard⟩ := (hmem x).mp hx
      rw [(hmemBin x).mp hx'] at hshard
      exact absurd (Place.cached.inj (Option.some.inj hshard)) nofun
    · intro x hx hx'
      have hnone := (hinv.place_uncarved hx').1
      rcases List.mem_append.mp hx with hshard | hbin
      · obtain ⟨cpu, _, hshard⟩ := (hmem x).mp hshard
        rw [hnone] at hshard
        exact absurd hshard nofun
      · rw [(hmemBin x).mp hbin] at hnone
        exact absurd hnone nofun
  have hperm : after.Perm (before ++ bin ++ uncarved w t cls) := by
    rw [List.perm_ext_iff_of_nodup hnodup' hall]
    intro x
    rw [hmem', hplace, ← hmem, List.mem_append, List.mem_append, hmemBin, or_assoc]
  refine ⟨⟨before, bin, after, hbefore, hbin, hafter, hnodup', hperm⟩, ?_⟩
  have hbinUsage : (w.binOf t cls).usage = bin.length := hlength
  rw [husage', husage, hbinUsage, hperm.length_eq, List.length_append, List.length_append]

/-- The shards of a class get the blocks that the thread gives, and no others. -/
theorem cleanupThreadCache_places {u : Unit} (hinv : Inv w g) (hno : NoLoose g)
    (h : Runs (cleanupThreadCache t) w u w') :
    ∃ g', Inv (w'.losing (w.passedOver t)) g' ∧ ∀ cls < 34, ∀ x,
      (∃ cpu < w'.icc.ncpu, g'.place x = some (.cached (.shard cpu cls))) ↔
        (∃ cpu < w'.icc.ncpu, g.place x = some (.cached (.shard cpu cls))) ∨ Given w g t cls x := by
  obtain ⟨g', hinv', _, _, hgiven, hothers⟩ := cleanupThreadCache_spec hinv hno h
  refine ⟨g', hinv', fun cls hcls x => ?_⟩
  by_cases hsome : ∃ c < 34, Given w g t c x
  · obtain ⟨c, hc, hg⟩ := hsome
    obtain ⟨cpu, hcpu, hplace⟩ := hgiven c hc x hg
    rw [hplace]
    have hnot : ∀ cpu', g.place x ≠ some (.cached (.shard cpu' cls)) := by
      intro cpu' hshard
      rcases hg.2 with hbin | huncarved
      · rw [hbin] at hshard
        exact absurd (Place.cached.inj (Option.some.inj hshard)) nofun
      · rw [(hinv.place_uncarved huncarved).1] at hshard
        exact absurd hshard nofun
    constructor
    · intro hex
      obtain ⟨cpu', _, heq⟩ := hex
      rw [Option.some.injEq, Place.cached.injEq, Cache.shard.injEq] at heq
      exact Or.inr (heq.2 ▸ hg)
    · intro hor
      rcases hor with ⟨cpu', _, hshard⟩ | hg'
      · exact absurd hshard (hnot cpu')
      · exact ⟨cpu, hcpu, by rw [Given.unique hinv hg hg']⟩
  · rw [hothers x fun c hc hg => hsome ⟨c, hc, hg⟩]
    exact ⟨Or.inl, fun hor => hor.resolve_right fun hg => hsome ⟨cls, hcls, hg⟩⟩

theorem cleanupThreadCache_returned {u : Unit} (hinv : Inv w g) (hno : NoLoose g)
    (hbin : uncarved w t cls ≠ [] → (w.binOf t cls).head ≠ 0) (hcls : cls < 34)
    (h : Runs (cleanupThreadCache t) w u w') : Returned w t w' cls := by
  obtain ⟨g', hinv', hplace⟩ := cleanupThreadCache_places hinv hno h
  have hiff : ∀ x, Given w g t cls x ↔
      g.place x = some (.cached (.bin t cls)) ∨ x ∈ uncarved w t cls := by
    intro x
    refine ⟨fun hg => hg.2, fun hor => ⟨?_, hor⟩⟩
    rcases hor with hplace | huncarved
    · intro hzero
      obtain ⟨l, hchain, _, hmem⟩ := hinv.chains (.bin t cls)
      have hchain : Linked 0 (OxHeader.next w.mem) (w.binOf t cls).head l 0 := hchain
      rw [hzero] at hchain
      have hx := (hmem x).mpr hplace
      rw [hchain.eq_nil] at hx
      exact absurd hx List.not_mem_nil
    · exact hbin (List.ne_nil_of_mem huncarved)
  have hreturned : Returned w t (w'.losing (w.passedOver t)) cls := by
    refine returned_of_places hinv hinv' fun x => ?_
    rw [← hiff]
    exact hplace cls hcls x
  exact ⟨hreturned.blocks, hreturned.usage⟩

/-- A class that is passed over gets nothing. -/
theorem cleanupThreadCache_passed {u : Unit} (hinv : Inv w g) (hno : NoLoose g)
    (hbin : (w.binOf t cls).head = 0) (hcls : cls < 34) (h : Runs (cleanupThreadCache t) w u w') :
    shardUsage w' w'.icc.ncpu cls = shardUsage w w'.icc.ncpu cls := by
  obtain ⟨g', hinv', hplace⟩ := cleanupThreadCache_places hinv hno h
  obtain ⟨before, _, hnodup, hmem, husage⟩ := hinv.shardBlocks w'.icc.ncpu cls
  obtain ⟨after, _, hnodup', hmem', husage'⟩ := hinv'.shardBlocks w'.icc.ncpu cls
  have hnone : ∀ x, ¬ Given w g t cls x := fun x hg => hg.1 hbin
  have hperm : after.Perm before := by
    rw [List.perm_ext_iff_of_nodup hnodup' hnodup]
    intro x
    rw [hmem', hmem, hplace cls hcls x, or_iff_left (hnone x)]
  have hcount : shardUsage w' w'.icc.ncpu cls = after.length := husage'
  rw [hcount, husage, hperm.length_eq]

end Blocks

section Returns

variable {w : World} {g : Layout} {w₀ : World} {g₀ : Layout} {t cls : ℕ}
  {e₀ e : ThreadLocalEngine} {done : List ℕ}

theorem tryPush_returns (h : CpusKnown w) (hcls : cls < 34) (head tail n : ℕ) :
    ∃ w', Runs (tryPush cls head tail n) w () w' ∧ CpusKnown w' := by
  let w₁ : World := { w with va := { w.va with tick := w.va.tick + 1 } }
  have hensure : Runs ensureCache w () w := by
    rw [ensureCache, runs_get_bind, if_pos h.1]
    exact runs_pure.mpr ⟨rfl, rfl⟩
  have hcpu : Runs getCpuId w (w.va.sys w.va.tick - 1) w₁ := rfl
  have hcheck : Runs (checkShard (w.va.sys w.va.tick - 1) cls) w₁ () w₁ := by
    have hncpu : w.va.sys w.va.tick - 1 < w₁.icc.ncpu := h.2 _ (Nat.le_refl _)
    have hnum : cls < numSizeClasses := hcls
    rw [checkShard, runs_get_bind, if_neg (by omega), if_neg (by omega)]
    exact runs_pure.mpr ⟨rfl, rfl⟩
  rw [tryPush]
  exact ⟨_, runs_bind.mpr ⟨_, _, hensure, runs_bind.mpr ⟨_, _, hcpu,
    runs_bind.mpr ⟨_, _, hcheck, rfl⟩⟩⟩, h.1, fun n hn => h.2 n (Nat.le_of_succ_le hn)⟩

theorem exitBin_returns {E : ℕ → Option ThreadLocalEngine} (hinv : Inv (w.veil E) g)
    (he : E t = some e) (h : CpusKnown w) (hhead : (e.tls cls).head ≠ 0) (hcls : cls < 34) :
    ∃ w', Runs (exitBin cls (e.tls cls).head) w () w' ∧ CpusKnown w' := by
  obtain ⟨x, rest, hx, _, _, _, hexit⟩ := exitChain_bin hinv he hhead
  obtain ⟨w', hrun, hknown⟩ := @tryPush_returns { w with mem := age w.mem (x :: rest) } cls h hcls
    x ((x :: rest).getLast (List.cons_ne_nil x rest)) (1 + rest.length)
  refine ⟨w', ?_, hknown⟩
  rw [hx, exitBin, runs_get_bind, hexit]
  exact runs_attempt_bind.mpr ⟨_, rfl, hrun⟩

theorem initBlocks_returns (h : CpusKnown w) (metadata blockSize n : ℕ) :
    ∃ r w', Runs (initBlocks cls metadata blockSize n) w r w' ∧ CpusKnown w' := by
  rw [initBlocks]
  simp only [runs_get_bind]
  split
  · exact ⟨_, w, runs_pure.mpr ⟨rfl, rfl⟩, h⟩
  · exact ⟨_, _, runs_set_bind.mpr (runs_pure.mpr ⟨rfl, rfl⟩), h⟩

theorem drainPending_returns (h : CpusKnown w) (hcls : cls < 34) :
    ∃ e' w', Runs (drainPending e cls) w e' w' ∧ CpusKnown w' := by
  have hindex := index_sizeClasses.mpr ⟨hcls, rfl⟩
  rw [drainPending]
  dsimp only
  split
  · exact ⟨_, _, runs_pure.mpr ⟨rfl, rfl⟩, h⟩
  · rw [hindex]
    by_cases hpos : 0 < remainingBlocks w.mem (e.pending cls) (payload cls + 16)
    · obtain ⟨⟨head, tail, count⟩, w₁, hinit, h₁⟩ :=
        @initBlocks_returns w cls h (e.pending cls) (payload cls + 16)
          (remainingBlocks w.mem (e.pending cls) (payload cls + 16))
      by_cases hcount : 0 < count
      · obtain ⟨w', hpush, h'⟩ := tryPush_returns h₁ hcls head tail count
        refine ⟨e.setPending cls 0, w', runs_attempt_bind.mpr ⟨_, rfl, runs_attempt_bind.mpr
          ⟨_, alignTo_payload hcls, ?_⟩⟩, h'⟩
        rw [runs_get_bind, if_pos hpos]
        refine runs_bind.mpr ⟨_, w₁, hinit, ?_⟩
        dsimp only
        rw [if_pos hcount]
        exact runs_bind.mpr ⟨_, w', hpush, runs_pure.mpr ⟨rfl, rfl⟩⟩
      · refine ⟨e.setPending cls 0, w₁, runs_attempt_bind.mpr ⟨_, rfl, runs_attempt_bind.mpr
          ⟨_, alignTo_payload hcls, ?_⟩⟩, h₁⟩
        rw [runs_get_bind, if_pos hpos]
        refine runs_bind.mpr ⟨_, w₁, hinit, ?_⟩
        dsimp only
        rw [if_neg hcount]
        exact runs_pure.mpr ⟨rfl, rfl⟩
    · refine ⟨e.setPending cls 0, w, runs_attempt_bind.mpr ⟨_, rfl, runs_attempt_bind.mpr
        ⟨_, alignTo_payload hcls, ?_⟩⟩, h⟩
      rw [runs_get_bind, if_neg hpos]
      exact runs_pure.mpr ⟨rfl, rfl⟩

theorem Exiting.cleanupClass_returns (hexit : Exiting w₀ g₀ t e₀ done e w g) (h : CpusKnown w)
    (hcls : cls < 34) (hnew : cls ∉ done) :
    ∃ e' w', Runs (Oxidalloc.cleanupClass e cls) w e' w' ∧ CpusKnown w' := by
  rw [Oxidalloc.cleanupClass]
  simp only [runs_get_bind]
  split
  · exact ⟨e, w, runs_pure.mpr ⟨rfl, rfl⟩, h⟩
  · split
    · rename_i hhead
      have htls : (e.without done).tls cls = e.tls cls := if_neg hnew
      obtain ⟨w₁, hbin, h₁⟩ := exitBin_returns hexit.inv (Function.update_self t _ w.engines) h
        (by rw [htls]; exact hhead) hcls
      rw [htls] at hbin
      obtain ⟨e', w', hdrain, h'⟩ := drainPending_returns (e := e) h₁ hcls
      exact ⟨e', w', runs_bind.mpr ⟨_, w₁, hbin, hdrain⟩, h'⟩
    · exact drainPending_returns h hcls

theorem Exiting.cleanupClasses_returns {classes : List ℕ} (hexit : Exiting w₀ g₀ t e₀ done e w g)
    (hinv : Inv w₀ g₀) (he : w₀.engines t = some e₀) (hnodup : classes.Nodup)
    (hdisjoint : ∀ c ∈ classes, c ∉ done) (hclasses : ∀ c ∈ classes, c < 34) (h : CpusKnown w) :
    ∃ w', Runs (Oxidalloc.cleanupClasses classes e) w () w' := by
  induction classes generalizing done e w g with
  | nil => exact ⟨w, runs_pure.mpr ⟨rfl, rfl⟩⟩
  | cons cls rest ih =>
    obtain ⟨hnotMem, hnodup⟩ := List.nodup_cons.mp hnodup
    have hnew := hdisjoint cls List.mem_cons_self
    obtain ⟨e₁, w₁, hrun, h₁⟩ := hexit.cleanupClass_returns h (hclasses cls List.mem_cons_self) hnew
    obtain ⟨g₁, hexit₁⟩ := hexit.cleanupClass hinv he hnew hrun
    have hrestDisjoint : ∀ c ∈ rest, c ∉ cls :: done := by
      intro c hc hmem
      rcases List.mem_cons.mp hmem with heq | hdone
      · exact hnotMem (heq ▸ hc)
      · exact hdisjoint c (List.mem_cons_of_mem cls hc) hdone
    obtain ⟨w', hrest⟩ := ih hexit₁ hnodup hrestDisjoint
      (fun c hc => hclasses c (List.mem_cons_of_mem cls hc)) h₁
    exact ⟨w', runs_bind.mpr ⟨e₁, w₁, hrun, hrest⟩⟩

theorem cleanupThreadCache_returns (hinv : Inv w g) (hno : NoLoose g) (h : CpusKnown w) :
    ∃ w', Runs (cleanupThreadCache t) w () w' := by
  rw [cleanupThreadCache]
  simp only [runs_get_bind]
  split
  · exact ⟨w, runs_pure.mpr ⟨rfl, rfl⟩⟩
  · rename_i e he
    obtain ⟨w₁, hclasses⟩ := (exiting_start hinv hno he).cleanupClasses_returns hinv he
      List.nodup_range (fun _ _ => nofun) (fun c hc => List.mem_range.mp hc) h
    exact ⟨_, runs_modify_bind.mpr (runs_bind.mpr ⟨_, w₁, hclasses, rfl⟩)⟩

end Returns

/-- The cleanup returns the blocks of a class exactly if its bin is not empty beside uncarved
blocks: the lists of the shared cache get each block of the thread once, and the counters
their number. It comes to its end as long as the kernel names CPUs of the tables. -/
theorem thread_exit_returns_all (w : World) (g : Layout) (t : ℕ) (hinv : Inv w g)
    (hno : NoLoose g) :
    (∀ w', Runs (cleanupThreadCache t) w () w' → ∀ cls < 34,
      (Returned w t w' cls ↔ (uncarved w t cls ≠ [] → (w.binOf t cls).head ≠ 0))) ∧
      (CpusKnown w → ∃ w', Runs (cleanupThreadCache t) w () w') := by
  refine ⟨fun w' hrun cls hcls => ⟨fun hreturned hne hbin => ?_, fun hbin => ?_⟩,
    fun hknown => cleanupThreadCache_returns hinv hno hknown⟩
  · have husage := hreturned.usage
    rw [cleanupThreadCache_passed hinv hno hbin hcls hrun] at husage
    have hlost := List.length_pos_iff.mpr hne
    omega
  · exact cleanupThreadCache_returned hinv hno hbin hcls hrun

section Runs

open Interleaving SlabConservation

/-- The thread has one block in a bin and one uncarved block. -/
theorem exit_after_free :
    (run step (initial ⟨none, none, 1⟩ grantAll) [.malloc 0 20, .free 0 4294971440]).map
        (fun s => (decide (∀ cls < 34, uncarved s.world 0 cls ≠ [] →
          (s.world.binOf 0 cls).head ≠ 0),
          (s.world.binOf 0 20).head, uncarved s.world 0 20,
          (outcome (cleanupThreadCache 0) s.world).isSome)) =
      some (true, 4294971424, [4294974512], true) := by
  decide +kernel

theorem thread_exit_returns_all_two :
    ∃ s w', run step (initial ⟨none, none, 1⟩ grantAll)
      [.malloc 0 20, .free 0 4294971440] = some s ∧
      (s.world.binOf 0 20).head = 4294971424 ∧ uncarved s.world 0 20 = [4294974512] ∧
      Runs (cleanupThreadCache 0) s.world () w' ∧ ∀ cls < 34, Returned s.world 0 w' cls := by
  obtain ⟨s, hrun, heq⟩ := Option.map_eq_some_iff.mp exit_after_free
  simp only [Prod.mk.injEq, decide_eq_true_iff] at heq
  obtain ⟨hbins, hhead, huncarved, hexit⟩ := heq
  obtain ⟨⟨u, w'⟩, hexit⟩ := Option.isSome_iff_exists.mp hexit
  obtain ⟨⟨g, hs⟩, _⟩ := run_laid hrun
  exact ⟨s, w', hrun, hhead, huncarved, outcome_eq_some.mp hexit,
    fun cls hcls => ((thread_exit_returns_all s.world g 0 hs.inv hs.loose).1 w'
      (outcome_eq_some.mp hexit) cls hcls).mpr (hbins cls hcls)⟩

/-- The bin is empty, because the user holds the only carved block. -/
theorem exit_after_malloc :
    (run step (initial ⟨none, none, 1⟩ grantAll) [.malloc 0 20]).bind (fun s =>
        (outcome (cleanupThreadCache 0) s.world).map fun r =>
          (uncarved s.world 0 20, shardUsage s.world r.2.icc.ncpu 20, (s.world.binOf 0 20).usage,
            shardUsage r.2 r.2.icc.ncpu 20)) =
      some ([4294974512], 0, 0, 0) := by
  decide +kernel

/-- The uncarved block of the thread gets into no list of the shared cache. -/
theorem thread_exit_loses_pending :
    ∃ s g w', run step (initial ⟨none, none, 1⟩ grantAll) [.malloc 0 20] = some s ∧
      Inv s.world g ∧ NoLoose g ∧ Runs (cleanupThreadCache 0) s.world () w' ∧
      uncarved s.world 0 20 = [4294974512] ∧ ¬ Returned s.world 0 w' 20 := by
  obtain ⟨s, hrun, heq⟩ := Option.bind_eq_some_iff.mp exit_after_malloc
  obtain ⟨⟨u, w'⟩, hexit, heq⟩ := Option.map_eq_some_iff.mp heq
  simp only [Prod.mk.injEq] at heq
  obtain ⟨huncarved, hbefore, hbin, hafter⟩ := heq
  obtain ⟨⟨g, hs⟩, _⟩ := run_laid hrun
  refine ⟨s, g, w', hrun, hs.inv, hs.loose, outcome_eq_some.mp hexit, huncarved, fun h => ?_⟩
  have husage := h.usage
  rw [hafter, hbefore, hbin, huncarved] at husage
  exact absurd husage (by decide)

end Runs

end Oxidalloc
