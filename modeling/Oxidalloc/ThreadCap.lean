import Oxidalloc.SlabConservation
import Oxidalloc.ThreadBins

/-!
The cap on the cache of a thread. `free` tests `TLS_MAX_BLOCKS` before it pushes one block,
and `bulk_fill` carves at most as many blocks as the cap allows. `try_fill` takes a batch
from the shared cache without a look at the cap, so a refill of a large class can leave
more blocks in the thread than `free` ever would.
-/
namespace Oxidalloc.ThreadCap

open Interleaving Programs SlabConservation ThreadBins

section Cap

variable {w w' : World} {g : Layout} {t cls limit : ℕ}

/-- No bin of any thread holds more than the cap of its class. -/
def Capped (bins : ℕ → ℕ → TlsBin) : Prop :=
  ∀ t cls limit, tlsMaxBlocks cls = .ok limit → (bins t cls).usage ≤ limit

theorem Capped.put {bins : ℕ → ℕ → TlsBin} (h : Capped bins) {bin : TlsBin}
    (hbin : ∀ limit, tlsMaxBlocks cls = .ok limit → bin.usage ≤ limit) :
    Capped (put bins t cls bin) := by
  intro t' cls' limit hlimit
  rw [put_apply]
  split
  · rename_i heq
    exact hbin limit (heq.2 ▸ hlimit)
  · exact h t' cls' limit hlimit

theorem Capped.pred {bins : ℕ → ℕ → TlsBin} (h : Capped bins) (head : ℕ) :
    Capped (Oxidalloc.put bins t cls ⟨head, (bins t cls).usage - 1⟩) :=
  h.put fun limit hlimit => (Nat.sub_le _ _).trans (h t cls limit hlimit)

/-- One call of `bulk_fill` carves no more blocks than the thread may keep. -/
theorem maxInit_le (h : tlsMaxBlocks cls = .ok limit) : maxInit (payload cls + 16) ≤ limit := by
  obtain ⟨p, hindex, h⟩ := bind_eq_ok.mp h
  obtain ⟨hcls, hp⟩ := index_sizeClasses.mp hindex
  subst hp
  obtain ⟨blockSize, halign, h⟩ := bind_eq_ok.mp h
  have hsize := Except.ok.inj (halign.symm.trans (alignTo_payload hcls))
  subst hsize
  rw [← Except.ok.inj h]
  have hle : ∀ bytes, 4096 ≤ bytes → 4096 / (payload cls + 16) ≤ bytes / (payload cls + 16) :=
    fun bytes hbytes => Nat.div_le_div_right hbytes
  have hsmall := hle tlsSmallClassBytes (by decide)
  have hmedium := hle tlsMediumClassBytes (by decide)
  have hbig := hle tlsBigClassBytes (by decide)
  have hmax : maxInit (payload cls + 16) ≤ max (4096 / (payload cls + 16)) 1 := by
    unfold maxInit
    split <;> omega
  have hhuge : 1024 * 1024 * 16 < payload cls + 16 → 4096 / (payload cls + 16) = 0 := fun hlt =>
    Nat.div_eq_of_lt (by omega)
  refine hmax.trans ?_
  generalize 4096 / (payload cls + 16) = chunk at *
  generalize tlsSmallClassBytes / (payload cls + 16) = small at *
  generalize tlsMediumClassBytes / (payload cls + 16) = medium at *
  generalize tlsBigClassBytes / (payload cls + 16) = big at *
  split_ifs <;> omega

theorem initBlocks_count {r : ℕ × ℕ × ℕ} {metadata blockSize maxBlocks : ℕ}
    (h : Runs (initBlocks cls metadata blockSize maxBlocks) w r w') : r.2.2 ≤ maxBlocks := by
  rw [initBlocks, runs_get_bind] at h
  dsimp only at h
  split at h
  · rw [(runs_pure.mp h).1]
    exact Nat.zero_le _
  · rw [runs_set_bind] at h
    rw [(runs_pure.mp h).1]
    exact min_le_right _ _

/-- The bins after a call of `bulk_fill`: a failed call leaves them as they are, another
one may push a bounded number of blocks. -/
def Refilled (bins bins' : ℕ → ℕ → TlsBin) (t cls n : ℕ) (filled : Bool) : Prop :=
  bins' = bins ∨ (filled = true ∧ ∃ head, ∃ k ≤ n,
    bins' = put bins t cls ⟨head, (bins t cls).usage + k⟩)

theorem openSlab_refills {hint blockSize : ℕ} {r : Bool}
    (h : Runs (openSlab t cls hint blockSize) w r w') :
    Refilled w.binOf w'.binOf t cls (maxInit blockSize) r := by
  rw [openSlab, runs_bind] at h
  obtain ⟨⟨head, tail, count⟩, w₁, hinit, h⟩ := h
  have hbins₁ := initBlocks_bins _ _ _ _ _ _ _ hinit
  have hcount : count ≤ maxInit blockSize := initBlocks_count hinit
  dsimp only at h
  split at h
  · rw [(runs_pure.mp h).2]
    exact Or.inl hbins₁
  · rw [runs_bind] at h
    obtain ⟨_, w₂, hhand, h⟩ := h
    rw [runs_bind] at h
    obtain ⟨_, w₃, hkeep, h⟩ := h
    rw [runs_modify_bind] at h
    obtain ⟨hr, hw'⟩ := runs_pure.mp h
    have hkept := keepRest_bins _ _ _ _ _ _ _ hkeep
    have hbins' : w'.binOf = w₂.binOf := by
      rw [hw']
      exact hkept
    rw [hbins', ← hbins₁]
    rw [handOut, runs_bind] at hhand
    obtain ⟨e, w₄, hengine, hhand⟩ := hhand
    rw [(runs_engine.mp hengine).2] at hhand
    obtain ⟨bin, _, hhand⟩ := runs_attempt_bind.mp hhand
    obtain ⟨limit, _, hhand⟩ := runs_attempt_bind.mp hhand
    split at hhand
    · exact Or.inl (tryPush_bins _ _ _ _ _ _ _ hhand)
    · exact Or.inr ⟨hr, head, count, hcount, pushToThreadTailed_bins hhand⟩

theorem newSlab_refills {payloadSize blockSize numBlocks : ℕ} {r : Bool}
    (h : Runs (newSlab t cls payloadSize blockSize numBlocks) w r w') :
    Refilled w.binOf w'.binOf t cls (maxInit blockSize) r := by
  rw [newSlab, runs_bind] at h
  obtain ⟨found, w₁, halloc, h⟩ := h
  have hbins₁ := onVa_bins _ _ _ halloc
  cases found with
  | none => exact absurd h runs_throw
  | some hint =>
    rw [runs_bind] at h
    obtain ⟨mapped, w₂, hmap, h⟩ := h
    have hbins₂ := (mmapFixed_bins _ _ _ _ _ hmap).trans hbins₁
    cases mapped with
    | false =>
      rw [if_neg Bool.false_ne_true, runs_bind] at h
      obtain ⟨_, w₃, hfree, h⟩ := h
      rw [(runs_pure.mp h).2]
      exact Or.inl ((onVa_bins _ _ _ hfree).trans hbins₂)
    | true =>
      rw [if_pos rfl, runs_modify_bind, runs_bind] at h
      obtain ⟨_, w₃, hadvise, h⟩ := h
      have hbins₃ : w₃.binOf = w.binOf := (adviseSlab_bins _ _ _ _ _ _ hadvise).trans hbins₂
      rw [← hbins₃]
      exact openSlab_refills h

theorem bulkFill_refills {r : Bool} (h : Runs (bulkFill t cls) w r w') :
    Refilled w.binOf w'.binOf t cls (maxInit (payload cls + 16)) r := by
  rw [bulkFill] at h
  obtain ⟨_, h⟩ := runs_sizes_bind h
  obtain ⟨numBlocks, _, h⟩ := runs_attempt_bind.mp h
  rw [runs_bind] at h
  obtain ⟨e, w₁, hengine, h⟩ := h
  rw [(runs_engine.mp hengine).2] at h
  dsimp only at h
  split at h
  · exact newSlab_refills h
  · rw [runs_bind] at h
    obtain ⟨⟨head, tail, count⟩, w₂, hinit, h⟩ := h
    have hbins₂ := initBlocks_bins _ _ _ _ _ _ _ hinit
    rw [← hbins₂]
    dsimp only at h
    split at h
    · rw [runs_bind] at h
      obtain ⟨_, w₃, hpush, h⟩ := h
      rw [runs_bind] at h
      obtain ⟨_, w₄, hdrop, h⟩ := h
      obtain ⟨hr, hw'⟩ := runs_pure.mp h
      rw [hw', dropRest_bins _ _ _ _ _ _ _ hdrop]
      exact Or.inr ⟨hr, head, count, initBlocks_count hinit, pushToThreadTailed_bins hpush⟩
    · rw [runs_bind] at h
      obtain ⟨_, w₃, hdrop, h⟩ := h
      rw [← setPending_bins _ _ _ _ _ _ hdrop]
      exact newSlab_refills h

/-- A refill from a slab starts with an empty bin. -/
theorem Refilled.capped {bins bins' : ℕ → ℕ → TlsBin} {filled : Bool}
    (h : Refilled bins bins' t cls (maxInit (payload cls + 16)) filled) (hcap : Capped bins)
    (hempty : (bins t cls).usage = 0) : Capped bins' := by
  rcases h with hsame | ⟨_, head, k, hk, hpushed⟩
  · rwa [hsame]
  · rw [hpushed]
    refine hcap.put fun limit hlimit => ?_
    have hle := maxInit_le hlimit
    simp only [hempty]
    omega

theorem popFromThread_capped {r : ℕ} (hcap : Capped w.binOf)
    (h : Runs (popFromThread t cls) w r w') : Capped w'.binOf := by
  rcases popFromThread_bins h with ⟨_, hw', _⟩ | ⟨_, head, hbins⟩
  · rwa [hw']
  · rw [hbins]
    exact hcap.pred head

theorem fillAttempts_capped {r : ℕ} (n : ℕ) (hcap : Capped w.binOf)
    (hempty : (w.binOf t cls).usage = 0) (h : Runs (fillAttempts t cls n) w r w') :
    Capped w'.binOf := by
  induction n generalizing w with
  | zero =>
    rw [(runs_pure.mp h).2]
    exact hcap
  | succ n ih =>
    rw [fillAttempts, runs_bind] at h
    obtain ⟨filled, w₁, hfill, h⟩ := h
    have hrefilled := bulkFill_refills hfill
    have hcap₁ := hrefilled.capped hcap hempty
    cases filled with
    | true =>
      rw [if_pos rfl, runs_bind] at h
      obtain ⟨output, w₂, hpop, h⟩ := h
      rw [runs_bind] at h
      obtain ⟨_, w₃, hbump, h⟩ := h
      rw [(runs_pure.mp h).2, bumpBatchHint_bins _ _ _ _ _ hbump]
      exact popFromThread_capped hcap₁ hpop
    | false =>
      rw [if_neg Bool.false_ne_true] at h
      rcases hrefilled with hsame | ⟨hfilled, _⟩
      · exact ih hcap₁ (by rw [hsame]; exact hempty) h
      · exact absurd hfilled Bool.false_ne_true

/-- No shard has a batch for the class that is too large for the cache of a thread: all
but one of its blocks stay there. -/
def SmallBatches (w : World) (cls : ℕ) : Prop :=
  ∀ cpu limit, tlsMaxBlocks cls = .ok limit →
    min (clampBatch (w.batchHints cls)) (w.icc.usage cpu cls) ≤ limit + 1

theorem tryFill_capped {r : ℕ} (hinv : Inv w g) (hl : LooseAre g cls []) (hcap : Capped w.binOf)
    (hempty : (w.binOf t cls).usage = 0) (hsmall : SmallBatches w cls)
    (h : Runs (tryFill t cls) w r w') : Capped w'.binOf := by
  rw [tryFill, runs_get_bind] at h
  dsimp only at h
  have hpos := clampBatch_pos (w.batchHints cls)
  unfold SmallBatches at hsmall
  generalize clampBatch (w.batchHints cls) = batch at h hpos hsmall
  rw [runs_bind] at h
  obtain ⟨head, w₁, hpop, h⟩ := h
  have hbins₁ := tryPop_bins _ _ _ _ _ hpop
  rcases tryPop_spec hinv hl hpos hpop with
    ⟨hnull, _⟩ | ⟨hnull, cpu, m, g₁, hinv₁, _, hl₁, hlinked, hne, hlen, _⟩
  · rw [if_neg (fun hsome => hsome hnull), runs_bind] at h
    obtain ⟨_, w₂, hbump, h⟩ := h
    have hbins₂ := (bumpBatchHint_bins _ _ _ _ _ hbump).trans hbins₁
    rw [← hbins₂] at hcap hempty
    exact fillAttempts_capped 3 hcap hempty h
  · rw [if_pos hnull, runs_get_bind] at h
    obtain ⟨m₁, tail, _, hrecount⟩ := recount_spec (n := batch - 1) hinv₁ hl₁ hlinked hne (by omega)
    rw [hrecount] at h
    dsimp only at h
    rw [runs_modify_bind, runs_bind] at h
    obtain ⟨_, w₂, hpush, h⟩ := h
    rw [runs_bind] at h
    obtain ⟨_, w₃, hbump, hpop₃⟩ := h
    have hbins₂ : w₂.binOf = put w.binOf t cls ⟨head, m.length⟩ := by
      have hpushed := pushToThreadTailed_bins hpush
      have hsame : World.binOf { w₁ with mem := OxHeader.setNext w₁.mem tail 0 } = w.binOf := hbins₁
      rw [hpushed, hsame, hempty, Nat.zero_add]
    have hbins₃ := (bumpBatchHint_bins _ _ _ _ _ hbump).trans hbins₂
    have hbin : w₃.binOf t cls = ⟨head, m.length⟩ := by
      rw [hbins₃, put_apply, if_pos ⟨rfl, rfl⟩]
    -- the bin is not empty, so one of the blocks leaves it again
    rcases popFromThread_bins hpop₃ with ⟨_, _, hzero⟩ | ⟨_, next, hbins'⟩
    · rw [hbin] at hzero
      exact absurd hzero hnull
    · have hput : w'.binOf = put w.binOf t cls ⟨next, m.length - 1⟩ := by
        rw [hbins', hbin, hbins₃]
        funext t' cls'
        simp only [put_apply]
        split <;> rfl
      rw [hput]
      refine hcap.put fun limit hlimit => ?_
      have hbatch := hsmall cpu limit hlimit
      have hle : m.length ≤ min batch (w.icc.usage cpu cls) := hlen
      show m.length - 1 ≤ limit
      omega

/-- An empty bin has the counter zero. -/
theorem usage_of_empty (hinv : Inv w g) (h : (w.binOf t cls).head = 0) :
    (w.binOf t cls).usage = 0 := by
  obtain ⟨l, hchain, husage, _⟩ := hinv.chains (.bin t cls)
  have hnil : l = [] := by
    have hnull : w.headOf (.bin t cls) = 0 := h
    rw [Chain, hnull] at hchain
    exact hchain.eq_nil
  rw [hnil] at husage
  exact husage

/-- The refill of this bin, if it is needed, is small enough. -/
def RefillFits (w : World) (t cls : ℕ) : Prop :=
  (w.binOf t cls).head ≠ 0 ∨ SmallBatches w cls

theorem RefillFits.congr (h : RefillFits w t cls) (hsame : levels w' = levels w) :
    RefillFits w' t cls := by
  obtain ⟨hbins, hsame⟩ := Prod.mk.inj hsame
  obtain ⟨husage, hhints⟩ := Prod.mk.inj hsame
  unfold RefillFits SmallBatches
  rw [hbins, husage, hhints]
  exact h

theorem popOrFill_capped {r : ℕ} (hinv : Inv w g) (hl : LooseAre g cls []) (hcap : Capped w.binOf)
    (hfits : RefillFits w t cls) (h : Runs (popOrFill t cls) w r w') : Capped w'.binOf := by
  rw [popOrFill, runs_bind] at h
  obtain ⟨cache, w₁, hpop, h⟩ := h
  rcases popFromThread_bins hpop with ⟨hnull, hw₁, hhead⟩ | ⟨hsome, head, hbins⟩
  · rw [if_pos hnull, hw₁] at h
    exact tryFill_capped hinv hl hcap (usage_of_empty hinv hhead)
      (hfits.resolve_left fun hne => hne hhead) h
  · rw [if_neg hsome] at h
    rw [(runs_pure.mp h).2, hbins]
    exact hcap.pred head

theorem takeBlock_capped {r : ℕ} (hinv : Inv w g) (hno : NoLoose g) (hcap : Capped w.binOf)
    (hfits : RefillFits w t cls) (h : Runs (takeBlock t cls) w r w') : Capped w'.binOf := by
  rw [takeBlock, runs_bind] at h
  obtain ⟨_, w₁, hengine, h⟩ := h
  have hlevels := getOrInit_levels t _ _ _ hengine
  have hbins : w₁.binOf = w.binOf := congrArg Prod.fst hlevels
  have hinv₁ := hinv.sameHeap (getOrInit_sameHeap hinv.wf hengine).1
  rw [runs_bind] at h
  obtain ⟨cache, w₂, hcache, h⟩ := h
  rw [← hbins] at hcap
  have hcap₂ := popOrFill_capped hinv₁ (looseAre_nil.mpr hno) hcap (hfits.congr hlevels) hcache
  split at h
  · rw [(runs_pure.mp h).2]
    exact hcap₂
  · rw [runs_modify_bind] at h
    rw [(runs_pure.mp h).2]
    exact hcap₂

theorem allocateClass_capped {r : ℕ} (hinv : Inv w g) (hno : NoLoose g) (hcap : Capped w.binOf)
    (hfits : RefillFits w t cls) (h : Runs (allocateClass t cls) w r w') : Capped w'.binOf := by
  rw [allocateClass, runs_get_bind] at h
  split at h
  · exact takeBlock_capped hinv hno hcap hfits h
  · rw [allocateBootSegment, runs_bind] at h
    obtain ⟨_, w₁, hboot, h⟩ := h
    obtain ⟨hinv₁, _, hbooted₁⟩ := bootStrap_spec hinv hboot
    rw [runs_bind] at h
    obtain ⟨_, w₂, hcount, h⟩ := h
    have hinv₂ := (countBoot_spec hinv₁ hbooted₁ hcount).1
    have hlevels := (countBoot_levels _ _ _ hcount).trans (bootStrap_levels t _ _ _ hboot)
    have hbins : w₂.binOf = w.binOf := congrArg Prod.fst hlevels
    rw [← hbins] at hcap
    exact takeBlock_capped hinv₂ hno hcap (hfits.congr hlevels) h

/-- The test of the cap comes before the push. -/
theorem slabFree_capped {u : Unit} {header : ℕ} (hcap : Capped w.binOf)
    (h : Runs (slabFree t cls header) w u w') : Capped w'.binOf := by
  rw [slabFree, runs_modify_bind, runs_bind] at h
  obtain ⟨_, w₁, hengine, h⟩ := h
  have hbins : w₁.binOf = w.binOf := congrArg Prod.fst (getOrInit_levels t _ _ _ hengine)
  rw [← hbins] at hcap
  rw [runs_bind] at h
  obtain ⟨e, w₂, he, h⟩ := h
  obtain ⟨he, hw₂⟩ := runs_engine.mp he
  rw [hw₂] at h
  obtain ⟨bin, hbin, h⟩ := runs_attempt_bind.mp h
  obtain ⟨_, hbin⟩ := bin_eq_ok.mp hbin
  obtain ⟨limit, hlimit, h⟩ := runs_attempt_bind.mp h
  split at h
  · rw [tryPush_bins _ _ _ _ _ _ _ h]
    exact hcap
  · rename_i hroom
    rw [pushToThreadTailed_bins h, binOf_eq he, ← hbin]
    refine hcap.put fun limit' hlimit' => ?_
    rw [← Except.ok.inj (hlimit.symm.trans hlimit')]
    show bin.usage + 1 ≤ limit
    omega

end Cap

section System

variable {s s' : State} {g : Layout}

/-- The condition on a call of `malloc`, in the state just before it. -/
def CallFits (s : State) : Op → Prop
  | .malloc t cls => RefillFits s.world t cls
  | _ => True

theorem step_capped {op : Op} (hs : Laid s g) (hcap : Capped s.world.binOf) (hfits : CallFits s op)
    (h : step s op = some s') : Capped s'.world.binOf := by
  cases op with
  | malloc t cls =>
    rw [step, Option.map_eq_some_iff] at h
    obtain ⟨⟨r, w⟩, hrun, heq⟩ := h
    rw [← heq]
    exact allocateClass_capped hs.inv hs.loose hcap hfits (outcome_eq_some.mp hrun)
  | free t ptr =>
    rw [step] at h
    split at h
    · rename_i hmem
      obtain ⟨⟨u, w⟩, hrun, heq⟩ := Option.map_eq_some_iff.mp h
      obtain ⟨header, hptr, hheld⟩ := (hs.user ptr).mp hmem
      subst hptr
      rw [← heq]
      exact slabFree_capped hcap
        (freeInternal_slab hs.inv hheld (hs.cls header hheld) (outcome_eq_some.mp hrun))
    · contradiction
  | trim pad =>
    obtain ⟨⟨r, w⟩, hrun, heq⟩ := Option.map_eq_some_iff.mp h
    rw [← heq]
    show Capped w.binOf
    rw [trim_bins pad _ _ _ (outcome_eq_some.mp hrun)]
    exact hcap
  | observe stamp pressure =>
    rw [← Option.some.inj h]
    exact hcap

/-- From any state of the heap with all bins within the cap, in which the hints and the
contents of the shared cache are arbitrary, the bins stay within the cap in a run in which
every refill from the shared cache fits. -/
theorem thread_cache_stays_capped (s₀ : State) (g : Layout) (hs : Laid s₀ g)
    (hcap : Capped s₀.world.binOf) (ops : List Op) (s : State) (hok : Guarded step CallFits s₀ ops)
    (hrun : run step s₀ ops = some s) : Capped s.world.binOf := by
  have hstep : ∀ s op s', (∃ g, Laid s g) ∧ Capped s.world.binOf → CallFits s op →
      step s op = some s' → (∃ g, Laid s' g) ∧ Capped s'.world.binOf := by
    rintro s op s' ⟨⟨g, hlaid⟩, hcap⟩ hfits hstep
    exact ⟨(step_laid ⟨g, hlaid⟩ hstep).1, step_capped hlaid hcap hfits hstep⟩
  exact (run_invariant hstep ⟨⟨g, hs⟩, hcap⟩ hok hrun).2

theorem clampBatch_le (val : ℕ) : clampBatch val ≤ batchMax := min_le_right _ _

/-- A class of which a thread may keep 31 blocks takes every batch. -/
theorem smallBatches_of_cap {w : World} {cls limit : ℕ} (h : tlsMaxBlocks cls = .ok limit)
    (hlimit : 31 ≤ limit) : SmallBatches w cls := by
  intro cpu limit' hlimit'
  rw [← Except.ok.inj (h.symm.trans hlimit')]
  have hbatch : clampBatch (w.batchHints cls) ≤ 32 := clampBatch_le _
  omega

theorem capped_initial (env : Env) (sys : ℕ → ℕ) : Capped (initial env sys).world.binOf :=
  fun _ _ _ _ => Nat.zero_le _

theorem thread_cache_stays_capped_crossFree :
    ∃ s, run step (initial ⟨none, none, 1⟩ grantAll) crossFree = some s ∧
      s.user = [4294979632] ∧ Capped s.world.binOf := by
  obtain ⟨s, hrun, heq⟩ := Option.map_eq_some_iff.mp crossFree_result
  have hcap : tlsMaxBlocks 20 = .ok 31 := by decide
  have hsmall : ∀ w : World, SmallBatches w 20 := fun w => smallBatches_of_cap hcap (Nat.le_refl _)
  have hok : Guarded step CallFits (initial ⟨none, none, 1⟩ grantAll) crossFree :=
    ⟨Or.inr (hsmall _), fun s _ => ⟨Or.inr (hsmall _), fun _ _ => ⟨trivial, fun _ _ =>
      ⟨trivial, fun _ _ => trivial⟩⟩⟩⟩
  exact ⟨s, hrun, (Prod.mk.inj heq).1,
    thread_cache_stays_capped _ _ (laid_initial _ _) (capped_initial _ _) crossFree s hok hrun⟩

/-- One thread allocates and frees four blocks of the class of 32768 bytes, of which it
may keep one; then another thread allocates a block. -/
def handedOver : List Op :=
  [.malloc 0 27, .malloc 0 27, .malloc 0 27, .malloc 0 27, .free 0 4294971440, .free 0 4295008304,
    .free 0 4295045168, .free 0 4295082032, .malloc 1 27]

/-- Three blocks come from the shared cache, and two of them stay. -/
theorem refill_exceeds_cap :
    ∃ s, run step (initial ⟨none, none, 1⟩ grantAll) handedOver = some s ∧
      tlsMaxBlocks 27 = .ok 1 ∧ (s.world.binOf 1 27).usage = 2 ∧ ¬Capped s.world.binOf := by
  have hresult : (run step (initial ⟨none, none, 1⟩ grantAll) handedOver).map
      (fun s => (s.world.binOf 1 27).usage) = some 2 := by
    decide +kernel
  obtain ⟨s, hrun, husage⟩ := Option.map_eq_some_iff.mp hresult
  have hcap : tlsMaxBlocks 27 = .ok 1 := by decide
  refine ⟨s, hrun, hcap, husage, fun h => ?_⟩
  have hle := h 1 27 1 hcap
  omega

end System

end Oxidalloc.ThreadCap
