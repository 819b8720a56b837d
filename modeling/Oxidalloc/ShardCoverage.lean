import Mathlib.Data.Set.Card
import Oxidalloc.CacheListsRefinement
import Oxidalloc.CyclicProbe
import Oxidalloc.Interleaving

/-!
The shards of the shared cache and the CPUs of the process. A shard is chosen by the
number of the CPU, while there are as many shards as the process has CPUs, and `try_pop`
and `get_size` look at the shards below that count only. If the CPUs are numbered from
zero without gaps, every cached block is found from every CPU and counted.
-/
namespace Oxidalloc.CacheLists

open EncodedChain HeadPacking Interleaving Function

/-- The field `used` is no part of the program: it has the shards that the calls have
used. -/
structure Shards where
  lists : Lists
  ncpu : ℕ
  used : List ℕ

/-- The state once `ensure_cache` has counted the CPUs. -/
def Shards.new (cpus : Finset ℕ) : Shards := ⟨.new, cpus.card, []⟩

section Calls

variable (b : Build)

/-- The shards that `try_pop` looks at, in their order. -/
def victims (ncpu cpu : ℕ) : List ℕ :=
  cpu :: (List.range' 1 (ncpu - 1)).map (CyclicProbe.position ncpu cpu)

/-- The loop of `try_pop`, with the shards it has looked at. -/
def popFirst (cls batchSize : ℕ) : List ℕ → Lists → Option (ℕ × List ℕ × Lists)
  | [], s => some (0, [], s)
  | shard :: rest, s =>
    (pop b cls batchSize shard s).bind fun (popped, s') =>
      match popped with
      | some head => some (head, [shard], s')
      | none => (popFirst cls batchSize rest s').map fun (head, used, s'') =>
          (head, shard :: used, s'')

def tryPop (cls batchSize cpu : ℕ) (s : Shards) : Option (ℕ × Shards) :=
  (popFirst b cls batchSize (victims s.ncpu cpu) s.lists).map fun (head, used, lists) =>
    (head, { s with lists := lists, used := s.used ++ used })

/-- The sum panics if it overflows. -/
def getSize (cls : ℕ) (s : Shards) : Option ℕ :=
  (List.range s.ncpu).foldlM
    (fun total i =>
      if total + s.lists.usage i cls < usizeBound then some (total + s.lists.usage i cls) else none)
    0

/-- A chain is pushed with the number of its blocks. -/
inductive Call where
  | tryPush (cpu cls : ℕ) (chain : List ℕ)
  | tryPop (cpu cls batchSize : ℕ)
  | write (ptr val : ℕ)

def callStep (s : Shards) : Call → Option Shards
  | .tryPush cpu cls chain =>
    (pushToGlobal b cpu cls (chain.headD 0) (chain.getLastD 0) chain.length s.lists).map
      fun lists => { s with lists := lists, used := s.used ++ [cpu] }
  | .tryPop cpu cls batchSize => (tryPop b cls batchSize cpu s).map (·.2)
  | .write ptr val => some { s with lists := s.lists.setNext ptr val }

def shardBlocks (s : Lists) (shard cls : ℕ) : List ℕ :=
  walk (b.xorPtr b.numaKey) s.next 0 usizeBound (b.headPtr (s.list shard cls))

def Cached (s : Lists) (cls x : ℕ) : Prop := ∃ shard, x ∈ shardBlocks b s shard cls

/-- The calls come from the CPUs of the process, a chain that is pushed is in the hands of
the caller, and so is a block whose link the caller writes. -/
def CallValid (block : ℕ → Prop) (cpus : Finset ℕ) (s : Shards) : Call → Prop
  | .tryPush cpu _ chain =>
    cpu ∈ cpus ∧ chain ≠ [] ∧ chain.Nodup ∧ (chain.IsChain fun x y => s.lists.next x = y) ∧
      ∀ x ∈ chain, block x ∧ ∀ cls, ¬ Cached b s.lists cls x
  | .tryPop cpu _ _ => cpu ∈ cpus
  | .write ptr _ => ∀ cls, ¬ Cached b s.lists cls ptr

/-- Every cached block is reachable from every CPU, and counted. -/
structure Covers (cpus : Finset ℕ) (s : Shards) : Prop where
  used : ∀ shard ∈ s.used, shard < s.ncpu
  pop : ∀ cls batchSize, ∀ cpu ∈ cpus, ∃ head s', tryPop b cls batchSize cpu s = some (head, s') ∧
    (head = 0 ↔ ∀ x, ¬ Cached b s.lists cls x)
  size : ∀ cls, getSize cls s = some {x | Cached b s.lists cls x}.ncard

end Calls

section Coverage

variable {b : Build} {cpus : Finset ℕ} {s : Shards} {a : Abs} {cls : ℕ}

/-- The blocks of the shards as lists. Only the shards below `ncpu` have any. -/
structure ShardsOf (b : Build) (s : Shards) (a : Abs) : Prop where
  rep : Rep b (fun _ => True) s.lists a
  ok : a.Ok b.Avoids
  shard : ∀ y x, x ∈ a.blocks y → ∃ i cls, y = .cache (.shard i cls) ∧ i < s.ncpu
  count : ∀ i cls, a.usage (.shard i cls) = (a.blocks (.cache (.shard i cls))).length

theorem mem_victims {ncpu cpu i : ℕ} (hcpu : cpu < ncpu) : i ∈ victims ncpu cpu ↔ i < ncpu := by
  rw [victims, List.mem_cons, List.mem_map]
  constructor
  · rintro (rfl | ⟨j, _, rfl⟩)
    · exact hcpu
    · exact CyclicProbe.position_lt ncpu cpu j (by omega)
  · intro hi
    by_cases hzero : CyclicProbe.distance ncpu cpu i = 0
    · have hpos := CyclicProbe.position_distance ncpu cpu i hi
      rw [hzero, CyclicProbe.position_zero, Nat.mod_eq_of_lt hcpu] at hpos
      exact Or.inl hpos.symm
    · refine Or.inr ⟨_, ?_, CyclicProbe.position_distance ncpu cpu i hi⟩
      have hlt := CyclicProbe.distance_lt ncpu cpu i (by omega)
      rw [List.mem_range'_1]
      omega

theorem ShardsOf.blocks_eq (h : ShardsOf b s a) (i cls : ℕ) :
    shardBlocks b s.lists i cls = a.blocks (.cache (.shard i cls)) := by
  have hgood := h.ok.good (.cache (.shard i cls))
  refine (h.rep.chains (.shard i cls) trivial).walk_eq (fun x hx => ?_) (fun x hx => ?_) ?_
  · exact xorPtr_xorPtr (k := .shard i cls) (hgood x hx)
  · exact xorPtr_ne_zero (hgood x hx)
  · exact length_lt_of_blocks (h.ok.nodup _) fun x hx => (hgood x hx).isBlock

theorem ShardsOf.cached_iff (h : ShardsOf b s a) {x : ℕ} :
    Cached b s.lists cls x ↔ ∃ i < s.ncpu, x ∈ a.blocks (.cache (.shard i cls)) := by
  unfold Cached
  constructor
  · intro ⟨i, hx⟩
    rw [h.blocks_eq] at hx
    obtain ⟨j, cls', heq, hj⟩ := h.shard _ x hx
    rw [Store.cache.injEq, Cache.shard.injEq] at heq
    exact ⟨i, by omega, hx⟩
  · intro ⟨i, _, hx⟩
    exact ⟨i, by rw [h.blocks_eq]; exact hx⟩

theorem ShardsOf.place_eq_none (h : ShardsOf b s a) {x : ℕ}
    (hx : ∀ cls, ¬ Cached b s.lists cls x) : a.place x = none := by
  by_contra hne
  obtain ⟨y, hy⟩ := Option.ne_none_iff_exists'.mp hne
  rw [← h.ok.mem] at hy
  obtain ⟨i, cls, rfl, hi⟩ := h.shard y x hy
  exact hx cls (h.cached_iff.mpr ⟨i, hi, hy⟩)

theorem ShardsOf.new (b : Build) (cpus : Finset ℕ) : ShardsOf b (.new cpus) .new :=
  ⟨rep_new b _, Abs.ok_new, nofun, fun _ _ => rfl⟩

/-- One shard gets other blocks, and its counter is their number. -/
theorem ShardsOf.step {lists : Lists} {a' : Abs} {i : ℕ} {l : List ℕ} (h : ShardsOf b s a)
    (hi : i < s.ncpu) (used : List ℕ) (hrep : Rep b (fun _ => True) lists a')
    (hok : a'.Ok b.Avoids)
    (hblocks : a'.blocks = update a.blocks (.cache (.shard i cls)) l)
    (husage : a'.usage = update a.usage (.shard i cls) l.length) :
    ShardsOf b { s with lists := lists, used := used } a' := by
  refine ⟨hrep, hok, fun y x hx => ?_, fun j cls' => ?_⟩
  · rw [hblocks, update_apply] at hx
    split at hx
    · exact ⟨i, cls, by assumption, hi⟩
    · exact h.shard y x hx
  · rw [hblocks, husage]
    by_cases heq : Cache.shard j cls' = .shard i cls
    · rw [heq, update_self, update_self]
    · rw [update_of_ne heq, update_of_ne fun hc => heq (Store.cache.inj hc)]
      exact h.count j cls'

theorem ShardsOf.tryPush {cpu : ℕ} {chain : List ℕ} (h : ShardsOf b s a) (cls : ℕ)
    (hcpu : cpu < s.ncpu)
    (hne : chain ≠ []) (hnodup : chain.Nodup)
    (hlinks : chain.IsChain fun x y => s.lists.next x = y)
    (hchain : ∀ x ∈ chain, b.Avoids x ∧ ∀ cls, ¬ Cached b s.lists cls x) :
    ∃ s' a', callStep b s (.tryPush cpu cls chain) = some s' ∧ ShardsOf b s' a' ∧
      s'.ncpu = s.ncpu ∧ s'.used = s.used ++ [cpu] := by
  have hfree : ∀ x ∈ chain, b.Avoids x ∧ a.place x = none := fun x hx =>
    ⟨(hchain x hx).1, h.place_eq_none (hchain x hx).2⟩
  obtain ⟨body, e, hsplit, hstored⟩ := stored_of_isChain (d := 0) hne hlinks
  obtain ⟨lists, hlists, hrep⟩ := pushToGlobal_refines cpu cls chain.length h.rep h.ok trivial
    hstored (hsplit ▸ hnodup) (by rw [← hsplit]; exact hfree)
  rw [← hsplit] at hrep
  have hok : (a.pushShard cpu cls chain chain.length).Ok b.Avoids := h.ok.pushShard hnodup hfree
  have hlt := length_lt_of_blocks (hok.nodup (.cache (.shard cpu cls))) fun x hx =>
    (hok.good _ x hx).isBlock
  have hblocks : (a.pushShard cpu cls chain chain.length).blocks (.cache (.shard cpu cls)) =
      chain ++ a.blocks (.cache (.shard cpu cls)) := update_self _ _ _
  rw [hblocks, List.length_append] at hlt
  refine ⟨{ s with lists := lists, used := s.used ++ [cpu] },
    a.pushShard cpu cls chain chain.length, ?_, ?_, rfl, rfl⟩
  · rw [callStep, hlists, Option.map_some]
  refine h.step hcpu _ hrep hok rfl ?_
  show update a.usage _ ((a.usage (.shard cpu cls) + chain.length) % usizeBound) = _
  rw [h.count, Nat.add_comm, Nat.mod_eq_of_lt hlt, List.length_append]

theorem ShardsOf.pop {i : ℕ} (h : ShardsOf b s a) (hi : i < s.ncpu) (cls batchSize : ℕ) :
    (pop b cls batchSize i s.lists = some (none, s.lists) ∧
        a.blocks (.cache (.shard i cls)) = []) ∨
      ∃ head lists a', pop b cls batchSize i s.lists = some (some head, lists) ∧ head ≠ 0 ∧
        a.blocks (.cache (.shard i cls)) ≠ [] ∧
        ∀ used, ShardsOf b { s with lists := lists, used := used } a' := by
  have hok : (a.popShard cls batchSize i).2.Ok b.Avoids := h.ok.popShard
  have hcount := h.count i cls
  rcases pop_refines i cls batchSize h.rep h.ok trivial with
    ⟨hpop, habs⟩ | ⟨lists, m, a', hpop, habs, hrep, _, _, hgood⟩
  · refine Or.inl ⟨hpop, ?_⟩
    unfold Abs.popShard at habs
    dsimp only at habs
    split at habs
    · rename_i hnone
      rw [hcount, List.length_eq_zero_iff, or_self] at hnone
      exact hnone
    · exact absurd (congrArg Prod.fst habs) nofun
  · rw [habs] at hok
    unfold Abs.popShard at habs
    dsimp only at habs
    split at habs
    · exact absurd (congrArg Prod.fst habs) nofun
    · rename_i hsome
      rw [hcount, List.length_eq_zero_iff, or_self] at hsome
      obtain ⟨hm, ha'⟩ := Prod.mk.inj habs
      have hm := Option.some.inj hm
      refine Or.inr ⟨_, lists, a', hpop, ?_, hsome, fun used => ?_⟩
      · cases hblocks : a.blocks (.cache (.shard i cls)) with
        | nil => exact absurd hblocks hsome
        | cons x rest =>
          rw [hblocks, show max batchSize 1 = batchSize - 1 + 1 by omega, List.take_succ_cons] at hm
          rw [← hm]
          exact (hgood x (by rw [← hm]; exact List.mem_cons_self)).isBlock.ne_null
      · refine h.step hi used hrep hok
          (l := (a.blocks (.cache (.shard i cls))).drop (max batchSize 1))
          (by rw [← ha']; rfl) ?_
        rw [← ha']
        show update a.usage _ _ = _
        have hlt := length_lt_of_blocks (h.ok.nodup (.cache (.shard i cls))) fun x hx =>
          (h.ok.good _ x hx).isBlock
        rw [hcount, List.length_drop, List.length_take]
        congr 1
        have hle := Nat.min_le_right (max batchSize 1) (a.blocks (.cache (.shard i cls))).length
        have hsum : ∀ n k B : ℕ, k ≤ n → n < B → (n + (B - k)) % B = n - k := by
          intro n k B hk hn
          rw [show n + (B - k) = n - k + B by omega, Nat.add_mod_right,
            Nat.mod_eq_of_lt (by omega)]
        rw [hsum _ _ _ hle hlt]
        omega

/-- The loop finds a block if one of the shards has any. -/
theorem ShardsOf.popFirst {shards : List ℕ} (h : ShardsOf b s a)
    (hshards : ∀ i ∈ shards, i < s.ncpu) (cls batchSize : ℕ) :
    ∃ head used lists a', popFirst b cls batchSize shards s.lists = some (head, used, lists) ∧
      (head = 0 ↔ ∀ i ∈ shards, a.blocks (.cache (.shard i cls)) = []) ∧ used ⊆ shards ∧
      ∀ used, ShardsOf b { s with lists := lists, used := used } a' := by
  induction shards with
  | nil => exact ⟨0, [], s.lists, a, rfl, ⟨fun _ => nofun, fun _ => rfl⟩, List.Subset.refl [],
      fun _ => ⟨h.rep, h.ok, h.shard, h.count⟩⟩
  | cons i shards ih =>
    rw [CacheLists.popFirst]
    rcases h.pop (hshards i List.mem_cons_self) cls batchSize with
      ⟨hpop, hempty⟩ | ⟨head, lists, a', hpop, hhead, hsome, hstep⟩
    · obtain ⟨head, used, lists, a', hrest, hiff, hsub, hstep⟩ :=
        ih fun j hj => hshards j (List.mem_cons_of_mem i hj)
      refine ⟨head, i :: used, lists, a', ?_, ?_, List.cons_subset_cons i hsub, hstep⟩
      · rw [hpop, Option.bind_some]
        dsimp only
        rw [hrest, Option.map_some]
      · rw [hiff, List.forall_mem_cons]
        exact ⟨fun hall => ⟨hempty, hall⟩, fun hall => hall.2⟩
    · refine ⟨head, [i], lists, a', ?_, ?_, ?_, hstep⟩
      · rw [hpop, Option.bind_some]
      · exact ⟨fun heq => absurd heq hhead, fun hall => absurd (hall i List.mem_cons_self) hsome⟩
      · exact List.cons_subset_cons i (List.nil_subset shards)

theorem ShardsOf.tryPop {cpu : ℕ} (h : ShardsOf b s a) (hcpu : cpu < s.ncpu) (cls batchSize : ℕ) :
    ∃ head s' a', tryPop b cls batchSize cpu s = some (head, s') ∧
      (head = 0 ↔ ∀ x, ¬ Cached b s.lists cls x) ∧ ShardsOf b s' a' ∧ s'.ncpu = s.ncpu ∧
      ∀ i ∈ s'.used, i ∈ s.used ∨ i < s.ncpu := by
  obtain ⟨head, used, lists, a', hpop, hiff, hsub, hstep⟩ := h.popFirst
    (fun i hi => (mem_victims hcpu).mp hi) cls batchSize
  refine ⟨head, { s with lists := lists, used := s.used ++ used }, a', ?_, ?_, hstep _, rfl,
    fun i hi => ?_⟩
  · rw [CacheLists.tryPop, hpop, Option.map_some]
  · rw [hiff]
    constructor
    · intro hall x hx
      obtain ⟨i, hi, hmem⟩ := h.cached_iff.mp hx
      rw [hall i ((mem_victims hcpu).mpr hi)] at hmem
      contradiction
    · intro hall i hi
      refine List.eq_nil_iff_forall_not_mem.mpr fun x hx => ?_
      exact hall x (h.cached_iff.mpr ⟨i, (mem_victims hcpu).mp hi, hx⟩)
  · rcases List.mem_append.mp hi with hold | hnew
    · exact Or.inl hold
    · exact Or.inr ((mem_victims hcpu).mp (hsub hnew))

theorem ShardsOf.write {ptr val : ℕ} (h : ShardsOf b s a)
    (hptr : ∀ cls, ¬ Cached b s.lists cls ptr) :
    ShardsOf b { s with lists := s.lists.setNext ptr val }
      { a with link := fun _ => none } := by
  have hplace := h.place_eq_none hptr
  refine ⟨⟨fun k hk => ?_, fun k hk => ?_, h.rep.pending, nofun⟩,
    ⟨h.ok.mem, h.ok.nodup, h.ok.good, fun _ _ _ => rfl⟩, h.shard, h.count⟩
  · rw [show (s.lists.setNext ptr val).wordOf b k = s.lists.wordOf b k by cases k <;> rfl]
    refine h.rep.chain_congr hk fun y hy => update_of_ne ?_ _ _
    intro heq
    rw [h.ok.mem, heq, hplace] at hy
    contradiction
  · rw [show (s.lists.setNext ptr val).usageOf k = s.lists.usageOf k by cases k <;> rfl]
    exact h.rep.usage k hk

/-- The blocks of a class in all shards. -/
def allBlocks (a : Abs) (ncpu cls : ℕ) : List ℕ :=
  (List.range ncpu).flatMap fun i => a.blocks (.cache (.shard i cls))

theorem ShardsOf.allBlocks_nodup (h : ShardsOf b s a) (cls : ℕ) :
    (allBlocks a s.ncpu cls).Nodup := by
  refine List.nodup_flatMap.mpr ⟨fun i _ => h.ok.nodup _, ?_⟩
  refine (List.nodup_range).imp fun {i j} hij x hi hj => hij ?_
  rw [h.ok.mem] at hi hj
  rw [hi] at hj
  exact (Cache.shard.inj (Store.cache.inj (Option.some.inj hj))).1

theorem ShardsOf.ncard_cached (h : ShardsOf b s a) (cls : ℕ) :
    {x | Cached b s.lists cls x}.ncard = (allBlocks a s.ncpu cls).length := by
  have hset : {x | Cached b s.lists cls x} = ((allBlocks a s.ncpu cls).toFinset : Set ℕ) := by
    ext x
    rw [Set.mem_ofPred_eq, h.cached_iff, List.coe_toFinset, Set.mem_ofPred_eq, allBlocks,
      List.mem_flatMap]
    simp only [List.mem_range]
  rw [hset, Set.ncard_coe_finset, List.toFinset_card_of_nodup (h.allBlocks_nodup cls)]

theorem sum_checked {f : ℕ → ℕ} {l : List ℕ} {total : ℕ} (h : total + (l.map f).sum < usizeBound) :
    l.foldlM (fun total i => if total + f i < usizeBound then some (total + f i) else none) total =
      some (total + (l.map f).sum) := by
  induction l generalizing total with
  | nil => rfl
  | cons i l ih =>
    rw [List.map_cons, List.sum_cons] at h
    rw [List.foldlM_cons, if_pos (by omega), List.map_cons, List.sum_cons, ← Nat.add_assoc]
    exact ih (by omega)

theorem ShardsOf.getSize (h : ShardsOf b s a) (cls : ℕ) :
    getSize cls s = some {x | Cached b s.lists cls x}.ncard := by
  have hsum : ((List.range s.ncpu).map (s.lists.usage · cls)).sum =
      (allBlocks a s.ncpu cls).length := by
    rw [allBlocks, List.length_flatMap]
    congr 1
    refine List.map_congr_left fun i _ => ?_
    exact (h.rep.usage (.shard i cls) trivial).trans (h.count i cls)
  have hlt := length_lt_of_blocks (h.allBlocks_nodup cls) fun x hx => by
    obtain ⟨i, _, hx⟩ := List.mem_flatMap.mp hx
    exact (h.ok.good _ x hx).isBlock
  rw [CacheLists.getSize, sum_checked (by omega), hsum, h.ncard_cached, Nat.zero_add]

/-- What holds after each call, if the CPUs are numbered without gaps. -/
def Tracked (b : Build) (cpus : Finset ℕ) (s : Shards) : Prop :=
  (∃ a, ShardsOf b s a) ∧ s.ncpu = cpus.card ∧ ∀ shard ∈ s.used, shard < s.ncpu

theorem tracked_step {block : ℕ → Prop} (hcpus : ∀ cpu ∈ cpus, cpu < cpus.card)
    (hblock : ∀ x, block x → b.Avoids x) (s : Shards) (call : Call) (s' : Shards)
    (h : Tracked b cpus s) (hvalid : CallValid b block cpus s call)
    (hstep : callStep b s call = some s') : Tracked b cpus s' := by
  obtain ⟨⟨a, h⟩, hncpu, hused⟩ := h
  cases call with
  | tryPush cpu cls chain =>
    obtain ⟨hcpu, hne, hnodup, hlinks, hchain⟩ := hvalid
    have hcpu : cpu < s.ncpu := hncpu ▸ hcpus cpu hcpu
    obtain ⟨s₁, a₁, hs₁, h₁, hncpu₁, hused₁⟩ := h.tryPush cls hcpu hne hnodup hlinks
      fun x hx => ⟨hblock x (hchain x hx).1, (hchain x hx).2⟩
    obtain rfl := Option.some.inj (hs₁.symm.trans hstep)
    refine ⟨⟨a₁, h₁⟩, hncpu₁.trans hncpu, fun shard hmem => ?_⟩
    rw [hused₁, List.mem_append, List.mem_singleton] at hmem
    rw [hncpu₁]
    rcases hmem with hold | rfl
    · exact hused shard hold
    · exact hcpu
  | tryPop cpu cls batchSize =>
    have hcpu : cpu < s.ncpu := hncpu ▸ hcpus cpu hvalid
    obtain ⟨head, s₁, a₁, hs₁, _, h₁, hncpu₁, hused₁⟩ := h.tryPop hcpu cls batchSize
    rw [callStep, hs₁] at hstep
    obtain rfl := Option.some.inj hstep
    refine ⟨⟨a₁, h₁⟩, hncpu₁.trans hncpu, fun shard hmem => ?_⟩
    rw [hncpu₁]
    exact (hused₁ shard hmem).elim (hused shard) id
  | write ptr val =>
    obtain rfl := Option.some.inj hstep
    exact ⟨⟨_, h.write hvalid⟩, hncpu, hused⟩

/-- After every run of calls from CPUs that are numbered below their count. -/
theorem shards_cover (b : Build) (block : ℕ → Prop) (cpus : Finset ℕ) (calls : List Call)
    (s : Shards) (hcpus : ∀ cpu ∈ cpus, cpu < cpus.card) (hblock : ∀ x, block x → b.Avoids x)
    (hvalid : Guarded (callStep b) (CallValid b block cpus) (.new cpus) calls)
    (hrun : run (callStep b) (.new cpus) calls = some s) : Covers b cpus s := by
  have hinit : Tracked b cpus (.new cpus) := ⟨⟨_, .new b cpus⟩, rfl, nofun⟩
  obtain ⟨⟨a, h⟩, hncpu, hused⟩ :=
    @run_invariant _ _ (callStep b) (CallValid b block cpus) (Tracked b cpus)
      (tracked_step hcpus hblock) _ _ _ hinit hvalid hrun
  refine ⟨hused, fun cls batchSize cpu hcpu => ?_, h.getSize⟩
  obtain ⟨head, s', _, hpop, hiff, _⟩ :=
    h.tryPop (hncpu ▸ hcpus cpu hcpu) cls batchSize
  exact ⟨head, s', hpop, hiff⟩

theorem not_cached_new (cls x : ℕ) : ¬ Cached defaultBuild Lists.new cls x := by
  intro ⟨shard, hx⟩
  have hnil : shardBlocks defaultBuild .new shard cls = [] :=
    (ShardsOf.new defaultBuild ∅).blocks_eq shard cls
  rw [hnil] at hx
  contradiction

theorem isBlock_4096 : IsBlock 4096 := ⟨by decide, by decide, by decide⟩

/-- A block that one CPU has pushed is found from the other. -/
theorem shards_cover_two :
    ∃ s, run (callStep defaultBuild) (.new {0, 1}) [.tryPush 0 3 [4096]] = some s ∧
      Covers defaultBuild {0, 1} s := by
  obtain ⟨s, hs⟩ : ∃ s, run (callStep defaultBuild) (.new {0, 1}) [.tryPush 0 3 [4096]] = some s :=
    ⟨_, rfl⟩
  refine ⟨s, hs, shards_cover defaultBuild (· = 4096) {0, 1} _ s (by decide) ?_ ?_ hs⟩
  · rintro x rfl
    exact ⟨isBlock_4096, nofun⟩
  · refine ⟨⟨by decide, by decide, by decide, List.IsChain.singleton 4096, fun x hx => ?_⟩,
      fun _ _ => trivial⟩
    exact ⟨List.mem_singleton.mp hx, fun cls => not_cached_new cls x⟩

/-- On the CPUs 0 and 5 there are two shards, a push from CPU 5 goes to a sixth one, and
from CPU 0 the block is neither found nor counted. -/
theorem shards_missed :
    ∃ s, Guarded (callStep defaultBuild) (CallValid defaultBuild IsBlock {0, 5}) (.new {0, 5})
        [.tryPush 5 3 [4096]] ∧
      run (callStep defaultBuild) (.new {0, 5}) [.tryPush 5 3 [4096]] = some s ∧
      s.ncpu = 2 ∧ s.used = [5] ∧ Cached defaultBuild s.lists 3 4096 ∧
      (tryPop defaultBuild 3 1 0 s).map (·.1) = some 0 ∧ getSize 3 s = some 0 ∧
      ¬ Covers defaultBuild {0, 5} s := by
  refine ⟨_, ⟨⟨by decide, by decide, by decide, List.IsChain.singleton 4096, fun x hx => ?_⟩,
    fun _ _ => trivial⟩, rfl, by decide, by decide, ⟨5, by decide +kernel⟩, by decide +kernel,
    by decide +kernel, fun h => ?_⟩
  · rw [List.mem_singleton.mp hx]
    exact ⟨isBlock_4096, fun cls => not_cached_new cls 4096⟩
  · exact absurd (h.used 5 (by decide)) (by decide)

end Coverage

end Oxidalloc.CacheLists
