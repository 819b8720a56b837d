import Oxidalloc.SlabConservation
import Oxidalloc.ThreadExitSpec

/-!
Detection of a double free. Every block in a cache carries `FREED_MAGIC`, and `free`
aborts on it as long as the two magic numbers differ. They do differ if the two random
bytes that `init_magic` gets are different: its own test compares the values from before
the draw, so an equal pair goes through, and a block can be freed twice.
-/
namespace Oxidalloc.DoubleFree

open Interleaving Programs SlabConservation

/-- The pointers that were freed and not handed out again are recorded on the way. -/
structure State where
  world : World
  user : List ℕ
  freed : List ℕ

inductive Op where
  | malloc (t size : ℕ)
  | free (t ptr : ℕ)
  | trim (pad : ℕ)
  | cleanup (t : ℕ)
  | observe (stamp pressure : ℕ)

/-- A call that aborts ends the run; only pointers that the user holds are freed. The cleanup
of a thread's cache records the slots that it passes over, which is no part of the program. -/
def step (s : State) : Op → Option State
  | .malloc t size =>
    if 0 < size ∧ size ≤ 2097152 then
      (outcome (malloc t size) s.world).map fun (r, w) =>
        if r = 0 then ⟨w, s.user, s.freed⟩ else ⟨w, r :: s.user, s.freed.filter (· ≠ r)⟩
    else none
  | .free t ptr =>
    if ptr ∈ s.user then
      (outcome (free t ptr) s.world).map fun (_, w) => ⟨w, s.user.erase ptr, ptr :: s.freed⟩
    else none
  | .trim pad => (outcome (GTrim.trim pad) s.world).map fun (_, w) => ⟨w, s.user, s.freed⟩
  | .cleanup t =>
    (outcome (cleanupThreadCache t) s.world).map fun (_, w) =>
      ⟨w.losing (s.world.passedOver t), s.user, s.freed⟩
  | .observe stamp pressure =>
    some ⟨{ s.world with currentStamp := stamp, lastPressureCheck := pressure }, s.user, s.freed⟩

/-- The state right after `boot_strap` in thread t of a new process. -/
def booted (env : Env) (sys : ℕ → ℕ) (t : ℕ) : Option State :=
  (outcome (bootStrap t) (World.new env sys)).map fun (_, w) => ⟨w, [], []⟩

/-- The pair of bytes that `getrandom` delivers to `init_magic`. It comes after the mapping
of the engine, the answer and the number for `init_random`, and its own answer. -/
def magicPair (sys : ℕ → ℕ) : UInt8 × UInt8 := (UInt8.ofNat (sys 4), UInt8.ofNat (sys 4 / 256))

/-- Every cached block carries the mark of freed blocks, the mark is none of a block in
use, and `free` of a block that was freed and not handed out again aborts. -/
structure Detected (s : State) : Prop where
  marked : ∀ k l, Chain s.world k l → ∀ h ∈ l, OxHeader.magic s.world.mem h = s.world.freedMagic
  distinct : s.world.freedMagic ≠ s.world.magic
  cached : ∀ p ∈ s.freed, ∃ k l h, p = h + 16 ∧ Chain s.world k l ∧ h ∈ l
  aborts : ∀ t k l h, Chain s.world k l → h ∈ l →
    free t (h + 16) s.world = .error (.abort .doubleFree "Pointer is tagged as in_use")

/-- The invariant of a run whose random bytes differ. -/
structure Marked (s : State) (g : Layout) : Prop where
  laid : Laid ⟨s.world, s.user⟩ g
  booted : s.world.booted = true
  distinct : s.world.freedMagic ≠ s.world.magic
  freed : ∀ p ∈ s.freed, ∃ h k, p = h + 16 ∧ g.place h = some (.cached k)

section Boot

variable {w w' : World} {t cls : ℕ} {g : Layout}

theorem runs_getrandom {r : ℕ} (h : Runs (onVa VaBitmap.getrandom) w r w') :
    r = w.va.sys (w.va.tick + 1) ∧ w' = { w with va := { w.va with tick := w.va.tick + 2 } } := by
  obtain ⟨va', hrun, hw'⟩ := runs_onVa.mp h
  rw [VaBitmap.getrandom, runs_bind] at hrun
  obtain ⟨answer, va₁, hdraw, hrun⟩ := hrun
  obtain ⟨_, hva₁⟩ := Prod.mk.inj (Except.ok.inj hdraw)
  split at hrun
  · exact absurd hrun runs_throw
  · obtain ⟨hr, hva'⟩ := Prod.mk.inj (Except.ok.inj hrun)
    subst hva₁
    exact ⟨hr.symm, by rw [hw', ← hva']⟩

/-- The magic numbers are the two bytes, because the old ones differ. -/
theorem initMagic_magics {u : Unit} (h : Runs initMagic w u w') (hne : w.freedMagic ≠ w.magic) :
    w'.magic = UInt8.ofNat (w.va.sys (w.va.tick + 1)) ∧
      w'.freedMagic = UInt8.ofNat (w.va.sys (w.va.tick + 1) / 256) := by
  rw [initMagic, runs_bind] at h
  obtain ⟨rand, w₁, hdraw, h⟩ := h
  obtain ⟨hrand, hw₁⟩ := runs_getrandom hdraw
  have hsame : w₁.freedMagic ≠ w₁.magic := by
    rw [hw₁]
    exact hne
  rw [runs_get_bind] at h
  dsimp only at h
  rw [if_neg hsame, runs_modify] at h
  rw [h, hrand]
  exact ⟨rfl, rfl⟩

/-- What `boot_strap` has read and set when it comes to `init_magic`. -/
structure Booting (sys : ℕ → ℕ) (tick : ℕ) (w : World) : Prop where
  sys : w.va.sys = sys
  tick : w.va.tick = tick
  magics : w.freedMagic ≠ w.magic

theorem getOrInit_booting {sys : ℕ → ℕ} {u : Unit} {tick : ℕ} (hw : Booting sys tick w)
    (hengine : w.engines t = none) (h : Runs (getOrInit t) w u w') : Booting sys (tick + 1) w' := by
  rw [getOrInit, runs_get_bind, hengine] at h
  dsimp only at h
  rw [runs_bind] at h
  obtain ⟨r, w₁, hmap, h⟩ := h
  obtain ⟨va₁, hva, hw₁⟩ := runs_onVa.mp hmap
  obtain ⟨_, hva₁⟩ := Prod.mk.inj (Except.ok.inj hva)
  cases r with
  | none => exact absurd h runs_throw
  | some ptr =>
    rw [runs_modify] at h
    rw [h, hw₁, ← hva₁]
    exact ⟨hw.sys, congrArg (· + 1) hw.tick, hw.magics⟩

theorem initReverse_booting {sys : ℕ → ℕ} {u : Unit} {tick : ℕ} (hw : Booting sys tick w)
    (h : Runs initReverse w u w') : Booting sys tick w' := by
  rw [initReverse, runs_get_bind] at h
  split at h
  · rw [(runs_pure.mp h).2]
    exact hw
  · rw [runs_modify] at h
    rw [h]
    exact ⟨hw.sys, hw.tick, hw.magics⟩

theorem initThp_booting {sys : ℕ → ℕ} {u : Unit} {tick : ℕ} (hw : Booting sys tick w)
    (h : Runs initThp w u w') : Booting sys tick w' := by
  rw [initThp, runs_get_bind] at h
  split at h
  · rw [(runs_pure.mp h).2]
    exact hw
  · split at h
    · rw [runs_modify] at h
      rw [h]
      exact ⟨hw.sys, hw.tick, hw.magics⟩
    · rw [(runs_pure.mp h).2]
      exact hw

theorem bootStrap_magics {env : Env} {sys : ℕ → ℕ} {u : Unit}
    (h : Runs (bootStrap t) (World.new env sys) u w) : (w.magic, w.freedMagic) = magicPair sys := by
  rw [bootStrap, runs_get_bind, if_neg (by exact Bool.false_ne_true), runs_bind] at h
  obtain ⟨_, w₁, hengine, h⟩ := h
  have hne : (1 : UInt8) ≠ 0 := by decide
  have hw₁ := getOrInit_booting (w := World.new env sys) ⟨rfl, rfl, hne⟩ rfl hengine
  rw [runs_bind] at h
  obtain ⟨_, w₂, hreverse, h⟩ := h
  have hw₂ := initReverse_booting hw₁ hreverse
  rw [runs_bind] at h
  obtain ⟨_, w₃, hthp, h⟩ := h
  have hw₃ := initThp_booting hw₂ hthp
  rw [runs_bind] at h
  obtain ⟨_, w₄, hrandom, h⟩ := h
  have hw₄ : Booting sys 3 w₄ := by
    rw [(runs_getrandom hrandom).2]
    exact ⟨hw₃.sys, congrArg (· + 2) hw₃.tick, hw₃.magics⟩
  rw [runs_bind] at h
  obtain ⟨_, w₅, hinit, h⟩ := h
  rw [runs_modify] at h
  obtain ⟨hmagic, hfreed⟩ := initMagic_magics hinit hw₄.magics
  rw [hw₄.sys, hw₄.tick] at hmagic hfreed
  rw [h]
  exact Prod.ext hmagic hfreed

end Boot

section Steps

variable {s s' : State} {g : Layout}

/-- A cached block that a step does not touch stays in the caches. -/
theorem cached_of_frame {w w' : World} {g' : Layout} {touched : Set ℕ} {h : ℕ} {k : Cache}
    (hno : NoLoose g') (hframe : Frame w g w' g' touched) (hh : h ∉ touched)
    (hcached : g.place h = some (.cached k)) :
    ∃ k', g'.place h = some (.cached k') := by
  obtain ⟨pl, hpl⟩ := Option.ne_none_iff_exists'.mp
    (hframe.placed h hh (by rw [hcached]; exact nofun))
  cases pl with
  | held =>
    have hheld := (hframe.held h hh).mp hpl
    rw [hcached] at hheld
    exact absurd (Option.some.inj hheld) nofun
  | loose c => exact absurd hpl (hno h c)
  | cached k' => exact ⟨k', hpl⟩

/-- The magic numbers do not change after the bootstrap. -/
theorem Marked.distinct_of_frame {w' : World} {g' : Layout} {touched : Set ℕ} (hs : Marked s g)
    (hframe : Frame s.world g w' g' touched) : w'.freedMagic ≠ w'.magic := by
  obtain ⟨hmagic, hfreed⟩ := hframe.magics hs.booted
  rw [hmagic, hfreed]
  exact hs.distinct

/-- A step of the allocator that gives nothing to the user. -/
theorem Marked.loses {w' : World} {g' : Layout} (hs : Marked s g) (l : List ℕ)
    (hinv : Inv (w'.losing l) g') (hno : NoLoose g') (hframe : Frame s.world g w' g' ∅) :
    Marked ⟨w'.losing l, s.user, s.freed⟩ g' where
  laid := hs.laid.silent hinv hno hframe rfl
  booted := hframe.booted hs.booted
  distinct := by
    have hdistinct := hs.distinct_of_frame hframe
    exact hdistinct
  freed := by
    intro p hp
    obtain ⟨h, k, hptr, hcached⟩ := hs.freed p hp
    obtain ⟨k', hcached'⟩ := cached_of_frame hno hframe (Set.notMem_empty h) hcached
    exact ⟨h, k', hptr, hcached'⟩

theorem Marked.reaches {w' : World} {g' : Layout} (hs : Marked s g)
    (hreach : Reaches s.world g w' g' ∅) : Marked ⟨w', s.user, s.freed⟩ g' :=
  hs.loses [] hreach.inv hreach.loose hreach.frame

theorem Marked.hands {w' : World} {g' : Layout} {h : ℕ} (hs : Marked s g)
    (hhands : Hands s.world g w' g' h) (hcls : OxHeader.cls w'.mem h < 34) :
    Marked ⟨w', (h + 16) :: s.user, s.freed.filter (· ≠ h + 16)⟩ g' where
  laid := hs.laid.hands hhands hcls
  booted := hhands.frame.booted hs.booted
  distinct := hs.distinct_of_frame hhands.frame
  freed := by
    intro p hp
    simp only [List.mem_filter, decide_eq_true_eq] at hp
    obtain ⟨h', k, hptr, hcached⟩ := hs.freed p hp.1
    have hne : h' ∉ ({h} : Set ℕ) := by
      simp only [Set.mem_singleton_iff]
      omega
    obtain ⟨k', hcached'⟩ := cached_of_frame hhands.loose hhands.frame hne hcached
    exact ⟨h', k', hptr, hcached'⟩

theorem malloc_marked {t size : ℕ} (hs : Marked s g) (h : step s (.malloc t size) = some s') :
    ∃ g', Marked s' g' := by
  rw [step] at h
  split at h
  · rename_i hsize
    obtain ⟨⟨r, w⟩, hrun, heq⟩ := Option.map_eq_some_iff.mp h
    obtain ⟨cls, hcls⟩ := exists_class hsize.1 hsize.2
    have hrun := outcome_eq_some.mp hrun
    rw [malloc_of_class hcls] at hrun
    subst heq
    dsimp only
    rcases allocateClass_spec hs.laid.inv hs.laid.loose hrun with
      ⟨hr, g', hreach⟩ | ⟨header, g', hr, hhands, hlt, hclass⟩
    · rw [if_pos hr]
      exact ⟨g', hs.reaches hreach⟩
    · rw [if_neg (by omega), hr]
      exact ⟨g', hs.hands hhands (by rw [hclass]; exact hlt)⟩
  · exact absurd h nofun

theorem free_step_marked {t ptr : ℕ} (hs : Marked s g) (h : step s (.free t ptr) = some s') :
    ∃ g', Marked s' g' := by
  rw [step] at h
  split at h
  · rename_i hmem
    obtain ⟨⟨u, w⟩, hrun, heq⟩ := Option.map_eq_some_iff.mp h
    obtain ⟨header, hptr, hheld⟩ := (hs.laid.user ptr).mp hmem
    subst hptr heq
    obtain ⟨g', hreach, hgone, hplaced⟩ := free_slab_spec hs.laid.inv hs.laid.loose hheld
      (hs.laid.cls header hheld) (outcome_eq_some.mp hrun)
    refine ⟨g', hs.laid.released hreach hgone, hreach.frame.booted hs.booted,
      hs.distinct_of_frame hreach.frame, fun p hp => ?_⟩
    rcases List.mem_cons.mp hp with hnew | hold
    · obtain ⟨pl, hpl⟩ := Option.ne_none_iff_exists'.mp hplaced
      cases pl with
      | held => exact absurd hpl hgone
      | loose c => exact absurd hpl (hreach.loose header c)
      | cached k => exact ⟨header, k, hnew, hpl⟩
    · obtain ⟨h', k, hptr, hcached⟩ := hs.freed p hold
      have hne : h' ∉ ({header} : Set ℕ) := fun heq => by
        rw [Set.mem_singleton_iff.mp heq, hheld] at hcached
        exact absurd (Option.some.inj hcached) nofun
      obtain ⟨k', hcached'⟩ := cached_of_frame hreach.loose hreach.frame hne hcached
      exact ⟨h', k', hptr, hcached'⟩
  · exact absurd h nofun

theorem step_marked {op : Op} (hs : ∃ g, Marked s g) (h : step s op = some s') :
    ∃ g', Marked s' g' := by
  obtain ⟨g, hs⟩ := hs
  cases op with
  | malloc t size => exact malloc_marked hs h
  | free t ptr => exact free_step_marked hs h
  | trim pad =>
    obtain ⟨⟨r, w⟩, hrun, heq⟩ := Option.map_eq_some_iff.mp h
    subst heq
    obtain ⟨g', hreach⟩ := GTrim.trim_spec hs.laid.inv hs.laid.loose (outcome_eq_some.mp hrun)
    exact ⟨g', hs.reaches hreach⟩
  | cleanup t =>
    obtain ⟨⟨u, w⟩, hrun, heq⟩ := Option.map_eq_some_iff.mp h
    subst heq
    obtain ⟨g', hinv, hno, hframe, _⟩ :=
      cleanupThreadCache_spec hs.laid.inv hs.laid.loose (outcome_eq_some.mp hrun)
    exact ⟨g', hs.loses _ hinv hno hframe⟩
  | observe stamp pressure =>
    rw [← Option.some.inj h]
    have hinv : Inv { s.world with currentStamp := stamp, lastPressureCheck := pressure } g :=
      hs.laid.inv.statics rfl rfl rfl rfl rfl rfl (Or.inl ⟨rfl, rfl⟩) hs.laid.inv.boot
    exact ⟨g, hs.reaches ⟨hinv, hs.laid.loose, frame_of_eq rfl rfl rfl id id fun _ => ⟨rfl, rfl⟩⟩⟩

theorem booted_marked {env : Env} {sys : ℕ → ℕ} {t : ℕ}
    (hbytes : (magicPair sys).1 ≠ (magicPair sys).2) (h : booted env sys t = some s) :
    ∃ g, Marked s g := by
  obtain ⟨⟨u, w⟩, hrun, heq⟩ := Option.map_eq_some_iff.mp h
  subst heq
  have hrun := outcome_eq_some.mp hrun
  obtain ⟨hinv, _, hbooted⟩ := bootStrap_spec (inv_new env sys) hrun
  have hpair := bootStrap_magics hrun
  refine ⟨_, ⟨hinv, nofun, List.nodup_nil, fun _ => ⟨nofun, fun hex => ?_⟩, nofun⟩,
    hbooted, ?_, nofun⟩
  · exact absurd hex.choose_spec.2 nofun
  · rw [← hpair] at hbytes
    exact hbytes.symm

/-- The mark is on every cached block, so `free` reaches the abort for it. -/
theorem Marked.detected (hs : Marked s g) : Detected s := by
  have hplace : ∀ k l, Chain s.world k l → ∀ h ∈ l, g.place h = some (.cached k) := by
    intro k l hchain h hh
    obtain ⟨l', hchain', _, hmem⟩ := hs.laid.inv.chains k
    rw [hchain.unique hchain'] at hh
    exact (hmem h).mp hh
  have hmarked : ∀ k l, Chain s.world k l → ∀ h ∈ l,
      OxHeader.magic s.world.mem h = s.world.freedMagic := fun k l hchain h hh =>
    (hs.laid.inv.blocks h _ (hplace k l hchain h hh)).2.2.2
  refine ⟨hmarked, hs.distinct, fun p hp => ?_, fun t k l h hchain hh => ?_⟩
  · obtain ⟨h, k, hptr, hcached⟩ := hs.freed p hp
    obtain ⟨l, hchain, _, hmem⟩ := hs.laid.inv.chains k
    exact ⟨k, l, h, hptr, hchain, (hmem h).mpr hcached⟩
  · exact free_marked hs.laid.inv (hplace k l hchain h hh) (hmarked k l hchain h hh) hs.distinct

end Steps

/-- If the two random bytes differ, then in every run of slab allocations, frees, trims and
cleanups of thread caches after the bootstrap, a second free of a block is detected. -/
theorem double_free_detected (env : Env) (sys : ℕ → ℕ) (t : ℕ) (s₀ : State) (ops : List Op)
    (s : State) (hbytes : (magicPair sys).1 ≠ (magicPair sys).2)
    (hboot : booted env sys t = some s₀)
    (hrun : run step s₀ ops = some s) : Detected s := by
  obtain ⟨g, hs⟩ := @run_invariant _ _ step (fun _ _ => True) (fun s => ∃ g, Marked s g)
    (fun _ _ _ hs _ hstep => step_marked hs hstep) _ _ _ (booted_marked hbytes hboot)
    (guarded_trivial _) hrun
  exact hs.detected

/-- A block is freed, and the cache of its thread is cleaned up. -/
def freeAndCleanup : List Op := [.malloc 0 3000, .free 0 4294971440, .cleanup 0]

theorem freeAndCleanup_result :
    (booted ⟨none, none, 1⟩ grantAll 0).bind (fun s₀ =>
      (run step s₀ freeAndCleanup).map fun s => (s.freed, s.world.magic, s.world.freedMagic)) =
      some ([4294971440], 1, 0) := by
  decide +kernel

theorem double_free_detected_exit :
    ∃ s₀ s, booted ⟨none, none, 1⟩ grantAll 0 = some s₀ ∧ run step s₀ freeAndCleanup = some s ∧
      s.freed = [4294971440] ∧ Detected s := by
  obtain ⟨s₀, hboot, hrun⟩ := Option.bind_eq_some_iff.mp freeAndCleanup_result
  obtain ⟨s, hrun, heq⟩ := Option.map_eq_some_iff.mp hrun
  exact ⟨s₀, s, hboot, hrun, (Prod.mk.inj heq).1, double_free_detected ⟨none, none, 1⟩ grantAll 0 s₀
    freeAndCleanup s (by decide) hboot hrun⟩

/-- A kernel that grants everything, and delivers the same byte twice to `init_magic`. -/
def equalBytes (n : ℕ) : ℕ := if n = 4 then 257 else grantAll n

theorem equalBytes_result :
    (booted ⟨none, none, 1⟩ equalBytes 0).bind (fun s₀ =>
      (run step s₀ [.malloc 0 3000, .free 0 4294971440]).bind fun s =>
        (outcome (free 0 4294971440) s.world).map fun (_, w) =>
          (s.freed, s.world.magic, s.world.freedMagic, (w.binOf 0 20).usage)) =
      some ([4294971440], 1, 1, 2) := by
  decide +kernel

/-- With equal bytes the second free comes back, and the block is in its bin twice. -/
theorem double_free_undetected :
    ∃ s₀ s w, booted ⟨none, none, 1⟩ equalBytes 0 = some s₀ ∧
      run step s₀ [.malloc 0 3000, .free 0 4294971440] = some s ∧ s.freed = [4294971440] ∧
      ¬ Detected s ∧ Runs (free 0 4294971440) s.world () w ∧ (w.binOf 0 20).usage = 2 := by
  obtain ⟨s₀, hboot, hrun⟩ := Option.bind_eq_some_iff.mp equalBytes_result
  obtain ⟨s, hrun, hfree⟩ := Option.bind_eq_some_iff.mp hrun
  obtain ⟨⟨u, w⟩, hfree, heq⟩ := Option.map_eq_some_iff.mp hfree
  simp only [Prod.mk.injEq] at heq
  obtain ⟨hfreed, hmagic, hfreedMagic, husage⟩ := heq
  refine ⟨s₀, s, w, hboot, hrun, hfreed, fun h => ?_, outcome_eq_some.mp hfree, husage⟩
  exact h.distinct (hfreedMagic.trans hmagic.symm)

end Oxidalloc.DoubleFree
