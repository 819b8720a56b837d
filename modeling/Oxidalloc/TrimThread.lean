import Oxidalloc.CallEffects
import Oxidalloc.Environment
import Oxidalloc.Process
import Oxidalloc.SlabConservation

/-!
The thread that trims. It sleeps, adds to its own count of time, publishes the clock, gauges
the memory pressure, decides, and trims; between any two of these steps the threads of the
user go on with calls, trims and cleanups of their own. The statistics that the decision rests on
stay in their ranges whatever the order is, the thread trims in one of any ten rounds, and an
unforced trim gives back hardly more than the threshold.
-/
namespace Oxidalloc

open Effects Environment Interleaving Programs

namespace TimeDecay

/-- The number of the variant, as it is stored in `GLOBAL_DECAY`. -/
def toU8 : TimeDecay → UInt8
  | .normal => 0
  | .medium => 1
  | .high => 2
  | .aggressive => 3

def fromU8 (value : UInt8) : TimeDecay :=
  if value = 0 then .normal
  else if value = 1 then .medium
  else if value = 2 then .high
  else .aggressive

/-- In milliseconds. -/
def getTrimTime : TimeDecay → ℕ
  | .normal => 150
  | .medium => 120
  | .high => 100
  | .aggressive => 20

def getTrimTimeForGlobal : TimeDecay → ℕ
  | .normal => 2
  | .medium => 1
  | .high => 1
  | .aggressive => 1

def getThreshold : TimeDecay → ℕ
  | .normal => 32 * 1024 * 1024
  | .medium => 64 * 1024 * 1024
  | .high => 128 * 1024 * 1024
  | .aggressive => 512 * 1024 * 1024

/-- A round counts for at least one, and for no more than a twentieth of its milliseconds. -/
theorem trimTime_bounds (decay : TimeDecay) :
    1 ≤ decay.getTrimTimeForGlobal ∧ 20 * decay.getTrimTimeForGlobal ≤ decay.getTrimTime := by
  cases decay <;> decide

theorem getThreshold_bounds (decay : TimeDecay) :
    33554432 ≤ decay.getThreshold ∧ decay.getThreshold ≤ 536870912 := by
  cases decay <;> decide

end TimeDecay

namespace TrimThread

/-- The answer of `sysinfo`. -/
structure SysInfo where
  totalram : ℕ
  freeram : ℕ
  totalswap : ℕ
  freeswap : ℕ
  memUnit : ℕ

def saturatingMul (x y : ℕ) : ℕ := min (x * y) (usizeBound - 1)

/-- The share of the memory that is in use, in percent. The sums and the product are
checked. -/
def checkMemoryPressure : Option SysInfo → Except Halt ℕ
  | none => .ok 50
  | some info =>
    let totalRam := saturatingMul info.totalram info.memUnit
    let freeRam := saturatingMul info.freeram info.memUnit
    let totalSwap := saturatingMul info.totalswap info.memUnit
    let freeSwap := saturatingMul info.freeswap info.memUnit
    if usizeBound ≤ freeRam + freeSwap ∨ usizeBound ≤ totalRam + totalSwap then .error .panic
    else if totalRam + totalSwap = 0 then .ok 50
    else
      let used := totalRam + totalSwap - (freeRam + freeSwap)
      if usizeBound ≤ used * 100 then .error .panic
      else .ok (used * 100 / (totalRam + totalSwap))

theorem checkMemoryPressure_le {info : Option SysInfo} {pressure : ℕ}
    (h : checkMemoryPressure info = .ok pressure) : pressure ≤ 100 := by
  cases info with
  | none =>
    rw [← Except.ok.inj h]
    omega
  | some info =>
    rw [checkMemoryPressure] at h
    split at h
    · contradiction
    · split at h
      · rw [← Except.ok.inj h]
        omega
      · dsimp only at h
        split at h
        · contradiction
        · rw [← Except.ok.inj h]
          apply Nat.div_le_of_le_mul
          exact Nat.mul_le_mul_right 100 (Nat.sub_le ..)

/-- Where the thread stands in its loop, with the pace it has read. -/
inductive Pc where
  | top
  | asleep (decay : TimeDecay)
  | clock (decay : TimeDecay)
  | gauge (decay : TimeDecay)
  | decide
  | trim
  deriving DecidableEq

/-- The process and the statics of the thread. The time since the start is in milliseconds.
The last field is no part of the program: it counts the rounds since the last trim of the
thread. -/
structure State where
  process : Process.State
  threshold : ℕ
  totalTime : ℕ
  lastTrim : ℕ
  elapsed : ℕ
  pc : Pc
  idle : ℕ

def initial (env : Env) (threshold : ℕ) (sys : ℕ → ℕ) : State :=
  ⟨Process.initial env sys, threshold, 0, 0, 0, .top, 0⟩

/-- Either a thread of the user does something, or the trim thread takes its next step: the
sleep takes longer by some time, and `sysinfo` gives an answer or fails. -/
inductive Action where
  | user (a : Process.Action)
  | thread (extra : ℕ) (info : Option SysInfo)

/-- The clock and the pressure are not the user's. -/
def ByUser : Process.Action → Prop
  | .observe _ _ => False
  | _ => True

instance ByUser.decidable : ∀ a, Decidable (ByUser a)
  | .call _ _ => isTrue trivial
  | .trim _ => isTrue trivial
  | .cleanup _ => isTrue trivial
  | .observe _ _ => isFalse id

def observe (p : Process.State) (stamp pressure : ℕ) : Process.State :=
  { p with world := { p.world with currentStamp := stamp, lastPressureCheck := pressure } }

/-- The threshold at the start of `decide_global`. -/
def raiseThreshold (decay : TimeDecay) (threshold : ℕ) : ℕ :=
  if threshold < decay.getThreshold ∧ threshold ≠ 0 then decay.getThreshold else threshold

/-- The rest of `decide_global` behind the pressure check: the answer, and the new value of
`LAST_TRIM_GLOBAL`. -/
def decideGlobal (pressure timing total last : ℕ) : Bool × ℕ :=
  if 85 < pressure then (true, last)
  else if timing = 0 then (false, last)
  else if timing ≤ total - last ∧ total ≠ 0 then (true, total)
  else (false, last)

/-- The loop of the thread. -/
def advance (s : State) (extra : ℕ) (info : Option SysInfo) : Option State :=
  match s.pc with
  | .top =>
    some { s with pc := .asleep (TimeDecay.fromU8 s.process.world.globalDecay.toU8) }
  | .asleep decay =>
    some
      { s with
        elapsed := s.elapsed + decay.getTrimTime + extra
        totalTime := (s.totalTime + decay.getTrimTimeForGlobal) % usizeBound
        pc := .clock decay }
  | .clock decay =>
    some
      { s with
        process := observe s.process (s.elapsed / 1000 % 2 ^ 32) s.process.world.lastPressureCheck
        pc := .gauge decay }
  | .gauge decay =>
    match checkMemoryPressure info with
    | .error _ => none
    | .ok pressure =>
      some
        { s with
          threshold := raiseThreshold decay s.threshold
          process := observe s.process s.process.world.currentStamp pressure
          pc := .decide }
  | .decide =>
    match decideGlobal s.process.world.lastPressureCheck s.process.world.averageBlockTimes
        s.totalTime s.lastTrim with
    | (true, last) => some { s with lastTrim := last, pc := .trim }
    | (false, last) => some { s with lastTrim := last, pc := .top, idle := s.idle + 1 }
  | .trim =>
    (Process.step s.process (.trim s.threshold)).map fun p =>
      { s with process := p, pc := .top, idle := 0 }

/-- The thread starts after the boot; which call starts it does not matter here. -/
def step (s : State) : Action → Option State
  | .user a =>
    if ByUser a then (Process.step s.process a).map fun p => { s with process := p } else none
  | .thread extra info => if s.process.world.booted then advance s extra info else none

section Tuning

/-- The numbers that the allocator keeps about itself. -/
structure Tuned (w : World) : Prop where
  average : 1 ≤ w.averageBlockTimes ∧ w.averageBlockTimes ≤ 10
  hints : HintsOk w.batchHints
  pressure : w.lastPressureCheck ≤ 100

theorem Tuned.stays {w w' : World} (hw : Tuned w) (h : Stays w w') : Tuned w' where
  average := by
    rw [h.average]
    exact hw.average
  hints := h.hints hw.hints
  pressure := by
    rw [h.pressure]
    exact hw.pressure

variable {w w' : World} {t pad : ℕ}

theorem Tuned.perform {c : Records.Call} {r : ℕ} (hw : Tuned w)
    (h : Runs (Process.perform t c) w r w') : Tuned w' :=
  hw.stays (Process.checked_perform.runs h)

/-- `trim` is the one function that writes the average, and it clamps it. -/
theorem Tuned.trim {r : ℕ × ℕ} (hw : Tuned w) (h : Runs (GTrim.trim pad) w r w') : Tuned w' := by
  rw [GTrim.trim, runs_get_bind, runs_bind] at h
  obtain ⟨⟨q, freed, early⟩, w₁, hclasses, h⟩ := h
  have hw₁ := hw.stays (checked_trimClasses.runs hclasses)
  dsimp only at h
  split at h
  · rw [(runs_pure.mp h).2]
    exact hw₁
  · rw [runs_bind] at h
    obtain ⟨_, w₂, hstore, h⟩ := h
    rw [(runs_pure.mp h).2]
    rw [GTrim.storeAverage] at hstore
    split at hstore
    · rw [runs_modify.mp hstore]
      refine ⟨?_, hw₁.hints, hw₁.pressure⟩
      dsimp only
      omega
    · rw [(runs_pure.mp hstore).2]
      exact hw₁

theorem Tuned.step {p p' : Process.State} {a : Process.Action} (hp : Tuned p.world)
    (ha : ByUser a) (h : Process.step p a = some p') : Tuned p'.world := by
  cases a with
  | call t c =>
    rw [Process.step] at h
    split at h
    · obtain ⟨⟨r, w'⟩, hrun, rfl⟩ := Option.map_eq_some_iff.mp h
      exact hp.perform (outcome_eq_some.mp hrun)
    · exact absurd h (by simp)
  | trim pad =>
    obtain ⟨⟨r, w'⟩, hrun, rfl⟩ := Option.map_eq_some_iff.mp h
    exact hp.trim (outcome_eq_some.mp hrun)
  | cleanup t =>
    obtain ⟨⟨r, w'⟩, hrun, rfl⟩ := Option.map_eq_some_iff.mp h
    have hw' := hp.stays (tame_cleanupThreadCache.runs (outcome_eq_some.mp hrun))
    exact ⟨hw'.average, hw'.hints, hw'.pressure⟩
  | observe stamp pressure => exact absurd ha id

end Tuning

section Pace

/-- The rounds that the time since the last trim stands for. A round is counted as soon as
the thread has woken up. -/
def Pc.rounds : Pc → ℕ → ℕ
  | .top, idle => idle
  | .asleep _, idle => idle
  | .clock _, idle => idle + 1
  | .gauge _, idle => idle + 1
  | .decide, idle => idle + 1
  | .trim, _ => 0

/-- The counts of time as long as they have not wrapped around. -/
structure Paced (s : State) : Prop where
  slow : 20 * s.totalTime ≤ s.elapsed
  rounds : s.lastTrim + s.pc.rounds s.idle ≤ s.totalTime
  idle : s.idle < 10

/-- The threshold goes up only, and not above the largest one of the table. -/
structure Bounded (threshold : ℕ) (s : State) : Prop where
  lower : threshold ≤ s.threshold
  upper : s.threshold ≤ max threshold 536870912
  raised : s.pc = .decide ∨ s.pc = .trim → 33554432 ≤ s.threshold

structure Steady (threshold : ℕ) (s : State) : Prop where
  tuned : Tuned s.process.world
  bounded : Bounded threshold s
  paced : s.elapsed < usizeBound → Paced s

variable {threshold : ℕ} {s s' : State}

theorem steady_initial (env : Env) (sys : ℕ → ℕ) :
    Steady threshold (initial env threshold sys) where
  tuned :=
    ⟨⟨Nat.le_add_left 1 2, Nat.le_add_right 3 7⟩,
      fun _ => ⟨Nat.le_add_right 8 24, le_rfl⟩, Nat.zero_le 100⟩
  bounded := ⟨le_rfl, le_max_left .., by simp [initial]⟩
  paced := fun _ => ⟨le_rfl, le_rfl, Nat.succ_pos 9⟩

theorem raiseThreshold_bounds (decay : TimeDecay) (hpos : s.threshold ≠ 0)
    (hs : Bounded threshold s) :
    threshold ≤ raiseThreshold decay s.threshold ∧
      raiseThreshold decay s.threshold ≤ max threshold 536870912 ∧
      33554432 ≤ raiseThreshold decay s.threshold := by
  have hdecay := decay.getThreshold_bounds
  have hlower := hs.lower
  have hupper := hs.upper
  unfold raiseThreshold
  split <;> omega

/-- A round without a trim has found that too little time has gone by. -/
theorem decideGlobal_false {pressure timing total last last' : ℕ}
    (h : decideGlobal pressure timing total last = (false, last')) (htiming : timing ≠ 0) :
    last' = last ∧ (total - last < timing ∨ total = 0) := by
  unfold decideGlobal at h
  split at h
  · exact absurd (Prod.mk.inj h).1 (by simp)
  · split at h
    · exact absurd (Prod.mk.inj h).1 (by simp)
    · exact ⟨(Prod.mk.inj h).2.symm, by omega⟩

theorem decideGlobal_true {pressure timing total last last' : ℕ}
    (h : decideGlobal pressure timing total last = (true, last')) :
    last' = last ∨ last' = total := by
  unfold decideGlobal at h
  split at h
  · exact Or.inl (Prod.mk.inj h).2.symm
  · split at h
    · exact absurd (Prod.mk.inj h).1 (by simp)
    · split at h
      · exact Or.inr (Prod.mk.inj h).2.symm
      · exact absurd (Prod.mk.inj h).1 (by simp)

theorem Steady.advance {extra : ℕ} {info : Option SysInfo} (hthreshold : threshold ≠ 0)
    (hs : Steady threshold s) (h : advance s extra info = some s') : Steady threshold s' := by
  obtain ⟨htuned, hbounded, hpaced⟩ := hs
  rw [TrimThread.advance] at h
  split at h
  · rename_i hpc
    rw [← Option.some.inj h]
    refine ⟨htuned, ⟨hbounded.lower, hbounded.upper, by simp⟩, fun htime => ?_⟩
    obtain ⟨hslow, hrounds, hidle⟩ := hpaced htime
    rw [hpc] at hrounds
    exact ⟨hslow, hrounds, hidle⟩
  · rename_i decay hpc
    rw [← Option.some.inj h]
    refine ⟨htuned, ⟨hbounded.lower, hbounded.upper, by simp⟩, fun htime => ?_⟩
    dsimp only at htime
    obtain ⟨hslow, hrounds, hidle⟩ := hpaced (by omega)
    obtain ⟨hone, htwenty⟩ := decay.trimTime_bounds
    rw [hpc, Pc.rounds] at hrounds
    -- as long as the milliseconds fit, so does the count
    have hmod : (s.totalTime + decay.getTrimTimeForGlobal) % usizeBound =
        s.totalTime + decay.getTrimTimeForGlobal := Nat.mod_eq_of_lt (by omega)
    refine ⟨?_, ?_, hidle⟩
    · dsimp only
      omega
    · rw [Pc.rounds]
      dsimp only
      omega
  · rename_i decay hpc
    rw [← Option.some.inj h]
    refine ⟨⟨htuned.average, htuned.hints, htuned.pressure⟩,
      ⟨hbounded.lower, hbounded.upper, by simp⟩, fun htime => ?_⟩
    obtain ⟨hslow, hrounds, hidle⟩ := hpaced htime
    rw [hpc] at hrounds
    exact ⟨hslow, hrounds, hidle⟩
  · rename_i decay hpc
    split at h
    · contradiction
    · rename_i pressure hpressure
      rw [← Option.some.inj h]
      have hlower := hbounded.lower
      obtain ⟨hlo, hhi, hraised⟩ := raiseThreshold_bounds decay (by omega) hbounded
      refine ⟨⟨htuned.average, htuned.hints, checkMemoryPressure_le hpressure⟩,
        ⟨hlo, hhi, fun _ => hraised⟩, fun htime => ?_⟩
      obtain ⟨hslow, hrounds, hidle⟩ := hpaced htime
      rw [hpc] at hrounds
      exact ⟨hslow, hrounds, hidle⟩
  · rename_i hpc
    have haverage := htuned.average
    split at h
    · rename_i last hdecide
      rw [← Option.some.inj h]
      refine ⟨htuned, ⟨hbounded.lower, hbounded.upper, fun _ => hbounded.raised (Or.inl hpc)⟩,
        fun htime => ?_⟩
      obtain ⟨hslow, hrounds, hidle⟩ := hpaced htime
      rw [hpc, Pc.rounds] at hrounds
      refine ⟨hslow, ?_, hidle⟩
      rw [Pc.rounds]
      rcases decideGlobal_true hdecide with rfl | rfl
      · dsimp only
        omega
      · exact le_rfl
    · rename_i last hdecide
      rw [← Option.some.inj h]
      refine ⟨htuned, ⟨hbounded.lower, hbounded.upper, by simp⟩, fun htime => ?_⟩
      obtain ⟨hslow, hrounds, hidle⟩ := hpaced htime
      rw [hpc, Pc.rounds] at hrounds
      obtain ⟨rfl, hshort⟩ := decideGlobal_false hdecide (by omega)
      refine ⟨hslow, ?_, ?_⟩
      · exact hrounds
      · dsimp only
        omega
  · obtain ⟨p, hstep, rfl⟩ := Option.map_eq_some_iff.mp h
    refine ⟨htuned.step (a := .trim s.threshold) trivial hstep,
      ⟨hbounded.lower, hbounded.upper, by simp⟩, fun htime => ?_⟩
    obtain ⟨hslow, hrounds, hidle⟩ := hpaced htime
    exact ⟨hslow, (Nat.le_add_right ..).trans hrounds, Nat.succ_pos 9⟩

theorem Steady.step {a : Action} (hthreshold : threshold ≠ 0) (hs : Steady threshold s)
    (h : step s a = some s') : Steady threshold s' := by
  cases a with
  | user a =>
    rw [TrimThread.step] at h
    split at h
    · rename_i ha
      obtain ⟨p, hstep, rfl⟩ := Option.map_eq_some_iff.mp h
      refine ⟨hs.tuned.step ha hstep, ⟨hs.bounded.lower, hs.bounded.upper, hs.bounded.raised⟩,
        fun htime => ?_⟩
      obtain ⟨hslow, hrounds, hidle⟩ := hs.paced htime
      exact ⟨hslow, hrounds, hidle⟩
    · exact absurd h (by simp)
  | thread extra info =>
    rw [TrimThread.step] at h
    split at h
    · exact hs.advance hthreshold h
    · exact absurd h (by simp)

theorem steady_run {environ : List Entry} {cpuCount : ℕ} {env : Env} {sys : ℕ → ℕ}
    {actions : List Action} (hboot : readEnviron environ cpuCount = .ok (env, threshold))
    (hrun : run step (initial env threshold sys) actions = some s) :
    minThreshold ≤ threshold ∧ Steady threshold s := by
  obtain ⟨maxReservation, _, hboot⟩ := bind_eq_ok.mp hboot
  obtain ⟨val, hval, hboot⟩ := bind_eq_ok.mp hboot
  obtain ⟨forceThp, _, hboot⟩ := bind_eq_ok.mp hboot
  obtain rfl : val = threshold := (Prod.mk.inj (Except.ok.inj hboot)).2
  have hmin : minThreshold ≤ val := by
    have hge := initThreshold_ge hval
    rwa [min_eq_right (by decide)] at hge
  refine ⟨hmin, ?_⟩
  have hne : val ≠ 0 := by
    unfold minThreshold at hmin
    omega
  exact run_invariant (fun s a s' hs _ hstep => hs.step hne hstep) (steady_initial env sys)
    (guarded_trivial actions) hrun

/-- The thread is never idle for ten rounds on end. -/
theorem trims_in_ten_rounds (environ : List Entry) (cpuCount : ℕ) (env : Env) (threshold : ℕ)
    (sys : ℕ → ℕ) (actions : List Action) (s : State)
    (hboot : readEnviron environ cpuCount = .ok (env, threshold))
    (hrun : run step (initial env threshold sys) actions = some s)
    (htime : s.elapsed < usizeBound) : s.idle < 10 :=
  ((steady_run hboot hrun).2.paced htime).idle

/-- A machine with half of its memory in use. -/
def halfUsed : SysInfo := ⟨4096, 2048, 0, 0, 1048576⟩

/-- A block is allocated, and the thread gets through its first round. -/
def firstRound : List Action :=
  .user (.call 0 (.malloc 9000)) :: List.replicate 5 (.thread 7 (some halfUsed))

theorem firstRound_result :
    (run step (initial ⟨none, none, 1⟩ defaultThreshold SlabConservation.grantAll) firstRound).map
        (fun s => (s.idle, s.elapsed)) = some (1, 157) := by
  decide +kernel

theorem trims_in_ten_rounds_firstRound :
    ∃ s, run step (initial ⟨none, none, 1⟩ defaultThreshold SlabConservation.grantAll)
      firstRound = some s ∧ s.idle = 1 ∧ s.idle < 10 := by
  obtain ⟨s, hrun, heq⟩ := Option.map_eq_some_iff.mp firstRound_result
  obtain ⟨hidle, helapsed⟩ := Prod.mk.inj heq
  exact ⟨s, hrun, hidle, trims_in_ten_rounds [] 1 ⟨none, none, 1⟩ defaultThreshold
    SlabConservation.grantAll firstRound s rfl hrun (helapsed ▸ by decide)⟩

/-- The numbers stay in their ranges, and the threshold is one that somebody has asked for. -/
theorem tuning_in_range (environ : List Entry) (cpuCount : ℕ) (env : Env) (threshold : ℕ)
    (sys : ℕ → ℕ) (actions : List Action) (s : State)
    (hboot : readEnviron environ cpuCount = .ok (env, threshold))
    (hrun : run step (initial env threshold sys) actions = some s) :
    Tuned s.process.world ∧ 1024 * 1024 ≤ threshold ∧ threshold ≤ s.threshold ∧
      s.threshold ≤ max threshold 536870912 := by
  obtain ⟨hmin, htuned, hbounded, _⟩ := steady_run hboot hrun
  exact ⟨htuned, hmin, hbounded.lower, hbounded.upper⟩

/-- The threshold of a mebibyte is the smallest that can be asked for. -/
def smallThreshold : Entry := ⟨ascii "OX_TRIM_THRESHOLD=1048576", by decide⟩

theorem smallThreshold_result :
    (run step (initial ⟨none, none, 1⟩ 1048576 SlabConservation.grantAll) firstRound).map
        (fun s => (s.threshold, s.process.world.lastPressureCheck)) = some (33554432, 50) := by
  decide +kernel

theorem tuning_in_range_smallThreshold :
    readEnviron [smallThreshold] 1 = .ok (⟨none, none, 1⟩, 1048576) ∧
      ∃ s, run step (initial ⟨none, none, 1⟩ 1048576 SlabConservation.grantAll) firstRound =
        some s ∧ s.threshold = 33554432 ∧ s.process.world.lastPressureCheck = 50 ∧
        Tuned s.process.world := by
  obtain ⟨s, hrun, heq⟩ := Option.map_eq_some_iff.mp smallThreshold_result
  obtain ⟨hthreshold, hpressure⟩ := Prod.mk.inj heq
  have hboot : readEnviron [smallThreshold] 1 = .ok (⟨none, none, 1⟩, 1048576) := by rfl
  exact ⟨hboot, s, hrun, hthreshold, hpressure, (tuning_in_range [smallThreshold] 1
    ⟨none, none, 1⟩ 1048576 SlabConservation.grantAll firstRound s hboot hrun).1⟩

end Pace

section Budget

variable {w w' : World} {cls timing pad freed r : ℕ}

/-- The loop stops to release as soon as it has released more than it was asked to. -/
theorem releaseLoop_freed {size n toTrim : ℕ} (hsize : size ≤ 2097152) (hpad : pad ≠ 0)
    (hfreed : freed ≤ pad + 2097152)
    (h : Runs (GTrim.releaseLoop cls size pad false n toTrim freed) w r w') :
    r ≤ pad + 2097152 := by
  induction n generalizing w toTrim freed with
  | zero =>
    rw [(runs_pure.mp h).1]
    exact hfreed
  | succ n ih =>
    rw [GTrim.releaseLoop] at h
    split at h
    · rw [(runs_pure.mp h).1]
      exact hfreed
    · rw [runs_get_bind] at h
      dsimp only at h
      split at h
      · rename_i hroom
        rw [runs_bind] at h
        obtain ⟨_, w₁, _, h⟩ := h
        split at h
        · exact absurd h runs_throw
        · rw [runs_bind] at h
          obtain ⟨_, w₂, _, h⟩ := h
          have hle : freed ≤ pad := by simpa [hpad] using hroom
          exact ih (by omega) h
      · rw [runs_bind] at h
        obtain ⟨_, w₁, _, h⟩ := h
        exact ih hfreed h

theorem trimClasses_freed {q : GTrim.Tally} {r : GTrim.Tally × ℕ × Bool} (classes : List ℕ)
    (hpad : pad ≠ 0) (hfreed : freed ≤ pad + 2097152)
    (h : Runs (GTrim.trimClasses timing pad false classes q freed) w r w') :
    r.2.1 ≤ pad + 2097152 := by
  induction classes generalizing w q freed with
  | nil =>
    rw [(runs_pure.mp h).1]
    exact hfreed
  | cons cls rest ih =>
    rw [GTrim.trimClasses] at h
    split at h
    · rw [(runs_pure.mp h).1]
      exact hfreed
    · rw [runs_bind] at h
      obtain ⟨⟨q₁, freed₁⟩, w₁, hclass, h⟩ := h
      rw [GTrim.trimClass] at hclass
      obtain ⟨size, hsize, hclass⟩ := runs_attempt_bind.mp hclass
      simp only [runs_bind] at hclass
      obtain ⟨_, _, _, _, _, _, total, _, hloop, hclass⟩ := hclass
      obtain ⟨hcls, rfl⟩ := index_sizeClasses.mp hsize
      have htotal := releaseLoop_freed (payload_bounds hcls).2.2 hpad hfreed hloop
      obtain ⟨_, rfl⟩ := Prod.mk.inj (runs_pure.mp hclass).1
      exact ih htotal h

theorem trim_freed {r : ℕ × ℕ} (hpad : pad ≠ 0) (hpressure : w.lastPressureCheck ≤ 90)
    (h : Runs (GTrim.trim pad) w r w') : r.2 ≤ pad + 2097152 := by
  rw [GTrim.trim, runs_get_bind] at h
  dsimp only at h
  rw [decide_eq_false (by omega), runs_bind] at h
  obtain ⟨⟨q, freed, early⟩, w₁, hclasses, h⟩ := h
  have hfreed := trimClasses_freed _ hpad (by omega) hclasses
  dsimp only at h hfreed
  split at h
  · rw [(runs_pure.mp h).1]
    exact hfreed
  · rw [runs_bind] at h
    obtain ⟨_, w₂, _, h⟩ := h
    rw [(runs_pure.mp h).1]
    exact hfreed

/-- When the thread trims, the threshold it passes is at least 32 MiB; and what it then gives
back at once is bounded, unless memory is so short that it is forced to give back everything
that is old enough. -/
theorem unforced_trim_bounded (environ : List Entry) (cpuCount : ℕ) (env : Env) (threshold : ℕ)
    (sys : ℕ → ℕ) (actions : List Action) (s : State)
    (hboot : readEnviron environ cpuCount = .ok (env, threshold))
    (hrun : run step (initial env threshold sys) actions = some s) (hpc : s.pc = .trim) :
    33554432 ≤ s.threshold ∧
    ∀ r w', s.process.world.lastPressureCheck ≤ 90 →
      Runs (GTrim.trim s.threshold) s.process.world r w' →
      r.2 ≤ max threshold 536870912 + 2097152 := by
  have hbounded := (steady_run hboot hrun).2.bounded
  have hraised := hbounded.raised (Or.inr hpc)
  have hupper := hbounded.upper
  refine ⟨hraised, fun r w' hpressure htrim => ?_⟩
  have hfreed := trim_freed (by omega) hpressure htrim
  omega

/-- A user frees 17 blocks, of which the cache of the thread keeps one. Five seconds later the
trim finds the others in the shard, and gives back the 16 of one batch. -/
def idleBlocks : List Action :=
  List.replicate 17 (.user (.call 0 (.malloc 32768))) ++
  (List.range 17).map (fun i => .user (.call 0 (.free (4294971440 + 36864 * i)))) ++
  List.replicate 10 (.thread 5000 (some halfUsed))

theorem idleBlocks_result :
    ((run step (initial ⟨none, none, 1⟩ defaultThreshold SlabConservation.grantAll)
        idleBlocks).map fun s => (s.pc, s.process.world.lastPressureCheck,
          (outcome (GTrim.trim s.threshold) s.process.world).map Prod.fst)) =
      some (.trim, 50, some (0, 524288)) := by
  decide +kernel

theorem unforced_trim_bounded_idleBlocks :
    ∃ s w', run step (initial ⟨none, none, 1⟩ defaultThreshold SlabConservation.grantAll)
      idleBlocks = some s ∧ Runs (GTrim.trim s.threshold) s.process.world (0, 524288) w' ∧
      33554432 ≤ s.threshold ∧ 524288 ≤ max defaultThreshold 536870912 + 2097152 := by
  obtain ⟨s, hrun, heq⟩ := Option.map_eq_some_iff.mp idleBlocks_result
  obtain ⟨hpc, heq⟩ := Prod.mk.inj heq
  obtain ⟨hpressure, heq⟩ := Prod.mk.inj heq
  obtain ⟨⟨r, w'⟩, hout, hr⟩ := Option.map_eq_some_iff.mp heq
  obtain rfl : r = (0, 524288) := hr
  have htrim := outcome_eq_some.mp hout
  obtain ⟨hraised, hfreed⟩ := unforced_trim_bounded [] 1 ⟨none, none, 1⟩ defaultThreshold
    SlabConservation.grantAll idleBlocks s rfl hrun hpc
  exact ⟨s, w', hrun, htrim, hraised, hfreed _ w' (hpressure ▸ by decide) htrim⟩

end Budget

end TrimThread

end Oxidalloc
