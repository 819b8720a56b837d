import Oxidalloc.BatchSweep
import Oxidalloc.SlabConservation
import Oxidalloc.TrimCaches
import Oxidalloc.TrimTrace

/-!
Which blocks a trim looks at. The rounds over a class sweep its list: the old blocks of a
batch are set aside, the others go back to the top and are in the next batch again. So a trim
gets to all the blocks that it has rounds for only if all of them are old, up to those of the
last round.
-/
namespace Oxidalloc.GTrim

open BatchSweep GhostState HeadPacking LinkedChain Programs

/-- The test of `trim` for a block whose pages go back to the kernel. -/
def isOld (timing : ℕ) (age : ℕ → ℕ) (h : ℕ) : Bool := decide (timing < age h)

/-- A counter of `trim` overflows, which takes as many blocks as a u32 can count. -/
def Overflows (blocks : ℕ) (e : Halt) : Prop := e = .panic ∧ 2 ^ 32 ≤ blocks

section Batch

variable {B : Set ℕ} {size age : ℕ → ℕ} {timing blocks : ℕ} {w : World} {log : TrimLog}

theorem note_yields {q : Tally} {s : World × TrimLog} {lifeTime : ℕ}
    (hroom : q.total + 1 ≤ blocks) :
    Yields (Overflows blocks) (attempt (q.note lifeTime) : TracedM Tally) s fun q' s' =>
      s' = s ∧ q'.toTrim = q.toTrim ∧ q'.total ≤ q.total + 1 := by
  unfold Tally.note
  constructor
  · refine failsOnly_attempt fun e he => ?_
    split at he
    · contradiction
    · split at he
      · exact ⟨(Except.error.inj he).symm, by omega⟩
      · contradiction
  · intro q' s' hrun
    obtain ⟨hnote, hs⟩ := runs_attempt.mp hrun
    refine ⟨hs, note_toTrim hnote, ?_⟩
    split at hnote
    · rw [← Except.ok.inj hnote]
      exact Nat.le_succ _
    · split at hnote
      · contradiction
      · rw [← Except.ok.inj hnote]

theorem relink_runs {x v : ℕ} :
    Runs (quietly (modify fun w => { w with mem := OxHeader.setNext w.mem x v }) : TracedM Unit)
      (w, log) () (relink w x v, log) :=
  rfl

/-- A batch is sorted into the chain to trim and the chain to push back. -/
structure Sorts (B : Set ℕ) (age : ℕ → ℕ) (timing : ℕ) (w : World) (rest trims pushes : List ℕ)
    (q : Tally) (log : TrimLog) (r : Tally × ℕ) (s : World × TrimLog) : Prop where
  cached : Cached B age s.1
  icc : s.1.icc = w.icc
  trim : Linked 0 (OxHeader.next s.1.mem) r.1.toTrim
    ((rest.filter (isOld timing age)).reverse ++ trims) 0
  push : Linked 0 (OxHeader.next s.1.mem) r.2
    ((rest.filter fun h => !isOld timing age h).reverse ++ pushes) 0
  links : ∀ h ∈ B, h ∉ rest → OxHeader.next s.1.mem h = OxHeader.next w.mem h
  total : r.1.total ≤ q.total + rest.length
  log : s.2 = { log with examined := log.examined ++ rest }

theorem Sorts.kept {rest trims pushes : List ℕ} {q : Tally} {r : Tally × ℕ} {s : World × TrimLog}
    (h : Sorts B age timing w rest trims pushes q log r s) (c : ℕ) : Kept B rest c w s.1 where
  links := h.links
  lists _ _ := by rw [h.icc]
  usages _ _ := by rw [h.icc]

/-- The lists are as before, for blocks that are not in the batch. -/
theorem Sorts.stack {rest trims pushes l : List ℕ} {c : ℕ} {q : Tally} {r : Tally × ℕ}
    {s : World × TrimLog} (h : Sorts B age timing w rest trims pushes q log r s)
    (hl : ∀ x ∈ l, x ∈ B ∧ x ∉ rest) (hst : Stack w c l) : Stack s.1 c l := by
  constructor
  · show Linked 0 (OxHeader.next s.1.mem) (headPtr (s.1.icc.list 0 c)) l 0
    rw [h.icc]
    exact (h.kept c).linked hl hst.chain
  · rw [h.icc]
    exact hst.usage

/-- A block has been put in front of one of the two chains, and the rest is sorted. -/
theorem Sorts.cons {x v : ℕ} {rest trims pushes trims' pushes' : List ℕ} {q q' : Tally}
    {r : Tally × ℕ} {s : World × TrimLog} (hB : Apart B size) (hx : x ∈ B)
    (hs : Sorts B age timing (relink w x v) rest trims' pushes' q'
      { log with examined := log.examined ++ [x] } r s)
    (htrims : (rest.filter (isOld timing age)).reverse ++ trims' =
      ((x :: rest).filter (isOld timing age)).reverse ++ trims)
    (hpushes : (rest.filter fun h => !isOld timing age h).reverse ++ pushes' =
      ((x :: rest).filter fun h => !isOld timing age h).reverse ++ pushes)
    (htotal : q'.total ≤ q.total + 1) :
    Sorts B age timing w (x :: rest) trims pushes q log r s where
  cached := hs.cached
  icc := hs.icc
  trim := htrims ▸ hs.trim
  push := hpushes ▸ hs.push
  links h hh hne := by
    rw [List.mem_cons, not_or] at hne
    obtain ⟨hnex, hrest⟩ := hne
    have hsame : OxHeader.next (relink w x v).mem h = OxHeader.next w.mem h :=
      (kept_relink hB hx (c := 0)).links h hh fun hin => hnex (List.mem_singleton.mp hin)
    exact (hs.links h hh hrest).trans hsame
  total := by
    have hle := hs.total
    rw [List.length_cons]
    omega
  log := by
    rw [hs.log, List.append_assoc, List.singleton_append]

theorem sortBatch_yields (hB : Apart B size) {rest trims pushes : List ℕ} {block toPush : ℕ}
    {q : Tally} (hc : Cached B age w) (hin : ∀ h ∈ rest ++ (trims ++ pushes), h ∈ B)
    (hnodup : (rest ++ (trims ++ pushes)).Nodup)
    (hrest : Linked 0 (OxHeader.next w.mem) block rest 0)
    (htrim : Linked 0 (OxHeader.next w.mem) q.toTrim trims 0)
    (hpush : Linked 0 (OxHeader.next w.mem) toPush pushes 0)
    (hroom : q.total + rest.length ≤ blocks) :
    Yields (Overflows blocks) (tracedSortBatch timing rest.length block q toPush) (w, log)
      (Sorts B age timing w rest trims pushes q log) := by
  induction rest generalizing w block q toPush trims pushes log with
  | nil =>
    refine yields_pure ⟨hc, rfl, htrim, hpush, fun _ _ _ => rfl, Nat.le_refl _, ?_⟩
    simp
  | cons x rest ih =>
    obtain ⟨rfl, hnull, hrest⟩ := hrest
    have hx : block ∈ B := hin block List.mem_cons_self
    have hothers : ∀ h ∈ rest ++ (trims ++ pushes), h ∈ B :=
      fun h hh => hin h (List.mem_cons_of_mem block hh)
    have hall : (block :: (rest ++ (trims ++ pushes))).Nodup := hnodup
    obtain ⟨hout, _⟩ := List.nodup_cons.mp hall
    rw [List.mem_append, List.mem_append, not_or, not_or] at hout
    obtain ⟨houtRest, houtTrims, houtPushes⟩ := hout
    have hrestB : ∀ h ∈ rest, h ∈ B := fun h hh => hothers h (by simp [hh])
    have htrimsB : ∀ h ∈ trims, h ∈ B := fun h hh => hothers h (by simp [hh])
    have hpushesB : ∀ h ∈ pushes, h ∈ B := fun h hh => hothers h (by simp [hh])
    rw [List.length_cons] at hroom
    refine yields_after (runs_quietly (runs_get.mpr ⟨rfl, rfl⟩)) ?_
    refine yields_bind (note_yields (by omega)) ?_
    rintro q₁ _ ⟨rfl, htoTrim, htotal⟩
    refine yields_after runs_record ?_
    have hage : w.currentStamp - OxHeader.lifeTime w.mem block = age block := hc.age block hx
    rw [hage]
    refine yields_ite (fun hold => ?_) fun hyoung => ?_
    · have hsel : isOld timing age block = true := decide_eq_true hold
      refine yields_after relink_runs ?_
      rw [htoTrim]
      have hperm : (rest ++ (block :: trims ++ pushes)).Perm
          (block :: (rest ++ (trims ++ pushes))) := List.perm_middle
      have hsorts := @ih (relink w block q.toTrim) { log with examined := log.examined ++ [block] }
        (block :: trims) pushes (OxHeader.next w.mem block) toPush { q₁ with toTrim := block }
        (cached_relink hc hB hx) (fun h hh => hin h (hperm.mem_iff.mp hh))
        (hperm.nodup_iff.mpr hall) (linked_relink hB hx hrestB houtRest hrest)
        (linked_cons_relink hB hx htrimsB houtTrims htrim)
        (linked_relink hB hx hpushesB houtPushes hpush)
        (show q₁.total + rest.length ≤ blocks by omega)
      refine hsorts.mono fun r s hs => Sorts.cons hB hx hs ?_ ?_ htotal
      · simp [hsel]
      · simp [hsel]
    · have hsel : isOld timing age block = false := decide_eq_false hyoung
      refine yields_after relink_runs ?_
      have hperm : (rest ++ (trims ++ block :: pushes)).Perm
          (block :: (rest ++ (trims ++ pushes))) := by
        rw [← List.append_assoc, ← List.append_assoc]
        exact List.perm_middle
      have hsorts := @ih (relink w block toPush) { log with examined := log.examined ++ [block] }
        trims (block :: pushes) (OxHeader.next w.mem block) block q₁
        (cached_relink hc hB hx) (fun h hh => hin h (hperm.mem_iff.mp hh))
        (hperm.nodup_iff.mpr hall) (linked_relink hB hx hrestB houtRest hrest)
        (htoTrim ▸ linked_relink hB hx htrimsB houtTrims htrim)
        (linked_cons_relink hB hx hpushesB houtPushes hpush) (by omega)
      refine hsorts.mono fun r s hs => Sorts.cons hB hx hs ?_ ?_ htotal
      · simp [hsel]
      · simp [hsel]

end Batch

section Rounds

variable {B : Set ℕ} {size age : ℕ → ℕ} {timing blocks c : ℕ} {w : World} {log : TrimLog}
  {l trims : List ℕ}

/-- The rounds of a class sweep its list. -/
structure Rounds (B : Set ℕ) (age : ℕ → ℕ) (timing c n : ℕ) (l trims : List ℕ) (w : World)
    (q : Tally) (log : TrimLog) (q' : Tally) (s : World × TrimLog) : Prop where
  cached : Cached B age s.1
  stack : Stack s.1 c (sweep 16 (isOld timing age) n l).stack
  trim : Linked 0 (OxHeader.next s.1.mem) q'.toTrim
    ((sweep 16 (isOld timing age) n l).aside ++ trims) 0
  kept : Kept B l c w s.1
  total : q'.total ≤ q.total + n * 16
  log : s.2 = { log with examined := log.examined ++ (sweep 16 (isOld timing age) n l).examined }

/-- The state after one round: the young blocks are on the top again. -/
theorem round_yields (hB : Apart B size) (hcls : c < 34) {q : Tally} (hc : Cached B age w)
    (hst : Stack w c l) (hin : ∀ h ∈ l ++ trims, h ∈ B) (hnodup : (l ++ trims).Nodup)
    (htrim : Linked 0 (OxHeader.next w.mem) q.toTrim trims 0) (hne : l ≠ [])
    (hroom : q.total + 16 ≤ blocks) {Q : Tally → World × TrimLog → Prop} (n : ℕ)
    (hnext : ∀ q' w', Cached B age w' → Stack w' c (putBack 16 (isOld timing age) l) →
      Linked 0 (OxHeader.next w'.mem) q'.toTrim
        (((l.take 16).filter (isOld timing age)).reverse ++ trims) 0 →
      Kept B l c w w' → q'.total ≤ q.total + 16 →
      Yields (Overflows blocks) (tracedRounds c timing n q')
        (w', { log with examined := log.examined ++ l.take 16 }) Q) :
    Yields (Overflows blocks) (tracedRounds c timing (n + 1) q) (w, log) Q := by
  have hlB : ∀ h ∈ l, h ∈ B := fun h hh => hin h (List.mem_append_left trims hh)
  have htrimsB : ∀ h ∈ trims, h ∈ B := fun h hh => hin h (List.mem_append_right l hh)
  obtain ⟨hnodupL, hnodupTrims, hdisjoint⟩ := List.nodup_append.mp hnodup
  obtain ⟨x, w₁, hpop, hnull, htakes⟩ := popFromGlobal_runs hc hB hst hlB hcls hne
  refine yields_after (runs_quietly hpop) ?_
  refine yields_ite (fun hzero => absurd hzero hnull) fun _ => ?_
  have htakeB : ∀ h ∈ l.take 16, h ∈ B := fun h hh => hlB h (List.take_subset 16 l hh)
  have hlen : (l.take 16).length ≤ 16 := List.length_take_le 16 l
  have htrim₁ : Linked 0 (OxHeader.next w₁.mem) q.toTrim trims 0 := by
    refine htakes.kept.linked (fun h hh => ⟨htrimsB h hh, fun htake => ?_⟩) htrim
    exact hdisjoint h (List.take_subset 16 l htake) h hh rfl
  have hsplit : (l.take 16 ++ l.drop 16).Nodup := by rwa [List.take_append_drop]
  obtain ⟨hnodupTake, hnodupDrop, hseparate⟩ := List.nodup_append.mp hsplit
  have hsort : Yields (Overflows blocks) (tracedSortBatch timing (l.take 16).length x q 0) (w₁, log)
      (Sorts B age timing w₁ (l.take 16) trims [] q log) := by
    refine sortBatch_yields hB htakes.cached ?_ ?_ htakes.batch htrim₁ rfl (by omega)
    · rw [List.append_nil]
      exact fun h hh => (List.mem_append.mp hh).elim (htakeB h) (htrimsB h)
    · rw [List.append_nil]
      refine List.nodup_append.mpr ⟨hnodupTake, hnodupTrims, fun a ha b hb => ?_⟩
      exact hdisjoint a (List.take_subset 16 l ha) b hb
  refine yields_bind hsort ?_
  rintro ⟨q', toPush⟩ ⟨w₂, log'⟩ hs
  obtain rfl : log' = { log with examined := log.examined ++ l.take 16 } := hs.log
  have htotal : q'.total ≤ q.total + 16 := hs.total.trans (Nat.add_le_add_left hlen _)
  have hkept : Kept B l c w w₂ := (htakes.kept.trans (hs.kept c)).mono (List.take_subset 16 l)
  have hdropB : ∀ h ∈ l.drop 16, h ∈ B := fun h hh => hlB h (List.drop_subset 16 l hh)
  have hst₂ : Stack w₂ c (l.drop 16) :=
    hs.stack (fun h hh => ⟨hdropB h hh, fun htake => hseparate h htake h hh rfl⟩) htakes.stack
  have hpush := hs.push
  rw [List.append_nil] at hpush
  refine yields_ite (fun hzero => ?_) fun hsome => ?_
  · have hzero : toPush = 0 := hzero
    rw [hzero] at hpush
    have hback : putBack 16 (isOld timing age) l = l.drop 16 := by
      rw [putBack, hpush.eq_nil]
      rfl
    exact hnext q' w₂ hs.cached (hback ▸ hst₂) hs.trim hkept htotal
  · have hyoung : ∀ h ∈ ((l.take 16).filter fun h => !isOld timing age h).reverse,
        h ∈ l.take 16 ∧ isOld timing age h = false := by
      intro h hh
      simpa using hh
    have hperm := @chosen_append_putBack_perm _ 16 (isOld timing age) l
    obtain ⟨w₃, hrun, hc₃, hst₃, hkept₃⟩ := pushBack_runs hs.cached hB hst₂ hcls
      (fun h hh => hlB h (putBack_subset hh))
      (List.nodup_append.mp (hperm.nodup_iff.mpr hnodupL)).2.1 hpush
      (fun hnil => hsome (by rw [hnil] at hpush; exact hpush))
      (by rw [List.length_reverse]; exact (List.length_filter_le _ _).trans hlen)
    refine yields_after (runs_quietly hrun) ?_
    refine hnext q' w₃ hc₃ hst₃ ?_ (hkept.trans (hkept₃.mono ?_)) htotal
    · refine hkept₃.linked (fun h hh => ?_) hs.trim
      rcases List.mem_append.mp hh with hold | htrims
      · have hold : h ∈ l.take 16 ∧ isOld timing age h = true := by simpa using hold
        refine ⟨htakeB h hold.1, fun hy => absurd hold.2 ?_⟩
        rw [(hyoung h hy).2]
        exact Bool.false_ne_true
      · exact ⟨htrimsB h htrims,
          fun hy => hdisjoint h (List.take_subset 16 l (hyoung h hy).1) h htrims rfl⟩
    · exact fun h hh => List.take_subset 16 l (hyoung h hh).1

theorem rounds_yields (hB : Apart B size) (hcls : c < 34) (n : ℕ) {q : Tally}
    (hc : Cached B age w) (hst : Stack w c l) (hin : ∀ h ∈ l ++ trims, h ∈ B)
    (hnodup : (l ++ trims).Nodup) (htrim : Linked 0 (OxHeader.next w.mem) q.toTrim trims 0)
    (hroom : q.total + n * 16 ≤ blocks) :
    Yields (Overflows blocks) (tracedRounds c timing n q) (w, log)
      (Rounds B age timing c n l trims w q log) := by
  induction n generalizing w q l trims log with
  | zero =>
    refine yields_pure ⟨hc, hst, htrim, ⟨fun _ _ _ => rfl, fun _ _ => rfl, fun _ _ => rfl⟩,
      Nat.le_refl _, ?_⟩
    simp [sweep]
  | succ n ih =>
    by_cases hne : l = []
    · subst hne
      refine yields_after (runs_quietly (popFromGlobal_nil hc hst hcls)) (yields_ite (fun _ => ?_)
        fun hfalse => absurd rfl hfalse)
      refine yields_pure ⟨cached_ticked hc, ?_, ?_, kept_ticked, Nat.le_add_right _ _, ?_⟩
      · rw [sweep_nil]
        exact stack_ticked hst
      · rw [sweep_nil]
        exact htrim
      · rw [sweep_nil, List.append_nil]
    · rw [Nat.succ_mul] at hroom
      have hperm : (putBack 16 (isOld timing age) l ++
          (((l.take 16).filter (isOld timing age)).reverse ++ trims)).Perm (l ++ trims) := by
        rw [← List.append_assoc]
        exact (List.perm_append_comm.trans chosen_append_putBack_perm).append_right trims
      refine round_yields hB hcls hc hst hin hnodup htrim hne (by omega) n ?_
      intro q' w' hc' hst' htrim' hkept htotal
      refine (ih hc' hst' (fun h hh => hin h (hperm.mem_iff.mp hh)) (hperm.nodup_iff.mpr hnodup)
        htrim' (by omega)).mono fun q'' s hs => ⟨hs.cached, hs.stack, ?_, ?_, ?_, ?_⟩
      · rw [sweep_succ, List.append_assoc]
        exact hs.trim
      · exact hkept.trans (hs.kept.mono putBack_subset)
      · have hle := hs.total
        omega
      · rw [hs.log, sweep_succ, List.append_assoc]

end Rounds

section Classes

variable {B : Set ℕ} {size age : ℕ → ℕ} {timing blocks c done totalFreed : ℕ} {w : World}
  {log : TrimLog} {l trims : List ℕ} {forceTrim : Bool}

/-- Without a pad every block that was set aside is released. -/
theorem releaseLoop_yields (hB : Apart B size) (hcls : c < 34) (n : ℕ) {toTrim : ℕ}
    (hc : Cached B age w) (hst : Stack w c l) (hin : ∀ h ∈ trims ++ l, h ∈ B)
    (hnodup : (trims ++ l).Nodup) (hsize : ∀ h ∈ trims, size h = payload c)
    (hlarge : 4096 ≤ payload c) (htrim : Linked 0 (OxHeader.next w.mem) toTrim trims 0)
    (hlen : trims.length ≤ n) (hfreed : totalFreed ≤ done * 2097152)
    (hroom : done + trims.length ≤ blocks) :
    Yields (Overflows blocks) (tracedReleaseLoop c (payload c) 0 forceTrim n toTrim totalFreed)
      (w, log)
      fun r s => Cached B age s.1 ∧ Kept B trims c w s.1 ∧ r ≤ (done + trims.length) * 2097152 ∧
        s.2 = { log with released := log.released ++ trims } := by
  induction n generalizing w toTrim totalFreed trims l log done with
  | zero =>
    obtain rfl := List.eq_nil_of_length_eq_zero (Nat.le_zero.mp hlen)
    refine yields_pure ⟨hc, ⟨fun _ _ _ => rfl, fun _ _ => rfl, fun _ _ => rfl⟩, hfreed, ?_⟩
    simp
  | succ n ih =>
    cases trims with
    | nil =>
      refine yields_ite (fun _ => yields_pure ⟨hc, ?_, hfreed, ?_⟩) fun hne => absurd htrim hne
      · exact ⟨fun _ _ _ => rfl, fun _ _ => rfl, fun _ _ => rfl⟩
      · simp
    | cons x rest =>
      obtain ⟨rfl, hnull, hrest⟩ := htrim
      have hx : toTrim ∈ B := hin toTrim (by simp)
      have hrestB : ∀ h ∈ rest, h ∈ B := fun h hh => hin h (by simp [hh])
      obtain ⟨hnodupTrims, hnodupL, hdisjoint⟩ := List.nodup_append.mp hnodup
      have hout : toTrim ∉ rest := (List.nodup_cons.mp hnodupTrims).1
      have hperm : (rest ++ toTrim :: l).Perm (toTrim :: rest ++ l) := List.perm_middle
      have htop : (toTrim :: l).Nodup :=
        List.nodup_cons.mpr ⟨fun hl => hdisjoint toTrim List.mem_cons_self toTrim hl rfl, hnodupL⟩
      have htopB : ∀ h ∈ toTrim :: l, h ∈ B :=
        fun h hh => hin h (hperm.mem_iff.mp (List.mem_append_right rest hh))
      have hpayload : size toTrim = payload c := hsize toTrim List.mem_cons_self
      have hle := (payload_bounds hcls).2.2
      rw [List.length_cons] at hlen hroom
      refine yields_ite (fun hzero => absurd hzero hnull) fun _ => ?_
      refine yields_after (runs_quietly (runs_get.mpr ⟨rfl, rfl⟩)) ?_
      refine yields_ite (fun _ => ?_) fun hfalse => absurd (Or.inl (Or.inr rfl)) hfalse
      refine yields_after runs_record ?_
      obtain ⟨w₁, hrun, hc₁, hicc, hnext⟩ := releaseMemory_runs hc hB hx (hpayload ▸ hlarge)
      rw [hpayload] at hrun
      refine yields_after (runs_quietly hrun) (yields_ite (fun hover => ?_) fun _ => ?_)
      · refine yields_throw ⟨rfl, ?_⟩
        unfold usizeBound at hover
        omega
      · have hkept₁ : Kept B (toTrim :: rest) c w w₁ :=
          ⟨fun h hh _ => hnext h hh, fun _ _ => by rw [hicc], fun _ _ => by rw [hicc]⟩
        have hst₁ : Stack w₁ c l := by
          refine ⟨?_, hicc ▸ hst.usage⟩
          show Linked 0 (OxHeader.next w₁.mem) (headPtr (w₁.icc.list 0 c)) l 0
          rw [hicc]
          exact hst.chain.congr fun h hh => hnext h (hin h (by simp [hh]))
        obtain ⟨w₂, hpush, hc₂, hst₂, hkept₂⟩ := @pushToGlobal_runs B size age l c w₁ [] toTrim
          (OxHeader.next w₁.mem toTrim) toTrim hc₁ hB hst₁ hcls htopB htop
          ⟨rfl, hnull, rfl⟩
        have hkept : Kept B (toTrim :: rest) c w w₂ := hkept₁.trans (hkept₂.mono (by simp))
        refine yields_after (runs_quietly hpush) ?_
        have hrest₂ : Linked 0 (OxHeader.next w₂.mem) (OxHeader.next w.mem toTrim) rest 0 := by
          refine hkept₂.linked (fun h hh => ⟨hrestB h hh, fun hin => hout ?_⟩)
            (hrest.congr fun h hh => hnext h (hrestB h hh))
          exact List.mem_singleton.mp hin ▸ hh
        refine (@ih (done + 1) (totalFreed + payload c) w₂
          { log with released := log.released ++ [toTrim] } (toTrim :: l) rest
          (OxHeader.next w.mem toTrim) hc₂ hst₂ (fun h hh => hin h (hperm.mem_iff.mp hh))
          (hperm.nodup_iff.mpr hnodup) (fun h hh => hsize h (List.mem_cons_of_mem _ hh)) hrest₂
          (by omega) (by omega) (by omega)).mono ?_
        rintro r s ⟨hc', hkept', hr, hlog⟩
        refine ⟨hc', hkept.trans (hkept'.mono (List.subset_cons_self _ _)), ?_, ?_⟩
        · rwa [List.length_cons, Nat.add_comm rest.length, ← Nat.add_assoc]
        · rw [hlog, List.append_assoc, List.singleton_append]

/-- The sweep of a class with as many rounds as `trim` makes. -/
def swept (timing : ℕ) (age : ℕ → ℕ) (l : List ℕ) : Sweep ℕ :=
  sweep 16 (isOld timing age) (l.length / 16) l

theorem trimClass_yields (hB : Apart B size) (hcls : c < 34) (hlarge : 4096 ≤ payload c) {q : Tally}
    (hc : Cached B age w) (hst : Stack w c l) (hin : ∀ h ∈ l, h ∈ B)
    (hsize : ∀ h ∈ l, size h = payload c) (htotal : q.total ≤ done)
    (hfreed : totalFreed ≤ done * 2097152) (hroom : done + l.length ≤ blocks) :
    Yields (Overflows blocks) (tracedTrimClass c timing 0 forceTrim q totalFreed) (w, log)
      fun r s => Cached B age s.1 ∧ Kept B l c w s.1 ∧ r.1.total ≤ done + l.length ∧
        r.2 ≤ (done + l.length) * 2097152 ∧
        s.2 = ⟨log.examined ++ (swept timing age l).examined,
          log.released ++ (swept timing age l).aside⟩ := by
  have hnodup : l.Nodup := hst.chain.nodup
  have hrounds : l.length / 16 * 16 ≤ l.length := Nat.div_mul_le_self _ _
  have hperm : ((swept timing age l).aside ++ (swept timing age l).stack).Perm l :=
    aside_append_stack_perm
  have hlen : (swept timing age l).aside.length ≤ l.length / 16 * 16 := aside_length_le
  refine yields_after (runs_attempt.mpr ⟨index_sizeClasses.mpr ⟨hcls, rfl⟩, rfl⟩) ?_
  refine yields_after (runs_quietly (hc.getSize_runs hB hst hin)) ?_
  have hempty : Linked 0 (OxHeader.next w.mem) 0 [] 0 := rfl
  refine yields_bind (rounds_yields hB hcls (l.length / 16) hc hst ?_ ?_ hempty ?_) ?_
  · rwa [List.append_nil]
  · rwa [List.append_nil]
  · dsimp only
    omega
  · rintro q' ⟨w₁, log₁⟩ hs
    have htrim := hs.trim
    rw [List.append_nil] at htrim
    have hsub : ∀ h ∈ (swept timing age l).aside, h ∈ l :=
      fun h hh => hperm.mem_iff.mp (List.mem_append_left _ hh)
    refine yields_bind (releaseLoop_yields hB hcls _ hs.cached hs.stack
      (fun h hh => hin h (hperm.mem_iff.mp hh)) (hperm.nodup_iff.mpr hnodup)
      (fun h hh => hsize h (hsub h hh)) hlarge htrim hlen hfreed (by omega)) ?_
    rintro r s ⟨hc', hkept, hr, hlog⟩
    refine yields_pure ⟨hc', hs.kept.trans (hkept.mono hsub), ?_, ?_, ?_⟩
    · have hle : q'.total ≤ q.total + l.length / 16 * 16 := hs.total
      show q'.total ≤ done + l.length
      omega
    · exact hr.trans (Nat.mul_le_mul_right _ (by omega))
    · rw [hlog]
      have hlog₁ : log₁ = _ := hs.log
      rw [hlog₁]
      rfl

/-- The classes are trimmed one after the other, each from the list that it has at the start. -/
theorem trimClasses_yields (hB : Apart B size) (stack : ℕ → List ℕ) (classes : List ℕ) {q : Tally}
    (hc : Cached B age w) (hnodup : classes.Nodup)
    (hclasses : ∀ c ∈ classes, c < 34 ∧ 4096 ≤ payload c ∧ Stack w c (stack c))
    (hin : ∀ c ∈ classes, ∀ h ∈ stack c, h ∈ B ∧ size h = payload c)
    (hdisjoint : ∀ c ∈ classes, ∀ c' ∈ classes, c' ≠ c → ∀ h ∈ stack c, h ∉ stack c')
    (htotal : q.total ≤ done) (hfreed : totalFreed ≤ done * 2097152)
    (hroom : done + (classes.map fun c => (stack c).length).sum ≤ blocks) :
    Yields (Overflows blocks) (tracedTrimClasses timing 0 forceTrim classes q totalFreed) (w, log)
      fun r s => r.2.2 = false ∧
        s.2 = ⟨log.examined ++ classes.flatMap fun c => (swept timing age (stack c)).examined,
          log.released ++ classes.flatMap fun c => (swept timing age (stack c)).aside⟩ := by
  induction classes generalizing w q totalFreed done log with
  | nil =>
    refine yields_pure ⟨rfl, ?_⟩
    simp
  | cons c rest ih =>
    obtain ⟨hout, hrest⟩ := List.nodup_cons.mp hnodup
    obtain ⟨hcls, hlarge, hst⟩ := hclasses c List.mem_cons_self
    rw [List.map_cons, List.sum_cons] at hroom
    refine yields_ite (fun hpad => absurd rfl hpad.2) fun _ => ?_
    refine yields_bind (trimClass_yields hB hcls hlarge hc hst
      (fun h hh => (hin c List.mem_cons_self h hh).1)
      (fun h hh => (hin c List.mem_cons_self h hh).2)
      htotal hfreed (by omega)) ?_
    rintro ⟨q₁, freed⟩ ⟨w₁, log₁⟩ ⟨hc₁, hkept, htotal₁, hfreed₁, hlog₁⟩
    have hlog₁ : log₁ = _ := hlog₁
    have hlater : ∀ c' ∈ rest, c' < 34 ∧ 4096 ≤ payload c' ∧ Stack w₁ c' (stack c') := by
      intro c' hc'
      obtain ⟨hcls', hlarge', hst'⟩ := hclasses c' (List.mem_cons_of_mem c hc')
      have hne : c' ≠ c := fun heq => hout (heq ▸ hc')
      refine ⟨hcls', hlarge', hkept.stack (fun h hh => ⟨?_, ?_⟩) hne hst'⟩
      · exact (hin c' (List.mem_cons_of_mem c hc') h hh).1
      · exact hdisjoint c' (List.mem_cons_of_mem c hc') c List.mem_cons_self hne.symm h hh
    refine (ih hc₁ hrest hlater (fun c' hc' => hin c' (List.mem_cons_of_mem c hc'))
      (fun a ha b hb => hdisjoint a (List.mem_cons_of_mem c ha) b (List.mem_cons_of_mem c hb))
      htotal₁ hfreed₁ (by omega)).mono ?_
    rintro r s ⟨hr, hlog⟩
    refine ⟨hr, ?_⟩
    rw [hlog, hlog₁, List.flatMap_cons, List.flatMap_cons, List.append_assoc, List.append_assoc]

end Classes

/-- A block in the list of a class: it is ours and free, and its header says its class. -/
structure Listed (w : World) (c h : ℕ) : Prop where
  isBlock : IsBlock h
  bound : h + 16 + payload c < usizeBound
  ours : w.isOurs h = true
  magic : OxHeader.magic w.mem h = w.freedMagic
  cls : OxHeader.cls w.mem h = c

/-- A shared cache with one shard on which nobody works. The process runs on the CPU of the
shard, so `sched_getcpu` returns 0 or fails. -/
structure Quiescent (w : World) (stack : ℕ → List ℕ) : Prop where
  once : w.icc.once = true
  single : w.icc.ncpu = 1
  cpu : ∀ t, w.va.tick ≤ t → w.va.sys t ≤ 1
  lists : ∀ c < 34, Stack w c (stack c)
  listed : ∀ c < 34, ∀ h ∈ stack c, Listed w c h
  apart : ∀ c < 34, ∀ h ∈ stack c, ∀ c' < 34, ∀ h' ∈ stack c', h' ≠ h →
    h' + 16 ≤ h ∨ h + 16 + payload c ≤ h'

/-- The age that `trim` computes for a block. -/
def ageOf (w : World) (h : ℕ) : ℕ := w.currentStamp - OxHeader.lifeTime w.mem h

/-- The value of `AVERAGE_BLOCK_TIMES_GLOBAL` that `trim` reads. -/
def timingOf (w : World) : ℕ := w.averageBlockTimes % 2 ^ 32

def largeClasses : List ℕ := List.range' getSize4096Class (numSizeClasses - getSize4096Class)

section Quiescent

variable {w : World} {stack : ℕ → List ℕ}

def cachedBlocks (stack : ℕ → List ℕ) : Set ℕ := { h | ∃ c < 34, h ∈ stack c }

theorem mem_largeClasses {c : ℕ} : c ∈ largeClasses ↔ getSize4096Class ≤ c ∧ c < 34 := by
  have hclass : getSize4096Class = 22 := by decide
  have hnum : numSizeClasses = 34 := rfl
  rw [largeClasses, List.mem_range'_1, hclass, hnum]

theorem payload_large {c : ℕ} (h : c ∈ largeClasses) : 4096 ≤ payload c := by
  have hall : ∀ c ∈ largeClasses, 4096 ≤ payload c := by decide
  exact hall c h

theorem storeAverage_runs (q : Tally) (w : World) : ∃ w', Runs (storeAverage q) w () w' := by
  unfold storeAverage
  split
  · exact ⟨_, runs_modify.mpr rfl⟩
  · exact ⟨w, runs_pure.mpr ⟨rfl, rfl⟩⟩

theorem Quiescent.disjoint (h : Quiescent w stack) {c c' x : ℕ} (hc : c < 34) (hc' : c' < 34)
    (hne : c' ≠ c) (hx : x ∈ stack c) : x ∉ stack c' := by
  intro hx'
  exact hne ((h.listed c' hc' x hx').cls.symm.trans (h.listed c hc x hx).cls)

theorem Quiescent.apartBlocks (h : Quiescent w stack) :
    Apart (cachedBlocks stack) fun x => payload (OxHeader.cls w.mem x) where
  isBlock x hx := by
    obtain ⟨c, hc, hmem⟩ := hx
    exact (h.listed c hc x hmem).isBlock
  bound x hx := by
    obtain ⟨c, hc, hmem⟩ := hx
    rw [(h.listed c hc x hmem).cls]
    exact (h.listed c hc x hmem).bound
  apart x hx x' hx' hne := by
    obtain ⟨c, hc, hmem⟩ := hx
    obtain ⟨c', hc', hmem'⟩ := hx'
    rw [(h.listed c hc x hmem).cls]
    exact h.apart c hc x hmem c' hc' x' hmem' hne

theorem Quiescent.cached (h : Quiescent w stack) : Cached (cachedBlocks stack) (ageOf w) w where
  once := h.once
  single := h.single
  cpu := h.cpu
  ours x hx := by
    obtain ⟨c, hc, hmem⟩ := hx
    exact (h.listed c hc x hmem).ours
  magic x hx := by
    obtain ⟨c, hc, hmem⟩ := hx
    exact (h.listed c hc x hmem).magic
  age _ _ := rfl

/-- A trim without a pad sweeps the large classes, or runs into the limit of its counters. -/
theorem Quiescent.trim_yields (h : Quiescent w stack) :
    Yields (Overflows (largeClasses.map fun c => (stack c).length).sum) (tracedTrim 0) (w, ⟨[], []⟩)
      fun _ s =>
        s.2 = ⟨largeClasses.flatMap fun c => (swept (timingOf w) (ageOf w) (stack c)).examined,
          largeClasses.flatMap fun c => (swept (timingOf w) (ageOf w) (stack c)).aside⟩ := by
  have hlt : ∀ c ∈ largeClasses, c < 34 := fun c hc => (mem_largeClasses.mp hc).2
  refine yields_after (runs_quietly (runs_get.mpr ⟨rfl, rfl⟩)) ?_
  have hstart : (⟨0, 0, 0⟩ : Tally).total ≤ 0 := Nat.le_refl 0
  refine yields_bind (trimClasses_yields h.apartBlocks stack largeClasses h.cached
    List.nodup_range' (fun c hc => ⟨hlt c hc, payload_large hc, h.lists c (hlt c hc)⟩) ?_ ?_
    hstart (Nat.zero_le _) (Nat.le_of_eq (Nat.zero_add _))) ?_
  · intro c hc x hx
    exact ⟨⟨c, hlt c hc, hx⟩, congrArg payload (h.listed c (hlt c hc) x hx).cls⟩
  · exact fun c hc c' hc' hne x hx => h.disjoint (hlt c hc) (hlt c' hc') hne hx
  · rintro ⟨q, freed, early⟩ ⟨w₁, log⟩ ⟨hearly, hlog⟩
    have hearly : early = false := hearly
    subst hearly
    obtain ⟨w₂, hstore⟩ := storeAverage_runs q w₁
    exact yields_after (runs_quietly hstore) (yields_pure hlog)

/-- What the sweeps of the other classes do has nothing to do with the blocks of a class. -/
theorem Quiescent.mem_flatMap (h : Quiescent w stack) {f : ℕ → List ℕ}
    (hf : ∀ c, ∀ x ∈ f c, x ∈ stack c) {c x : ℕ} (hc : c ∈ largeClasses) (hx : x ∈ stack c) :
    x ∈ largeClasses.flatMap f ↔ x ∈ f c := by
  constructor
  · intro hmem
    obtain ⟨c', hc', hx'⟩ := List.mem_flatMap.mp hmem
    by_cases heq : c' = c
    · rwa [heq] at hx'
    · have hlt := (mem_largeClasses.mp hc).2
      have hlt' := (mem_largeClasses.mp hc').2
      exact absurd (hf c' x hx') (h.disjoint hlt hlt' heq hx)
  · exact fun hmem => List.mem_flatMap.mpr ⟨c, hc, hmem⟩

/-- What a trim without a pad is for: it looks at as many blocks of the list as its rounds have
room for, and gives up the pages of the old ones among the first of them. -/
def Thorough (w : World) (l : List ℕ) (log : TrimLog) : Prop :=
  16 * (l.length / 16) ≤ (l.toFinset.filter (· ∈ log.examined)).card ∧
    ∀ h ∈ l.take (16 * (l.length / 16)), timingOf w < ageOf w h → h ∈ log.released

theorem thorough_congr {l : List ℕ} {log log' : TrimLog}
    (hexamined : ∀ x ∈ l, x ∈ log.examined ↔ x ∈ log'.examined)
    (hreleased : ∀ x ∈ l, x ∈ log.released ↔ x ∈ log'.released) :
    Thorough w l log ↔ Thorough w l log' := by
  have hfilter : l.toFinset.filter (· ∈ log.examined) = l.toFinset.filter (· ∈ log'.examined) :=
    Finset.filter_congr fun x hx => hexamined x (List.mem_toFinset.mp hx)
  unfold Thorough
  rw [hfilter]
  refine and_congr_right fun _ => forall₂_congr fun x hx => ?_
  rw [hreleased x (List.mem_of_mem_take hx)]

/-- The sweep of a list gets to all of it exactly if the blocks of all rounds but the last are
old. -/
theorem thorough_swept {l : List ℕ} (hnodup : l.Nodup) :
    Thorough w l
        ⟨(swept (timingOf w) (ageOf w) l).examined, (swept (timingOf w) (ageOf w) l).aside⟩ ↔
      ∀ h ∈ l.take (16 * (l.length / 16 - 1)), timingOf w < ageOf w h := by
  have hfilter : l.toFinset.filter (· ∈ (swept (timingOf w) (ageOf w) l).examined) =
      (swept (timingOf w) (ageOf w) l).examined.toFinset := by
    ext x
    rw [Finset.mem_filter, List.mem_toFinset, List.mem_toFinset]
    exact and_iff_right_of_imp fun hx => examined_subset hx
  have hcard : l.length / 16 * 16 ≤ (swept (timingOf w) (ageOf w) l).examined.toFinset.card ↔
      ∀ x ∈ l.take ((l.length / 16 - 1) * 16), isOld (timingOf w) (ageOf w) x = true :=
    card_examined_iff hnodup (Nat.div_mul_le_self l.length 16)
  simp only [isOld, decide_eq_true_eq] at hcard
  unfold Thorough
  rw [hfilter, Nat.mul_comm 16, Nat.mul_comm 16]
  constructor
  · exact fun hthorough => hcard.mp hthorough.1
  · intro hold
    refine ⟨hcard.mpr hold, fun h hh hage => ?_⟩
    refine (examined_of_all_chosen fun x hx => ?_).2 h hh (decide_eq_true hage)
    exact decide_eq_true (hold x hx)

theorem Quiescent.thorough_iff (h : Quiescent w stack) {c : ℕ} (hc : c ∈ largeClasses)
    {r : ℕ × ℕ} {w' : World} {log : TrimLog}
    (hrun : Runs (tracedTrim 0) (w, ⟨[], []⟩) r (w', log)) :
    Thorough w (stack c) log ↔
      ∀ x ∈ (stack c).take (16 * ((stack c).length / 16 - 1)), timingOf w < ageOf w x := by
  have hlog : log = _ := h.trim_yields.result r (w', log) hrun
  rw [hlog, ← thorough_swept (h.lists c (mem_largeClasses.mp hc).2).chain.nodup]
  apply thorough_congr
  · intro x hx
    exact h.mem_flatMap (f := fun c => (swept _ _ (stack c)).examined)
      (fun _ _ hy => examined_subset hy) hc hx
  · intro x hx
    exact h.mem_flatMap (f := fun c => (swept _ _ (stack c)).aside)
      (fun _ _ hy => aside_append_stack_perm.mem_iff.mp (List.mem_append_left _ hy)) hc hx

theorem Quiescent.trim_ends (h : Quiescent w stack)
    (hsmall : (largeClasses.map fun c => (stack c).length).sum < 2 ^ 32) : Ends (trim 0) w :=
  (trim_erases 0).ends (h.trim_yields.ends fun _ he => absurd he.2 (by omega))

end Quiescent

section Reachable

open Interleaving SlabConservation

variable {w : World} {g : Layout} {c h : ℕ}

/-- The bytes of a block that waits in a shard. -/
theorem own_of_shard (hinv : Inv w g) (hplace : g.place h = some (.cached (.shard 0 c))) {x : ℕ}
    (hlo : h ≤ x) (hhi : x < h + 16 + payload c) : g.own x = .block h := by
  obtain ⟨hblock, hc, hcls, _⟩ := hinv.blocks h _ hplace
  have hc : c < 34 := hc
  have hcap : w.capacity h = payload c := by
    rw [World.capacity, show OxHeader.cls w.mem h = c from hcls, if_neg (by omega)]
  exact hblock.extent x hlo (hcap ▸ hhi)

theorem listed_of_shard (hinv : Inv w g) (hplace : g.place h = some (.cached (.shard 0 c))) :
    Listed w c h := by
  obtain ⟨hblock, _, hcls, hmagic⟩ := hinv.blocks h _ hplace
  refine ⟨hblock.isBlock, ?_, hinv.isOurs_block hplace, hmagic, hcls⟩
  have hown := own_of_shard hinv hplace (x := h + 15 + payload c) (by omega) (by omega)
  have hlast := hinv.own_succ_lt (show g.own (h + 15 + payload c) ≠ .free by rw [hown]; exact nofun)
  omega

theorem apart_of_shard (hinv : Inv w g) {pl : Place} {h' : ℕ}
    (hplace : g.place h = some (.cached (.shard 0 c))) (hplace' : g.place h' = some pl)
    (hne : h' ≠ h) : h' + 16 ≤ h ∨ h + 16 + payload c ≤ h' := by
  by_contra hin
  have hshared : ∀ x, h ≤ x → x < h + 16 + payload c → h' ≤ x → x < h' + 16 → False := by
    intro x hlo hhi hlo' hhi'
    have hown := own_of_shard hinv hplace hlo hhi
    rw [hinv.own_header hplace' hlo' hhi'] at hown
    exact hne (Owner.block.inj hown)
  rcases Nat.le_total h h' with hle | hle
  · exact hshared h' hle (by omega) (Nat.le_refl _) (by omega)
  · exact hshared h (Nat.le_refl _) (by omega) hle (by omega)

/-- With one CPU the states that runs reach are quiescent, as soon as the shared cache is there. -/
theorem quiescent_of_inv (hinv : Inv w g) (honce : w.icc.once = true) (hsingle : w.icc.ncpu = 1)
    (hcpu : ∀ t, w.va.tick ≤ t → w.va.sys t ≤ 1) : ∃ stack, Quiescent w stack := by
  choose lists hchain husage hmem using hinv.chains
  refine ⟨fun c => lists (.shard 0 c), honce, hsingle, hcpu, ?_, ?_, ?_⟩
  · exact fun c _ => ⟨hchain (.shard 0 c), husage (.shard 0 c)⟩
  · exact fun c _ h hh => listed_of_shard hinv ((hmem _ h).mp hh)
  · intro c _ h hh c' _ h' hh' hne
    exact apart_of_shard hinv ((hmem _ h).mp hh) ((hmem _ h').mp hh') hne

theorem run_quiescent {env : Env} {sys : ℕ → ℕ} {ops : List Op} {s : State}
    (hrun : run step (initial env sys) ops = some s)
    (honce : s.world.icc.once = true) (hsingle : s.world.icc.ncpu = 1)
    (hcpu : ∀ t, s.world.va.tick ≤ t → s.world.va.sys t ≤ 1) :
    ∃ stack, Quiescent s.world stack := by
  obtain ⟨⟨g, hs⟩, _⟩ := run_laid hrun
  exact quiescent_of_inv hs.inv honce hsingle hcpu

end Reachable

/-- A trim without a pad gets to the blocks of a class that its rounds have room for exactly if
all of them are old, those of the last round apart: a young block goes back to the top of the
list, and the next round looks at it again. -/
theorem trim_reaches_old_blocks (w : World) (stack : ℕ → List ℕ) (h : Quiescent w stack) (c : ℕ)
    (hlarge : getSize4096Class ≤ c) (hc : c < numSizeClasses) :
    ((largeClasses.map fun c => (stack c).length).sum < 2 ^ 32 → Ends (trim 0) w) ∧
      ∀ r w', Runs (trim 0) w r w' → ∃ log, Runs (tracedTrim 0) (w, ⟨[], []⟩) r (w', log) ∧
        (Thorough w (stack c) log ↔
          ∀ x ∈ (stack c).take (16 * ((stack c).length / 16 - 1)), timingOf w < ageOf w x) := by
  have hmem : c ∈ largeClasses := mem_largeClasses.mpr ⟨hlarge, hc⟩
  refine ⟨h.trim_ends, fun r w' hrun => ?_⟩
  obtain ⟨log, htraced⟩ := (trim_erases 0).runs ⟨[], []⟩ hrun
  exact ⟨log, htraced, h.thorough_iff hmem htraced⟩

/-- The header of the only block in the i-th of a row of slabs for 32768 bytes. -/
def slabHeader (i : ℕ) : ℕ := 2 ^ 32 + 36864 * i + 32

/-- The headers of a list of 32 such blocks. -/
def coldMemory (young : ℕ) : ByteMemory.Memory := fun a =>
  let i := (a - 2 ^ 32) / 36864
  OxHeader.write (fun _ => 0) (slabHeader i) (if i = 31 then 0 else slabHeader (i + 1)) 27 1
    (if i < young then 100 else 0) a

/-- The shared cache of a process with this list. The young blocks at its top are freshly
freed, the others were a hundred ticks ago. -/
def coldCache (young : ℕ) : World :=
  { World.new ⟨none, none, 1⟩ fun _ => 1 with
    mem := coldMemory young
    va := { VaBitmap.new defaultReservation fun _ => 1 with
      segments := [⟨8, 2 ^ 32, 2 ^ 32 + 2 ^ 34, fun _ => 0, fun _ => 0, 0, 65536, false, 0⟩]
      radix := some (Radix.new.setRange (2 ^ 32) (2 ^ 34) 8) }
    icc := ⟨put (fun _ _ => 0) 0 27 (slabHeader 0), put (fun _ _ => 0) 0 27 32, 1, true⟩
    currentStamp := 100 }

def coldStack (c : ℕ) : List ℕ := if c = 27 then (List.range 32).map slabHeader else []

theorem mem_coldStack {c h : ℕ} : h ∈ coldStack c ↔ c = 27 ∧ ∃ i < 32, slabHeader i = h := by
  unfold coldStack
  split
  · rename_i hc
    simp [hc]
  · rename_i hc
    simp [hc]

theorem coldCache_stack {young : ℕ} (hyoung : young = 0 ∨ young = 16) {c : ℕ} (hc : c < 34) :
    Stack (coldCache young) c (coldStack c) := by
  have hall : ∀ young ∈ [0, 16], ∀ c < 34,
      Linked 0 (OxHeader.next (coldCache young).mem) ((coldCache young).headOf (.shard 0 c))
        (coldStack c) 0 ∧ (coldCache young).icc.usage 0 c = (coldStack c).length := by
    decide +kernel
  obtain ⟨hchain, husage⟩ := hall young (by simpa using hyoung) c hc
  exact ⟨hchain, husage⟩

theorem coldCache_listed {young : ℕ} (hyoung : young = 0 ∨ young = 16) {i : ℕ} (hi : i < 32) :
    Listed (coldCache young) 27 (slabHeader i) := by
  have hall : ∀ young ∈ [0, 16], ∀ i < 32, (coldCache young).isOurs (slabHeader i) = true ∧
      OxHeader.magic (coldCache young).mem (slabHeader i) = 1 ∧
      OxHeader.cls (coldCache young).mem (slabHeader i) = 27 := by
    decide +kernel
  obtain ⟨hours, hmagic, hcls⟩ := hall young (by simpa using hyoung) i hi
  have hpayload : payload 27 = 32768 := rfl
  refine ⟨⟨?_, ?_, ?_⟩, ?_, hours, hmagic, hcls⟩
  · unfold slabHeader
    omega
  · unfold slabHeader
    omega
  · unfold slabHeader usizeBound
    omega
  · unfold slabHeader usizeBound
    omega

theorem coldCache_quiescent {young : ℕ} (hyoung : young = 0 ∨ young = 16) :
    Quiescent (coldCache young) coldStack where
  once := rfl
  single := rfl
  cpu _ _ := Nat.le_refl 1
  lists _ hc := coldCache_stack hyoung hc
  listed c _ h hh := by
    obtain ⟨rfl, i, hi, rfl⟩ := mem_coldStack.mp hh
    exact coldCache_listed hyoung hi
  apart c _ h hh c' _ h' hh' hne := by
    obtain ⟨rfl, i, _, rfl⟩ := mem_coldStack.mp hh
    obtain ⟨_, j, _, rfl⟩ := mem_coldStack.mp hh'
    have hpayload : payload 27 = 32768 := rfl
    unfold slabHeader at hne ⊢
    omega

theorem trim_reaches_old_blocks_all :
    ∃ r w' log, Runs (trim 0) (coldCache 0) r w' ∧
      Runs (tracedTrim 0) (coldCache 0, ⟨[], []⟩) r (w', log) ∧
      Thorough (coldCache 0) ((List.range 32).map slabHeader) log := by
  have hq := coldCache_quiescent (Or.inl rfl : 0 = 0 ∨ 0 = 16)
  obtain ⟨hends, hruns⟩ := trim_reaches_old_blocks (coldCache 0) coldStack hq 27
    (by decide) (by decide)
  obtain ⟨r, w', hrun⟩ := hends (by decide)
  obtain ⟨log, htraced, hiff⟩ := hruns r w' hrun
  refine ⟨r, w', log, hrun, htraced, hiff.mpr ?_⟩
  decide +kernel

/-- With sixteen fresh blocks at the top, a trim does not get to the old ones below. -/
theorem trim_stays_at_top :
    ∃ r w' log, Runs (trim 0) (coldCache 16) r w' ∧
      Runs (tracedTrim 0) (coldCache 16, ⟨[], []⟩) r (w', log) ∧
      ¬ Thorough (coldCache 16) ((List.range 32).map slabHeader) log := by
  have hq := coldCache_quiescent (Or.inr rfl : 16 = 0 ∨ 16 = 16)
  obtain ⟨r, w', hrun⟩ := hq.trim_ends (by decide)
  obtain ⟨log, htraced⟩ := (trim_erases 0).runs ⟨[], []⟩ hrun
  refine ⟨r, w', log, hrun, htraced, fun hthorough => ?_⟩
  have hold := (hq.thorough_iff (c := 27) (by decide) htraced).mp hthorough
  exact absurd hold (by decide +kernel)

end Oxidalloc.GTrim
