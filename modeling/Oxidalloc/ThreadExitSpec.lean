import Oxidalloc.AllocateSpec
import Oxidalloc.ThreadExit

/-!
What the cleanup of a thread's cache does to the layout. The engine is out of reach of the
program while its bins are handed over, so the invariant is kept for a veiled world, in
which the thread still has the engine without the bins that are done. When the engine is
dropped in the end, the slots that were passed over are lost.
-/
namespace Oxidalloc

open ByteMemory HeadPacking LinkedChain Programs VaBitmap Function

/-- The world with other engines. -/
def World.veil (w : World) (engines : ℕ → Option ThreadLocalEngine) : World :=
  { w with engines := engines }

/-- Some slots are lost. -/
def World.losing (w : World) (l : List ℕ) : World :=
  { w with slabs := { w.slabs with lost := l ++ w.slabs.lost } }

section Veil

variable {α β : Type} {w w' : World} {g : Layout} {E : ℕ → Option ThreadLocalEngine} {cls : ℕ}

/-- The program neither reads nor writes the engines, so it runs the same whatever they are. -/
def Blind (x : OxM α) : Prop :=
  ∀ w a w' E, Runs x w a w' → Runs x (World.veil w E) a (World.veil w' E)

theorem Blind.engines {x : OxM α} {a : α} (hx : Blind x) (h : Runs x w a w') :
    w'.engines = w.engines := by
  have hsame := (h.unique (hx w a w' w.engines h)).2
  rw [hsame]
  rfl

theorem blind_pure {a : α} : Blind (pure a : OxM α) := by
  intro w c w' E h
  obtain ⟨rfl, rfl⟩ := runs_pure.mp h
  rfl

theorem blind_throw {e : Halt} : Blind (throw e : OxM α) :=
  fun _ _ _ _ h => absurd h runs_throw

theorem blind_onVa {x : VaM α} : Blind (onVa x) := by
  intro w a w' E h
  obtain ⟨va', hrun, rfl⟩ := runs_onVa.mp h
  exact runs_onVa.mpr ⟨va', hrun, rfl⟩

theorem blind_modify {f : World → World} (hf : ∀ w E, f (World.veil w E) = (f w).veil E) :
    Blind (modify f : OxM PUnit) := by
  intro w u w' E h
  rw [runs_modify.mp h, ← hf]
  rfl

theorem blind_bind {x : OxM α} {f : α → OxM β} (hx : Blind x) (hf : ∀ a, Blind (f a)) :
    Blind (x >>= f) := by
  intro w b w' E h
  obtain ⟨a, mid, hfirst, hrest⟩ := runs_bind.mp h
  exact runs_bind.mpr ⟨a, mid.veil E, hx w a mid E hfirst, hf a mid b w' E hrest⟩

theorem blind_get_bind {f : World → OxM α} (hsame : ∀ w E, f (World.veil w E) = f w)
    (hf : ∀ w, Blind (f w)) : Blind (get >>= f) := by
  intro w a w' E h
  rw [runs_get_bind] at h ⊢
  rw [hsame]
  exact hf w w a w' E h

theorem blind_ite {p : Prop} [Decidable p] {x y : OxM α} (hx : Blind x) (hy : Blind y) :
    Blind (if p then x else y) := by
  split
  · exact hx
  · exact hy

theorem mapIccTable_blind (len : ℕ) : Blind (mapIccTable len) := by
  refine blind_bind blind_onVa fun r => ?_
  cases r with
  | none => exact blind_throw
  | some ptr => exact blind_pure

theorem ensureCache_blind : Blind ensureCache := by
  refine blind_get_bind (fun _ _ => rfl) fun w => blind_ite blind_pure ?_
  refine blind_bind (mapIccTable_blind _) fun _ => blind_bind (mapIccTable_blind _) fun _ => ?_
  exact blind_modify fun _ _ => rfl

theorem tryPush_blind (cls head tail n : ℕ) : Blind (tryPush cls head tail n) := by
  refine blind_bind ensureCache_blind fun _ => ?_
  refine blind_bind (blind_bind blind_onVa fun _ => blind_pure) fun cpu => ?_
  refine blind_bind (blind_get_bind (fun _ _ => rfl) fun _ =>
    blind_ite blind_throw (blind_ite blind_throw blind_pure)) fun _ => ?_
  refine blind_get_bind (fun _ _ => rfl) fun _ => ?_
  exact blind_bind (blind_modify fun _ _ => rfl) fun _ => blind_modify fun _ _ => rfl

theorem initBlocks_blind (cls metadata blockSize n : ℕ) :
    Blind (initBlocks cls metadata blockSize n) := by
  intro w r w' E h
  rw [initBlocks, runs_get_bind] at h ⊢
  dsimp only at h ⊢
  by_cases hnone : remainingBlocks w.mem metadata blockSize = 0
  · rw [if_pos hnone] at h
    rw [if_pos (show remainingBlocks (w.veil E).mem metadata blockSize = 0 from hnone)]
    exact blind_pure w r w' E h
  · rw [if_neg hnone] at h
    rw [if_neg (show ¬ remainingBlocks (w.veil E).mem metadata blockSize = 0 from hnone)]
    rw [runs_set_bind] at h ⊢
    exact blind_pure _ r w' E h

theorem ensureCache_icc {u : Unit} (h : Runs ensureCache w u w') :
    w'.icc.once = true ∧ (w.icc.once = true → w'.icc.ncpu = w.icc.ncpu) := by
  rw [ensureCache, runs_get_bind] at h
  split at h
  · rename_i honce
    rw [(runs_pure.mp h).2]
    exact ⟨honce, fun _ => rfl⟩
  · rename_i honce
    obtain ⟨_, w₁, _, h⟩ := runs_bind.mp h
    obtain ⟨_, w₂, _, h⟩ := runs_bind.mp h
    rw [runs_modify.mp h]
    exact ⟨rfl, fun hone => absurd hone honce⟩

/-- The tables are there after a push, and they are not made twice. -/
theorem tryPush_icc {head tail n : ℕ} {u : Unit} (h : Runs (tryPush cls head tail n) w u w') :
    w'.icc.once = true ∧ (w.icc.once = true → w'.icc.ncpu = w.icc.ncpu) := by
  obtain ⟨_, w₁, hensure, h⟩ := runs_bind.mp h
  obtain ⟨cpu, w₂, hcpu, h⟩ := runs_bind.mp h
  have hfixes : Fixes World.icc getCpuId := by
    refine fixes_bind (x := onVa VaBitmap.draw) ?_ fun _ => fixes_pure
    apply fixes_zoom
    exact fun _ _ => rfl
  obtain ⟨_, w₃, hcheck, hpush⟩ := runs_bind.mp h
  obtain ⟨rfl, _⟩ := checkShard_spec hcheck
  rw [runs_get_bind, runs_modify_bind, setShard, runs_modify] at hpush
  have hspec := ensureCache_icc hensure
  rw [← hfixes w₁ cpu _ hcpu] at hspec
  rw [hpush]
  exact hspec

end Veil

section Ages

variable {w : World} {g : Layout} {cls : ℕ} {l : List ℕ}

/-- The blocks of a list lose their ages. -/
def age (m : Memory) (l : List ℕ) : Memory := l.foldl (fun m h => OxHeader.setLifeTime m h 0) m

theorem age_cons (m : Memory) (h : ℕ) (l : List ℕ) :
    age m (h :: l) = age (OxHeader.setLifeTime m h 0) l := rfl

theorem next_setLifeTime_aligned {m : Memory} {x y v : ℕ} (hx : 16 ∣ x) (hy : 16 ∣ y) :
    OxHeader.next (OxHeader.setLifeTime m x v) y = OxHeader.next m y :=
  load_congr fun _ _ _ => store_of_not_mem (by omega)

/-- The loop comes to the end of a chain of blocks of ours. -/
theorem exitChain_eq {ours : ℕ → Bool} {m : Memory} {x : ℕ} {rest : List ℕ} (n count : ℕ)
    (hlinked : Linked 0 (OxHeader.next m) x (x :: rest) 0) (hours : ∀ y ∈ rest, ours y = true)
    (haligned : ∀ y ∈ x :: rest, 16 ∣ y) (hn : rest.length < n) :
    exitChain ours n m x count =
      .ok (age m (x :: rest), (x :: rest).getLast (List.cons_ne_nil x rest),
        count + rest.length) := by
  obtain ⟨n, rfl⟩ := Nat.exists_eq_add_one.mpr (Nat.zero_lt_of_lt hn)
  replace hlinked := hlinked.2.2
  rw [exitChain]
  rw [show OxHeader.setNext m x (OxHeader.next m x) = m from store_load m x 8]
  induction rest generalizing m x n count with
  | nil =>
    have hnull : OxHeader.next m x = 0 := hlinked
    rw [if_pos hnull]
    rfl
  | cons y rest ih =>
    obtain ⟨hy, hnull, hrest⟩ := hlinked
    rw [hy, if_neg hnull, if_neg (by rw [hours y List.mem_cons_self]; decide)]
    rw [List.length_cons] at hn
    obtain ⟨n, rfl⟩ := Nat.exists_eq_add_one.mpr (by omega : 0 < n)
    have hx16 := haligned x List.mem_cons_self
    have hy16 := haligned y (List.mem_cons_of_mem x List.mem_cons_self)
    have hnext : ∀ z ∈ y :: rest,
        OxHeader.next (OxHeader.setLifeTime m x 0) z = OxHeader.next m z :=
      fun z hz => next_setLifeTime_aligned hx16 (haligned z (List.mem_cons_of_mem x hz))
    have hrest' : Linked 0 (OxHeader.next (OxHeader.setLifeTime m x 0))
        (OxHeader.next (OxHeader.setLifeTime m x 0) y) rest 0 := by
      rw [hnext y List.mem_cons_self]
      exact hrest.congr fun z hz => hnext z (List.mem_cons_of_mem y hz)
    have hstep := ih (count + 1) (fun z hz => hours z (List.mem_cons_of_mem y hz))
      (fun z hz => haligned z (List.mem_cons_of_mem x hz)) n (by omega) hrest'
    rw [exitChain]
    rw [show OxHeader.setNext (OxHeader.setLifeTime m x 0) y
      (OxHeader.next (OxHeader.setLifeTime m x 0) y) = OxHeader.setLifeTime m x 0 from
      store_load _ y 8, hstep, List.length_cons, age_cons m,
        List.getLast_cons (List.cons_ne_nil y rest),
      show count + 1 + rest.length = count + (rest.length + 1) by omega]

theorem Inv.age (hinv : Inv w g) (hloose : ∀ h ∈ l, g.place h = some (.loose cls)) :
    Inv { w with mem := age w.mem l } g ∧ CacheStep w g { w with mem := age w.mem l } g ∧
      ∀ x pl, g.place x = some pl →
        OxHeader.next (Oxidalloc.age w.mem l) x = OxHeader.next w.mem x := by
  induction l generalizing w with
  | nil => exact ⟨hinv, (SameHeap.refl hinv.wf).cacheStep, fun _ _ _ => rfl⟩
  | cons h l ih =>
    have hh := hloose h List.mem_cons_self
    have hblock := (hinv.blocks h _ hh).1
    obtain ⟨hinv₁, hstep₁, hnext₁⟩ := hinv.touch hh
      (OxHeader.setLifeTime_elsewhere (t := 0)) OxHeader.cls_setLifeTime OxHeader.magic_setLifeTime
      (by rw [OxHeader.next_setLifeTime]; exact hblock.next)
    obtain ⟨hinv₂, hstep₂, hnext₂⟩ := ih hinv₁ fun x hx => hloose x (List.mem_cons_of_mem h hx)
    refine ⟨hinv₂, hstep₁.trans hstep₂, fun x pl hx => (hnext₂ x pl hx).trans ?_⟩
    exact next_setLifeTime_aligned hblock.isBlock.aligned (hinv.blocks x pl hx).1.isBlock.aligned

end Ages

section Gives

/-- A step that puts the given blocks into shards of a class, and touches no slab of
another class. -/
structure Gives (w : World) (g : Layout) (w' : World) (g' : Layout) (cls : ℕ) (l : List ℕ) :
    Prop where
  inv : Inv w' g'
  loose : NoLoose g'
  frame : Frame w g w' g' ∅
  given : ∀ h ∈ l, ∃ cpu < w'.icc.ncpu, g'.place h = some (.cached (.shard cpu cls))
  others : ∀ h, h ∉ l → g'.place h = g.place h
  table : l ≠ [] → w'.icc.once = true
  ncpu : w.icc.once = true → w'.icc.once = true ∧ w'.icc.ncpu = w.icc.ncpu
  areas : ∀ {t c b k}, c ≠ cls → Area w g t c b k → Area w' g' t c b k

variable {w w' w₁ : World} {g g' g₁ : Layout} {E : ℕ → Option ThreadLocalEngine}
  {e f : ThreadLocalEngine} {t cls : ℕ} {l l' : List ℕ}

theorem Gives.refl (hinv : Inv w g) (hno : NoLoose g) : Gives w g w g cls [] :=
  ⟨hinv, hno, (SameHeap.refl hinv.wf).frame, nofun, fun _ _ => rfl, fun h => absurd rfl h,
    fun h => ⟨h, rfl⟩, fun _ ha => ha⟩

theorem Gives.trans (h : Gives w g w₁ g₁ cls l) (h' : Gives w₁ g₁ w' g' cls l')
    (hdisjoint : ∀ x ∈ l, x ∉ l') : Gives w g w' g' cls (l ++ l') where
  inv := h'.inv
  loose := h'.loose
  frame := h.frame.trans h'.frame
  given := by
    intro x hx
    rcases List.mem_append.mp hx with hleft | hright
    · obtain ⟨cpu, hcpu, hplace⟩ := h.given x hleft
      refine ⟨cpu, ?_, (h'.others x (hdisjoint x hleft)).trans hplace⟩
      rw [(h'.ncpu (h.table (List.ne_nil_of_mem hleft))).2]
      exact hcpu
    · exact h'.given x hright
  others := by
    intro x hx
    rw [List.mem_append, not_or] at hx
    exact (h'.others x hx.2).trans (h.others x hx.1)
  table := by
    intro hne
    by_cases hl : l = []
    · rw [hl, List.nil_append] at hne
      exact h'.table hne
    · exact (h'.ncpu (h.table hl)).1
  ncpu := by
    intro honce
    obtain ⟨honce₁, hncpu₁⟩ := h.ncpu honce
    obtain ⟨honce', hncpu'⟩ := h'.ncpu honce₁
    exact ⟨honce', hncpu'.trans hncpu₁⟩
  areas := fun hc ha => h'.areas hc (h.areas hc ha)

/-- Blocks that a step has made loose move to a shard. -/
theorem gives_of_push {m : List ℕ} {cpu : ℕ} (hframe : Frame w g w₁ g₁ ∅)
    (hareas : ∀ {t c b k}, c ≠ cls → Area w g t c b k → Area w₁ g₁ t c b k)
    (hplace : ∀ h, h ∉ m → g₁.place h = g.place h) (hcpu : cpu < w'.icc.ncpu)
    (hpush : LeavesAt w₁ g₁ w' (g₁.move m (.cached (.shard cpu cls))) cls [])
    (honce : w'.icc.once = true) (hncpu : w.icc.once = true → w'.icc.ncpu = w.icc.ncpu) :
    Gives w g w' (g₁.move m (.cached (.shard cpu cls))) cls m where
  inv := hpush.inv
  loose := looseAre_nil.mp hpush.loose
  frame := hframe.trans hpush.step.frame
  given := fun _ hh => ⟨cpu, hcpu, if_pos hh⟩
  others := fun h hh => (if_neg hh).trans (hplace h hh)
  table := fun _ => honce
  ncpu := fun h => ⟨honce, hncpu h⟩
  areas := fun hc ha => (hareas hc ha).cacheStep hpush.step

/-- The loop over the blocks of a bin comes to their end, with their number. -/
theorem exitChain_bin (hinv : Inv (w.veil E) g) (he : E t = some e) (hhead : (e.tls cls).head ≠ 0) :
    ∃ x rest, (e.tls cls).head = x ∧ Chain (w.veil E) (.bin t cls) (x :: rest) ∧
      (∀ y, y ∈ x :: rest ↔ g.place y = some (.cached (.bin t cls))) ∧
      Linked 0 (OxHeader.next w.mem) x (x :: rest) 0 ∧
      exitChain w.isOurs (usizeBound - 1) w.mem x 1 = .ok (age w.mem (x :: rest),
        (x :: rest).getLast (List.cons_ne_nil x rest), 1 + rest.length) := by
  obtain ⟨l, hchain, _, hmem⟩ := hinv.chains (.bin t cls)
  have hheadOf : (w.veil E).headOf (.bin t cls) = (e.tls cls).head :=
    congrArg TlsBin.head (binOf_eq (w := w.veil E) he)
  have hlinked : Linked 0 (OxHeader.next w.mem) (e.tls cls).head l 0 := hheadOf ▸ hchain
  have hcached : ∀ x ∈ l, g.place x = some (.cached (.bin t cls)) := fun x hx => (hmem x).mp hx
  cases l with
  | nil => exact absurd hlinked hhead
  | cons x rest =>
    have hx : (e.tls cls).head = x := hlinked.1
    rw [hx] at hlinked
    have hlt : (x :: rest).length < usizeBound :=
      length_lt_of_blocks hlinked.nodup fun y hy => (hinv.blocks y _ (hcached y hy)).1.isBlock
    refine ⟨x, rest, hx, hchain, hmem, hlinked, exitChain_eq _ 1 hlinked (fun y hy => ?_)
      (fun y hy => ?_) ?_⟩
    · exact hinv.isOurs_block (hcached y (List.mem_cons_of_mem x hy))
    · exact (hinv.blocks y _ (hcached y hy)).1.isBlock.aligned
    · rw [List.length_cons] at hlt
      omega

theorem exitBin_gives {u : Unit} (hinv : Inv (w.veil E) g) (hno : NoLoose g) (he : E t = some e)
    (hhead : (e.tls cls).head ≠ 0) (h : Runs (exitBin cls (e.tls cls).head) w u w') :
    ∃ l g', (∀ x, x ∈ l ↔ g.place x = some (.cached (.bin t cls))) ∧ (e.tls cls).head ∈ l ∧
      w'.engines = w.engines ∧
      Gives (w.veil E) g (w'.veil (update E t (some (e.setBin cls 0 0)))) g' cls l ∧
      ∀ {t' c b k}, Area (w.veil E) g t' c b k →
        Area (w'.veil (update E t (some (e.setBin cls 0 0)))) g' t' c b k := by
  obtain ⟨x, rest, hx, hchain, hmem, hlinked, hexit⟩ := exitChain_bin hinv he hhead
  rw [hx, exitBin, runs_get_bind, hexit] at h
  obtain ⟨p, hp, h⟩ := runs_attempt_bind.mp h
  rw [← Except.ok.inj hp] at h
  dsimp only at h
  rw [runs_set_bind, pushToGlobal] at h
  have hsplit := List.dropLast_append_getLast (List.cons_ne_nil x rest)
  -- the bin is emptied, and its blocks are loose until they are pushed
  have hre : Reheads (w.veil E) (w.veil (update E t (some (e.setBin cls 0 0))))
      (.bin t cls) 0 0 := @setEngine_reheads (w.veil E) e t cls he 0 0
  have hinv₁ := hinv.take (l := x :: rest) (r := []) (by rw [List.append_nil]; exact hchain)
    (fun y => by rw [List.append_nil]; exact hmem y) rfl hre
  have hl₁ : LooseAre (g.move (x :: rest) (.loose cls)) cls (x :: rest ++ []) :=
    LooseAre.moveIn (looseAre_nil.mpr hno)
  have hloose : ∀ y ∈ x :: rest, (g.move (x :: rest) (.loose cls)).place y = some (.loose cls) :=
    fun y hy => hl₁.place (List.mem_append_left [] hy)
  obtain ⟨hinv₂, hstep₂, hnext₂⟩ := hinv₁.age hloose
  have hstep₁ : CacheStep (w.veil E) g _ (g.move (x :: rest) (.loose cls)) :=
    Reheads.cacheStep hinv.wf hre nofun fun y hy => by rw [(hmem y).mp hy]; exact nofun
  have hbatch : Batch { w.veil (update E t (some (e.setBin cls 0 0))) with
      mem := age w.mem (x :: rest) } (g.move (x :: rest) (.loose cls)) cls x
      (x :: rest).dropLast ((x :: rest).getLast (List.cons_ne_nil x rest)) [] := by
    refine ⟨by rw [hsplit]; exact hl₁, ⟨0, ?_⟩, by rw [hsplit]; exact hlinked.nodup,
      fun _ _ => List.not_mem_nil⟩
    rw [hsplit]
    exact hlinked.congr fun y hy => hnext₂ y _ (hloose y hy)
  obtain ⟨cpu, hcpu, hpush⟩ := tryPush_shard hinv₂ hbatch
    (by rw [hsplit, List.length_cons, Nat.add_comm]) (tryPush_blind _ _ _ _ _ _ _ _ h)
  rw [hsplit] at hpush
  obtain ⟨honce, hncpu⟩ := tryPush_icc h
  have hengines := (tryPush_blind _ _ _ _).engines h
  have hstep := hstep₁.trans hstep₂
  exact ⟨x :: rest, _, hmem, hx ▸ List.mem_cons_self, hengines,
    gives_of_push hstep.frame (fun _ ha => ha.cacheStep hstep) (fun _ hy => if_neg hy) hcpu hpush
      honce hncpu,
    fun ha => (ha.cacheStep hstep).cacheStep hpush.step⟩

/-- The blocks of its pending slab that a thread has not carved, in their order. -/
def uncarved (w : World) (t cls : ℕ) : List ℕ :=
  if w.pendingOf t cls = 0 then []
  else
    (List.range (remainingBlocks w.mem (w.pendingOf t cls) (payload cls + 16))).map fun i =>
      MetaData.next w.mem (w.pendingOf t cls) + i * (payload cls + 16)

/-- The slots that a cleanup passes over: a class without a block in its bin keeps its pending
slab until the engine is unmapped. -/
def World.passedOver (w : World) (t : ℕ) : List ℕ :=
  ((List.range numSizeClasses).filter fun cls => (w.binOf t cls).head = 0).flatMap (uncarved w t)

theorem uncarved_eq {k : ℕ} (ha : Area w g t cls (w.pendingOf t cls) k)
    (hne : w.pendingOf t cls ≠ 0) :
    uncarved w t cls = slots (w.pendingOf t cls) cls k (slabBlocks cls - k) := by
  unfold uncarved slots
  rw [if_neg hne, remainingBlocks_eq ha, ha.next]
  exact List.map_congr_left fun i _ => (slot_add _ cls k i).symm

theorem uncarved_congr (hinv : Inv w g) (hpending : w'.pendingOf t cls = w.pendingOf t cls)
    (harea : ∀ k, Area w g t cls (w.pendingOf t cls) k → Area w' g' t cls (w.pendingOf t cls) k) :
    uncarved w' t cls = uncarved w t cls := by
  by_cases hzero : w.pendingOf t cls = 0
  · unfold uncarved
    rw [if_pos (hpending.trans hzero), if_pos hzero]
  · obtain ⟨k, ha⟩ := hinv.pendings t cls hzero
    have ha' := harea k ha
    rw [← hpending] at ha'
    rw [uncarved_eq ha hzero, uncarved_eq ha' (by rw [hpending]; exact hzero), hpending]

/-- A slot that is not carved yet is no block. -/
theorem Inv.place_uncarved (hinv : Inv w g) {h : ℕ} (hh : h ∈ uncarved w t cls) :
    g.place h = none ∧ g.own h = .pending t cls := by
  have hne : w.pendingOf t cls ≠ 0 := fun hzero => by
    unfold uncarved at hh
    rw [if_pos hzero] at hh
    contradiction
  obtain ⟨k, ha⟩ := hinv.pendings t cls hne
  rw [uncarved_eq ha hne] at hh
  obtain ⟨i, hki, hi, hs⟩ := mem_slots.mp hh
  have hle := ha.le
  have hlt := @slot_lt (w.pendingOf t cls) cls i (slabBlocks cls) (by omega)
  have hown : g.own h = .pending t cls := by
    refine ha.rawOwn h ?_ ?_
    · rw [areaStart_of_lt (by omega), hs]
      exact slot_le hki
    · rw [hs]
      exact Nat.lt_of_lt_of_le hlt (slot_end _ cls)
  refine ⟨?_, hown⟩
  by_contra hplaced
  obtain ⟨pl, hpl⟩ := Option.ne_none_iff_exists'.mp hplaced
  rw [hinv.own_header hpl (Nat.le_refl h) (by omega)] at hown
  contradiction

theorem setPending_zero (hzero : e.pending cls = 0) : e.setPending cls 0 = e := by
  unfold ThreadLocalEngine.setPending
  rw [← hzero, update_eq_self]

/-- The pending slab is used up, and the thread has none any more. -/
theorem Gives.clear (h : Gives w g (w'.veil E) g' cls l) (he : E t = some e)
    (hold : e.pending cls ≠ 0 → Area (w'.veil E) g' t cls (e.pending cls) (slabBlocks cls)) :
    Gives w g (w'.veil (update E t (some (e.setPending cls 0)))) g' cls l := by
  have hpending : (w'.veil E).pendingOf t cls = e.pending cls := by
    unfold World.pendingOf
    rw [show (w'.veil E).engines t = some e from he]
  refine ⟨?_, h.loose, h.frame.trans (frame_of_eq rfl rfl rfl id id fun _ => ⟨rfl, rfl⟩), h.given,
    h.others, h.table, h.ncpu,
    fun hc ha => (h.areas hc ha).keep (Extends.refl _) rfl⟩
  refine h.inv.setPending he ?_ fun hne => absurd rfl hne
  rw [hpending]
  exact hold

theorem drainPending_gives {e' : ThreadLocalEngine} (hinv : Inv (w.veil E) g) (hno : NoLoose g)
    (hbooted : w.booted = true) (he : E t = some f) (hpending : f.pending cls = e.pending cls)
    (h : Runs (drainPending e cls) w e' w') :
    ∃ g', e' = e.setPending cls 0 ∧ w'.engines = w.engines ∧
      Gives (w.veil E) g (w'.veil (update E t (some (f.setPending cls 0)))) g' cls
        (uncarved (w.veil E) t cls) := by
  have hpendingOf : (w.veil E).pendingOf t cls = e.pending cls := by
    unfold World.pendingOf
    rw [show (w.veil E).engines t = some f from he]
    exact hpending
  rw [drainPending] at h
  dsimp only at h
  split at h
  · rename_i hzero
    obtain ⟨he', hw'⟩ := runs_pure.mp h
    have hnone : uncarved (w.veil E) t cls = [] := if_pos (hpendingOf.trans hzero)
    refine ⟨g, by rw [he', setPending_zero hzero], by rw [hw'], ?_⟩
    rw [hw', hnone]
    exact (Gives.refl hinv hno).clear he fun hne => absurd (hpending.trans hzero) hne
  · rename_i hne
    obtain ⟨k, ha⟩ := hinv.pendings t cls (by rw [hpendingOf]; exact hne)
    have hlist := uncarved_eq ha (by rw [hpendingOf]; exact hne)
    rw [hpendingOf] at ha hlist
    obtain ⟨hcls, h⟩ := runs_sizes_bind h
    have hremaining : remainingBlocks (w.veil E).mem (e.pending cls) (payload cls + 16) =
        slabBlocks cls - k := remainingBlocks_eq ha
    have hle := ha.le
    rw [runs_get_bind, show remainingBlocks w.mem _ _ = _ from hremaining] at h
    split at h
    · rename_i hpos
      rw [runs_bind] at h
      obtain ⟨⟨head, tail, count⟩, w₁, hinit, h⟩ := h
      rcases initBlocks_carve hinv ha (Or.inl hpendingOf) (looseAre_nil.mpr hno) hpos
        (initBlocks_blind _ _ _ _ _ _ _ _ hinit) with
        ⟨_, _, hk⟩ | ⟨hcount, hcountPos, m', m, hw₁, hc, hbatch, hslots⟩
      · omega
      · dsimp only at hcount hcountPos hc hbatch hslots h
        have hend : k + count = slabBlocks cls := by omega
        have hinv₁ := hinv.carve hc hbooted
        have hframe := hc.frame hinv
        have hrest := hc.area_rest
        have hareas : ∀ {t' c b k'}, c ≠ cls → Area (w.veil E) g t' c b k' →
            Area (w₁.veil E) (g.carve cls (e.pending cls) k count) t' c b k' := fun hne' harea => by
          rw [hw₁]
          exact hc.area_other harea fun hthis => hne' hthis.2
        rw [← hw₁] at hinv₁ hframe hrest
        rw [if_pos hcountPos, runs_bind] at h
        obtain ⟨_, w₂, hrun, h⟩ := h
        obtain ⟨he', hw'⟩ := runs_pure.mp h
        obtain ⟨cpu, hcpu, hpush⟩ := tryPush_shard hinv₁ hbatch
          (by rw [hslots, length_slots]) (tryPush_blind _ _ _ _ _ _ _ _ hrun)
        rw [hslots] at hpush
        obtain ⟨honce, hncpu⟩ := tryPush_icc hrun
        have hengines : w₂.engines = w.engines :=
          ((tryPush_blind _ _ _ _).engines hrun).trans ((initBlocks_blind _ _ _ _).engines hinit)
        have hicc : (w₁.veil E).icc = w.icc := by
          rw [hw₁]
          rfl
        rw [show w₁.icc = w.icc from hicc] at hncpu
        have hgives := gives_of_push hframe hareas (fun y hy => Layout.carve_old hy) hcpu hpush
          honce hncpu
        refine ⟨(g.carve cls (e.pending cls) k count).move (slots (e.pending cls) cls k count)
          (.cached (.shard cpu cls)), he', by rw [hw', hengines], ?_⟩
        rw [hw', hlist, show slabBlocks cls - k = count by omega]
        refine hgives.clear he fun _ => ?_
        rw [hpending, ← hend]
        exact hrest.cacheStep hpush.step
    · rename_i hpos
      obtain ⟨he', hw'⟩ := runs_pure.mp h
      have hk : k = slabBlocks cls := by omega
      refine ⟨g, he', by rw [hw'], ?_⟩
      rw [hw', hlist, hk, Nat.sub_self]
      rw [hk] at ha
      exact (Gives.refl hinv hno).clear he fun _ => hpending ▸ ha

end Gives

section Exit

/-- The engine without the bins that are done. -/
def ThreadLocalEngine.without (e : ThreadLocalEngine) (done : List ℕ) : ThreadLocalEngine :=
  { e with tls := fun c => if c ∈ done then ⟨0, 0⟩ else e.tls c }

/-- The world as if the thread still had the rest of its engine. -/
def World.exiting (w : World) (t : ℕ) (e : ThreadLocalEngine) (done : List ℕ) : World :=
  w.veil (update w.engines t (some (e.without done)))

/-- The thread has the block in a bin, or as an uncarved one beside a bin with blocks. -/
def Given (w : World) (g : Layout) (t c h : ℕ) : Prop :=
  (w.binOf t c).head ≠ 0 ∧ (g.place h = some (.cached (.bin t c)) ∨ h ∈ uncarved w t c)

/-- The state after some classes are done, seen from the state before the cleanup. -/
structure Exiting (w₀ : World) (g₀ : Layout) (t : ℕ) (e₀ : ThreadLocalEngine) (done : List ℕ)
    (e : ThreadLocalEngine) (w : World) (g : Layout) : Prop where
  inv : Inv (w.exiting t e done) g
  loose : NoLoose g
  frame : Frame w₀ g₀ (w.exiting t e done) g ∅
  engines : w.engines = update w₀.engines t none
  tls : e.tls = e₀.tls
  pending : ∀ c, c ∉ done ∨ (e₀.tls c).head = 0 → e.pending c = e₀.pending c
  drained : ∀ c ∈ done, (e₀.tls c).head ≠ 0 → e.pending c = 0
  areas : ∀ c b k, c ∉ done ∨ (e₀.tls c).head = 0 → Area w₀ g₀ t c b k →
    Area (w.exiting t e done) g t c b k
  given : ∀ c ∈ done, ∀ h, Given w₀ g₀ t c h →
    ∃ cpu < w.icc.ncpu, g.place h = some (.cached (.shard cpu c))
  others : ∀ h, (∀ c ∈ done, ¬ Given w₀ g₀ t c h) → g.place h = g₀.place h
  table : w.icc.once = true ∨ ∀ c ∈ done, ∀ h, ¬ Given w₀ g₀ t c h

variable {w₀ w w' : World} {g₀ g : Layout} {t cls : ℕ} {e₀ e e' : ThreadLocalEngine} {done : List ℕ}

theorem without_cons :
    (e.without done).setBin cls 0 0 = e.without (cls :: done) := by
  unfold ThreadLocalEngine.without ThreadLocalEngine.setBin
  congr 1
  funext c
  rw [update_apply]
  by_cases hc : c = cls
  · rw [if_pos hc, if_pos (by rw [hc]; exact List.mem_cons_self)]
  · rw [if_neg hc]
    simp only [List.mem_cons, hc, false_or]

theorem engines_exiting (w : World) (t : ℕ) (e : ThreadLocalEngine) (done : List ℕ) :
    (w.exiting t e done).engines t = some (e.without done) := update_self _ _ _

/-- A class that is not done has the blocks that it had. -/
theorem Exiting.bin_iff (h : Exiting w₀ g₀ t e₀ done e w g) (hinv : Inv w₀ g₀) (hcls : cls ∉ done)
    {x : ℕ} :
    g.place x = some (.cached (.bin t cls)) ↔ g₀.place x = some (.cached (.bin t cls)) := by
  by_cases hgiven : ∃ c ∈ done, Given w₀ g₀ t c x
  · obtain ⟨c, hc, hg⟩ := hgiven
    obtain ⟨cpu, _, hplace⟩ := h.given c hc x hg
    rw [hplace]
    constructor
    · intro heq
      exact absurd (Place.cached.inj (Option.some.inj heq)) nofun
    · intro heq
      rcases hg.2 with hbin | huncarved
      · rw [hbin, Option.some.injEq, Place.cached.injEq, Cache.bin.injEq] at heq
        exact absurd (heq.2 ▸ hc) hcls
      · rw [(hinv.place_uncarved huncarved).1] at heq
        contradiction
  · rw [h.others x fun c hc hg => hgiven ⟨c, hc, hg⟩]

/-- The null pointer is no address of ours, so a class without blocks is passed over. -/
theorem isOurs_zero (hwf : Wf w.va) : w.isOurs 0 = false := by
  by_contra hours
  rw [Bool.not_eq_false, World.isOurs, Bool.and_eq_true] at hours
  obtain ⟨s, hs, hin⟩ := hwf.registered.isOurs_iff.mp hours.2
  have hstart := hwf.start_ne s hs
  have hlo := hin.1
  omega

theorem Given.unique {c c' x : ℕ} (hinv : Inv w g) (h : Given w g t c x) (h' : Given w g t c' x) :
    c = c' := by
  rcases h.2 with hbin | hun
  · rcases h'.2 with hbin' | hun'
    · rw [hbin, Option.some.injEq, Place.cached.injEq, Cache.bin.injEq] at hbin'
      exact hbin'.2
    · rw [(hinv.place_uncarved hun').1] at hbin
      contradiction
  · rcases h'.2 with hbin' | hun'
    · rw [(hinv.place_uncarved hun).1] at hbin'
      contradiction
    · have hown := (hinv.place_uncarved hun).2
      rw [(hinv.place_uncarved hun').2, Owner.pending.injEq] at hown
      exact hown.2.symm

theorem Exiting.untouched {c : ℕ} (_ : Exiting w₀ g₀ t e₀ done e w g)
    (hhead : (e₀.tls cls).head ≠ 0) (hc : c ∉ cls :: done ∨ (e₀.tls c).head = 0) :
    c ≠ cls ∧ (c ∉ done ∨ (e₀.tls c).head = 0) := by
  rcases hc with hnew | hzero
  · rw [List.mem_cons, not_or] at hnew
    exact ⟨hnew.1, Or.inl hnew.2⟩
  · refine ⟨?_, Or.inr hzero⟩
    rintro rfl
    exact hhead hzero

/-- The blocks of one more class are in shards. -/
theorem Exiting.step {l : List ℕ} {g' : Layout} (h : Exiting w₀ g₀ t e₀ done e w g)
    (hinv : Inv w₀ g₀) (hcls : cls ∉ done) (hhead : (e₀.tls cls).head ≠ 0) (hne : l ≠ [])
    (hl : ∀ x, Given w₀ g₀ t cls x ↔ x ∈ l)
    (hgives : Gives (w.exiting t e done) g (w'.exiting t e' (cls :: done)) g' cls l)
    (hengines : w'.engines = w.engines) (he' : e' = e.setPending cls 0) :
    Exiting w₀ g₀ t e₀ (cls :: done) e' w' g' where
  inv := hgives.inv
  loose := hgives.loose
  frame := h.frame.trans hgives.frame
  engines := hengines.trans h.engines
  tls := by
    rw [he']
    exact h.tls
  pending := by
    intro c hc
    obtain ⟨hother, hc⟩ := h.untouched hhead hc
    rw [he', ← h.pending c hc]
    exact update_of_ne hother 0 e.pending
  drained := by
    intro c hc hbin
    rw [he']
    rcases List.mem_cons.mp hc with rfl | hdone
    · exact update_self c 0 e.pending
    · refine (update_of_ne ?_ 0 e.pending).trans (h.drained c hdone hbin)
      rintro rfl
      exact hcls hdone
  areas := by
    intro c b k hc ha
    obtain ⟨hother, hc⟩ := h.untouched hhead hc
    exact hgives.areas hother (h.areas c b k hc ha)
  given := by
    intro c hc x hx
    rcases List.mem_cons.mp hc with heq | hdone
    · subst heq
      exact hgives.given x ((hl x).mp hx)
    · have hother : x ∉ l := fun hmem =>
        hcls (Given.unique hinv hx ((hl x).mpr hmem) ▸ hdone)
      obtain ⟨cpu, hcpu, hplace⟩ := h.given c hdone x hx
      have honce : w.icc.once = true := h.table.resolve_right fun hnone => hnone c hdone x hx
      refine ⟨cpu, ?_, (hgives.others x hother).trans hplace⟩
      rw [show w'.icc.ncpu = w.icc.ncpu from (hgives.ncpu honce).2]
      exact hcpu
  others := by
    intro x hx
    rw [hgives.others x fun hmem => hx cls List.mem_cons_self ((hl x).mpr hmem)]
    exact h.others x fun c hc => hx c (List.mem_cons_of_mem cls hc)
  table := Or.inl (hgives.table hne)

theorem Exiting.skip (h : Exiting w₀ g₀ t e₀ done e w g) (he : w₀.engines t = some e₀)
    (hcls : cls ∉ done) (hours : w.isOurs (e.tls cls).head = false) :
    Exiting w₀ g₀ t e₀ (cls :: done) e w g := by
  have hbin : (w.exiting t e done).binOf t cls = e.tls cls := by
    rw [binOf_eq (engines_exiting w t e done)]
    exact if_neg hcls
  obtain ⟨l, hchain, husage, hmem⟩ := h.inv.chains (.bin t cls)
  have hhead : (e.tls cls).head = 0 := by
    by_contra hne
    have hheadOf : (w.exiting t e done).headOf (.bin t cls) = (e.tls cls).head :=
      congrArg TlsBin.head hbin
    have hin := (hmem _).mp (hheadOf ▸ hchain.head_mem (by rw [hheadOf]; exact hne))
    have hblock : w.isOurs (e.tls cls).head = true := h.inv.isOurs_block hin
    rw [hblock] at hours
    contradiction
  have hnil : l = [] := by
    have hlinked : Linked 0 (OxHeader.next w.mem) ((w.exiting t e done).binOf t cls).head l 0 :=
      hchain
    rw [hbin, hhead] at hlinked
    exact hlinked.eq_nil
  have husage : (e.tls cls).usage = 0 := by
    rw [← hbin, show ((w.exiting t e done).binOf t cls).usage = l.length from husage, hnil]
    rfl
  have hsame : e.without (cls :: done) = e.without done := by
    unfold ThreadLocalEngine.without
    congr 1
    funext c
    by_cases hc : c = cls
    · rw [hc, if_pos List.mem_cons_self, if_neg hcls]
      exact (congrArg₂ TlsBin.mk hhead husage).symm
    · simp only [List.mem_cons, hc, false_or]
  have hworld : w.exiting t e (cls :: done) = w.exiting t e done := by
    unfold World.exiting
    rw [hsame]
  have hnot : ∀ x, ¬ Given w₀ g₀ t cls x := by
    intro x hg
    apply hg.1
    rw [binOf_eq he, ← h.tls]
    exact hhead
  refine ⟨by rw [hworld]; exact h.inv, h.loose, by rw [hworld]; exact h.frame, h.engines, h.tls,
    fun c hc => h.pending c (hc.imp_left (mt (List.mem_cons_of_mem cls))), fun c hc hfull => ?_,
    fun c b k hc ha => ?_, fun c hc x hg => ?_, fun x hx => ?_, ?_⟩
  · rcases List.mem_cons.mp hc with rfl | hdone
    · exact absurd (h.tls ▸ hhead) hfull
    · exact h.drained c hdone hfull
  · rw [hworld]
    exact h.areas c b k (hc.imp_left (mt (List.mem_cons_of_mem cls))) ha
  · rcases List.mem_cons.mp hc with heq | hdone
    · exact absurd (heq ▸ hg) (hnot x)
    · exact h.given c hdone x hg
  · exact h.others x fun c hc => hx c (List.mem_cons_of_mem cls hc)
  · refine h.table.imp_right fun hnone c hc x => ?_
    rcases List.mem_cons.mp hc with heq | hdone
    · rw [heq]
      exact hnot x
    · exact hnone c hdone x

theorem exitBin_exiting {u : Unit} (hinv : Inv (w.exiting t e done) g) (hno : NoLoose g)
    (hcls : cls ∉ done) (hhead : (e.tls cls).head ≠ 0)
    (h : Runs (exitBin cls (e.tls cls).head) w u w') :
    ∃ l g', (∀ x, x ∈ l ↔ g.place x = some (.cached (.bin t cls))) ∧ (e.tls cls).head ∈ l ∧
      w'.engines = w.engines ∧
      Gives (w.exiting t e done) g (w'.exiting t e (cls :: done)) g' cls l ∧
      ∀ {c b k}, Area (w.exiting t e done) g t c b k →
        Area (w'.exiting t e (cls :: done)) g' t c b k := by
  have htls : (e.without done).tls cls = e.tls cls := if_neg hcls
  obtain ⟨l, g', hl, hfirst, hengines, hgives, hareas⟩ := exitBin_gives hinv hno
    (update_self t _ w.engines) (by rw [htls]; exact hhead) (by rw [htls]; exact h)
  have hworld : w'.veil (update (update w.engines t (some (e.without done))) t
      (some ((e.without done).setBin cls 0 0))) = w'.exiting t e (cls :: done) := by
    rw [update_idem, without_cons, ← hengines]
    rfl
  rw [hworld] at hgives hareas
  rw [htls] at hfirst
  exact ⟨l, g', hl, hfirst, hengines, hgives, hareas⟩

theorem drainPending_exiting (hinv : Inv (w.exiting t e done) g) (hno : NoLoose g)
    (hbooted : w.booted = true) (h : Runs (drainPending e cls) w e' w') :
    ∃ g', e' = e.setPending cls 0 ∧ w'.engines = w.engines ∧
      Gives (w.exiting t e done) g (w'.exiting t e' done) g' cls
        (uncarved (w.exiting t e done) t cls) := by
  have hpending : (e.without done).pending cls = e.pending cls := rfl
  obtain ⟨g', he', hengines, hgives⟩ := drainPending_gives hinv hno hbooted
    (update_self t _ w.engines) hpending h
  have hworld : w'.veil (update (update w.engines t (some (e.without done))) t
      (some ((e.without done).setPending cls 0))) = w'.exiting t e' done := by
    rw [update_idem, ← hengines, he']
    rfl
  rw [hworld] at hgives
  exact ⟨g', he', hengines, hgives⟩

/-- A class with blocks is handed over, with the rest of its pending slab. -/
theorem Exiting.hand {w₁ : World} {u : Unit} (h : Exiting w₀ g₀ t e₀ done e w g) (hinv : Inv w₀ g₀)
    (he : w₀.engines t = some e₀) (hcls : cls ∉ done) (hhead : (e.tls cls).head ≠ 0)
    (hbin : Runs (exitBin cls (e.tls cls).head) w u w₁)
    (hdrain : Runs (drainPending e cls) w₁ e' w') :
    ∃ g', Exiting w₀ g₀ t e₀ (cls :: done) e' w' g' := by
  obtain ⟨l, g₁, hl, hfirst, hengines₁, hgives₁, hareas₁⟩ :=
    exitBin_exiting h.inv h.loose hcls hhead hbin
  have hbooted : w.booted = true := h.inv.boot.resolve_right fun hnone => by
    have hplace := (hl _).mp hfirst
    rw [hnone.2] at hplace
    exact absurd hplace nofun
  obtain ⟨g', he', hengines', hgives'⟩ := drainPending_exiting hgives₁.inv hgives₁.loose
    (hgives₁.frame.booted hbooted) hdrain
  have huncarved : uncarved (w₁.exiting t e (cls :: done)) t cls = uncarved w₀ t cls := by
    refine uncarved_congr hinv ?_ fun k ha => hareas₁ (h.areas cls _ k (Or.inl hcls) ha)
    unfold World.pendingOf
    rw [engines_exiting, he]
    exact h.pending cls (Or.inl hcls)
  have hdisjoint : ∀ x ∈ l, x ∉ uncarved (w₁.exiting t e (cls :: done)) t cls := by
    intro x hx hun
    obtain ⟨cpu, _, hplace⟩ := hgives₁.given x hx
    rw [(hgives₁.inv.place_uncarved hun).1] at hplace
    exact absurd hplace nofun
  have hsome := List.append_ne_nil_of_left_ne_nil (List.ne_nil_of_mem hfirst)
  refine ⟨g', h.step hinv hcls (h.tls ▸ hhead) (hsome _) ?_
    (hgives₁.trans hgives' hdisjoint) (hengines'.trans hengines₁) he'⟩
  intro x
  rw [huncarved, List.mem_append, hl, h.bin_iff hinv hcls, Given, binOf_eq he, ← h.tls]
  exact ⟨fun hg => hg.2, fun hor => ⟨hhead, hor⟩⟩

theorem Exiting.cleanupClass (h : Exiting w₀ g₀ t e₀ done e w g) (hinv : Inv w₀ g₀)
    (he : w₀.engines t = some e₀) (hcls : cls ∉ done) (hrun : Runs (cleanupClass e cls) w e' w') :
    ∃ g', Exiting w₀ g₀ t e₀ (cls :: done) e' w' g' := by
  rw [Oxidalloc.cleanupClass, runs_get_bind] at hrun
  dsimp only at hrun
  split at hrun
  · rename_i hours
    obtain ⟨he', hw'⟩ := runs_pure.mp hrun
    rw [he', hw']
    exact ⟨g, h.skip he hcls hours⟩
  · rename_i hours
    have hhead : (e.tls cls).head ≠ 0 := by
      intro hzero
      rw [hzero] at hours
      exact hours (isOurs_zero h.inv.wf)
    rw [if_pos hhead, runs_bind] at hrun
    obtain ⟨u, w₁, hbin, hdrain⟩ := hrun
    exact h.hand hinv he hcls hhead hbin hdrain

theorem Exiting.cleanupClasses {classes : List ℕ} {u : Unit} (h : Exiting w₀ g₀ t e₀ done e w g)
    (hinv : Inv w₀ g₀) (he : w₀.engines t = some e₀) (hnodup : classes.Nodup)
    (hdisjoint : ∀ c ∈ classes, c ∉ done) (hrun : Runs (cleanupClasses classes e) w u w') :
    ∃ e' g', Exiting w₀ g₀ t e₀ (classes.reverse ++ done) e' w' g' := by
  induction classes generalizing done e w g with
  | nil =>
    rw [(runs_pure.mp hrun).2]
    exact ⟨e, g, h⟩
  | cons cls rest ih =>
    obtain ⟨hnotMem, hnodup⟩ := List.nodup_cons.mp hnodup
    rw [Oxidalloc.cleanupClasses, runs_bind] at hrun
    obtain ⟨e₁, w₁, hclass, hrest⟩ := hrun
    obtain ⟨g₁, h₁⟩ := h.cleanupClass hinv he (hdisjoint cls List.mem_cons_self) hclass
    have hrestDisjoint : ∀ c ∈ rest, c ∉ cls :: done := by
      intro c hc hmem
      rcases List.mem_cons.mp hmem with heq | hdone
      · exact hnotMem (heq ▸ hc)
      · exact hdisjoint c (List.mem_cons_of_mem cls hc) hdone
    obtain ⟨e', g', h'⟩ := ih h₁ hnodup hrestDisjoint hrest
    rw [List.reverse_cons, List.append_assoc, List.singleton_append]
    exact ⟨e', g', h'⟩

end Exit

section Loss

variable {w w' : World} {g : Layout} {t cls : ℕ} {f : ThreadLocalEngine} {l : List ℕ}

/-- A thread has gone, and what it had still to carve belongs to no one. -/
def Owner.lose (t : ℕ) : Owner → Owner
  | .pending t' cls => if t' = t then .lost else .pending t' cls
  | o => o

def Layout.lose (g : Layout) (t : ℕ) : Layout := { g with own := fun x => (g.own x).lose t }

theorem Layout.lose_other {x : ℕ} (h : ∀ c, g.own x ≠ .pending t c) :
    (g.lose t).own x = g.own x := by
  show (g.own x).lose t = g.own x
  cases hx : g.own x with
  | pending t' c =>
    refine if_neg ?_
    rintro rfl
    exact h c hx
  | free => rfl
  | metaData b => rfl
  | lost => rfl
  | block h => rfl

theorem Layout.lose_pending {x : ℕ} (h : g.own x = .pending t cls) :
    (g.lose t).own x = .lost := by
  show (g.own x).lose t = .lost
  rw [h]
  exact if_pos rfl

theorem Layout.lose_taken {x : ℕ} (h : (g.lose t).own x ≠ .free) : g.own x ≠ .free := by
  intro hfree
  rw [Layout.lose_other (by rw [hfree]; exact fun _ => by simp)] at h
  exact h hfree

theorem Layout.lose_block {h x : ℕ} (hown : g.own x = .block h) :
    (g.lose t).own x = .block h := by
  rw [Layout.lose_other (by rw [hown]; exact fun _ => by simp), hown]

/-- A slot that the thread has still to carve is in the list of its uncarved slots. -/
theorem Inv.mem_uncarved {b i : ℕ} (hinv : Inv w g) (hi : i < slabBlocks cls)
    (h : Uncarved w t cls b (slot b cls i)) : slot b cls i ∈ uncarved w t cls := by
  obtain ⟨hpending, hb, hnext⟩ := h
  obtain ⟨k, ha⟩ := hinv.pendings t cls (hpending ▸ hb)
  rw [uncarved_eq ha (hpending ▸ hb), hpending]
  rw [hpending] at ha
  rw [ha.next] at hnext
  have hki : k ≤ i := by
    by_contra hlt
    have hslot := @slot_lt b cls i k (by omega)
    omega
  exact mem_slots.mpr ⟨i, hki, by omega, rfl⟩

/-- An engine with empty bins is dropped, and the slots that its thread had still to carve are
lost. -/
theorem Inv.dropEngine (hinv : Inv (w.veil (update w.engines t (some f))) g)
    (hnone : w.engines t = none) (hbins : ∀ c < 34, f.tls c = ⟨0, 0⟩)
    (hl : ∀ x, x ∈ l ↔
      ∃ c < 34, x ∈ uncarved (w.veil (update w.engines t (some f))) t c) :
    Inv (w.losing l) (g.lose t) := by
  have hold : ∀ t', t' ≠ t →
      (w.veil (update w.engines t (some f))).engines t' = w.engines t' := fun t' ht =>
    update_of_ne ht _ _
  have hpending : ∀ t' c, t' ≠ t →
      (w.veil (update w.engines t (some f))).pendingOf t' c =
        (w.losing l).pendingOf t' c := by
    intro t' c ht
    unfold World.pendingOf
    rw [hold t' ht]
    rfl
  have hext := Extends.refl w.va
  have hmeta : ∀ {b x}, g.own x = .metaData b → (g.lose t).own x = .metaData b := by
    intro b x hx
    rw [Layout.lose_other (by rw [hx]; exact fun _ => by simp), hx]
  refine ⟨hinv.wf, fun x hx => hinv.taken x (Layout.lose_taken hx), fun k => ?_,
    fun h pl hplace => ?_, fun t' c hne => ?_, fun b c hmem => ?_, fun x hx => ?_, hinv.big,
    hinv.boot⟩
  · obtain ⟨l, hchain, husage, hmem⟩ := hinv.chains k
    cases k with
    | shard cpu c => exact ⟨l, hchain, husage, hmem⟩
    | bin t' c =>
      by_cases ht : t' = t
      · subst ht
        have hbin : (w.veil w.engines).binOf t' c = ⟨0, 0⟩ := by
          unfold World.binOf
          rw [show (w.veil w.engines).engines t' = none from hnone]
        have hnil : l = [] := by
          refine List.eq_nil_iff_forall_not_mem.mpr fun x hx => ?_
          have hlt : c < 34 := (hinv.blocks x _ ((hmem x).mp hx)).2.1
          have hlinked : Linked 0 (OxHeader.next w.mem) (f.tls c).head l 0 := by
            have hengine : (w.veil (update w.engines t' (some f))).engines t' = some f :=
              update_self _ _ _
            have hchain : Linked 0 (OxHeader.next w.mem)
              (World.binOf (w.veil (update w.engines t' (some f))) t' c).head l 0 := hchain
            rw [binOf_eq hengine] at hchain
            exact hchain
          rw [hbins c hlt] at hlinked
          rw [hlinked.eq_nil] at hx
          contradiction
        refine ⟨l, ?_, ?_, hmem⟩
        · show Linked 0 _ ((w.veil w.engines).binOf t' c).head l 0
          rw [hbin, hnil]
          rfl
        · show ((w.veil w.engines).binOf t' c).usage = l.length
          rw [hbin, hnil]
          rfl
      · have hbin : (w.veil (update w.engines t (some f))).binOf t' c =
            (w.veil w.engines).binOf t' c := by
          unfold World.binOf
          rw [hold t' ht]
          rfl
        refine ⟨l, ?_, ?_, hmem⟩
        · show Linked 0 _ ((w.veil w.engines).binOf t' c).head l 0
          rw [← hbin]
          exact hchain
        · show ((w.veil w.engines).binOf t' c).usage = l.length
          rw [← hbin]
          exact husage
  · obtain ⟨hb, hp⟩ := hinv.blocks h pl hplace
    exact ⟨hb.mono hext ⟨fun _ _ _ => rfl, rfl, fun _ => Layout.lose_block⟩,
      hp.mono rfl rfl fun _ _ _ => rfl⟩
  · have ht : t' ≠ t := by
      intro ht
      subst ht
      unfold World.pendingOf at hne
      rw [show (w.losing l).engines t' = none from hnone] at hne
      exact hne rfl
    rw [← hpending t' c ht] at hne ⊢
    obtain ⟨k, ha⟩ := hinv.pendings t' c hne
    refine ⟨k, ha.mono hext (fun _ _ _ => rfl) (fun x hx => hmeta hx) fun x hx => ?_⟩
    rw [Layout.lose_other fun c' heq => ht (Owner.pending.inj (hx.symm.trans heq)).1, hx]
  · obtain ⟨hlt, haligned, hmetaOwn, hslots⟩ := hinv.slabs b c hmem
    refine ⟨hlt, haligned, fun x hlo hhi => hmeta (hmetaOwn x hlo hhi), fun i hi => ?_⟩
    rcases hslots i hi with hplaced | ⟨t', huncarved⟩ | hlost
    · exact Or.inl hplaced
    · right
      by_cases ht : t' = t
      · subst ht
        exact Or.inr (List.mem_append_left _ ((hl _).mpr ⟨c, hlt, hinv.mem_uncarved hi huncarved⟩))
      · refine Or.inl ⟨t', ?_, huncarved.2⟩
        rw [← hpending t' c ht]
        exact huncarved.1
    · exact Or.inr (Or.inr (List.mem_append_right _ hlost))
  · rcases List.mem_append.mp hx with hnew | hlost
    · obtain ⟨c, _, hc⟩ := (hl x).mp hnew
      exact Layout.lose_pending (hinv.place_uncarved hc).2
    · have hown := hinv.lost x hlost
      rw [Layout.lose_other (by rw [hown]; exact fun _ => by simp), hown]

theorem Layout.lose_frame (w : World) (g : Layout) (t : ℕ) : Frame w g w (g.lose t) ∅ where
  held := fun _ _ => Iff.rfl
  bytes := fun _ _ _ _ hown => ⟨Layout.lose_block hown, rfl⟩
  big := fun _ _ => rfl
  booted := id
  thp := id
  placed := fun _ _ => id
  lost := rfl
  magics := fun _ => ⟨rfl, rfl⟩

end Loss

section Cleanup

variable {w₀ w w' : World} {g₀ g : Layout} {t cls : ℕ} {e₀ e e' : ThreadLocalEngine} {done : List ℕ}

/-- Nothing is done when the engine has just left the thread. -/
theorem exiting_start (hinv : Inv w g) (hno : NoLoose g) (he : w.engines t = some e) :
    Exiting w g t e [] e { w with engines := update w.engines t none } g := by
  have hwithout : e.without [] = e := rfl
  have hworld : ({ w with engines := update w.engines t none } : World).exiting t e [] =
      w.veil w.engines := by
    unfold World.exiting World.veil
    dsimp only
    rw [update_idem, hwithout, ← he, update_eq_self]
  refine ⟨?_, hno, ?_, rfl, rfl, fun _ _ => rfl, nofun, fun c b k _ ha => ?_, nofun, fun _ _ => rfl,
    Or.inr nofun⟩
  · rw [hworld]
    exact hinv
  · rw [hworld]
    exact frame_refl
  · rw [hworld]
    exact ha.keep (Extends.refl w.va) rfl

theorem mem_passedOver {x : ℕ} :
    x ∈ w.passedOver t ↔ ∃ c < 34, (w.binOf t c).head = 0 ∧ x ∈ uncarved w t c := by
  simp only [World.passedOver, List.mem_flatMap, List.mem_filter, List.mem_range,
    decide_eq_true_eq, and_assoc]
  rfl

/-- What is uncarved in the end was passed over. -/
theorem Exiting.uncarved_iff {c x : ℕ} (h : Exiting w₀ g₀ t e₀ done e w g) (hinv : Inv w₀ g₀)
    (he : w₀.engines t = some e₀) (hdone : c ∈ done) :
    x ∈ uncarved (w.exiting t e done) t c ↔
      (w₀.binOf t c).head = 0 ∧ x ∈ uncarved w₀ t c := by
  have hpending : (w.exiting t e done).pendingOf t c = e.pending c := by
    unfold World.pendingOf
    rw [engines_exiting]
    rfl
  have hpending₀ : w₀.pendingOf t c = e₀.pending c := by
    unfold World.pendingOf
    rw [he]
  rw [binOf_eq he]
  by_cases hhead : (e₀.tls c).head = 0
  · have hsame : uncarved (w.exiting t e done) t c = uncarved w₀ t c := by
      refine uncarved_congr hinv ?_ fun k ha => h.areas c _ k (Or.inr hhead) ha
      rw [hpending, hpending₀, h.pending c (Or.inr hhead)]
    rw [hsame]
    exact (and_iff_right hhead).symm
  · have hnil : uncarved (w.exiting t e done) t c = [] := by
      unfold uncarved
      rw [if_pos (hpending.trans (h.drained c hdone hhead))]
    rw [hnil]
    exact ⟨fun hx => absurd hx List.not_mem_nil, fun hx => absurd hx.1 hhead⟩

/-- Every block that the thread gives is in a shard of its class, what is passed over is lost,
and nothing else has moved. -/
theorem cleanupThreadCache_spec {u : Unit} (hinv : Inv w g) (hno : NoLoose g)
    (h : Runs (cleanupThreadCache t) w u w') :
    ∃ g', Inv (w'.losing (w.passedOver t)) g' ∧ NoLoose g' ∧ Frame w g w' g' ∅ ∧
      (∀ c < 34, ∀ x, Given w g t c x →
        ∃ cpu < w'.icc.ncpu, g'.place x = some (.cached (.shard cpu c))) ∧
      ∀ x, (∀ c < 34, ¬ Given w g t c x) → g'.place x = g.place x := by
  rw [cleanupThreadCache, runs_get_bind] at h
  split at h
  · rename_i hnone
    have hw' := (runs_pure.mp h).2
    subst hw'
    have hpassed : w'.passedOver t = [] := by
      refine List.eq_nil_iff_forall_not_mem.mpr fun x hx => ?_
      obtain ⟨c, _, _, hx⟩ := mem_passedOver.mp hx
      unfold uncarved World.pendingOf at hx
      rw [hnone, if_pos rfl] at hx
      contradiction
    rw [hpassed]
    refine ⟨g, hinv, hno, frame_refl,
      fun c _ x hg => ?_, fun _ _ => rfl⟩
    refine absurd ?_ hg.1
    unfold World.binOf
    rw [hnone]
  · rename_i e he
    rw [runs_modify_bind, runs_bind] at h
    obtain ⟨_, w₁, hclasses, h⟩ := h
    rw [runs_bind] at h
    obtain ⟨_, w₂, hdraw, h⟩ := h
    have hw' := (runs_pure.mp h).2
    rw [hw']
    obtain ⟨e', g', hend⟩ := (exiting_start hinv hno he).cleanupClasses hinv he List.nodup_range
      (fun _ _ => nofun) hclasses
    rw [List.append_nil] at hend
    have hmem : ∀ c, c ∈ (List.range numSizeClasses).reverse ↔ c < 34 := fun c => by
      rw [List.mem_reverse, List.mem_range]
      exact Iff.rfl
    have hicc : w₂.icc = w₁.icc ∧ w₂.engines = w₁.engines ∧ w₂.mem = w₁.mem := by
      obtain ⟨va', _, hw₂⟩ := runs_onVa.mp hdraw
      rw [hw₂]
      exact ⟨rfl, rfl, rfl⟩
    have hs : SameHeap (w₁.exiting t e' (List.range numSizeClasses).reverse)
        (w₂.exiting t e' (List.range numSizeClasses).reverse) := by
      unfold World.exiting
      rw [hicc.2.1]
      exact draw_sameHeap hend.inv.wf (blind_onVa _ _ _ _ hdraw)
    have hnone : w₂.engines t = none := by
      rw [hicc.2.1, hend.engines]
      exact update_self _ _ _
    have huncarved : ∀ c, uncarved (w₂.exiting t e' (List.range numSizeClasses).reverse) t c =
        uncarved (w₁.exiting t e' (List.range numSizeClasses).reverse) t c :=
      fun c => uncarved_congr hend.inv (hs.pending t c) fun k ha => ha.keep hs.va.grows hs.mem
    have hinv₂ : Inv (w₂.losing (w.passedOver t)) (g'.lose t) := by
      refine (hend.inv.sameHeap hs).dropEngine hnone (fun c hc => if_pos ((hmem c).mpr hc))
        fun x => ?_
      rw [mem_passedOver]
      refine exists_congr fun c => and_congr_right fun hc => ?_
      show _ ↔ x ∈ uncarved (w₂.exiting t e' (List.range numSizeClasses).reverse) t c
      rw [huncarved, hend.uncarved_iff hinv he ((hmem c).mpr hc)]
    refine ⟨g'.lose t, hinv₂, hend.loose, ?_, fun c hc x hg => ?_, fun x hx => ?_⟩
    · have hframe : Frame w g (w₂.exiting t e' (List.range numSizeClasses).reverse) g' ∅ :=
        hend.frame.trans hs.frame
      have hveil : Frame (w₂.exiting t e' (List.range numSizeClasses).reverse) g' w₂ g' ∅ :=
        frame_of_eq rfl rfl rfl id id fun _ => ⟨rfl, rfl⟩
      exact (hframe.trans hveil).trans (Layout.lose_frame w₂ g' t)
    · rw [hicc.1]
      exact hend.given c ((hmem c).mpr hc) x hg
    · exact hend.others x fun c hc => hx c ((hmem c).mp hc)

end Cleanup

end Oxidalloc
