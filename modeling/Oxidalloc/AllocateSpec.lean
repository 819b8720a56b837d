import Oxidalloc.Abi
import Oxidalloc.BulkFillSpec

/-!
The slab side of `malloc` and `free`: a block that is allocated comes out of the caches
or of a new slab and is with the user afterwards, and a freed block goes back to the
cache of its class. All other blocks of the user stay as they are.
-/
namespace Oxidalloc

open ByteMemory HeadPacking LinkedChain Programs VaBitmap

section Recount

variable {w : World} {g : Layout}

/-- Among blocks of ours the recount is the walk of the batch. -/
theorem recount_eq_batchTail {ours : ℕ → Bool} {mem : Memory} {x : ℕ} {rest : List ℕ} (n count : ℕ)
    (h : Linked 0 (OxHeader.next mem) x (x :: rest) 0) (hours : ∀ y ∈ x :: rest, ours y = true) :
    recount ours mem n x count = batchTail mem n x count := by
  induction n generalizing x rest count with
  | zero => rfl
  | succ n ih =>
    obtain ⟨_, _, hrest⟩ := h
    rw [recount, batchTail]
    by_cases hnull : OxHeader.next mem x = 0
    · rw [if_neg fun hand => hand.1 hnull, if_pos hnull]
    · cases rest with
      | nil => exact absurd hrest hnull
      | cons y rest =>
        have hy : OxHeader.next mem x = y := hrest.1
        rw [hy] at hrest
        have hmine := hours y (List.mem_cons_of_mem x List.mem_cons_self)
        rw [if_pos ⟨hnull, by rw [hy]; exact hmine⟩, if_neg hnull, hy]
        exact ih (count + 1) hrest fun z hz => hours z (List.mem_cons_of_mem x hz)

/-- A chain of blocks of ours is counted to its end. -/
theorem recount_chain {ours : ℕ → Bool} {mem : Memory} {head n : ℕ} {m : List ℕ}
    (hm : Linked 0 (OxHeader.next mem) head m 0) (hours : ∀ y ∈ m, ours y = true) (hne : m ≠ [])
    (hlen : m.length ≤ n + 1) :
    ∃ m₁ tail, m = m₁ ++ [tail] ∧ recount ours mem n head 1 = (tail, m.length) := by
  cases m with
  | nil => exact absurd rfl hne
  | cons x rest =>
    have hx : head = x := hm.1
    subst hx
    obtain ⟨m₁, r, hsplit, _, hcount, hend⟩ := batchTail_spec n 1 hm
    have hlength := congrArg List.length hsplit
    simp only [List.length_append, List.length_singleton] at hlength
    have hr : r = [] := by
      rcases hend with hnil | hfull
      · exact hnil
      · exact List.eq_nil_of_length_eq_zero (by omega)
    subst hr
    rw [List.append_nil] at hsplit
    refine ⟨m₁, _, hsplit, ?_⟩
    rw [recount_eq_batchTail n 1 hm hours]
    refine Prod.ext rfl ?_
    show (batchTail mem n head 1).2 = _
    rw [hcount, hlength]
    simp only [List.length_nil]
    omega

/-- A popped batch is counted to its end. -/
theorem recount_spec {cls head n : ℕ} {m l : List ℕ} (hinv : Inv w g)
    (hl : LooseAre g cls (m ++ l)) (hm : Linked 0 (OxHeader.next w.mem) head m 0) (hne : m ≠ [])
    (hlen : m.length ≤ n + 1) :
    ∃ m₁ tail, m = m₁ ++ [tail] ∧ recount w.isOurs w.mem n head 1 = (tail, m.length) :=
  recount_chain hm (fun _ hy => hinv.isOurs_block (hl.place (List.mem_append_left l hy))) hne hlen

end Recount

section Loose

variable {w w' : World} {g : Layout} {t cls : ℕ}

/-- No operation is under way. -/
def NoLoose (g : Layout) : Prop := ∀ h c, g.place h ≠ some (.loose c)

theorem looseAre_nil : LooseAre g cls [] ↔ NoLoose g := by
  constructor
  · intro hl h c hc
    exact absurd ((hl h c).mp hc).2 List.not_mem_nil
  · intro hl h c
    exact ⟨fun hc => absurd hc (hl h c), fun hc => absurd hc.2 List.not_mem_nil⟩

/-- The result of an attempt to get a block out of the caches. -/
def Obtains (w : World) (g : Layout) (w' : World) (cls r : ℕ) : Prop :=
  (r = 0 ∧ Settles w g w' cls) ∨
    (r ≠ 0 ∧ ∃ g', Inv w' g' ∧ Frame w g w' g' ∅ ∧ LooseAre g' cls [r])

theorem Frame.obtains {w₁ : World} {g₁ : Layout} {r : ℕ} (h : Frame w g w₁ g₁ ∅)
    (h' : Obtains w₁ g₁ w' cls r) : Obtains w g w' cls r := by
  rcases h' with ⟨hr, hs⟩ | ⟨hr, g', hinv, hframe, hl⟩
  · exact Or.inl ⟨hr, h.settles hs⟩
  · exact Or.inr ⟨hr, g', hinv, h.trans hframe, hl⟩

theorem SameHeap.obtained {w₁ : World} {r : ℕ} (h : SameHeap w₁ w')
    (h' : Obtains w g w₁ cls r) : Obtains w g w' cls r := by
  rcases h' with ⟨hr, g', hinv, hframe, hl⟩ | ⟨hr, g', hinv, hframe, hl⟩
  · exact Or.inl ⟨hr, g', hinv.sameHeap h, hframe.trans h.frame, hl⟩
  · exact Or.inr ⟨hr, g', hinv.sameHeap h, hframe.trans h.frame, hl⟩

theorem popFromThread_obtains {r : ℕ} (hinv : Inv w g) (hl : LooseAre g cls [])
    (h : Runs (popFromThread t cls) w r w') : Obtains w g w' cls r := by
  rcases popFromThread_spec hinv hl h with ⟨hr, hw'⟩ | ⟨hr, g', hinv', hstep, hl', _⟩
  · rw [hw']
    exact Or.inl ⟨hr, g, hinv, (SameHeap.refl hinv.wf).frame, hl⟩
  · exact Or.inr ⟨hr, g', hinv', hstep.frame, hl'⟩

theorem bumpBatchHint_sameHeap {up : Bool} {u : Unit} (hwf : Wf w.va)
    (h : Runs (bumpBatchHint cls up) w u w') : SameHeap w w' := by
  rw [bumpBatchHint, runs_modify] at h
  rw [h]
  exact ⟨sameCaches_update .., rfl, Keeps.refl hwf, rfl⟩

theorem fillAttempts_spec {r : ℕ} (n : ℕ) (hinv : Inv w g) (hl : LooseAre g cls [])
    (hbooted : w.booted = true) (h : Runs (fillAttempts t cls n) w r w') :
    Obtains w g w' cls r := by
  induction n generalizing w g with
  | zero =>
    obtain ⟨hr, hw'⟩ := runs_pure.mp h
    rw [hw']
    exact Or.inl ⟨hr, g, hinv, (SameHeap.refl hinv.wf).frame, hl⟩
  | succ n ih =>
    rw [fillAttempts, runs_bind] at h
    obtain ⟨filled, w₁, hfill, h⟩ := h
    obtain ⟨g₁, hinv₁, hframe₁, hl₁⟩ := bulkFill_spec hinv hl hbooted hfill
    refine hframe₁.obtains ?_
    cases filled with
    | true =>
      rw [if_pos rfl, runs_bind] at h
      obtain ⟨output, w₂, hpop, h⟩ := h
      rw [runs_bind] at h
      obtain ⟨_, w₃, hbump, h⟩ := h
      obtain ⟨hr, hw'⟩ := runs_pure.mp h
      rw [hr, hw']
      have hpopped := popFromThread_obtains hinv₁ hl₁ hpop
      have hwf₂ : Wf w₂.va := by
        rcases hpopped with ⟨_, g₂, hinv₂, _⟩ | ⟨_, g₂, hinv₂, _⟩ <;> exact hinv₂.wf
      exact (bumpBatchHint_sameHeap hwf₂ hbump).obtained hpopped
    | false =>
      rw [if_neg Bool.false_ne_true] at h
      exact ih hinv₁ hl₁ (hframe₁.booted hbooted) h

theorem clampBatch_pos (val : ℕ) : 0 < clampBatch val := by
  unfold clampBatch batchMin batchMax
  omega

/-- The batch from the shared cache goes to the thread as a whole. -/
theorem tryFill_spec {r : ℕ} (hinv : Inv w g) (hl : LooseAre g cls [])
    (hbooted : w.booted = true) (h : Runs (tryFill t cls) w r w') : Obtains w g w' cls r := by
  rw [tryFill, runs_get_bind] at h
  dsimp only at h
  have hpos := clampBatch_pos (w.batchHints cls)
  generalize clampBatch (w.batchHints cls) = batch at h hpos
  rw [runs_bind] at h
  obtain ⟨globalCache, w₁, hpop, h⟩ := h
  rcases tryPop_spec hinv hl hpos hpop with
    ⟨hnull, hs⟩ | ⟨hnull, _, m, g₁, hinv₁, hstep₁, hl₁, hlinked, hne, hlen, _⟩
  · rw [if_neg (fun hsome => hsome hnull), runs_bind] at h
    obtain ⟨_, w₂, hbump, h⟩ := h
    have hs₂ := hs.trans (bumpBatchHint_sameHeap hs.va.wf hbump)
    exact hs₂.frame.obtains
      (fillAttempts_spec 3 (hinv.sameHeap hs₂) hl (hs₂.booted.trans hbooted) h)
  · rw [if_pos hnull, runs_get_bind] at h
    obtain ⟨m₁, tail, hm, hrecount⟩ :=
      recount_spec (n := batch - 1) hinv₁ hl₁ hlinked hne (by omega)
    rw [hrecount] at h
    dsimp only at h
    rw [runs_modify_bind, runs_bind] at h
    obtain ⟨_, w₂, hpush, h⟩ := h
    rw [runs_bind] at h
    obtain ⟨_, w₃, hbump, hpop₃⟩ := h
    have hnodup := hlinked.nodup
    rw [hm] at hlinked hnodup hl₁
    have hall : (m₁ ++ [tail] ++ []).Nodup := by rwa [List.append_nil]
    obtain ⟨hinv₂, hstep₂, hchain, _⟩ := hinv₁.terminate hl₁ hlinked hall
    obtain ⟨g₃, hinv₃, hstep₃, hl₃, _⟩ := pushToThreadTailed_spec hinv₂
      ⟨hl₁, ⟨0, hchain⟩, hnodup, fun _ _ => List.not_mem_nil⟩ (congrArg List.length hm) hpush
    have hs₃ := bumpBatchHint_sameHeap hinv₃.wf hbump
    refine (((hstep₁.trans hstep₂).trans hstep₃).frame.trans hs₃.frame).obtains ?_
    exact popFromThread_obtains (hinv₃.sameHeap hs₃) hl₃ hpop₃

end Loose

section Boot

variable {w w' : World} {g : Layout} {t : ℕ}

theorem initReverse_sameHeap {u : Unit} (hwf : Wf w.va) (h : Runs initReverse w u w') :
    SameHeap w w' := by
  rw [initReverse, runs_get_bind] at h
  split at h
  · rw [(runs_pure.mp h).2]
    exact SameHeap.refl hwf
  · rw [runs_modify] at h
    rw [h]
    have hregistered := hwf.registered
    refine sameHeap_of_va (hwf.keeps_of_segments ?_ rfl)
    exact ⟨hregistered.ptr_ne, hregistered.nodup, hregistered.bounds, hregistered.empty,
      hregistered.chunks⟩

theorem initThp_sameHeap {u : Unit} (hwf : Wf w.va) (h : Runs initThp w u w') : SameHeap w w' := by
  rw [initThp, runs_get_bind] at h
  split at h
  · rw [(runs_pure.mp h).2]
    exact SameHeap.refl hwf
  · rename_i val henv
    split at h
    · rename_i hval
      rw [runs_modify] at h
      rw [h]
      refine ⟨⟨fun k => by cases k <;> rfl, fun k => by cases k <;> rfl, fun _ _ => rfl, rfl, rfl,
        rfl, rfl, rfl, fun hthp => ?_⟩, rfl, Keeps.refl hwf, rfl⟩
      rw [hval] at henv
      exact absurd henv hthp.2
    · rw [(runs_pure.mp h).2]
      exact SameHeap.refl hwf

/-- The magic numbers are drawn before the first block exists. -/
theorem initMagic_spec {u : Unit} (hinv : Inv w g) (hboot : w.booted = false)
    (h : Runs initMagic w u w') :
    Inv { w' with booted := true } g ∧ Frame w g { w' with booted := true } g ∅ := by
  rw [initMagic, runs_bind] at h
  obtain ⟨rand, w₁, hrand, h⟩ := h
  have hs := sameHeap_of_quiet hinv.wf getrandom_quiet hrand
  have hinv₁ := hinv.sameHeap hs
  rw [runs_get_bind] at h
  dsimp only at h
  rw [runs_modify] at h
  have hnone := hinv.boot.resolve_left (by rw [hboot]; exact Bool.false_ne_true)
  rw [h]
  refine ⟨?_, hs.frame.trans (frame_of_eq rfl rfl rfl (fun _ => rfl) id fun hb => ?_)⟩
  · exact hinv₁.statics rfl rfl rfl rfl rfl rfl (Or.inr hnone.2) (Or.inl rfl)
  · rw [hs.booted, hboot] at hb
    contradiction

theorem bootStrap_spec {u : Unit} (hinv : Inv w g) (h : Runs (bootStrap t) w u w') :
    Inv w' g ∧ Frame w g w' g ∅ ∧ w'.booted = true := by
  rw [bootStrap, runs_get_bind] at h
  split at h
  · rename_i hbooted
    rw [(runs_pure.mp h).2]
    exact ⟨hinv, frame_refl, hbooted⟩
  · rename_i hboot
    rw [runs_bind] at h
    obtain ⟨_, w₁, hengine, h⟩ := h
    have hs₁ := (getOrInit_sameHeap hinv.wf hengine).1
    rw [runs_bind] at h
    obtain ⟨_, w₂, hreverse, h⟩ := h
    have hs₂ := hs₁.trans (initReverse_sameHeap hs₁.va.wf hreverse)
    rw [runs_bind] at h
    obtain ⟨_, w₃, hthp, h⟩ := h
    have hs₃ := hs₂.trans (initThp_sameHeap hs₂.va.wf hthp)
    rw [runs_bind] at h
    obtain ⟨_, w₄, hrand, h⟩ := h
    have hs₄ := hs₃.trans (sameHeap_of_quiet hs₃.va.wf getrandom_quiet hrand)
    rw [runs_bind] at h
    obtain ⟨_, w₅, hmagic, h⟩ := h
    have hboot₄ : w₄.booted = false := hs₄.booted.trans (Bool.not_eq_true _ ▸ hboot)
    obtain ⟨hinv₅, hframe₅⟩ := initMagic_spec (hinv.sameHeap hs₄) hboot₄ hmagic
    rw [runs_modify] at h
    rw [h]
    exact ⟨hinv₅, hs₄.frame.trans hframe₅, rfl⟩

theorem countBoot_spec {u : Unit} (hinv : Inv w g) (hbooted : w.booted = true)
    (h : Runs countBoot w u w') : Inv w' g ∧ Frame w g w' g ∅ := by
  rw [countBoot, runs_get_bind] at h
  split at h
  · rw [runs_set] at h
    rw [h]
    exact ⟨hinv.statics rfl rfl rfl rfl rfl rfl (Or.inl ⟨rfl, rfl⟩) (Or.inl hbooted),
      frame_of_eq rfl rfl rfl id id fun _ => ⟨rfl, rfl⟩⟩
  · split at h
    · rw [runs_set] at h
      rw [h]
      exact ⟨hinv.statics rfl rfl rfl rfl rfl rfl (Or.inl ⟨rfl, rfl⟩) (Or.inl hbooted),
        frame_of_eq rfl rfl rfl id id fun _ => ⟨rfl, rfl⟩⟩
    · rw [(runs_pure.mp h).2]
      exact ⟨hinv, frame_refl⟩

end Boot

section Take

variable {w w' : World} {g : Layout} {t cls : ℕ}

/-- The invariant holds, no operation is under way, and the user has what it had, up to
the touched blocks. -/
structure Reaches (w : World) (g : Layout) (w' : World) (g' : Layout) (touched : Set ℕ) : Prop where
  inv : Inv w' g'
  loose : NoLoose g'
  frame : Frame w g w' g' touched

/-- The block with header h is given to the user. -/
structure Hands (w : World) (g : Layout) (w' : World) (g' : Layout) (h : ℕ) : Prop
    extends Reaches w g w' g' {h} where
  fresh : g.place h ≠ some .held
  held : g'.place h = some .held

theorem Frame.reaches {w₁ : World} {g₁ g' : Layout} {touched : Set ℕ}
    (h : Frame w g w₁ g₁ touched) (h' : Reaches w₁ g₁ w' g' touched) : Reaches w g w' g' touched :=
  ⟨h'.inv, h'.loose, h.trans h'.frame⟩

theorem Frame.hands {w₁ : World} {g₁ g' : Layout} {h : ℕ} (hframe : Frame w g w₁ g₁ ∅)
    (h' : Hands w₁ g₁ w' g' h) : Hands w g w' g' h where
  toReaches := hframe.mono.reaches h'.toReaches
  fresh := fun hheld => h'.fresh ((hframe.held h nofun).mpr hheld)
  held := h'.held

/-- What an allocation may result in: nothing, or a block with the given property. -/
def Allocates (w : World) (g : Layout) (w' : World) (r : ℕ) (P : ℕ → Prop) : Prop :=
  (r = 0 ∧ ∃ g', Reaches w g w' g' ∅) ∨ ∃ h g', r = h + 16 ∧ Hands w g w' g' h ∧ P h

theorem Frame.allocates {w₁ : World} {g₁ : Layout} {r : ℕ} {P : ℕ → Prop}
    (h : Frame w g w₁ g₁ ∅) (h' : Allocates w₁ g₁ w' r P) : Allocates w g w' r P := by
  rcases h' with ⟨hr, g', hreach⟩ | ⟨header, g', hr, hhands, hp⟩
  · exact Or.inl ⟨hr, g', h.reaches hreach⟩
  · exact Or.inr ⟨header, g', hr, h.hands hhands, hp⟩

/-- A loose block is marked as used and given out. -/
theorem hands_of_loose {h : ℕ} (hinv : Inv w g) (hl : LooseAre g cls [h]) :
    Hands w g { w with mem := OxHeader.setMagic w.mem h w.magic } (g.move [h] .held) h ∧
      cls < 34 ∧ OxHeader.cls (OxHeader.setMagic w.mem h w.magic) h = cls := by
  have hplace := hl.place List.mem_cons_self
  have hblock := hinv.blocks h _ hplace
  have hnext : 16 ∣ OxHeader.next (OxHeader.setMagic w.mem h w.magic) h := by
    rw [OxHeader.next_setMagic]
    exact hblock.1.next
  have hinv' : Inv { w with mem := OxHeader.setMagic w.mem h w.magic } (g.move [h] .held) :=
    hinv.writeHeader hplace (fun _ => nofun) (fun _ => nofun) OxHeader.setMagic_elsewhere
      OxHeader.cls_setMagic hnext OxHeader.magic_setMagic
  have hnone : LooseAre (g.move [h] .held) cls [] :=
    LooseAre.moveOut (l := []) hl (fun _ _ => List.not_mem_nil) nofun
  refine ⟨⟨⟨hinv', looseAre_nil.mp hnone, ?_⟩, ?_, ?_⟩, hblock.2.1, ?_⟩
  · exact hinv.frame_header hplace (fun _ => nofun) (fun _ => nofun) OxHeader.setMagic_elsewhere
  · rw [hplace]
    exact nofun
  · rw [Layout.move_place, if_pos List.mem_cons_self]
  · rw [OxHeader.cls_setMagic]
    exact hblock.2.2.1

theorem popOrFill_spec {r : ℕ} (hinv : Inv w g) (hl : LooseAre g cls [])
    (hbooted : w.booted = true) (h : Runs (popOrFill t cls) w r w') : Obtains w g w' cls r := by
  rw [popOrFill, runs_bind] at h
  obtain ⟨cache, w₁, hpop, h⟩ := h
  have hpopped := popFromThread_obtains hinv hl hpop
  split at h
  · rename_i hnull
    rcases hpopped with ⟨_, g₁, hinv₁, hframe₁, hl₁⟩ | ⟨hne, _⟩
    · exact hframe₁.obtains (tryFill_spec hinv₁ hl₁ (hframe₁.booted hbooted) h)
    · exact absurd hnull hne
  · obtain ⟨hr, hw'⟩ := runs_pure.mp h
    rw [hr, hw']
    exact hpopped

theorem takeBlock_spec {r : ℕ} (hinv : Inv w g) (hno : NoLoose g) (hbooted : w.booted = true)
    (h : Runs (takeBlock t cls) w r w') :
    Allocates w g w' r fun h => cls < 34 ∧ OxHeader.cls w'.mem h = cls := by
  rw [takeBlock, runs_bind] at h
  obtain ⟨_, w₁, hengine, h⟩ := h
  have hs := (getOrInit_sameHeap hinv.wf hengine).1
  rw [runs_bind] at h
  obtain ⟨cache, w₂, hcache, h⟩ := h
  refine hs.frame.allocates ?_
  rcases popOrFill_spec (hinv.sameHeap hs) (looseAre_nil.mpr hno) (hs.booted.trans hbooted) hcache
    with ⟨hnull, g₂, hinv₂, hframe₂, hl₂⟩ | ⟨hnull, g₂, hinv₂, hframe₂, hl₂⟩
  · rw [if_pos hnull] at h
    obtain ⟨hr, hw'⟩ := runs_pure.mp h
    rw [hw']
    exact Or.inl ⟨hr, g₂, hinv₂, looseAre_nil.mp hl₂, hframe₂⟩
  · rw [if_neg hnull, runs_modify_bind] at h
    obtain ⟨hr, hw'⟩ := runs_pure.mp h
    obtain ⟨hhands, hcls⟩ := hands_of_loose hinv₂ hl₂
    rw [hw']
    exact Or.inr ⟨cache, _, hr, hframe₂.hands hhands, hcls⟩

/-- The slab side of `malloc`: the block that is given out has the class that was asked
for. -/
theorem allocateClass_spec {r : ℕ} (hinv : Inv w g) (hno : NoLoose g)
    (h : Runs (allocateClass t cls) w r w') :
    Allocates w g w' r fun h => cls < 34 ∧ OxHeader.cls w'.mem h = cls := by
  rw [allocateClass, runs_get_bind] at h
  split at h
  · rename_i hhot
    have hbooted : w.booted = true := hinv.boot.resolve_right fun hboot => by
      rw [hboot.1] at hhot
      exact absurd hhot Bool.false_ne_true
    exact takeBlock_spec hinv hno hbooted h
  · rw [allocateBootSegment, runs_bind] at h
    obtain ⟨_, w₁, hboot, h⟩ := h
    obtain ⟨hinv₁, hframe₁, hbooted₁⟩ := bootStrap_spec hinv hboot
    rw [runs_bind] at h
    obtain ⟨_, w₂, hcount, h⟩ := h
    obtain ⟨hinv₂, hframe₂⟩ := countBoot_spec hinv₁ hbooted₁ hcount
    exact (hframe₁.trans hframe₂).allocates (takeBlock_spec hinv₂ hno (hframe₂.booted hbooted₁) h)

end Take

section Free

variable {w w' : World} {g : Layout} {t cls h : ℕ}

/-- The slab side of `free`: the block goes into a cache of its class. -/
theorem slabFree_spec {u : Unit} (hinv : Inv w g) (hno : NoLoose g)
    (hheld : g.place h = some .held) (hcls : OxHeader.cls w.mem h = cls) (hlt : cls < 34)
    (hrun : Runs (slabFree t cls h) w u w') :
    ∃ g', Reaches w g w' g' {h} ∧ g'.place h ≠ some .held ∧ g'.place h ≠ none := by
  rw [slabFree, runs_modify_bind, runs_bind] at hrun
  obtain ⟨_, w₁, hengine, hrun⟩ := hrun
  have hblock := (hinv.blocks h _ hheld).1
  have helse := OxHeader.Elsewhere.trans
    (@OxHeader.setMagic_elsewhere w.mem h w.freedMagic)
      (@OxHeader.setLifeTime_elsewhere _ h w.currentStamp)
  generalize hm : OxHeader.setLifeTime (OxHeader.setMagic w.mem h w.freedMagic) h
    w.currentStamp = m'
    at helse hengine
  have hclass : OxHeader.cls m' h = cls := by
    rw [← hm, OxHeader.cls_setLifeTime, OxHeader.cls_setMagic, hcls]
  have hnext : 16 ∣ OxHeader.next m' h := by
    rw [← hm, OxHeader.next_setLifeTime, OxHeader.next_setMagic]
    exact hblock.next
  have hmagic : OxHeader.magic m' h = w.freedMagic := by
    rw [← hm, OxHeader.magic_setLifeTime, OxHeader.magic_setMagic]
  have hok : PlaceOk { w with mem := m' } h (.loose cls) := ⟨hlt, hclass, hmagic⟩
  have hinv₁ : Inv { w with mem := m' } (g.move [h] (.loose cls)) :=
    hinv.writeHeader hheld (fun _ => nofun) (fun _ => nofun) helse
      (hclass.trans hcls.symm) hnext hok
  have hs := (getOrInit_sameHeap hinv₁.wf hengine).1
  have hinv₂ := hinv₁.sameHeap hs
  have hloose : LooseAre (g.move [h] (.loose cls)) cls ([] ++ [h] ++ []) :=
    (looseAre_nil.mpr hno).moveIn
  have hbatch : Batch w₁ (g.move [h] (.loose cls)) cls h [] h [] :=
    ⟨hloose, ⟨_, rfl, hblock.isBlock.ne_null, rfl⟩, List.nodup_singleton h,
      fun _ _ => List.not_mem_nil⟩
  have hpushed : Leaves w₁ (g.move [h] (.loose cls)) w' cls [] := by
    rw [runs_bind] at hrun
    obtain ⟨e, w₂, he, hrun⟩ := hrun
    obtain ⟨_, hw₂⟩ := runs_engine.mp he
    subst hw₂
    obtain ⟨bin, _, hrun⟩ := runs_attempt_bind.mp hrun
    obtain ⟨limit, _, hrun⟩ := runs_attempt_bind.mp hrun
    split at hrun
    · exact tryPush_spec hinv₂ hbatch rfl hrun
    · exact pushToThreadTailed_spec hinv₂ hbatch rfl hrun
  obtain ⟨g', hinv', hstep, hl', _⟩ := hpushed
  have hplaced : (g.move [h] (.loose cls)).place h = some (.loose cls) := by
    rw [Layout.move_place, if_pos List.mem_cons_self]
  refine ⟨g', ⟨hinv', looseAre_nil.mp hl', ?_⟩, fun hstill => ?_,
    (hstep.blocks h (by rw [hplaced]; exact nofun)).1⟩
  · have hframe : Frame w g { w with mem := m' } (g.move [h] (.loose cls)) {h} :=
      hinv.frame_header hheld (fun _ => nofun) (fun _ => nofun) helse
    exact hframe.trans (hs.frame.trans hstep.frame.mono)
  · rw [hstep.held, hplaced] at hstill
    exact absurd (Option.some.inj hstill) nofun

end Free

end Oxidalloc
