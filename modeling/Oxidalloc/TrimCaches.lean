import Oxidalloc.GTrimSpec

/-!
The lists of the shared cache under a trim, for a process with one shard. The blocks stay the
same throughout; a pop takes the first ones off a list, a push puts a chain on its top, and
both leave the lists of the other classes and everything in the headers but the links as it
is. None of these steps can fail.
-/
namespace Oxidalloc.GTrim

open ByteMemory HeadPacking LinkedChain Programs

/-- Blocks that do not overlap, each with a payload behind its header. -/
structure Apart (B : Set ℕ) (size : ℕ → ℕ) : Prop where
  isBlock : ∀ h ∈ B, IsBlock h
  bound : ∀ h ∈ B, h + 16 + size h < usizeBound
  apart : ∀ h ∈ B, ∀ h' ∈ B, h' ≠ h → h' + 16 ≤ h ∨ h + 16 + size h ≤ h'

/-- The blocks are freed blocks of ours with the given ages. There is one shard, and the
process runs on its CPU. -/
structure Cached (B : Set ℕ) (age : ℕ → ℕ) (w : World) : Prop where
  once : w.icc.once = true
  single : w.icc.ncpu = 1
  cpu : ∀ t, w.va.tick ≤ t → w.va.sys t ≤ 1
  ours : ∀ h ∈ B, w.isOurs h = true
  magic : ∀ h ∈ B, OxHeader.magic w.mem h = w.freedMagic
  age : ∀ h ∈ B, w.currentStamp - OxHeader.lifeTime w.mem h = age h

/-- The list of a class, from its top. -/
structure Stack (w : World) (c : ℕ) (l : List ℕ) : Prop where
  chain : Chain w (.shard 0 c) l
  usage : w.icc.usage 0 c = l.length

/-- Only the links of the listed blocks and the list of the class change. -/
structure Kept (B : Set ℕ) (S : List ℕ) (c : ℕ) (w w' : World) : Prop where
  links : ∀ h ∈ B, h ∉ S → OxHeader.next w'.mem h = OxHeader.next w.mem h
  lists : ∀ c', c' ≠ c → w'.icc.list 0 c' = w.icc.list 0 c'
  usages : ∀ c', c' ≠ c → w'.icc.usage 0 c' = w.icc.usage 0 c'

section Kept

variable {B : Set ℕ} {S S' l : List ℕ} {c c' a b : ℕ} {w w₁ w' : World}

theorem Kept.trans (h : Kept B S c w w₁) (h' : Kept B S c w₁ w') : Kept B S c w w' where
  links x hx hS := (h'.links x hx hS).trans (h.links x hx hS)
  lists c' hc := (h'.lists c' hc).trans (h.lists c' hc)
  usages c' hc := (h'.usages c' hc).trans (h.usages c' hc)

theorem Kept.mono (h : Kept B S c w w') (hS : S ⊆ S') : Kept B S' c w w' where
  links x hx hout := h.links x hx fun hin => hout (hS hin)
  lists := h.lists
  usages := h.usages

theorem Kept.linked (h : Kept B S c w w') (hl : ∀ x ∈ l, x ∈ B ∧ x ∉ S)
    (hlinked : Linked 0 (OxHeader.next w.mem) a l b) : Linked 0 (OxHeader.next w'.mem) a l b :=
  hlinked.congr fun x hx => h.links x (hl x hx).1 (hl x hx).2

/-- The list of another class is as before. -/
theorem Kept.stack (h : Kept B S c w w') (hl : ∀ x ∈ l, x ∈ B ∧ x ∉ S) (hc : c' ≠ c)
    (hst : Stack w c' l) : Stack w' c' l := by
  refine ⟨?_, (h.usages c' hc).trans hst.usage⟩
  show Linked 0 (OxHeader.next w'.mem) (headPtr (w'.icc.list 0 c')) l 0
  rw [h.lists c' hc]
  exact h.linked hl hst.chain

end Kept

section Updates

variable {B : Set ℕ} {size age : ℕ → ℕ} {S l : List ℕ} {c x h v : ℕ} {w w' : World}

theorem Apart.outside (hB : Apart B size) (hx : x ∈ B) (hh : h ∈ B) (hne : h ≠ x) :
    h + 16 ≤ x ∨ x + 16 ≤ h := by
  rcases hB.apart x hx h hh hne with hlt | hlt
  · exact Or.inl hlt
  · exact Or.inr (by omega)

theorem Apart.length_lt (hB : Apart B size) (hl : ∀ x ∈ l, x ∈ B) (hnodup : l.Nodup) :
    l.length < usizeBound :=
  length_lt_of_blocks hnodup fun x hx => hB.isBlock x (hl x hx)

/-- Whatever happens to the links, the rest of the headers counts. -/
theorem Cached.of_mem (hc : Cached B age w) {m' : Memory}
    (hmem : ∀ h ∈ B, ∀ y, h + 8 ≤ y → y < h + 16 → m' y = w.mem y) :
    Cached B age { w with mem := m' } where
  once := hc.once
  single := hc.single
  cpu := hc.cpu
  ours := hc.ours
  magic h hh := by
    rw [← hc.magic h hh]
    exact hmem h hh _ (by omega) (by omega)
  age h hh := by
    rw [← hc.age h hh]
    have hlife : OxHeader.lifeTime m' h = OxHeader.lifeTime w.mem h :=
      load_congr fun y _ _ => hmem h hh y (by omega) (by omega)
    exact congrArg (w.currentStamp - ·) hlife

/-- The state with another link in a header. -/
def relink (w : World) (x v : ℕ) : World := { w with mem := OxHeader.setNext w.mem x v }

theorem cached_relink (hc : Cached B age w) (hB : Apart B size) (hx : x ∈ B) :
    Cached B age (relink w x v) := by
  refine hc.of_mem fun h hh y hlo hhi => store_of_not_mem ?_
  by_cases hne : h = x
  · omega
  · have := hB.outside hx hh hne
    omega

theorem next_relink (hv : v < usizeBound) : OxHeader.next (relink w x v).mem x = v :=
  OxHeader.next_setNext hv

theorem kept_relink (hB : Apart B size) (hx : x ∈ B) : Kept B [x] c w (relink w x v) where
  links h hh hout := by
    have hne : h ≠ x := fun heq => hout (List.mem_singleton.mpr heq)
    have := hB.outside hx hh hne
    exact load_congr fun y _ _ => store_of_not_mem (by omega)
  lists _ _ := rfl
  usages _ _ := rfl

theorem linked_relink {a b : ℕ} (hB : Apart B size) (hx : x ∈ B) (hl : ∀ h ∈ l, h ∈ B)
    (hout : x ∉ l) (hlinked : Linked 0 (OxHeader.next w.mem) a l b) :
    Linked 0 (OxHeader.next (relink w x v).mem) a l b := by
  refine (kept_relink hB hx (c := 0)).linked (fun h hh => ⟨hl h hh, fun hin => ?_⟩) hlinked
  exact hout (List.mem_singleton.mp hin ▸ hh)

/-- A block is put in front of a chain. -/
theorem linked_cons_relink (hB : Apart B size) (hx : x ∈ B) (hl : ∀ h ∈ l, h ∈ B) (hout : x ∉ l)
    (hlinked : Linked 0 (OxHeader.next w.mem) v l 0) :
    Linked 0 (OxHeader.next (relink w x v).mem) x (x :: l) 0 := by
  have hv : v < usizeBound := by
    by_cases hzero : v = 0
    · rw [hzero]
      decide
    · exact (hB.isBlock v (hl v (hlinked.head_mem hzero))).lt
  refine ⟨rfl, (hB.isBlock x hx).ne_null, ?_⟩
  rw [next_relink hv]
  exact linked_relink hB hx hl hout hlinked

theorem stack_relink (hst : Stack w c l) (hB : Apart B size) (hx : x ∈ B) (hl : ∀ h ∈ l, h ∈ B)
    (hout : x ∉ l) : Stack (relink w x v) c l :=
  ⟨linked_relink hB hx hl hout hst.chain, hst.usage⟩

/-- The state with another list for a class. -/
def rehead (w : World) (c word n : ℕ) : World :=
  { w with
    icc := { w.icc with list := put w.icc.list 0 c word, usage := put w.icc.usage 0 c n } }

theorem cached_rehead (hc : Cached B age w) {word n : ℕ} : Cached B age (rehead w c word n) :=
  ⟨hc.once, hc.single, hc.cpu, hc.ours, hc.magic, hc.age⟩

theorem kept_rehead {word n : ℕ} : Kept B S c w (rehead w c word n) where
  links _ _ _ := rfl
  lists c' hne := by
    show put w.icc.list 0 c word 0 c' = _
    rw [put_apply, if_neg fun heq => hne heq.2]
  usages c' hne := by
    show put w.icc.usage 0 c n 0 c' = _
    rw [put_apply, if_neg fun heq => hne heq.2]

theorem stack_rehead {word n : ℕ} (hlinked : Linked 0 (OxHeader.next w.mem) (headPtr word) l 0)
    (hlen : n = l.length) : Stack (rehead w c word n) c l := by
  constructor
  · show Linked 0 (OxHeader.next w.mem) (headPtr (put w.icc.list 0 c word 0 c)) l 0
    rw [put_apply, if_pos ⟨rfl, rfl⟩]
    exact hlinked
  · show put w.icc.usage 0 c n 0 c = _
    rw [put_apply, if_pos ⟨rfl, rfl⟩]
    exact hlen

/-- The state after an answer of the kernel. -/
def ticked (w : World) : World := { w with va := { w.va with tick := w.va.tick + 1 } }

theorem cached_ticked (hc : Cached B age w) : Cached B age (ticked w) :=
  ⟨hc.once, hc.single, fun t ht => hc.cpu t (Nat.le_of_succ_le ht), hc.ours, hc.magic, hc.age⟩

theorem kept_ticked : Kept B S c w (ticked w) := ⟨fun _ _ _ => rfl, fun _ _ => rfl, fun _ _ => rfl⟩

theorem stack_ticked (hst : Stack w c l) : Stack (ticked w) c l := ⟨hst.chain, hst.usage⟩

theorem runs_draw : Runs draw w (w.va.sys w.va.tick) (ticked w) := rfl

end Updates

section Shard

variable {B : Set ℕ} {size age : ℕ → ℕ} {l : List ℕ} {c : ℕ} {w : World}

theorem Cached.ensureCache_runs (hc : Cached B age w) : Runs ensureCache w () w := by
  rw [ensureCache, runs_get_bind, if_pos hc.once]
  exact runs_pure.mpr ⟨rfl, rfl⟩

theorem Cached.getCpuId_runs (hc : Cached B age w) : Runs getCpuId w 0 (ticked w) := by
  have hanswer := hc.cpu w.va.tick (Nat.le_refl _)
  rw [getCpuId, runs_bind_iff runs_draw]
  exact runs_pure.mpr ⟨by omega, rfl⟩

theorem Cached.checkShard_runs (hc : Cached B age w) (hcls : c < 34) :
    Runs (checkShard 0 c) w () w := by
  have hnum : numSizeClasses = 34 := rfl
  rw [checkShard, runs_get_bind, if_neg (by rw [hc.single]; omega), if_neg (by omega)]
  exact runs_pure.mpr ⟨rfl, rfl⟩

/-- `get_size` is the length of the list. -/
theorem Cached.getSize_runs (hc : Cached B age w) (hB : Apart B size) (hst : Stack w c l)
    (hl : ∀ h ∈ l, h ∈ B) : Runs (getSize c) w l.length w := by
  have hlt := hB.length_lt hl hst.chain.nodup
  rw [getSize, runs_get_bind, hc.single]
  refine runs_attempt.mpr ⟨?_, rfl⟩
  show (if usizeBound ≤ 0 + w.icc.usage 0 c then _ else _) = _
  rw [hst.usage, Nat.zero_add, if_neg (by omega)]

/-- The state after the first 16 blocks of a list were taken off. -/
structure Takes (B : Set ℕ) (age : ℕ → ℕ) (c : ℕ) (l : List ℕ) (w : World) (x : ℕ) (w' : World) :
    Prop where
  cached : Cached B age w'
  batch : Linked 0 (OxHeader.next w'.mem) x (l.take 16) 0
  stack : Stack w' c (l.drop 16)
  kept : Kept B (l.take 16) c w w'

theorem pop_nil (hc : Cached B age w) (hst : Stack w c []) (hcls : c < 34) :
    Runs (pop c 16 0) w none w := by
  rw [pop, runs_bind_iff hc.ensureCache_runs, runs_bind_iff (hc.checkShard_runs hcls),
    runs_get_bind,
    if_pos (show w.icc.usage 0 c = 0 from hst.usage)]
  exact runs_pure.mpr ⟨rfl, rfl⟩

theorem take_drop_of_split {p r : List ℕ} (hlen : p.length ≤ 16) (hend : r = [] ∨ p.length = 16) :
    (p ++ r).take 16 = p ∧ (p ++ r).drop 16 = r := by
  rcases hend with rfl | hfull
  · rw [List.append_nil]
    exact ⟨List.take_of_length_le hlen, List.drop_of_length_le hlen⟩
  · rw [← hfull]
    exact ⟨List.take_left, List.drop_left⟩

theorem pop_runs (hc : Cached B age w) (hB : Apart B size) (hst : Stack w c l)
    (hl : ∀ h ∈ l, h ∈ B) (hcls : c < 34) (hne : l ≠ []) :
    ∃ x w', Runs (pop c 16 0) w (some x) w' ∧ x ≠ 0 ∧ Takes B age c l w x w' := by
  cases l with
  | nil => exact absurd rfl hne
  | cons x rest =>
    have hchain : Linked 0 (OxHeader.next w.mem) (headPtr (w.icc.list 0 c))
        (x :: rest) 0 := hst.chain
    have hx : headPtr (w.icc.list 0 c) = x := hchain.1
    have hnull : x ≠ 0 := hchain.2.1
    rw [hx] at hchain
    obtain ⟨m, r, hsplit, hlen, hcount, hend⟩ := batchTail_spec 15 1 hchain
    have hrun : Runs (pop c 16 0) w (some x)
        (relink (rehead w c (headPack (OxHeader.next w.mem (batchTail w.mem 15 x 1).1)
          ((headTag (w.icc.list 0 c) + 1) % usizeBound))
          ((w.icc.usage 0 c + (usizeBound - (batchTail w.mem 15 x 1).2)) % usizeBound))
          (batchTail w.mem 15 x 1).1 0) := by
      have husage : ¬ w.icc.usage 0 c = 0 := by
        rw [hst.usage]
        exact Nat.succ_ne_zero _
      rw [pop, runs_bind_iff hc.ensureCache_runs, runs_bind_iff (hc.checkShard_runs hcls),
        runs_get_bind, if_neg husage]
      dsimp only
      rw [hx, if_neg hnull, setShard, runs_modify_bind, runs_modify_bind]
      exact runs_pure.mpr ⟨rfl, rfl⟩
    refine ⟨x, _, hrun, hnull, ?_⟩
    generalize (batchTail w.mem 15 x 1).1 = tail at hsplit
    generalize (batchTail w.mem 15 x 1).2 = count at hcount
    subst hcount
    have hlt := hB.length_lt hl hst.chain.nodup
    have hnodup := hst.chain.nodup
    have husage := hst.usage
    rw [hsplit] at hchain hl hlt hnodup husage ⊢
    obtain ⟨htake, hdrop⟩ := @take_drop_of_split (m ++ [tail]) r
      (by simp only [List.length_append, List.length_singleton]; omega)
      (hend.imp_right fun h => by simp only [List.length_append, List.length_singleton]; omega)
    obtain ⟨next, hbatch, hrest⟩ := linked_append.mp hchain
    obtain ⟨hfirst, htailNull, rfl⟩ := linked_concat.mp hbatch
    have htail : tail ∈ B := hl tail (by simp)
    have hbatchB : ∀ h ∈ m ++ [tail], h ∈ B := fun h hh => hl h (List.mem_append_left r hh)
    have hrestB : ∀ h ∈ r, h ∈ B := fun h hh => hl h (List.mem_append_right _ hh)
    obtain ⟨hnodupBatch, _, hdisjoint⟩ := List.nodup_append.mp hnodup
    have hnextOk : 16 ∣ OxHeader.next w.mem tail := by
      by_cases hzero : OxHeader.next w.mem tail = 0
      · rw [hzero]
        exact Nat.dvd_zero 16
      · exact (hB.isBlock _ (hrestB _ (hrest.head_mem hzero))).aligned
    have hword := @headPtr_headPack _ ((headTag (w.icc.list 0 c) + 1) % usizeBound) hnextOk
      (load_lt w.mem tail 8)
    simp only [List.length_append, List.length_singleton] at hlt husage
    have hcount : (w.icc.usage 0 c + (usizeBound - (1 + m.length))) % usizeBound = r.length := by
      rw [husage, show m.length + 1 + r.length + (usizeBound - (1 + m.length)) =
        r.length + usizeBound by omega, Nat.add_mod_right]
      exact Nat.mod_eq_of_lt (by omega)
    have hkept : ∀ w₁, Kept B [tail] c w₁ (relink w₁ tail 0) := fun w₁ => kept_relink hB htail
    refine ⟨cached_relink (cached_rehead hc) hB htail, ?_, ?_, ?_⟩
    · rw [htake]
      refine linked_concat.mpr ⟨?_, htailNull, next_relink (by decide)⟩
      refine (hkept _).linked (fun h hh =>
        ⟨hbatchB h (List.mem_append_left _ hh), fun hin => ?_⟩) hfirst
      exact List.disjoint_of_nodup_append hnodupBatch hh hin
    · rw [hdrop]
      refine stack_relink (stack_rehead (hword.symm ▸ hrest) hcount) hB htail hrestB fun hin => ?_
      exact hdisjoint tail (by simp) tail hin rfl
    · rw [htake]
      exact kept_rehead.trans ((hkept _).mono (List.subset_append_right m [tail]))

theorem tryPop_nil (hc : Cached B age w) (hst : Stack w c []) (hcls : c < 34) :
    Runs (tryPop c 16) w 0 (ticked w) := by
  rw [tryPop, runs_bind_iff hc.getCpuId_runs, runs_get_bind,
    runs_bind_iff (pop_nil (cached_ticked hc) (stack_ticked hst) hcls),
    show (ticked w).icc.ncpu = 1 from hc.single]
  exact runs_pure.mpr ⟨rfl, rfl⟩

theorem tryPop_runs (hc : Cached B age w) (hB : Apart B size) (hst : Stack w c l)
    (hl : ∀ h ∈ l, h ∈ B) (hcls : c < 34) (hne : l ≠ []) :
    ∃ x w', Runs (tryPop c 16) w x w' ∧ x ≠ 0 ∧ Takes B age c l w x w' := by
  obtain ⟨x, w', hpop, hnull, htakes⟩ :=
    pop_runs (cached_ticked hc) hB (stack_ticked hst) hl hcls hne
  refine ⟨x, w', ?_, hnull, htakes.cached, htakes.batch, htakes.stack,
    kept_ticked.trans htakes.kept⟩
  rw [tryPop, runs_bind_iff hc.getCpuId_runs, runs_get_bind, runs_bind_iff hpop]
  exact runs_pure.mpr ⟨rfl, rfl⟩

/-- The checks pass on freed blocks. -/
theorem checkedRecount_ok {ours : ℕ → Bool} {m : Memory} {magic : UInt8} {x : ℕ} {rest : List ℕ}
    (n count : ℕ) (hlinked : Linked 0 (OxHeader.next m) x (x :: rest) 0)
    (hmagic : ∀ y ∈ x :: rest, OxHeader.magic m y = magic) :
    checkedRecount ours m magic n x count = .ok (recount ours m n x count) := by
  induction n generalizing x rest count with
  | zero => rfl
  | succ n ih =>
    obtain ⟨_, _, hrest⟩ := hlinked
    rw [checkedRecount, recount]
    by_cases hnext : OxHeader.next m x ≠ 0 ∧ ours (OxHeader.next m x) = true
    · rw [if_pos hnext, if_pos hnext, if_neg (not_not.mpr (hmagic x List.mem_cons_self))]
      cases rest with
      | nil => exact absurd hrest hnext.1
      | cons y rest =>
        have hy : OxHeader.next m x = y := hrest.1
        rw [hy] at hrest ⊢
        exact ih (count + 1) hrest fun z hz => hmagic z (List.mem_cons_of_mem x hz)
    · rw [if_neg hnext, if_neg hnext]

/-- The last link of a chain is null already. -/
theorem linked_cut {m : List ℕ} {a tail : ℕ} (hB : Apart B size) (hm : ∀ h ∈ m ++ [tail], h ∈ B)
    (hnodup : (m ++ [tail]).Nodup) (hlinked : Linked 0 (OxHeader.next w.mem) a (m ++ [tail]) 0) :
    Linked 0 (OxHeader.next (relink w tail 0).mem) a (m ++ [tail]) 0 := by
  obtain ⟨hfirst, hnull, _⟩ := linked_concat.mp hlinked
  refine linked_concat.mpr ⟨?_, hnull, next_relink (by decide)⟩
  refine linked_relink hB (hm tail (by simp))
    (fun h hh => hm h (List.mem_append_left _ hh)) ?_ hfirst
  exact fun hin => List.disjoint_of_nodup_append hnodup hin List.mem_cons_self

theorem popFromGlobal_nil (hc : Cached B age w) (hst : Stack w c []) (hcls : c < 34) :
    Runs (popFromGlobal c) w (0, 0) (ticked w) := by
  rw [popFromGlobal, Oxidalloc.popFromGlobal, runs_bind_iff (tryPop_nil hc hst hcls), if_pos rfl]
  exact runs_pure.mpr ⟨rfl, rfl⟩

theorem popFromGlobal_runs (hc : Cached B age w) (hB : Apart B size) (hst : Stack w c l)
    (hl : ∀ h ∈ l, h ∈ B) (hcls : c < 34) (hne : l ≠ []) :
    ∃ x w', Runs (popFromGlobal c) w (x, (l.take 16).length) w' ∧ x ≠ 0 ∧
      Takes B age c l w x w' := by
  obtain ⟨x, w₁, hpop, hnull, htakes⟩ := tryPop_runs hc hB hst hl hcls hne
  have htakeB : ∀ h ∈ l.take 16, h ∈ B := fun h hh => hl h (List.take_subset 16 l hh)
  have hdropB : ∀ h ∈ l.drop 16, h ∈ B := fun h hh => hl h (List.drop_subset 16 l hh)
  have hbatch := htakes.batch
  have htakeNe : l.take 16 ≠ [] := fun hnil => by
    rw [hnil] at hbatch
    exact hnull hbatch
  have hnodup : (l.take 16 ++ l.drop 16).Nodup := by
    rw [List.take_append_drop]
    exact hst.chain.nodup
  obtain ⟨hnodupTake, _, hdisjoint⟩ := List.nodup_append.mp hnodup
  obtain ⟨m, tail, hsplit, hrecount⟩ := recount_chain (n := 15) hbatch
    (fun y hy => htakes.cached.ours y (htakeB y hy)) htakeNe (List.length_take_le 16 l)
  have htail : tail ∈ l.take 16 := by
    rw [hsplit]
    exact List.mem_append_right m List.mem_cons_self
  have hcheck : checkedRecount w₁.isOurs w₁.mem w₁.freedMagic 15 x 1 =
      .ok (tail, (l.take 16).length) := by
    rw [← hrecount]
    have hmagic : ∀ y ∈ l.take 16, OxHeader.magic w₁.mem y = w₁.freedMagic :=
      fun y hy => htakes.cached.magic y (htakeB y hy)
    generalize l.take 16 = batch at hbatch htakeNe hmagic
    cases batch with
    | nil => exact absurd rfl htakeNe
    | cons y rest =>
      obtain rfl : x = y := hbatch.1
      exact checkedRecount_ok 15 1 hbatch hmagic
  refine ⟨x, relink w₁ tail 0, ?_, hnull,
    cached_relink htakes.cached hB (htakeB tail htail), ?_, ?_,
    ?_⟩
  · rw [popFromGlobal, Oxidalloc.popFromGlobal, runs_bind_iff hpop, if_neg hnull, runs_get_bind]
    refine runs_attempt_bind.mpr ⟨_, hcheck, ?_⟩
    dsimp only
    rw [runs_modify_bind]
    exact runs_pure.mpr ⟨rfl, rfl⟩
  · rw [hsplit] at hbatch htakeB hnodupTake ⊢
    exact linked_cut hB htakeB hnodupTake hbatch
  · refine stack_relink htakes.stack hB (htakeB tail htail) hdropB fun hin => ?_
    exact hdisjoint tail htail tail hin rfl
  · refine htakes.kept.trans ((kept_relink hB (htakeB tail htail)).mono ?_)
    exact List.cons_subset.mpr ⟨htail, List.nil_subset _⟩

/-- A chain goes to the top of the list. -/
theorem pushToGlobal_runs {m : List ℕ} {a b tail : ℕ} (hc : Cached B age w) (hB : Apart B size)
    (hst : Stack w c l) (hcls : c < 34) (hm : ∀ h ∈ m ++ [tail] ++ l, h ∈ B)
    (hnodup : (m ++ [tail] ++ l).Nodup)
    (hlinked : Linked 0 (OxHeader.next w.mem) a (m ++ [tail]) b) :
    ∃ w', Runs (pushToGlobal c a tail (m ++ [tail]).length) w () w' ∧ Cached B age w' ∧
      Stack w' c (m ++ [tail] ++ l) ∧ Kept B [tail] c w w' := by
  have htail : tail ∈ B := hm tail (by simp)
  have hbatchB : ∀ h ∈ m ++ [tail], h ∈ B := fun h hh => hm h (List.mem_append_left l hh)
  have hlB : ∀ h ∈ l, h ∈ B := fun h hh => hm h (List.mem_append_right _ hh)
  obtain ⟨hnodupBatch, _, hdisjoint⟩ := List.nodup_append.mp hnodup
  obtain ⟨hfirst, hnull, _⟩ := linked_concat.mp hlinked
  have hfirstB : a ∈ B := by
    cases m with
    | nil => exact hlinked.1 ▸ hbatchB _ List.mem_cons_self
    | cons x rest => exact hlinked.1 ▸ hbatchB _ List.mem_cons_self
  have hblock := hB.isBlock a hfirstB
  have hold : headPtr (w.icc.list 0 c) < usizeBound := by
    by_cases hzero : headPtr (w.icc.list 0 c) = 0
    · rw [hzero]
      decide
    · exact (hB.isBlock _ (hlB _ (hst.chain.head_mem hzero))).lt
  have hlt := hB.length_lt hm hnodup
  have hcount : (w.icc.usage 0 c + (m ++ [tail]).length) % usizeBound =
      (m ++ [tail] ++ l).length := by
    rw [hst.usage, Nat.add_comm, ← List.length_append]
    exact Nat.mod_eq_of_lt hlt
  have hkept : Kept B [tail] c w (relink (ticked w) tail (headPtr (w.icc.list 0 c))) :=
    kept_ticked.trans (kept_relink hB htail)
  have hchain : Linked 0 (OxHeader.next (relink (ticked w) tail (headPtr (w.icc.list 0 c))).mem) a
      (m ++ [tail] ++ l) 0 := by
    refine linked_append.mpr ⟨_, linked_concat.mpr ⟨?_, hnull, next_relink hold⟩, ?_⟩
    · refine hkept.linked (fun h hh =>
        ⟨hbatchB h (List.mem_append_left _ hh), fun hin => ?_⟩) hfirst
      exact List.disjoint_of_nodup_append hnodupBatch hh hin
    · refine hkept.linked (fun h hh => ⟨hlB h hh, fun hin => ?_⟩) hst.chain
      exact hdisjoint tail (by simp) h hh (List.mem_singleton.mp hin).symm
  rw [← @headPtr_headPack a ((headTag (w.icc.list 0 c) + 1) % usizeBound) hblock.aligned
    hblock.lt] at hchain
  refine ⟨_, ?_, cached_rehead (cached_relink (cached_ticked hc) hB htail),
    stack_rehead hchain hcount, hkept.trans kept_rehead⟩
  rw [pushToGlobal, tryPush, runs_bind_iff hc.ensureCache_runs, runs_bind_iff hc.getCpuId_runs,
    runs_bind_iff ((cached_ticked hc).checkShard_runs hcls), runs_get_bind,
      runs_modify_bind, setShard]
  exact runs_modify.mpr rfl

/-- The young blocks of a batch go back to the top of the list. -/
theorem pushBack_runs {pushes : List ℕ} {a : ℕ} (hc : Cached B age w) (hB : Apart B size)
    (hst : Stack w c l) (hcls : c < 34) (hm : ∀ h ∈ pushes ++ l, h ∈ B)
    (hnodup : (pushes ++ l).Nodup) (hlinked : Linked 0 (OxHeader.next w.mem) a pushes 0)
    (hne : pushes ≠ []) (hlen : pushes.length ≤ 16) :
    ∃ w', Runs (pushBack c a) w () w' ∧ Cached B age w' ∧ Stack w' c (pushes ++ l) ∧
      Kept B pushes c w w' := by
  have hbatchB : ∀ h ∈ pushes, h ∈ B := fun h hh => hm h (List.mem_append_left l hh)
  obtain ⟨m, tail, hsplit, hrecount⟩ := recount_chain (n := 15) hlinked
    (fun y hy => hc.ours y (hbatchB y hy)) hne hlen
  subst hsplit
  have htail : tail ∈ B := hbatchB tail (by simp)
  obtain ⟨hnodupBatch, _, hdisjoint⟩ := List.nodup_append.mp hnodup
  have hst₁ : Stack (relink w tail 0) c l := by
    refine stack_relink hst hB htail (fun h hh => hm h (List.mem_append_right _ hh)) fun hin => ?_
    exact hdisjoint tail (by simp) tail hin rfl
  obtain ⟨w', hpush, hc', hst', hkept⟩ :=
    pushToGlobal_runs (cached_relink hc hB htail) hB hst₁ hcls hm
    hnodup (linked_cut hB hbatchB hnodupBatch hlinked)
  refine ⟨w', ?_, hc', hst', ?_⟩
  · rw [pushBack, runs_get_bind, hrecount]
    dsimp only
    rw [runs_modify_bind]
    exact hpush
  · exact ((kept_relink hB htail).trans hkept).mono (List.subset_append_right m [tail])

/-- Bytes inside the payload of a block are in no header. -/
theorem Apart.fill_header (hB : Apart B size) {h x a n y : ℕ} {m : Memory} (hh : h ∈ B) (hx : x ∈ B)
    (hlo : h + 16 ≤ a) (hhi : a + n ≤ h + 16 + size h) (hy : x ≤ y ∧ y < x + 16) :
    fill m a n 0 y = m y := by
  apply fill_of_not_mem
  by_cases hne : x = h
  · omega
  · rcases hB.apart h hh x hx hne with hlt | hlt
    · omega
    · omega

/-- The pages inside the payload are given up, or the kernel refuses. -/
theorem madvise_runs {h a n : ℕ} (hc : Cached B age w) (hB : Apart B size) (hh : h ∈ B)
    (hlo : h + 16 ≤ a) (hhi : a + n ≤ h + 16 + size h) (hpages : n % 4096 = 0) :
    ∃ r w', Runs (madvise a n .dontNeed) w r w' ∧ Cached B age w' ∧ w'.icc = w.icc ∧
      ∀ x ∈ B, OxHeader.next w'.mem x = OxHeader.next w.mem x := by
  have hlen : pagesOf n * 4096 = n := by
    unfold pagesOf
    omega
  rw [madvise]
  by_cases hrefused : a % 4096 ≠ 0 ∨ w.va.sys w.va.tick = 0
  · refine ⟨false, ticked w, ?_, cached_ticked hc, rfl, fun _ _ => rfl⟩
    rw [runs_bind_iff runs_draw, if_pos hrefused]
    exact runs_pure.mpr ⟨rfl, rfl⟩
  · have hfill : ∀ x ∈ B, ∀ y, x ≤ y → y < x + 16 →
        fill w.mem a (pagesOf n * 4096) 0 y = w.mem y := by
      intro x hx y hle hlt
      exact hB.fill_header hh hx hlo (by omega) ⟨hle, hlt⟩
    refine ⟨true, { ticked w with mem := fill w.mem a (pagesOf n * 4096) 0 }, ?_, ?_, rfl, ?_⟩
    · rw [runs_bind_iff runs_draw, if_neg hrefused]
      dsimp only
      rw [runs_modify_bind]
      exact runs_pure.mpr ⟨rfl, rfl⟩
    · exact (cached_ticked hc).of_mem fun x hx y hle hlt => hfill x hx y (by omega) hlt
    · exact fun x hx => load_congr fun y hle hlt => hfill x hx y hle (by omega)

/-- Only whole pages inside the payload are given up. -/
theorem releaseMemory_runs {h : ℕ} (hc : Cached B age w) (hB : Apart B size) (hh : h ∈ B)
    (hsize : 4096 ≤ size h) :
    ∃ w', Runs (releaseMemory h (size h)) w () w' ∧ Cached B age w' ∧ w'.icc = w.icc ∧
      ∀ x ∈ B, OxHeader.next w'.mem x = OxHeader.next w.mem x := by
  have hbound := hB.bound h hh
  have halign := (@alignTo_eq_ok (h + headerSize) 12 _ (by decide)).mpr
    ⟨by unfold headerSize; omega, rfl⟩
  have hmask := @pageMask_eq (h + headerSize + size h) hbound
  have hstart : (h + headerSize + (2 ^ 12 - 1)) / 2 ^ 12 * 2 ^ 12 =
      (h + 16 + 4095) / 4096 * 4096 := rfl
  rw [hstart] at halign
  rw [show h + headerSize + size h = h + 16 + size h from rfl] at hmask
  rw [releaseMemory]
  dsimp only
  rw [show h + headerSize + size h = h + 16 + size h from rfl, hmask]
  by_cases hpages : (h + 16 + size h) / 4096 * 4096 ≤ (h + 16 + 4095) / 4096 * 4096
  · refine ⟨w, runs_attempt_bind.mpr ⟨_, halign, ?_⟩, hc, rfl, fun _ _ => rfl⟩
    rw [if_pos hpages]
    exact runs_pure.mpr ⟨rfl, rfl⟩
  · obtain ⟨r, w', hadvise, hrest⟩ := madvise_runs hc hB hh
      (a := (h + 16 + 4095) / 4096 * 4096)
      (n := (h + 16 + size h) / 4096 * 4096 - (h + 16 + 4095) / 4096 * 4096)
      (by omega) (by omega) (by omega)
    refine ⟨w', runs_attempt_bind.mpr ⟨_, halign, ?_⟩, hrest⟩
    rw [if_neg hpages, runs_bind_iff hadvise]
    exact runs_pure.mpr ⟨rfl, rfl⟩

end Shard

end Oxidalloc.GTrim
