import Oxidalloc.AllocateSpec
import Oxidalloc.GTrim

/-!
`GTrim::trim` returns every block it pops. A batch is sorted into a chain that stays and
a chain to trim; the first goes back at the end of the round, the second after all
rounds, block by block. In between the loose blocks are exactly those of the two chains.
-/
namespace Oxidalloc

open ByteMemory HeadPacking LinkedChain Programs VaBitmap

namespace GTrim

section Pop

variable {w w' : World} {g : Layout} {cls : ℕ} {l : List ℕ}

/-- The checks only add a way to abort. -/
theorem checkedRecount_eq {ours : ℕ → Bool} {m : Memory} {magic : UInt8} (n block real : ℕ)
    {r : ℕ × ℕ} (h : checkedRecount ours m magic n block real = .ok r) :
    r = recount ours m n block real := by
  induction n generalizing block real with
  | zero => exact (Except.ok.inj h).symm
  | succ n ih =>
    rw [checkedRecount] at h
    rw [recount]
    split at h
    · rename_i hnext
      rw [if_pos hnext]
      split at h
      · contradiction
      · exact ih _ _ h
    · rename_i hnext
      rw [if_neg hnext]
      exact (Except.ok.inj h).symm

/-- A round pops a null-terminated chain of at most 16 blocks and knows its length. -/
theorem popFromGlobal_spec {r : ℕ × ℕ} (hinv : Inv w g) (hl : LooseAre g cls l)
    (hnodup : l.Nodup) (h : Runs (popFromGlobal cls) w r w') :
    (r.1 = 0 ∧ SameHeap w w') ∨
      (r.1 ≠ 0 ∧ ∃ m g', Inv w' g' ∧ Frame w g w' g' ∅ ∧ LooseAre g' cls (m ++ l) ∧
        Linked 0 (OxHeader.next w'.mem) r.1 m 0 ∧ (m ++ l).Nodup ∧ m.length = r.2 ∧
        m.length ≤ 16 ∧ SameLinks w w' l) := by
  rw [popFromGlobal, runs_bind] at h
  obtain ⟨globalCache, w₁, hpop, h⟩ := h
  rcases tryPop_spec hinv hl (by omega) hpop with
    ⟨hnull, hs⟩ | ⟨hnull, _, m, g₁, hinv₁, hstep₁, hl₁, hlinked, hne, hlen, hdisjoint, hlinks⟩
  · rw [if_pos hnull] at h
    obtain ⟨hr, hw'⟩ := runs_pure.mp h
    rw [hr, hw']
    exact Or.inl ⟨rfl, hs⟩
  · rw [if_neg hnull, runs_get_bind] at h
    obtain ⟨⟨block, real⟩, hrecount, h⟩ := runs_attempt_bind.mp h
    have hcount := checkedRecount_eq _ _ _ hrecount
    obtain ⟨m₁, tail, hm, heq⟩ := recount_spec (n := 15) hinv₁ hl₁ hlinked hne (by omega)
    rw [heq] at hcount
    obtain ⟨hblock, hreal⟩ := Prod.mk.inj hcount
    subst hblock hreal
    dsimp only at h
    rw [runs_modify_bind] at h
    obtain ⟨hr, hw'⟩ := runs_pure.mp h
    have hall : (m ++ l).Nodup := by
      refine List.Nodup.append hlinked.nodup hnodup fun x hx hxl => ?_
      exact hdisjoint x hx hxl
    rw [hm] at hl₁ hlinked hall
    obtain ⟨hinv₂, hstep₂, hchain, hlinks₂⟩ := hinv₁.terminate hl₁ hlinked hall
    rw [hr, hw']
    refine Or.inr ⟨hnull, m₁ ++ [block], g₁, hinv₂, (hstep₁.trans hstep₂).frame, hl₁, hchain, hall,
      congrArg List.length hm.symm, hm ▸ hlen.trans (min_le_left ..), fun x hx => ?_⟩
    rw [hlinks₂ x hx, hlinks x hx]

end Pop

section Rounds

variable {w w' : World} {g : Layout} {cls : ℕ}

/-- Three chains of loose blocks: what is left of the batch, the blocks to trim and the
blocks to push back. -/
structure Sorting (w : World) (g : Layout) (cls block : ℕ) (rest : List ℕ) (toTrim : ℕ)
    (trims : List ℕ) (toPush : ℕ) (pushes : List ℕ) : Prop where
  loose : LooseAre g cls (rest ++ (trims ++ pushes))
  nodup : (rest ++ (trims ++ pushes)).Nodup
  rest : Linked 0 (OxHeader.next w.mem) block rest 0
  trim : Linked 0 (OxHeader.next w.mem) toTrim trims 0
  push : Linked 0 (OxHeader.next w.mem) toPush pushes 0

theorem head_ok {head : ℕ} {l : List ℕ} (hinv : Inv w g)
    (hl : ∀ h ∈ l, g.place h = some (.loose cls))
    (hlinked : Linked 0 (OxHeader.next w.mem) head l 0) : 16 ∣ head ∧ head < usizeBound := by
  by_cases hnull : head = 0
  · rw [hnull]
    exact ⟨Nat.dvd_zero 16, by decide⟩
  · have hblock := (hinv.blocks _ _ (hl head (hlinked.head_mem hnull))).1.isBlock
    exact ⟨hblock.aligned, hblock.lt⟩

theorem note_toTrim {q q' : Tally} {lifeTime : ℕ} (h : q.note lifeTime = .ok q') :
    q'.toTrim = q.toTrim := by
  unfold Tally.note at h
  split at h
  · rw [← Except.ok.inj h]
  · split at h
    · exact absurd h nofun
    · rw [← Except.ok.inj h]

/-- The first block of the batch is linked in front of another chain. -/
theorem Sorting.relink {block x toTrim toPush head : ℕ} {rest trims pushes l : List ℕ}
    (hs : Sorting w g cls block (x :: rest) toTrim trims toPush pushes) (hinv : Inv w g)
    (hl : ∀ h ∈ l, h ∈ trims ++ pushes) (hhead : Linked 0 (OxHeader.next w.mem) head l 0) :
    block = x ∧ Inv { w with mem := OxHeader.setNext w.mem x head } g ∧
      CacheStep w g { w with mem := OxHeader.setNext w.mem x head } g ∧
      Linked 0 (OxHeader.next (OxHeader.setNext w.mem x head)) (OxHeader.next w.mem x) rest 0 ∧
      Linked 0 (OxHeader.next (OxHeader.setNext w.mem x head)) x (x :: l) 0 ∧
      ∀ {a : ℕ} {c : List ℕ}, (∀ h ∈ c, h ∈ trims ++ pushes) →
        Linked 0 (OxHeader.next w.mem) a c 0 →
        Linked 0 (OxHeader.next (OxHeader.setNext w.mem x head)) a c 0 := by
  obtain ⟨hblock, hnull, hrest⟩ := hs.rest
  have hplace : ∀ h ∈ x :: rest ++ (trims ++ pushes), g.place h = some (.loose cls) :=
    fun h hh => hs.loose.place hh
  obtain ⟨hx, hnodup⟩ := List.nodup_cons.mp hs.nodup
  have hokHead := head_ok hinv (fun h hh => hplace h (List.mem_append_right _ (hl h hh))) hhead
  obtain ⟨hinv₁, hstep₁, hnext⟩ := hinv.setNext (hplace x List.mem_cons_self) hokHead.1 hokHead.2
  have hkeep : ∀ {a : ℕ} {c : List ℕ}, (∀ h ∈ c, h ∈ rest ++ (trims ++ pushes)) →
      Linked 0 (OxHeader.next w.mem) a c 0 →
      Linked 0 (OxHeader.next (OxHeader.setNext w.mem x head)) a c 0 := by
    intro a c hc hlinked
    refine hlinked.congr fun h hh => ?_
    exact hnext h _ (hplace h (List.mem_cons_of_mem x (hc h hh))) fun heq => hx (heq ▸ hc h hh)
  refine ⟨hblock, hinv₁, hstep₁, hkeep (fun h hh => List.mem_append_left _ hh) hrest, ?_, ?_⟩
  · refine ⟨rfl, hnull, ?_⟩
    rw [OxHeader.next_setNext hokHead.2]
    exact hkeep (fun h hh => List.mem_append_right _ (hl h hh)) hhead
  · exact fun hc => hkeep fun h hh => List.mem_append_right _ (hc h hh)

/-- The loop over one batch: every block of it ends up in one of the two chains. -/
theorem sortBatch_spec {timing block : ℕ} {rest trims pushes : List ℕ} {q : Tally} {toPush : ℕ}
    {r : Tally × ℕ} (hinv : Inv w g)
    (hs : Sorting w g cls block rest q.toTrim trims toPush pushes)
    (h : Runs (sortBatch timing rest.length block q toPush) w r w') :
    ∃ trims' pushes', Inv w' g ∧ Frame w g w' g ∅ ∧
      Sorting w' g cls 0 [] r.1.toTrim trims' r.2 pushes' ∧
      trims'.length ≤ trims.length + rest.length ∧
      pushes'.length ≤ pushes.length + rest.length := by
  induction rest generalizing w block q toPush trims pushes with
  | nil =>
    obtain ⟨hr, hw'⟩ := runs_pure.mp h
    rw [hr, hw']
    have hnull : block = 0 := hs.rest
    rw [hnull] at hs
    exact ⟨trims, pushes, hinv, frame_refl, hs, by omega,
      by omega⟩
  | cons x rest ih =>
    rw [List.length_cons, sortBatch, runs_get_bind] at h
    dsimp only at h
    obtain ⟨q₁, hnote, h⟩ := runs_attempt_bind.mp h
    have htrim : q₁.toTrim = q.toTrim := note_toTrim hnote
    split at h
    · rw [runs_modify_bind] at h
      obtain ⟨hblock, hinv₁, hstep, hrest, hfirst, hkeep⟩ :=
        hs.relink hinv (fun h hh => List.mem_append_left pushes hh) hs.trim
      subst hblock
      rw [htrim] at h
      have hs₁ : Sorting { w with mem := OxHeader.setNext w.mem block q.toTrim } g cls
          (OxHeader.next w.mem block) rest block (block :: trims) toPush pushes := by
        have hperm : (rest ++ block :: (trims ++ pushes)).Perm
            (block :: (rest ++ (trims ++ pushes))) :=
          List.perm_middle
        exact ⟨hs.loose.congr fun y => hperm.mem_iff, hperm.nodup_iff.mpr hs.nodup, hrest, hfirst,
          hkeep (fun h hh => List.mem_append_right trims hh) hs.push⟩
      obtain ⟨trims', pushes', hinv', hframe, hs', hlen, hlen'⟩ := ih hinv₁ hs₁ h
      rw [List.length_cons] at hlen ⊢
      exact ⟨trims', pushes', hinv', hstep.frame.trans hframe, hs', by omega, by omega⟩
    · rw [runs_modify_bind] at h
      obtain ⟨hblock, hinv₁, hstep, hrest, hfirst, hkeep⟩ :=
        hs.relink hinv (fun h hh => List.mem_append_right trims hh) hs.push
      subst hblock
      have hs₁ : Sorting { w with mem := OxHeader.setNext w.mem block toPush } g cls
          (OxHeader.next w.mem block) rest q₁.toTrim trims block (block :: pushes) := by
        have hperm : (rest ++ trims ++ block :: pushes).Perm (block :: (rest ++ trims ++ pushes)) :=
          List.perm_middle
        rw [List.append_assoc, List.append_assoc] at hperm
        exact ⟨hs.loose.congr fun y => hperm.mem_iff, hperm.nodup_iff.mpr hs.nodup, hrest,
          htrim ▸ hkeep (fun h hh => List.mem_append_left pushes hh) hs.trim, hfirst⟩
      obtain ⟨trims', pushes', hinv', hframe, hs', hlen, hlen'⟩ := ih hinv₁ hs₁ h
      rw [List.length_cons] at hlen' ⊢
      exact ⟨trims', pushes', hinv', hstep.frame.trans hframe, hs', by omega, by omega⟩

/-- The blocks that stay go back as one batch. -/
theorem pushBack_spec {toPush : ℕ} {pushes trims : List ℕ} {u : Unit} (hinv : Inv w g)
    (hl : LooseAre g cls (pushes ++ trims)) (hnodup : (pushes ++ trims).Nodup)
    (hlinked : Linked 0 (OxHeader.next w.mem) toPush pushes 0) (hne : pushes ≠ [])
    (hlen : pushes.length ≤ 16) (h : Runs (pushBack cls toPush) w u w') :
    ∃ g', Inv w' g' ∧ Frame w g w' g' ∅ ∧ LooseAre g' cls trims ∧ SameLinks w w' trims := by
  rw [pushBack, runs_get_bind] at h
  obtain ⟨m₁, tail, hm, hrecount⟩ := recount_spec (n := 15) hinv hl hlinked hne hlen
  rw [hrecount] at h
  dsimp only at h
  rw [runs_modify_bind] at h
  rw [hm] at hl hnodup hlinked
  obtain ⟨hinv₁, hstep₁, hchain, hlinks₁⟩ := hinv.terminate hl hlinked hnodup
  obtain ⟨hbatch, _, hdisjoint⟩ := List.nodup_append.mp hnodup
  obtain ⟨g₂, hinv₂, hstep₂, hl₂, hlinks₂⟩ := tryPush_spec hinv₁
    ⟨hl, ⟨0, hchain⟩, hbatch, fun x hx hxt => hdisjoint x hx x hxt rfl⟩ (congrArg List.length hm) h
  refine ⟨g₂, hinv₂, (hstep₁.trans hstep₂).frame, hl₂, fun x hx => ?_⟩
  rw [hlinks₂ x hx, hlinks₁ x hx]

/-- The rounds of one class: the loose blocks are those to trim, at most 16 for each
round. -/
theorem trimRounds_spec {timing : ℕ} (n : ℕ) {q q' : Tally} {trims : List ℕ} (hinv : Inv w g)
    (hl : LooseAre g cls trims) (hlinked : Linked 0 (OxHeader.next w.mem) q.toTrim trims 0)
    (h : Runs (trimRounds cls timing n q) w q' w') :
    ∃ trims' g', Inv w' g' ∧ Frame w g w' g' ∅ ∧ LooseAre g' cls trims' ∧
      Linked 0 (OxHeader.next w'.mem) q'.toTrim trims' 0 ∧
      trims'.length ≤ trims.length + n * 16 := by
  induction n generalizing w g q trims with
  | zero =>
    obtain ⟨hq, hw'⟩ := runs_pure.mp h
    rw [hq, hw']
    exact ⟨trims, g, hinv, frame_refl, hl, hlinked, by omega⟩
  | succ n ih =>
    rw [trimRounds, runs_bind] at h
    obtain ⟨⟨cache, size⟩, w₁, hpop, h⟩ := h
    rcases popFromGlobal_spec hinv hl hlinked.nodup hpop with
      ⟨hnull, hs⟩ | ⟨hnull, m, g₁, hinv₁, hframe₁, hl₁, hchain, hnodup, hsize, hlen, hlinks⟩
    · dsimp only at hnull h
      rw [if_pos hnull] at h
      obtain ⟨hq, hw'⟩ := runs_pure.mp h
      rw [hq, hw']
      rw [← hs.mem] at hlinked
      exact ⟨trims, g, hinv.sameHeap hs, hs.frame, hl, hlinked, by omega⟩
    · dsimp only at hnull hchain hsize h
      rw [if_neg hnull, runs_bind] at h
      obtain ⟨⟨q₂, toPush⟩, w₂, hsort, h⟩ := h
      have hs₁ : Sorting w₁ g₁ cls cache m q.toTrim trims 0 [] := by
        refine ⟨?_, ?_, hchain, hlinked.congr hlinks, rfl⟩
        · rw [List.append_nil]
          exact hl₁
        · rw [List.append_nil]
          exact hnodup
      rw [← hsize] at hsort
      obtain ⟨trims₂, pushes, hinv₂, hframe₂, hs₂, hlen₂, hlen'⟩ := sortBatch_spec hinv₁ hs₁ hsort
      obtain ⟨hl₂, hnodup₂, _, htrim₂, hpush₂⟩ := hs₂
      rw [List.nil_append] at hl₂ hnodup₂
      rw [List.length_nil] at hlen'
      dsimp only at htrim₂ hpush₂ h
      split at h
      · rename_i hempty
        rw [hempty] at hpush₂
        have hnil := hpush₂.eq_nil
        rw [hnil, List.append_nil] at hl₂
        obtain ⟨trims', g', hinv', hframe', hl', hlinked', hlen'⟩ := ih hinv₂ hl₂ htrim₂ h
        exact ⟨trims', g', hinv', (hframe₁.trans hframe₂).trans hframe', hl', hlinked', by omega⟩
      · rename_i hsome
        rw [runs_bind] at h
        obtain ⟨_, w₃, hback, h⟩ := h
        have hne : pushes ≠ [] := fun hnil => hsome (by rw [hnil] at hpush₂; exact hpush₂)
        obtain ⟨g₃, hinv₃, hframe₃, hl₃, hlinks₃⟩ := pushBack_spec hinv₂
          (hl₂.congr fun x => by rw [List.mem_append, List.mem_append, or_comm])
          (List.perm_append_comm.nodup_iff.mp hnodup₂) hpush₂ hne (by omega) hback
        obtain ⟨trims', g', hinv', hframe', hl', hlinked', hlen'⟩ :=
          ih hinv₃ hl₃ (htrim₂.congr hlinks₃) h
        exact ⟨trims', g', hinv', ((hframe₁.trans hframe₂).trans hframe₃).trans hframe', hl',
          hlinked', by omega⟩

end Rounds

section Release

variable {w w' : World} {g : Layout} {cls : ℕ}

theorem pageMask_eq {x : ℕ} (hx : x < usizeBound) : x &&& pageMask = x / 4096 * 4096 :=
  @MachineWord.and_high_eq 64 12 x (by omega) hx

/-- Only whole pages inside the payload are given up, so no header changes. -/
theorem releaseMemory_spec {header : ℕ} {u : Unit} (hinv : Inv w g)
    (hloose : g.place header = some (.loose cls))
    (h : Runs (releaseMemory header (payload cls)) w u w') :
    Inv w' g ∧ Frame w g w' g ∅ ∧
      ∀ x pl, g.place x = some pl → OxHeader.next w'.mem x = OxHeader.next w.mem x := by
  obtain ⟨hblock, hlt, hcls, _⟩ := hinv.blocks header _ hloose
  have hcap : w.capacity header = payload cls := by
    unfold World.capacity
    rw [hcls, if_neg (by omega)]
  have hextent := hblock.extent
  rw [hcap] at hextent
  rw [releaseMemory] at h
  dsimp only at h
  obtain ⟨pageStart, halign, h⟩ := runs_attempt_bind.mp h
  obtain ⟨_, hstart⟩ := (@alignTo_eq_ok (header + headerSize) 12 pageStart (by omega)).mp halign
  have hend : header + headerSize + payload cls < usizeBound := by
    have hlast := hextent (header + 15 + payload cls) (by omega) (by omega)
    have hbound := hinv.own_succ_lt (x := header + 15 + payload cls) (by rw [hlast]; exact nofun)
    unfold headerSize
    omega
  rw [pageMask_eq hend] at h
  unfold headerSize at h hstart
  split at h
  · rw [(runs_pure.mp h).2]
    exact ⟨hinv, frame_refl, fun _ _ _ => rfl⟩
  · rename_i hpages
    rw [runs_bind] at h
    obtain ⟨_, w₁, hadvise, h⟩ := h
    rw [(runs_pure.mp h).2]
    obtain ⟨w₂, hs, hcase⟩ := madvise_spec hinv.wf hadvise
    rcases hcase with hw₁ | ⟨_, _, hw₁⟩
    · rw [hw₁]
      exact ⟨hinv.sameHeap hs, hs.frame, fun _ _ _ => by rw [hs.mem]⟩
    · -- the released bytes belong to the payload of this block
      have hpayload : ∀ x h', g.own x = .block h' → x < h' + 16 ∨ h' ≠ header →
          fill w.mem pageStart
            (pagesOf ((header + 16 + payload cls) / 4096 * 4096 - pageStart) * 4096)
            0 x = w₂.mem x := by
        intro x h' hown hor
        rw [hs.mem]
        apply fill_of_not_mem
        by_contra hin
        have hpagesEq : pagesOf ((header + 16 + payload cls) / 4096 * 4096 - pageStart) * 4096 =
            (header + 16 + payload cls) / 4096 * 4096 - pageStart := by
          unfold pagesOf
          omega
        have hthis := hextent x (by omega) (by omega)
        rw [hown, Owner.block.injEq] at hthis
        omega
      have hinv₂ := hinv.sameHeap hs
      have hcontrol : ∀ x, Control g x → fill w.mem pageStart
          (pagesOf ((header + 16 + payload cls) / 4096 * 4096 - pageStart) * 4096) 0 x =
            w₂.mem x := by
        intro x hx
        rcases hx with ⟨h', hown, hlow⟩ | ⟨b, hown⟩
        · exact hpayload x h' hown (Or.inl hlow)
        · rw [hs.mem]
          apply fill_of_not_mem
          by_contra hin
          have hthis := hextent x (by omega) (by unfold pagesOf at hin; omega)
          rw [hown] at hthis
          exact absurd hthis nofun
      rw [hw₁]
      refine ⟨hinv₂.writeBytes hcontrol, hs.frame.trans (frame_write fun h' x hheld hown => ?_),
        fun x pl hx => ?_⟩
      · refine hpayload x h' hown (Or.inr fun heq => ?_)
        rw [heq, hloose] at hheld
        exact absurd (Option.some.inj hheld) nofun
      · refine (hinv₂.sameBlock_of_control hcontrol hx).next_eq.trans ?_
        rw [hs.mem]

/-- The chain to trim goes back block by block, and there are rounds for all of it. -/
theorem releaseLoop_spec {pad : ℕ} {forceTrim : Bool} (n : ℕ) {toTrim totalFreed r : ℕ}
    {trims : List ℕ} (hinv : Inv w g) (hl : LooseAre g cls trims)
    (hlinked : Linked 0 (OxHeader.next w.mem) toTrim trims 0) (hlen : trims.length ≤ n)
    (h : Runs (releaseLoop cls (payload cls) pad forceTrim n toTrim totalFreed) w r w') :
    Settles w g w' cls := by
  induction n generalizing w g toTrim totalFreed trims with
  | zero =>
    have hnil := List.eq_nil_of_length_eq_zero (Nat.le_zero.mp hlen)
    subst hnil
    rw [(runs_pure.mp h).2]
    exact ⟨g, hinv, frame_refl, hl⟩
  | succ n ih =>
    have hpush : ∀ {w₁ : World} {u : Unit} {w₂ : World} {x total : ℕ} {rest : List ℕ},
        Inv w₁ g → LooseAre g cls (x :: rest) → (x :: rest).Nodup → x ≠ 0 →
        rest.length ≤ n → Linked 0 (OxHeader.next w₁.mem) (OxHeader.next w₁.mem x) rest 0 →
        Runs (pushToGlobal cls x x 1) w₁ u w₂ →
        Runs (releaseLoop cls (payload cls) pad forceTrim n (OxHeader.next w₁.mem x) total)
          w₂ r w' →
        Settles w₁ g w' cls := by
      intro w₁ u w₂ x total rest hinv₁ hl₁ hnodup hnull hlen₁ hrest hpush hloop
      obtain ⟨hx, _⟩ := List.nodup_cons.mp hnodup
      have hbatch : Batch w₁ g cls x [] x rest :=
        ⟨hl₁, ⟨_, rfl, hnull, rfl⟩, List.nodup_singleton x, fun y hy hin =>
          hx (List.mem_singleton.mp hy ▸ hin)⟩
      obtain ⟨g₂, hinv₂, hstep, hl₂, hlinks⟩ := tryPush_spec hinv₁ hbatch rfl hpush
      exact hstep.frame.settles (ih hinv₂ hl₂ (hrest.congr hlinks) hlen₁ hloop)
    rw [releaseLoop] at h
    split at h
    · rename_i hnull
      rw [hnull] at hlinked
      have hnil := hlinked.eq_nil
      subst hnil
      rw [(runs_pure.mp h).2]
      exact ⟨g, hinv, frame_refl, hl⟩
    · rename_i hnull
      cases trims with
      | nil => exact absurd hlinked hnull
      | cons x rest =>
        have hnodup := hlinked.nodup
        obtain ⟨hx, hxnull, hrest⟩ := hlinked
        subst hx
        rw [List.length_cons] at hlen
        rw [runs_get_bind] at h
        dsimp only at h
        split at h
        · rw [runs_bind] at h
          obtain ⟨_, w₁, hrelease, h⟩ := h
          obtain ⟨hinv₁, hframe₁, hnext⟩ := releaseMemory_spec hinv (hl.place List.mem_cons_self)
            hrelease
          split at h
          · exact absurd h runs_throw
          · rw [runs_bind] at h
            obtain ⟨_, w₂, hback, h⟩ := h
            rw [← hnext toTrim _ (hl.place List.mem_cons_self)] at h hrest
            refine hframe₁.settles (hpush hinv₁ hl hnodup hnull (by omega) ?_ hback h)
            exact hrest.congr fun y hy => hnext y _ (hl.place (List.mem_cons_of_mem _ hy))
        · rw [runs_bind] at h
          obtain ⟨_, w₂, hback, h⟩ := h
          exact hpush hinv hl hnodup hnull (by omega) hrest hback h

theorem getSize_eq {r : ℕ} (h : Runs (getSize cls) w r w') : w' = w := by
  rw [getSize, runs_get_bind] at h
  exact (runs_attempt.mp h).2

theorem trimClass_spec {timing pad totalFreed : ℕ} {forceTrim : Bool} {q : Tally}
    {r : Tally × ℕ} (hinv : Inv w g) (hno : NoLoose g)
    (h : Runs (trimClass cls timing pad forceTrim q totalFreed) w r w') :
    ∃ g', Reaches w g w' g' ∅ := by
  rw [trimClass] at h
  obtain ⟨size, hsize, h⟩ := runs_attempt_bind.mp h
  have hpayload := (index_sizeClasses.mp hsize).2
  rw [runs_bind] at h
  obtain ⟨classUsage, w₁, husage, h⟩ := h
  have hw₁ := getSize_eq husage
  rw [hw₁, runs_bind] at h
  obtain ⟨q', w₂, hrounds, h⟩ := h
  obtain ⟨trims, g₂, hinv₂, hframe₂, hl₂, hlinked₂, hlen⟩ := @trimRounds_spec w w₂ g cls timing
    (classUsage / 16) { q with toTrim := 0 } q' [] hinv (looseAre_nil.mpr hno) rfl hrounds
  rw [List.length_nil, Nat.zero_add] at hlen
  rw [runs_bind] at h
  obtain ⟨freed, w₃, hloop, h⟩ := h
  rw [hpayload] at hloop
  obtain ⟨g', hinv', hframe', hl'⟩ := releaseLoop_spec _ hinv₂ hl₂ hlinked₂ hlen hloop
  rw [(runs_pure.mp h).2]
  exact ⟨g', hinv', looseAre_nil.mp hl', hframe₂.trans hframe'⟩

theorem trimClasses_spec {timing pad totalFreed : ℕ} {forceTrim : Bool} (classes : List ℕ)
    {q : Tally} {r : Tally × ℕ × Bool} (hinv : Inv w g) (hno : NoLoose g)
    (h : Runs (trimClasses timing pad forceTrim classes q totalFreed) w r w') :
    ∃ g', Reaches w g w' g' ∅ := by
  induction classes generalizing w g q totalFreed with
  | nil =>
    rw [(runs_pure.mp h).2]
    exact ⟨g, hinv, hno, frame_refl⟩
  | cons cls rest ih =>
    rw [trimClasses] at h
    split at h
    · rw [(runs_pure.mp h).2]
      exact ⟨g, hinv, hno, frame_refl⟩
    · rw [runs_bind] at h
      obtain ⟨⟨q₁, freed⟩, w₁, hclass, h⟩ := h
      obtain ⟨g₁, hinv₁, hno₁, hframe₁⟩ := trimClass_spec hinv hno hclass
      obtain ⟨g', hreach⟩ := ih hinv₁ hno₁ h
      exact ⟨g', hframe₁.reaches hreach⟩

/-- A whole trim leaves every block with the user or in a cache. -/
theorem trim_spec {pad : ℕ} {r : ℕ × ℕ} (hinv : Inv w g) (hno : NoLoose g)
    (h : Runs (trim pad) w r w') : ∃ g', Reaches w g w' g' ∅ := by
  rw [trim, runs_get_bind] at h
  dsimp only at h
  rw [runs_bind] at h
  obtain ⟨⟨q, freed, early⟩, w₁, hclasses, h⟩ := h
  obtain ⟨g₁, hinv₁, hno₁, hframe₁⟩ := trimClasses_spec _ hinv hno hclasses
  dsimp only at h
  split at h
  · rw [(runs_pure.mp h).2]
    exact ⟨g₁, hinv₁, hno₁, hframe₁⟩
  · rw [runs_bind] at h
    obtain ⟨_, w₂, hstore, h⟩ := h
    rw [(runs_pure.mp h).2]
    rw [storeAverage] at hstore
    split at hstore
    · rw [runs_modify] at hstore
      rw [hstore]
      refine ⟨g₁, ?_, hno₁, hframe₁.trans (frame_of_eq rfl rfl rfl id id fun _ => ⟨rfl, rfl⟩)⟩
      exact hinv₁.statics rfl rfl rfl rfl rfl rfl (Or.inl ⟨rfl, rfl⟩) hinv₁.boot
    · rw [(runs_pure.mp hstore).2]
      exact ⟨g₁, hinv₁, hno₁, hframe₁⟩

end Release

end GTrim

end Oxidalloc
