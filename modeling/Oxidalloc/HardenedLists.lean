import Oxidalloc.CacheListsRefinement
import Oxidalloc.Interleaving

/-!
Sequences of calls on the lists of the caches. Between the calls a caller may write the
link of a block that it holds, and `bulk_fill` may change the uncarved part of a thread's
pending slab. A reply has the block, or the chain that is read along the `next` fields
from the returned head, one block further than the batch. The two builds give the same replies and
the same counters.
-/
namespace Oxidalloc.CacheLists

open EncodedChain HeadPacking Interleaving Function

/-- A chain that is pushed is given by its blocks; the call gets the first and the last. -/
inductive Op where
  | pushToThread (t cls head : ℕ)
  | pushToThreadTailed (t cls : ℕ) (chain : List ℕ) (batchSize : ℕ)
  | popFromThread (t cls : ℕ)
  | pushToGlobal (cpu cls : ℕ) (chain : List ℕ) (batchSize : ℕ)
  | pop (cls batchSize cpu : ℕ)
  | cleanup (t : ℕ) (ours : ℕ → Bool) (cpus : ℕ → ℕ × ℕ)
  | write (ptr val : ℕ)
  | setPending (t cls : ℕ) (blocks : List ℕ)

inductive Reply where
  | done
  | block (ptr : ℕ)
  | chain (blocks : Option (List ℕ))
  deriving DecidableEq

def perform (b : Build) (s : Lists) : Op → Option (Reply × Lists)
  | .pushToThread t cls head => (pushToThread b t cls head s).map (.done, ·)
  | .pushToThreadTailed t cls chain n =>
    (pushToThreadTailed b t cls (chain.headD 0) (chain.getLastD 0) n s).map (.done, ·)
  | .popFromThread t cls => (popFromThread b t cls s).map fun (ptr, s') => (.block ptr, s')
  | .pushToGlobal cpu cls chain n =>
    (pushToGlobal b cpu cls (chain.headD 0) (chain.getLastD 0) n s).map (.done, ·)
  | .pop cls n cpu =>
    (pop b cls n cpu s).map fun (head, s') =>
      (.chain (head.map (walk id s'.next 0 (max n 1 + 1))), s')
  | .cleanup t ours cpus => (cleanupThreadCache b t ours cpus s).map (.done, ·)
  | .write ptr val => some (.done, s.setNext ptr val)
  | .setPending t cls blocks => some (.done, { s with pending := put s.pending t cls blocks })

def Abs.write (a : Abs) (ptr val : ℕ) : Abs :=
  { a with link := update a.link ptr (some val) }

def Abs.setPending (a : Abs) (t cls : ℕ) (blocks : List ℕ) : Abs :=
  (a.leave (.pending t cls) (a.blocks (.pending t cls)) []).enter (.pending t cls) blocks

def Abs.perform (a : Abs) : Op → Option (Reply × Abs)
  | .pushToThread t cls head => (a.pushBin t cls [head] 1).map (.done, ·)
  | .pushToThreadTailed t cls chain n => (a.pushBin t cls chain n).map (.done, ·)
  | .popFromThread t cls => (a.popBin t cls).map fun (ptr, a') => (.block ptr, a')
  | .pushToGlobal cpu cls chain n => some (.done, a.pushShard cpu cls chain n)
  | .pop cls n cpu => some (.chain (a.popShard cls n cpu).1, (a.popShard cls n cpu).2)
  | .cleanup t ours cpus => some (.done, Abs.cleanupThreadCache t ours cpus a)
  | .write ptr val => some (.done, a.write ptr val)
  | .setPending t cls blocks => some (.done, a.setPending t cls blocks)

/-- A chain in the hands of a caller who knows its links. -/
structure Abs.Holds (block : ℕ → Prop) (a : Abs) (chain : List ℕ) : Prop where
  ne_nil : chain ≠ []
  nodup : chain.Nodup
  free : ∀ x ∈ chain, block x ∧ a.place x = none
  links : chain.IsChain fun x y => a.link x = some y

/-- The callers push blocks that they hold, and write only to those. -/
def Abs.Valid (block : ℕ → Prop) (a : Abs) : Op → Prop
  | .pushToThread _ _ head => block head ∧ a.place head = none
  | .pushToThreadTailed _ _ chain _ => a.Holds block chain
  | .popFromThread _ _ => True
  | .pushToGlobal _ _ chain _ => a.Holds block chain
  | .pop _ _ _ => True
  | .cleanup _ _ _ => True
  | .write ptr _ => a.place ptr = none
  | .setPending t cls blocks =>
    blocks.Nodup ∧ ∀ x ∈ blocks, block x ∧ (a.place x = none ∨ a.place x = some (.pending t cls))

section Replies

variable {b : Build} {s : Lists} {a : Abs}

/-- The chain of a caller, with its last block apart. -/
theorem Abs.Holds.stored {block : ℕ → Prop} {chain : List ℕ} (hh : a.Holds block chain)
    (h : Rep b (fun _ => True) s a) :
    ∃ body e, chain = body ++ [chain.getLastD 0] ∧
      Stored id s.next (chain.headD 0) (body ++ [chain.getLastD 0]) e :=
  stored_of_isChain hh.ne_nil (hh.links.imp fun x y hxy => h.links x y hxy)

theorem write_refines {ptr val : ℕ} (h : Rep b (fun _ => True) s a) (hok : a.Ok b.Avoids)
    (hfree : a.place ptr = none) :
    Rep b (fun _ => True) (s.setNext ptr val) (a.write ptr val) ∧
      (a.write ptr val).Ok b.Avoids := by
  have hne : ∀ {x y}, a.place y = some x → y ≠ ptr := fun {x y} hy heq => by
    rw [heq, hfree] at hy
    contradiction
  refine ⟨⟨fun k hk => ?_, fun k hk => ?_, h.pending, fun y v hy => ?_⟩,
    ⟨hok.mem, hok.nodup, hok.good, fun y x hy => ?_⟩⟩
  · have hword : (s.setNext ptr val).wordOf b k = s.wordOf b k := by cases k <;> rfl
    rw [hword]
    refine h.chain_congr hk fun y hy => update_of_ne ?_ _ _
    exact hne ((hok.mem _ y).mp hy)
  · rw [← show s.usageOf k = (s.setNext ptr val).usageOf k by cases k <;> rfl]
    exact h.usage k hk
  · have hy : update a.link ptr (some val) y = some v := hy
    show update s.next ptr val y = v
    by_cases heq : y = ptr
    · rw [heq, update_self] at hy
      rw [heq, update_self]
      exact Option.some.inj hy
    · rw [update_of_ne heq] at hy
      rw [update_of_ne heq]
      exact h.links y v hy
  · exact (update_of_ne (hne hy) _ _).trans (hok.link y x hy)

theorem setPending_blocks {t cls : ℕ} {blocks : List ℕ} (x : Store) :
    (a.setPending t cls blocks).blocks x =
      if x = .pending t cls then blocks else a.blocks x := by
  show update (update a.blocks (.pending t cls) []) (.pending t cls)
    (blocks ++ update a.blocks (.pending t cls) [] (.pending t cls)) x = _
  rw [update_idem, update_self, List.append_nil, update_apply]

theorem setPending_refines {t cls : ℕ} {blocks : List ℕ} (h : Rep b (fun _ => True) s a)
    (hok : a.Ok b.Avoids) (hnodup : blocks.Nodup)
    (hblocks : ∀ x ∈ blocks, b.Avoids x ∧
      (a.place x = none ∨ a.place x = some (.pending t cls))) :
    Rep b (fun _ => True) { s with pending := put s.pending t cls blocks }
      (a.setPending t cls blocks) ∧ (a.setPending t cls blocks).Ok b.Avoids := by
  have hleft : ∀ x ∈ blocks, b.Avoids x ∧
      (a.leave (.pending t cls) (a.blocks (.pending t cls)) []).place x = none := by
    intro x hx
    refine ⟨(hblocks x hx).1, ?_⟩
    rcases (hblocks x hx).2 with hnone | hpending
    · show (if x ∈ _ then none else a.place x) = none
      rw [hnone, ite_self]
    · exact if_pos ((hok.mem _ x).mpr hpending)
  have hok' := hok.leave (x := .pending t cls) (r := []) (List.append_nil _).symm
  refine ⟨⟨fun k hk => ?_, fun k hk => ?_, fun t' cls' => ?_, fun y v hy => ?_⟩,
    hok'.enter hnodup hleft⟩
  · rw [setPending_blocks, if_neg nofun, show Lists.wordOf b _ k = s.wordOf b k by cases k <;> rfl]
    exact h.chains k hk
  · rw [show Lists.usageOf _ k = s.usageOf k by cases k <;> rfl]
    exact h.usage k hk
  · show put s.pending t cls blocks t' cls' = _
    rw [put_apply, setPending_blocks, h.pending]
    simp only [Store.pending.injEq]
  · have hy : (if y ∈ blocks then none else a.link y) = some v := hy
    split at hy
    · contradiction
    · exact h.links y v hy

/-- The two machines give the same reply and stay related. -/
theorem perform_refines {op : Op} {block : ℕ → Prop} (h : Rep b (fun _ => True) s a)
    (hok : a.Ok b.Avoids) (hblock : ∀ x, block x → b.Avoids x) (hvalid : a.Valid block op) :
    Option.Rel (fun p q => p.1 = q.1 ∧ Rep b (fun _ => True) p.2 q.2 ∧ q.2.Ok b.Avoids)
      (perform b s op) (a.perform op) := by
  cases op with
  | pushToThread t cls head =>
    have hfree : ∀ x ∈ [head], b.Avoids x ∧ a.place x = none := fun x hx => by
      rw [List.mem_singleton.mp hx]
      exact ⟨hblock head hvalid.1, hvalid.2⟩
    exact rel_map (pushToThread_refines h hok trivial hvalid.2) fun _ a' hrep ha' =>
      ⟨rfl, hrep, hok.pushBin (List.nodup_singleton head) hfree ha'⟩
  | pushToThreadTailed t cls chain n =>
    have hfree : ∀ x ∈ chain, b.Avoids x ∧ a.place x = none := fun x hx =>
      ⟨hblock x (hvalid.free x hx).1, (hvalid.free x hx).2⟩
    obtain ⟨body, e, hsplit, hstored⟩ := hvalid.stored h
    have hrel : Option.Rel (Rep b fun _ => True) (pushToThreadTailed b t cls _ _ n s)
        (a.pushBin t cls _ n) := pushToThreadTailed_refines h hok trivial hstored
      (hsplit ▸ hvalid.nodup) (by rw [← hsplit]; exact hfree)
    rw [← hsplit] at hrel
    exact rel_map hrel fun _ a' hrep ha' => ⟨rfl, hrep, hok.pushBin hvalid.nodup hfree ha'⟩
  | popFromThread t cls =>
    exact rel_map (popFromThread_refines h hok trivial) fun _ _ hrep ha' =>
      ⟨congrArg Reply.block hrep.1, hrep.2, hok.popBin ha'⟩
  | pushToGlobal cpu cls chain n =>
    have hfree : ∀ x ∈ chain, b.Avoids x ∧ a.place x = none := fun x hx =>
      ⟨hblock x (hvalid.free x hx).1, (hvalid.free x hx).2⟩
    obtain ⟨body, e, hsplit, hstored⟩ := hvalid.stored h
    obtain ⟨s', hs', hrep⟩ := pushToGlobal_refines cpu cls n h hok trivial hstored
      (hsplit ▸ hvalid.nodup) (by rw [← hsplit]; exact hfree)
    rw [← hsplit] at hrep
    unfold perform Abs.perform
    dsimp only
    rw [hs']
    exact .some ⟨rfl, hrep, hok.pushShard hvalid.nodup hfree⟩
  | pop cls n cpu =>
    have hok' : (a.popShard cls n cpu).2.Ok b.Avoids := hok.popShard
    unfold perform Abs.perform
    dsimp only
    rcases pop_refines cpu cls n h hok trivial with
      ⟨hpop, habs⟩ | ⟨s', m, a', hpop, habs, hrep, hstored, hlen, hgood⟩
    · rw [hpop, habs]
      exact .some ⟨rfl, h, hok⟩
    · rw [habs] at hok'
      rw [hpop, habs]
      refine .some ⟨?_, hrep, hok'⟩
      show Reply.chain (some _) = Reply.chain (some m)
      rw [hstored.walk_eq (fun _ _ => rfl) (fun x hx => (hgood x hx).isBlock.ne_null) (by omega)]
  | cleanup t ours cpus =>
    obtain ⟨s', hs', hrep⟩ := cleanupThreadCache_refines t ours cpus h hok
    unfold perform Abs.perform
    dsimp only
    rw [hs']
    exact .some ⟨rfl, hrep, (hok.cleanup _).forget⟩
  | write ptr val => exact .some ⟨rfl, write_refines h hok hvalid⟩
  | setPending t cls blocks =>
    exact .some ⟨rfl, setPending_refines h hok hvalid.1 fun x hx =>
      ⟨hblock x (hvalid.2 x hx).1, (hvalid.2 x hx).2⟩⟩

end Replies

section Sessions

/-- The replies are kept in their order. -/
def record {σ : Type} (perform : σ → Op → Option (Reply × σ)) (s : σ × List Reply) (op : Op) :
    Option (σ × List Reply) :=
  (perform s.1 op).map fun (reply, s') => (s', s.2 ++ [reply])

/-- The replies and the counters of all caches. -/
def observe (s : Lists × List Reply) : List Reply × (Cache → ℕ) := (s.2, s.1.usageOf)

/-- A session with a build, as its blocks see it. -/
def Tracks (b : Build) (s : Lists × List Reply) (a : Abs × List Reply) : Prop :=
  s.2 = a.2 ∧ Rep b (fun _ => True) s.1 a.1 ∧ a.1.Ok b.Avoids

variable {block : ℕ → Prop}

theorem run_tracks {b : Build} {ops : List Op} (hblock : ∀ x, block x → b.Avoids x)
    (hvalid : Guarded (record Abs.perform) (fun a op => a.1.Valid block op) (.new, []) ops) :
    Option.Rel (Tracks b) (run (record (perform b)) (.new, []) ops)
      (run (record Abs.perform) (.new, []) ops) := by
  refine run_rel (fun s a op hsa hok => ?_) ⟨rfl, rep_new b _, Abs.ok_new⟩ hvalid
  obtain ⟨hreplies, hrep, hokA⟩ := hsa
  refine rel_map (perform_refines hrep hokA hblock hok) fun p q hpq _ => ⟨?_, hpq.2⟩
  show s.2 ++ [p.1] = a.2 ++ [q.1]
  rw [hreplies, hpq.1]

/-- Each build shows what the session on lists shows. -/
theorem observe_eq {b : Build} {ops : List Op} (hblock : ∀ x, block x → b.Avoids x)
    (hvalid : Guarded (record Abs.perform) (fun a op => a.1.Valid block op) (.new, []) ops) :
    (run (record (perform b)) (.new, []) ops).map observe =
      (run (record Abs.perform) (.new, []) ops).map fun a => (a.2, a.1.usage) := by
  have hrel := run_tracks hblock hvalid
  generalize run (record (perform b)) _ ops = x, run (record Abs.perform) _ ops = y at hrel
  cases hrel with
  | none => rfl
  | some htracks =>
    refine congrArg some (Prod.ext htracks.1 ?_)
    funext k
    exact htracks.2.1.usage k trivial

/-- Whatever the keys are, the build with them gives the blocks, the chains and the
counters that the default build gives. -/
theorem hardened_lists_agree (xorKey : ℕ → ℕ) (numaKey : ℕ) (block : ℕ → Prop) (ops : List Op)
    (hblock : ∀ x, block x → IsBlock x)
    (hkeys : ∀ x, block x → x ≠ numaKey ∧ ∀ t, x ≠ xorKey t)
    (hvalid : Guarded (record Abs.perform) (fun a op => a.1.Valid block op) (.new, []) ops) :
    (run (record (perform ⟨true, xorKey, numaKey⟩)) (.new, []) ops).map observe =
      (run (record (perform defaultBuild)) (.new, []) ops).map observe := by
  have hhardened : ∀ x, block x → (⟨true, xorKey, numaKey⟩ : Build).Avoids x := by
    intro x hx
    refine ⟨hblock x hx, fun _ k => ?_⟩
    cases k with
    | bin t cls => exact (hkeys x hx).2 t
    | shard cpu cls => exact (hkeys x hx).1
  have hdefault : ∀ x, block x → defaultBuild.Avoids x := fun x hx => ⟨hblock x hx, nofun⟩
  rw [observe_eq hhardened hvalid, observe_eq hdefault hvalid]

instance Abs.Holds.decidable [DecidablePred block] (a : Abs) (chain : List ℕ) :
    Decidable (a.Holds block chain) :=
  decidable_of_iff
    (chain ≠ [] ∧ chain.Nodup ∧ (∀ x ∈ chain, block x ∧ a.place x = none) ∧
      chain.IsChain fun x y => a.link x = some y)
    ⟨fun h => ⟨h.1, h.2.1, h.2.2.1, h.2.2.2⟩, fun h => ⟨h.1, h.2, h.3, h.4⟩⟩

instance Abs.Valid.decidable [DecidablePred block] (a : Abs) :
    (op : Op) → Decidable (a.Valid block op)
  | .pushToThread _ _ head => inferInstanceAs (Decidable (block head ∧ a.place head = none))
  | .pushToThreadTailed _ _ chain _ => inferInstanceAs (Decidable (a.Holds block chain))
  | .popFromThread _ _ => inferInstanceAs (Decidable True)
  | .pushToGlobal _ _ chain _ => inferInstanceAs (Decidable (a.Holds block chain))
  | .pop _ _ _ => inferInstanceAs (Decidable True)
  | .cleanup _ _ _ => inferInstanceAs (Decidable True)
  | .write ptr _ => inferInstanceAs (Decidable (a.place ptr = none))
  | .setPending t cls blocks =>
    inferInstanceAs (Decidable (blocks.Nodup ∧ ∀ x ∈ blocks, block x ∧
      (a.place x = none ∨ a.place x = some (.pending t cls))))

/-- A thread keeps two blocks and the rest of a slab, and its cache is cleaned up; another one
takes three of the blocks from the shared cache and keeps a part of them. -/
def exitAndRefill : List Op :=
  [.pushToThread 0 3 4096, .write 8192 12288, .pushToThreadTailed 0 3 [8192, 12288] 2,
    .popFromThread 0 3, .setPending 0 3 [16384, 20480],
      .cleanup 0 (fun _ => true) (fun _ => (1, 1)),
    .pop 3 3 1, .pushToThreadTailed 1 3 [20480, 12288] 2, .popFromThread 1 3]

theorem hardened_lists_agree_exitAndRefill :
    (run (record (perform ⟨true, fun t => 2 * t + 77, 4099⟩)) (.new, []) exitAndRefill).map (·.2) =
        some [.done, .done, .done, .block 8192, .done, .done, .chain (some [16384, 20480, 12288]),
          .done, .block 20480] ∧
      (run (record (perform ⟨true, fun t => 2 * t + 77, 4099⟩)) (.new, [])
        exitAndRefill).map observe =
        (run (record (perform defaultBuild)) (.new, []) exitAndRefill).map observe := by
  refine ⟨by decide +kernel, ?_⟩
  refine hardened_lists_agree _ _ (fun x => x ∈ [4096, 8192, 12288, 16384, 20480]) _ ?_ ?_
    (by decide +kernel)
  · intro x hx
    have hall : ∀ y ∈ [4096, 8192, 12288, 16384, 20480], y ≠ 0 ∧ 16 ∣ y ∧ y < usizeBound := by
      decide
    exact ⟨(hall x hx).1, (hall x hx).2.1, (hall x hx).2.2⟩
  · intro x hx
    have hall : ∀ y ∈ [4096, 8192, 12288, 16384, 20480], y % 2 = 0 := by decide
    have heven := hall x hx
    exact ⟨by omega, fun t => by omega⟩

end Sessions

end Oxidalloc.CacheLists
