import Oxidalloc.CacheLists
import Oxidalloc.EncodedChain

/-!
What the operations on the lists do, in whichever build. An `Abs` has the blocks of each
store in their order, the counters, and the links that the callers know: those that they
wrote themselves, or that `pop` handed them. The operations of an `Abs` know nothing of
words and keys; every operation on the words of a build refines the one on lists, as long
as the blocks are real blocks and none is equal to a key.
-/
namespace Oxidalloc.CacheLists

open EncodedChain HeadPacking Function

section Encoding

def Build.key (b : Build) : Cache → ℕ
  | .bin t _ => b.xorKey t
  | .shard _ _ => b.numaKey

/-- A block address that can be told from the null pointer under each key. -/
structure Build.Avoids (b : Build) (x : ℕ) : Prop where
  isBlock : IsBlock x
  keys : b.hardened = true → ∀ k, x ≠ b.key k

variable {b : Build} {k : Cache} {x key tag : ℕ}

theorem xorPtr_zero : b.xorPtr key 0 = 0 := if_neg fun h => h.2 rfl

theorem xorPtr_ne_zero (h : b.Avoids x) : b.xorPtr (b.key k) x ≠ 0 := by
  unfold Build.xorPtr
  split
  · rename_i hhard
    intro heq
    exact h.keys hhard.1 k (Nat.xor_eq_zero_iff.mp heq)
  · exact h.isBlock.ne_null

theorem xorPtr_xorPtr (h : b.Avoids x) : b.xorPtr (b.key k) (b.xorPtr (b.key k) x) = x := by
  have hne := xorPtr_ne_zero (k := k) h
  by_cases hhard : b.hardened = true
  · have heq : ∀ y, y ≠ 0 → b.xorPtr (b.key k) y = y ^^^ b.key k := fun y hy => if_pos ⟨hhard, hy⟩
    rw [heq _ hne, heq x h.isBlock.ne_null]
    rw [Nat.xor_assoc, Nat.xor_self, Nat.xor_zero]
  · have heq : ∀ y, b.xorPtr (b.key k) y = y := fun y => if_neg fun hy => hhard hy.1
    rw [heq, heq]

/-- Both parts of a head word can be read back in the default build, and the hardened one
has no tag. -/
theorem headPtr_headPack (hx : b.Avoids x ∨ x = 0) :
    b.headPtr (b.headPack (b.xorPtr key x) tag) = b.xorPtr key x := by
  unfold Build.headPtr Build.headPack
  by_cases hhard : b.hardened = true
  · rw [if_pos hhard, if_pos hhard]
  · have heq : b.xorPtr key x = x := if_neg fun hy => hhard hy.1
    rw [if_neg hhard, if_neg hhard, heq]
    rcases hx with hblock | hnull
    · exact HeadPacking.headPtr_headPack hblock.isBlock.aligned hblock.isBlock.lt
    · rw [hnull]
      exact HeadPacking.headPtr_headPack ⟨0, rfl⟩ (by decide)

end Encoding

section Chains

variable {b : Build} {k : Cache} {next : ℕ → ℕ} {head tail w e fuel : ℕ} {body l : List ℕ}

/-- The links of the blocks before the last are replaced by their images. -/
def relink (f : ℕ → ℕ) (body : List ℕ) (next : ℕ → ℕ) (x : ℕ) : ℕ :=
  if x ∈ body then f (next x) else next x

theorem relink_nil {f : ℕ → ℕ} : relink f [] next = next := by
  funext x
  exact if_neg List.not_mem_nil

theorem relink_cons {f : ℕ → ℕ} {x : ℕ} (hx : x ∉ body) :
    relink f body (update next x (f (next x))) = relink f (x :: body) next := by
  funext y
  unfold relink
  by_cases hy : y = x
  · subst hy
    rw [if_neg hx, if_pos List.mem_cons_self, update_self]
  · rw [update_of_ne hy]
    by_cases hbody : y ∈ body
    · rw [if_pos hbody, if_pos (List.mem_cons_of_mem x hbody)]
    · rw [if_neg hbody, if_neg fun h => (List.mem_cons.mp h).elim hy hbody]

theorem encodeChain_eq {key : ℕ} (h : Stored id next head (body ++ [tail]) e)
    (hnodup : (body ++ [tail]).Nodup) (hnull : ∀ x ∈ body, x ≠ 0) (hfuel : body.length < fuel) :
    encodeChain b key fuel next head tail = some (relink (b.xorPtr key) body next) := by
  induction body generalizing next head fuel with
  | nil =>
    obtain ⟨fuel, rfl⟩ := Nat.exists_eq_succ_of_ne_zero (Nat.ne_of_gt hfuel)
    have hhead : head = tail := h.1
    rw [encodeChain, if_pos hhead, relink_nil]
  | cons x body ih =>
    obtain ⟨fuel, rfl⟩ := Nat.exists_eq_add_one.mpr (Nat.zero_lt_of_lt hfuel)
    obtain ⟨hx, hrest⟩ := h
    have hhead : head = x := hx
    obtain ⟨hnotMem, hnodup⟩ := List.nodup_cons.mp hnodup
    have htail : x ≠ tail := fun heq => hnotMem (by simp [heq])
    rw [encodeChain, hhead, if_neg htail, if_neg (hnull x List.mem_cons_self)]
    rw [ih ?_ hnodup (fun y hy => hnull y (List.mem_cons_of_mem x hy))
      (by rw [List.length_cons] at hfuel; omega), relink_cons fun hmem => hnotMem (by simp [hmem])]
    refine hrest.congr fun y hy => update_of_ne ?_ _ _
    intro heq
    exact hnotMem (heq ▸ hy)

theorem decodeChain_eq (h : Stored (b.xorPtr (b.key k)) next w (body ++ [tail]) e)
    (hnodup : (body ++ [tail]).Nodup) (hgood : ∀ x ∈ body ++ [tail], b.Avoids x)
    (hfuel : body.length < fuel) :
    decodeChain b (b.key k) fuel next (b.xorPtr (b.key k) w) tail =
      some (relink (b.xorPtr (b.key k)) body next) := by
  induction body generalizing next w fuel with
  | nil =>
    obtain ⟨fuel, rfl⟩ := Nat.exists_eq_succ_of_ne_zero (Nat.ne_of_gt hfuel)
    rw [decodeChain, h.1, xorPtr_xorPtr (hgood tail List.mem_cons_self), if_pos rfl, relink_nil]
  | cons x body ih =>
    obtain ⟨fuel, rfl⟩ := Nat.exists_eq_add_one.mpr (Nat.zero_lt_of_lt hfuel)
    obtain ⟨hw, hrest⟩ := h
    have hx := hgood x List.mem_cons_self
    obtain ⟨hnotMem, hnodup⟩ := List.nodup_cons.mp hnodup
    have htail : x ≠ tail := fun heq => hnotMem (by simp [heq])
    rw [decodeChain, hw, xorPtr_xorPtr hx, if_neg htail, if_neg hx.isBlock.ne_null]
    rw [ih ?_ hnodup (fun y hy => hgood y (List.mem_cons_of_mem x hy))
      (by rw [List.length_cons] at hfuel; omega), relink_cons fun hmem => hnotMem (by simp [hmem])]
    refine hrest.congr fun y hy => update_of_ne ?_ _ _
    intro heq
    exact hnotMem (heq ▸ hy)

/-- A chain of blocks is shorter than the fuel of the loops. -/
theorem body_lt (hnodup : (body ++ [tail]).Nodup) (hgood : ∀ x ∈ body ++ [tail], b.Avoids x) :
    body.length < usizeBound := by
  have hlt := length_lt_of_blocks hnodup fun x hx => (hgood x hx).isBlock
  rw [List.length_append] at hlt
  omega

theorem relink_default (hhard : ¬ b.hardened = true) (key : ℕ) :
    relink (b.xorPtr key) body next = next := by
  funext x
  unfold relink
  split
  · exact if_neg fun hx => hhard hx.1
  · rfl

theorem encode_eq {key : ℕ} (h : Stored id next head (body ++ [tail]) e)
    (hnodup : (body ++ [tail]).Nodup) (hgood : ∀ x ∈ body ++ [tail], b.Avoids x) :
    encode b key next head tail = some (relink (b.xorPtr key) body next) := by
  unfold encode
  split
  · exact encodeChain_eq h hnodup
      (fun x hx => (hgood x (List.mem_append_left _ hx)).isBlock.ne_null) (body_lt hnodup hgood)
  · rename_i hhard
    rw [relink_default hhard]

theorem decode_eq (h : Stored (b.xorPtr (b.key k)) next w (body ++ [tail]) e)
    (hnodup : (body ++ [tail]).Nodup) (hgood : ∀ x ∈ body ++ [tail], b.Avoids x) :
    decode b (b.key k) next (b.xorPtr (b.key k) w) tail =
      some (relink (b.xorPtr (b.key k)) body next) := by
  unfold decode
  split
  · exact decodeChain_eq h hnodup hgood (body_lt hnodup hgood)
  · rename_i hhard
    rw [relink_default hhard]

/-- The chain of a caller, with its links encoded for a cache. -/
theorem Stored.encode (h : Stored id next head (body ++ [tail]) e) :
    Stored (b.xorPtr (b.key k)) (relink (b.xorPtr (b.key k)) body next)
      (b.xorPtr (b.key k) head) (body ++ [tail])
      (relink (b.xorPtr (b.key k)) body next tail) :=
  h.map (f := b.xorPtr (b.key k)) (fun _ _ => rfl) fun _ hy => if_pos hy

/-- The chain of a cache, with its links decoded for a caller. -/
theorem Stored.decode (h : Stored (b.xorPtr (b.key k)) next w (body ++ [tail]) e)
    (hgood : ∀ x ∈ body ++ [tail], b.Avoids x) :
    Stored id (relink (b.xorPtr (b.key k)) body next) (b.xorPtr (b.key k) w) (body ++ [tail])
      (relink (b.xorPtr (b.key k)) body next tail) :=
  h.map (f := b.xorPtr (b.key k)) (fun y hy => xorPtr_xorPtr (hgood y hy)) fun _ hy => if_pos hy

end Chains

/-- What keeps blocks: the caches, and the uncarved parts of the pending slabs. -/
inductive Store where
  | cache (k : Cache)
  | pending (t cls : ℕ)
  deriving DecidableEq

def Store.isOf (t : ℕ) : Store → Bool
  | .cache (.bin t' _) => decide (t' = t)
  | .cache (.shard _ _) => false
  | .pending t' _ => decide (t' = t)

/-- The field `place` says of each block where it is; a block that is nowhere is in the
hands of a caller, and `link` is its next pointer if the caller knows it. -/
structure Abs where
  blocks : Store → List ℕ
  place : ℕ → Option Store
  usage : Cache → ℕ
  link : ℕ → Option ℕ

/-- The links of a null-terminated chain. -/
def chainLinks : List ℕ → (ℕ → Option ℕ) → ℕ → Option ℕ
  | [], link => link
  | x :: l, link => update (chainLinks l link) x (some (l.headD 0))

namespace Abs

def new : Abs := ⟨fun _ => [], fun _ => none, fun _ => 0, fun _ => none⟩

def setUsage (a : Abs) (k : Cache) (n : ℕ) : Abs :=
  { a with usage := update a.usage k n }

def enter (a : Abs) (x : Store) (chain : List ℕ) : Abs :=
  { a with
    blocks := update a.blocks x (chain ++ a.blocks x)
    place := fun h => if h ∈ chain then some x else a.place h
    link := fun h => if h ∈ chain then none else a.link h }

/-- The blocks m leave a store in which the blocks r stay. -/
def leave (a : Abs) (x : Store) (m r : List ℕ) : Abs :=
  { a with
    blocks := update a.blocks x r
    place := fun h => if h ∈ m then none else a.place h }

/-- A chain is handed to a caller. -/
def hand (a : Abs) (chain : List ℕ) : Abs := { a with link := chainLinks chain a.link }

def popBin (a : Abs) (t cls : ℕ) : Option (ℕ × Abs) :=
  match a.blocks (.cache (.bin t cls)) with
  | [] => some (0, a)
  | h :: rest =>
    if a.usage (.bin t cls) = 0 then none
    else
      some (h, (a.leave (.cache (.bin t cls)) [h] rest).setUsage (.bin t cls)
        (a.usage (.bin t cls) - 1))

def pushBin (a : Abs) (t cls : ℕ) (chain : List ℕ) (n : ℕ) : Option Abs :=
  if usizeBound ≤ a.usage (.bin t cls) + n then none
  else
    some ((a.enter (.cache (.bin t cls)) chain).setUsage (.bin t cls) (a.usage (.bin t cls) + n))

def pushShard (a : Abs) (cpu cls : ℕ) (chain : List ℕ) (n : ℕ) : Abs :=
  (a.enter (.cache (.shard cpu cls)) chain).setUsage (.shard cpu cls)
    ((a.usage (.shard cpu cls) + n) % usizeBound)

/-- At least one block is popped if there is one. -/
def popShard (a : Abs) (cls batchSize cpu : ℕ) : Option (List ℕ) × Abs :=
  let l := a.blocks (.cache (.shard cpu cls))
  if a.usage (.shard cpu cls) = 0 ∨ l = [] then (none, a)
  else
    let m := l.take (max batchSize 1)
    (some m, ((a.leave (.cache (.shard cpu cls)) m (l.drop (max batchSize 1))).setUsage
      (.shard cpu cls) ((a.usage (.shard cpu cls) + (usizeBound - m.length)) % usizeBound)).hand m)

def drainPending (a : Abs) (t cls cpu : ℕ) : Abs :=
  match a.blocks (.pending t cls) with
  | [] => a
  | x :: rest =>
    (a.leave (.pending t cls) (x :: rest) []).pushShard cpu cls (x :: rest) (rest.length + 1)

def drainBin (a : Abs) (t cls cpu : ℕ) (ours : ℕ → Bool) : Abs :=
  match a.blocks (.cache (.bin t cls)) with
  | [] => a
  | x :: rest =>
    (a.leave (.cache (.bin t cls)) (x :: rest) []).pushShard cpu cls
      ((x :: rest).takeWhile ours) ((x :: rest).takeWhile ours).length

def cleanupClass (t : ℕ) (ours : ℕ → Bool) (cpus : ℕ → ℕ × ℕ) (a : Abs) (cls : ℕ) : Abs :=
  if ours ((a.blocks (.cache (.bin t cls))).headD 0) = false then a
  else (a.drainBin t cls (cpus cls).1 ours).drainPending t cls (cpus cls).2

/-- The blocks that are left with a thread are lost. -/
def forget (a : Abs) (t : ℕ) : Abs :=
  { a with
    blocks := fun x => if x.isOf t then [] else a.blocks x
    place := fun h => (a.place h).filter fun x => !x.isOf t
    usage := fun k => if (Store.cache k).isOf t then 0 else a.usage k }

def cleanupThreadCache (t : ℕ) (ours : ℕ → Bool) (cpus : ℕ → ℕ × ℕ) (a : Abs) : Abs :=
  ((List.range numSizeClasses).foldl (cleanupClass t ours cpus) a).forget t

end Abs

section Discipline

variable {good : ℕ → Prop} {a : Abs} {x : Store} {m r chain : List ℕ}

/-- Every block is in one store at most, and once. -/
structure Abs.Ok (good : ℕ → Prop) (a : Abs) : Prop where
  mem : ∀ x h, h ∈ a.blocks x ↔ a.place h = some x
  nodup : ∀ x, (a.blocks x).Nodup
  good : ∀ x, ∀ h ∈ a.blocks x, good h
  link : ∀ h x, a.place h = some x → a.link h = none

theorem Abs.ok_new : Abs.new.Ok good :=
  ⟨fun _ _ => ⟨nofun, nofun⟩, fun _ => List.nodup_nil, nofun, nofun⟩

theorem Abs.Ok.setUsage {k : Cache} {n : ℕ} (h : a.Ok good) : (a.setUsage k n).Ok good :=
  ⟨h.mem, h.nodup, h.good, h.link⟩

theorem Abs.Ok.enter (h : a.Ok good) (hnodup : chain.Nodup)
    (hchain : ∀ y ∈ chain, good y ∧ a.place y = none) : (a.enter x chain).Ok good := by
  have hblocks : ∀ y, (a.enter x chain).blocks y =
      if y = x then chain ++ a.blocks x else a.blocks y := fun y => update_apply _ _ _ _
  refine ⟨fun y b => ?_, fun y => ?_, fun y b hb => ?_, fun b y hy => ?_⟩
  · rw [hblocks]
    show _ ↔ (if b ∈ chain then some x else a.place b) = some y
    by_cases hb : b ∈ chain
    · rw [if_pos hb, Option.some.injEq]
      by_cases hy : y = x
      · rw [if_pos hy]
        exact ⟨fun _ => hy.symm, fun _ => List.mem_append_left _ hb⟩
      · rw [if_neg hy, h.mem, (hchain b hb).2]
        exact ⟨nofun, fun heq => absurd heq.symm hy⟩
    · rw [if_neg hb]
      by_cases hy : y = x
      · rw [if_pos hy, List.mem_append, h.mem, hy]
        exact ⟨fun hmem => hmem.resolve_left hb, Or.inr⟩
      · rw [if_neg hy, h.mem]
  · rw [hblocks]
    split
    · refine List.Nodup.append hnodup (h.nodup x) fun b hb hb' => ?_
      rw [h.mem, (hchain b hb).2] at hb'
      contradiction
    · exact h.nodup y
  · rw [hblocks] at hb
    split at hb
    · rcases List.mem_append.mp hb with hnew | hold
      · exact (hchain b hnew).1
      · exact h.good x b hold
    · exact h.good y b hb
  · show (if b ∈ chain then none else a.link b) = none
    have hy : (if b ∈ chain then some x else a.place b) = some y := hy
    split
    · rfl
    · rename_i hb
      rw [if_neg hb] at hy
      exact h.link b y hy

theorem Abs.Ok.leave (h : a.Ok good) (hsplit : a.blocks x = m ++ r) : (a.leave x m r).Ok good := by
  have hblocks : ∀ y, (a.leave x m r).blocks y = if y = x then r else a.blocks y :=
    fun y => update_apply _ _ _ _
  have hnodup := h.nodup x
  rw [hsplit] at hnodup
  have hmem : ∀ b, b ∈ m ∨ b ∈ r ↔ a.place b = some x := fun b => by
    rw [← h.mem, hsplit, List.mem_append]
  refine ⟨fun y b => ?_, fun y => ?_, fun y b hb => ?_, fun b y hy => ?_⟩
  · rw [hblocks]
    show _ ↔ (if b ∈ m then none else a.place b) = some y
    by_cases hb : b ∈ m
    · rw [if_pos hb]
      split
      · exact ⟨fun hr => absurd hr (List.disjoint_of_nodup_append hnodup hb), nofun⟩
      · rename_i hy
        rw [h.mem, (hmem b).mp (Or.inl hb), Option.some.injEq]
        exact ⟨fun heq => absurd heq.symm hy, nofun⟩
    · rw [if_neg hb]
      split
      · rename_i hy
        rw [hy, ← hmem]
        exact ⟨Or.inr, fun hor => hor.resolve_left hb⟩
      · exact h.mem y b
  · rw [hblocks]
    split
    · exact (List.nodup_append.mp hnodup).2.1
    · exact h.nodup y
  · rw [hblocks] at hb
    split at hb
    · exact h.good x b (by rw [hsplit]; exact List.mem_append_right m hb)
    · exact h.good y b hb
  · have hy : (if b ∈ m then none else a.place b) = some y := hy
    split at hy
    · contradiction
    · exact h.link b y hy

theorem chainLinks_of_notMem {link : ℕ → Option ℕ} {h : ℕ} (hh : h ∉ chain) :
    chainLinks chain link h = link h := by
  induction chain with
  | nil => rfl
  | cons y l ih =>
    rw [List.mem_cons, not_or] at hh
    rw [chainLinks, update_of_ne hh.1]
    exact ih hh.2

theorem Abs.Ok.hand (h : a.Ok good) (hchain : ∀ y ∈ chain, a.place y = none) :
    (a.hand chain).Ok good := by
  refine ⟨h.mem, h.nodup, h.good, fun b y hy => ?_⟩
  have hnot : b ∉ chain := fun hb => by
    have hy : a.place b = some y := hy
    rw [hchain b hb] at hy
    contradiction
  show chainLinks chain a.link b = none
  rw [chainLinks_of_notMem hnot]
  exact h.link b y hy

theorem Abs.Ok.pushShard {cpu cls n : ℕ} (h : a.Ok good) (hnodup : chain.Nodup)
    (hchain : ∀ y ∈ chain, good y ∧ a.place y = none) : (a.pushShard cpu cls chain n).Ok good :=
  (h.enter hnodup hchain).setUsage

theorem Abs.Ok.pushBin {a' : Abs} {t cls n : ℕ} (h : a.Ok good) (hnodup : chain.Nodup)
    (hchain : ∀ y ∈ chain, good y ∧ a.place y = none) (ha' : a.pushBin t cls chain n = some a') :
    a'.Ok good := by
  unfold Abs.pushBin at ha'
  split at ha'
  · contradiction
  · rw [← Option.some.inj ha']
    exact (h.enter hnodup hchain).setUsage

theorem Abs.Ok.popBin {a' : Abs} {t cls b : ℕ} (h : a.Ok good)
    (ha' : a.popBin t cls = some (b, a')) : a'.Ok good := by
  unfold Abs.popBin at ha'
  split at ha'
  · rw [← (Prod.mk.inj (Option.some.inj ha')).2]
    exact h
  · rename_i hblocks
    split at ha'
    · contradiction
    · rw [← (Prod.mk.inj (Option.some.inj ha')).2]
      exact (h.leave hblocks).setUsage

theorem Abs.Ok.popShard {cls batchSize cpu : ℕ} (h : a.Ok good) :
    (a.popShard cls batchSize cpu).2.Ok good := by
  unfold Abs.popShard
  dsimp only
  split
  · exact h
  · refine Abs.Ok.hand ?_ fun y hy => if_pos hy
    exact (h.leave (List.take_append_drop _ _).symm).setUsage

/-- A part of the blocks of a store, when all of them have left it. -/
theorem Abs.Ok.released (h : a.Ok good) (hsub : chain.Sublist (a.blocks x)) :
    chain.Nodup ∧ ∀ y ∈ chain, good y ∧ (a.leave x (a.blocks x) []).place y = none :=
  ⟨(h.nodup x).sublist hsub, fun y hy => ⟨h.good x y (hsub.subset hy), if_pos (hsub.subset hy)⟩⟩

theorem Abs.Ok.drainPending {t cls cpu : ℕ} (h : a.Ok good) :
    (a.drainPending t cls cpu).Ok good := by
  unfold Abs.drainPending
  split
  · exact h
  · rename_i y rest hblocks
    obtain ⟨hnodup, hchain⟩ := h.released (List.Sublist.refl (a.blocks (.pending t cls)))
    rw [hblocks] at hnodup hchain
    exact (h.leave (by rw [hblocks, List.append_nil])).pushShard hnodup hchain

theorem Abs.Ok.drainBin {t cls cpu : ℕ} {ours : ℕ → Bool} (h : a.Ok good) :
    (a.drainBin t cls cpu ours).Ok good := by
  unfold Abs.drainBin
  split
  · exact h
  · rename_i y rest hblocks
    obtain ⟨hnodup, hchain⟩ :=
      h.released (List.takeWhile_sublist (l := a.blocks (.cache (.bin t cls))) ours)
    rw [hblocks] at hnodup hchain
    exact (h.leave (by rw [hblocks, List.append_nil])).pushShard hnodup hchain

theorem Abs.Ok.cleanupClass {t : ℕ} {ours : ℕ → Bool} {cpus : ℕ → ℕ × ℕ} (h : a.Ok good) (cls : ℕ) :
    (Abs.cleanupClass t ours cpus a cls).Ok good := by
  unfold Abs.cleanupClass
  split
  · exact h
  · exact h.drainBin.drainPending

theorem Abs.Ok.forget {t : ℕ} (h : a.Ok good) : (a.forget t).Ok good := by
  have hblocks : ∀ x y, y ∈ (a.forget t).blocks x ↔ x.isOf t = false ∧ y ∈ a.blocks x := by
    intro x y
    show y ∈ (if x.isOf t then [] else a.blocks x) ↔ _
    cases x.isOf t
    · exact ⟨fun hy => ⟨rfl, hy⟩, fun hy => hy.2⟩
    · exact ⟨nofun, fun hy => nomatch hy.1⟩
  have hplace : ∀ x y, (a.forget t).place y = some x ↔ x.isOf t = false ∧ a.place y = some x := by
    intro x y
    show (a.place y).filter _ = some x ↔ _
    rw [Option.filter_eq_some_iff, Bool.not_eq_true', and_comm]
  refine ⟨fun x y => ?_, fun x => ?_, fun x y hy => ?_, fun y x hy => ?_⟩
  · rw [hblocks, hplace, h.mem]
  · show (if x.isOf t then [] else a.blocks x).Nodup
    split
    · exact List.nodup_nil
    · exact h.nodup x
  · exact h.good x y ((hblocks x y).mp hy).2
  · exact h.link y x ((hplace x y).mp hy).2

theorem Abs.Ok.cleanup {t : ℕ} {ours : ℕ → Bool} {cpus : ℕ → ℕ × ℕ} (h : a.Ok good)
    (classes : List ℕ) : (classes.foldl (Abs.cleanupClass t ours cpus) a).Ok good := by
  induction classes generalizing a with
  | nil => exact h
  | cons cls rest ih => exact ih (h.cleanupClass cls)

end Discipline

end Oxidalloc.CacheLists
