import Mathlib.Data.Option.Basic
import Oxidalloc.CacheListsSpec

/-!
The operations on the words of a build refine the operations on lists. `Rep` ties the
two: the words of each cache store its blocks under the key of the cache, and the links
that a caller knows are stored as they are. While the cache of a thread is cleaned up, the bins
that are handed over are no longer represented; `live` says which caches are.
-/
namespace Oxidalloc.CacheLists

open EncodedChain HeadPacking Function

def Lists.wordOf (b : Build) (s : Lists) : Cache → ℕ
  | .bin t cls => (s.bins t cls).head
  | .shard cpu cls => b.headPtr (s.list cpu cls)

def Lists.usageOf (s : Lists) : Cache → ℕ
  | .bin t cls => (s.bins t cls).usage
  | .shard cpu cls => s.usage cpu cls

structure Rep (b : Build) (live : Cache → Prop) (s : Lists) (a : Abs) : Prop where
  chains : ∀ k, live k → Stored (b.xorPtr (b.key k)) s.next (s.wordOf b k) (a.blocks (.cache k)) 0
  usage : ∀ k, live k → s.usageOf k = a.usage k
  pending : ∀ t cls, s.pending t cls = a.blocks (.pending t cls)
  links : ∀ h v, a.link h = some v → s.next h = v

/-- One cache gets another word and another counter. -/
structure SetWord (b : Build) (s s' : Lists) (k : Cache) (word n : ℕ) : Prop where
  word : s'.wordOf b k = word
  usage : s'.usageOf k = n
  others : ∀ k', k' ≠ k → s'.wordOf b k' = s.wordOf b k' ∧ s'.usageOf k' = s.usageOf k'
  pending : s'.pending = s.pending

section Moves

variable {b : Build} {live : Cache → Prop} {s s' : Lists} {a : Abs} {k : Cache} {w n : ℕ}
  {m r chain : List ℕ}

theorem rep_new (b : Build) (live : Cache → Prop) : Rep b live .new .new := by
  refine ⟨fun k _ => ?_, fun k _ => ?_, fun _ _ => rfl, nofun⟩
  · cases k with
    | bin t cls => rfl
    | shard cpu cls =>
      show b.headPtr 0 = 0
      unfold Build.headPtr
      split
      · rfl
      · exact (by decide : HeadPacking.headPtr 0 = 0)
  · cases k <;> rfl

theorem Rep.mono {live' : Cache → Prop} (h : Rep b live s a) (hlive : ∀ k, live' k → live k) :
    Rep b live' s a :=
  ⟨fun k hk => h.chains k (hlive k hk), fun k hk => h.usage k (hlive k hk), h.pending, h.links⟩

theorem setBin_setWord (s : Lists) (next : ℕ → ℕ) (t cls head n : ℕ) :
    SetWord b s ({ s with next := next }.setBin t cls head n) (.bin t cls) head n := by
  have hbins : ∀ t' cls', ({ s with next := next }.setBin t cls head n).bins t' cls' =
      if t' = t ∧ cls' = cls then ⟨head, n⟩ else s.bins t' cls' := put_apply _ _ _ _
  refine ⟨?_, ?_, fun k' hk' => ?_, rfl⟩
  · show (Lists.bins _ t cls).head = head
    rw [hbins, if_pos ⟨rfl, rfl⟩]
  · show (Lists.bins _ t cls).usage = n
    rw [hbins, if_pos ⟨rfl, rfl⟩]
  · cases k' with
    | bin t' cls' =>
      have hne : ¬ (t' = t ∧ cls' = cls) := fun heq => hk' (by rw [heq.1, heq.2])
      constructor
      · show (Lists.bins _ t' cls').head = _
        rw [hbins, if_neg hne]
        rfl
      · show (Lists.bins _ t' cls').usage = _
        rw [hbins, if_neg hne]
        rfl
    | shard cpu cls' => exact ⟨rfl, rfl⟩

theorem setShard_setWord (s : Lists) (next : ℕ → ℕ) (cpu cls word n : ℕ) :
    SetWord b s ({ s with next := next }.setShard cpu cls word n) (.shard cpu cls)
      (b.headPtr word) n := by
  refine ⟨?_, ?_, fun k' hk' => ?_, rfl⟩
  · show b.headPtr (put s.list cpu cls word cpu cls) = _
    rw [put_apply, if_pos ⟨rfl, rfl⟩]
  · show put s.usage cpu cls n cpu cls = n
    rw [put_apply, if_pos ⟨rfl, rfl⟩]
  · cases k' with
    | bin t' cls' => exact ⟨rfl, rfl⟩
    | shard cpu' cls' =>
      have hne : ¬ (cpu' = cpu ∧ cls' = cls) := fun heq => hk' (by rw [heq.1, heq.2])
      constructor
      · show b.headPtr (put s.list cpu cls word cpu' cls') = _
        rw [put_apply, if_neg hne]
        rfl
      · show put s.usage cpu cls n cpu' cls' = _
        rw [put_apply, if_neg hne]
        rfl

/-- Links outside of a store are not changed by writes to its blocks. -/
theorem Rep.chain_congr (h : Rep b live s a) (hlive : live k)
    (hnext : ∀ x ∈ a.blocks (.cache k), s'.next x = s.next x) :
    Stored (b.xorPtr (b.key k)) s'.next (s.wordOf b k) (a.blocks (.cache k)) 0 :=
  (h.chains k hlive).congr hnext

/-- A chain of a caller is put in front of a cache. -/
theorem Rep.push {good : ℕ → Prop} (h : Rep b live s a) (hok : a.Ok good)
    (hw : SetWord b s s' k w n) (hfree : ∀ x ∈ chain, a.place x = none)
    (hnext : ∀ x, x ∉ chain → s'.next x = s.next x)
    (hstored : Stored (b.xorPtr (b.key k)) s'.next w chain (s.wordOf b k)) :
    Rep b live s' ((a.enter (.cache k) chain).setUsage k n) := by
  have hkeep : ∀ x y, x ∈ a.blocks y → s'.next x = s.next x := by
    intro x y hx
    refine hnext x fun hchain => ?_
    rw [hok.mem, hfree x hchain] at hx
    contradiction
  have hblocks : ∀ y, ((a.enter (.cache k) chain).setUsage k n).blocks y =
      if y = .cache k then chain ++ a.blocks (.cache k) else a.blocks y :=
    fun y => update_apply _ _ _ _
  have husage : ∀ k', ((a.enter (.cache k) chain).setUsage k n).usage k' =
      if k' = k then n else a.usage k' := fun k' => update_apply _ _ _ _
  refine ⟨fun k' hk' => ?_, fun k' hk' => ?_, fun t cls => ?_, fun x v hx => ?_⟩
  · rw [hblocks]
    by_cases heq : k' = k
    · subst heq
      rw [if_pos rfl, hw.word]
      exact stored_append.mpr ⟨_, hstored, h.chain_congr hk' fun x hx => hkeep x _ hx⟩
    · rw [if_neg fun hcache => heq (Store.cache.inj hcache), (hw.others k' heq).1]
      exact h.chain_congr hk' fun x hx => hkeep x _ hx
  · rw [husage]
    by_cases heq : k' = k
    · subst heq
      rw [if_pos rfl]
      exact hw.usage
    · rw [if_neg heq, (hw.others k' heq).2]
      exact h.usage k' hk'
  · rw [hw.pending, hblocks, if_neg nofun]
    exact h.pending t cls
  · have hx : (if x ∈ chain then none else a.link x) = some v := hx
    split at hx
    · contradiction
    · rename_i hchain
      rw [hnext x hchain]
      exact h.links x v hx

/-- The first blocks of a cache are taken from it. -/
theorem Rep.take {good : ℕ → Prop} (h : Rep b live s a) (hok : a.Ok good)
    (hw : SetWord b s s' k w n) (hsplit : a.blocks (.cache k) = m ++ r)
    (hnext : ∀ x, x ∉ m → s'.next x = s.next x)
    (hstored : live k → Stored (b.xorPtr (b.key k)) s.next w r 0) :
    Rep b live s' ((a.leave (.cache k) m r).setUsage k n) := by
  have hm : ∀ x ∈ m, a.place x = some (.cache k) := fun x hx => by
    rw [← hok.mem, hsplit]
    exact List.mem_append_left r hx
  have hkeep : ∀ x y, y ≠ .cache k → x ∈ a.blocks y → s'.next x = s.next x := by
    intro x y hy hx
    refine hnext x fun hmem => ?_
    rw [hok.mem, hm x hmem] at hx
    exact hy (Option.some.inj hx).symm
  have hblocks : ∀ y, ((a.leave (.cache k) m r).setUsage k n).blocks y =
      if y = .cache k then r else a.blocks y := fun y => update_apply _ _ _ _
  have husage : ∀ k', ((a.leave (.cache k) m r).setUsage k n).usage k' =
      if k' = k then n else a.usage k' := fun k' => update_apply _ _ _ _
  refine ⟨fun k' hk' => ?_, fun k' hk' => ?_, fun t cls => ?_, fun x v hx => ?_⟩
  · rw [hblocks]
    by_cases heq : k' = k
    · subst heq
      rw [if_pos rfl, hw.word]
      refine (hstored hk').congr fun x hx => hnext x fun hmem => ?_
      have hnodup := hok.nodup (.cache k')
      rw [hsplit] at hnodup
      exact List.disjoint_of_nodup_append hnodup hmem hx
    · have hne : Store.cache k' ≠ .cache k := fun hcache => heq (Store.cache.inj hcache)
      rw [if_neg hne, (hw.others k' heq).1]
      exact h.chain_congr hk' fun x hx => hkeep x _ hne hx
  · rw [husage]
    by_cases heq : k' = k
    · subst heq
      rw [if_pos rfl]
      exact hw.usage
    · rw [if_neg heq, (hw.others k' heq).2]
      exact h.usage k' hk'
  · rw [hw.pending, hblocks, if_neg nofun]
    exact h.pending t cls
  · have hx : a.link x = some v := hx
    rw [hnext x fun hmem => ?_]
    · exact h.links x v hx
    · rw [hok.link x _ (hm x hmem)] at hx
      contradiction

theorem stored_headD {next : ℕ → ℕ} (h : Stored id next w chain 0) : w = chain.headD 0 := by
  cases chain with
  | nil => exact h
  | cons x l => exact h.1

theorem chainLinks_eq {next : ℕ → ℕ} {link : ℕ → Option ℕ} {h v : ℕ}
    (hlink : ∀ h v, link h = some v → next h = v) (hchain : Stored id next w chain 0)
    (hh : chainLinks chain link h = some v) : next h = v := by
  induction chain generalizing w with
  | nil => exact hlink h v hh
  | cons y l ih =>
    rw [chainLinks, update_apply] at hh
    split at hh
    · rename_i heq
      rw [heq, stored_headD hchain.2]
      exact Option.some.inj hh
    · exact ih hchain.2 hh

/-- A caller that is handed a chain knows its links. -/
theorem Rep.hand (h : Rep b live s a) (hchain : Stored id s.next w chain 0) :
    Rep b live s (a.hand chain) :=
  ⟨h.chains, h.usage, h.pending, fun _ _ => chainLinks_eq h.links hchain⟩

end Moves

section ThreadLocal

variable {b : Build} {live : Cache → Prop} {s : Lists} {a : Abs} {t cls head tail n e : ℕ}
  {body : List ℕ}

/-- A word is null exactly if its cache is empty. -/
theorem Rep.word_eq_zero {k : Cache} (h : Rep b live s a) (hok : a.Ok b.Avoids) (hlive : live k) :
    s.wordOf b k = 0 ↔ a.blocks (.cache k) = [] := by
  have hstored := h.chains k hlive
  cases hblocks : a.blocks (.cache k) with
  | nil =>
    rw [hblocks] at hstored
    exact ⟨fun _ => rfl, fun _ => hstored⟩
  | cons x rest =>
    rw [hblocks] at hstored
    have hx := hok.good (.cache k) x (by rw [hblocks]; exact List.mem_cons_self)
    constructor
    · intro hzero
      exact absurd (hstored.1.symm.trans hzero) (xorPtr_ne_zero hx)
    · exact nofun

theorem popFromThread_refines (h : Rep b live s a) (hok : a.Ok b.Avoids)
    (hlive : live (.bin t cls)) :
    Option.Rel (fun p q => p.1 = q.1 ∧ Rep b live p.2 q.2) (popFromThread b t cls s)
      (a.popBin t cls) := by
  have hempty : (s.bins t cls).head = 0 ↔ a.blocks (.cache (.bin t cls)) = [] :=
    h.word_eq_zero hok hlive
  have husage : (s.bins t cls).usage = a.usage (.bin t cls) := h.usage _ hlive
  have hstored := h.chains _ hlive
  unfold popFromThread Abs.popBin
  dsimp only
  cases hblocks : a.blocks (.cache (.bin t cls)) with
  | nil =>
    rw [if_pos (hempty.mpr hblocks)]
    exact .some ⟨rfl, h⟩
  | cons x rest =>
    rw [hblocks] at hstored
    obtain ⟨hword, hrest⟩ := hstored
    have hx := hok.good _ x (by rw [hblocks]; exact List.mem_cons_self)
    have hhead : b.xorPtr (b.xorKey t) (s.bins t cls).head = x := by
      have hword : (s.bins t cls).head = b.xorPtr (b.xorKey t) x := hword
      rw [hword]
      exact xorPtr_xorPtr (k := .bin t cls) hx
    rw [if_neg fun hzero => absurd (hblocks ▸ hempty.mp hzero) (List.cons_ne_nil x rest)]
    rw [husage]
    by_cases hzero : a.usage (.bin t cls) = 0
    · rw [if_pos hzero]
      dsimp only
      rw [if_pos hzero]
      exact .none
    · rw [if_neg hzero, hhead]
      dsimp only
      rw [if_neg hzero]
      refine .some ⟨rfl, ?_⟩
      exact h.take hok (setBin_setWord s s.next t cls (s.next x) (a.usage (.bin t cls) - 1))
        hblocks (fun _ _ => rfl) fun _ => hrest

theorem pushToThread_refines (h : Rep b live s a) (hok : a.Ok b.Avoids) (hlive : live (.bin t cls))
    (hfree : a.place head = none) :
    Option.Rel (Rep b live) (pushToThread b t cls head s) (a.pushBin t cls [head] 1) := by
  have husage : (s.bins t cls).usage = a.usage (.bin t cls) := h.usage _ hlive
  unfold pushToThread Abs.pushBin
  dsimp only
  rw [husage]
  split
  · exact .none
  · refine .some (h.push hok (setBin_setWord s _ t cls _ _) ?_ ?_ ⟨rfl, ?_⟩)
    · intro x hx
      rwa [List.mem_singleton.mp hx]
    · intro x hx
      exact update_of_ne (fun heq => hx (List.mem_singleton.mpr heq)) _ _
    · exact update_self head _ _

/-- The links of a chain for a cache, and after it the old word of the cache. -/
theorem stored_push {k : Cache} {word : ℕ} (hchain : Stored id s.next head (body ++ [tail]) e)
    (hnodup : (body ++ [tail]).Nodup) :
    Stored (b.xorPtr (b.key k))
      (update (relink (b.xorPtr (b.key k)) body s.next) tail word)
      (b.xorPtr (b.key k) head) (body ++ [tail]) word :=
  (Stored.encode hchain).redirect fun hmem =>
    List.disjoint_of_nodup_append hnodup hmem List.mem_cons_self

theorem push_elsewhere {f : ℕ → ℕ} {word x : ℕ} (hx : x ∉ body ++ [tail]) :
    update (relink f body s.next) tail word x = s.next x := by
  rw [List.mem_append, not_or, List.mem_singleton] at hx
  rw [update_of_ne hx.2]
  exact if_neg hx.1

theorem pushToThreadTailed_refines (h : Rep b live s a) (hok : a.Ok b.Avoids)
    (hlive : live (.bin t cls)) (hchain : Stored id s.next head (body ++ [tail]) e)
    (hnodup : (body ++ [tail]).Nodup)
    (hfree : ∀ x ∈ body ++ [tail], b.Avoids x ∧ a.place x = none) :
    Option.Rel (Rep b live) (pushToThreadTailed b t cls head tail n s)
      (a.pushBin t cls (body ++ [tail]) n) := by
  have husage : (s.bins t cls).usage = a.usage (.bin t cls) := h.usage _ hlive
  unfold pushToThreadTailed Abs.pushBin
  rw [encode_eq hchain hnodup fun x hx => (hfree x hx).1, Option.bind_some]
  dsimp only
  rw [husage]
  split
  · exact .none
  · exact .some (h.push hok (setBin_setWord s _ t cls _ _) (fun x hx => (hfree x hx).2)
      (fun x hx => push_elsewhere hx) (stored_push (k := .bin t cls) hchain hnodup))

end ThreadLocal

section Interconnect

variable {b : Build} {live : Cache → Prop} {s : Lists} {a : Abs} {cpu cls head tail n e : ℕ}
  {body : List ℕ}

theorem pushToGlobal_refines (cpu cls n : ℕ) (h : Rep b live s a) (hok : a.Ok b.Avoids)
    (hlive : live (.shard cpu cls)) (hchain : Stored id s.next head (body ++ [tail]) e)
    (hnodup : (body ++ [tail]).Nodup)
    (hfree : ∀ x ∈ body ++ [tail], b.Avoids x ∧ a.place x = none) :
    ∃ s', pushToGlobal b cpu cls head tail n s = some s' ∧
      Rep b live s' (a.pushShard cpu cls (body ++ [tail]) n) := by
  have husage : s.usage cpu cls = a.usage (.shard cpu cls) := h.usage _ hlive
  have hhead : b.Avoids head := by
    cases hbody : body ++ [tail] with
    | nil => simp at hbody
    | cons x rest =>
      have hx := (hfree x (by rw [hbody]; exact List.mem_cons_self)).1
      rw [hbody] at hchain
      have heq : head = x := hchain.1
      rwa [heq]
  unfold pushToGlobal
  rw [encode_eq hchain hnodup fun x hx => (hfree x hx).1, Option.map_some]
  refine ⟨_, rfl, ?_⟩
  have hw := setShard_setWord (b := b) s
    (update (relink (b.xorPtr b.numaKey) body s.next) tail (b.headPtr (s.list cpu cls)))
    cpu cls (b.headPack (b.xorPtr b.numaKey head) ((b.headTag (s.list cpu cls) + 1) % usizeBound))
    ((s.usage cpu cls + n) % usizeBound)
  rw [headPtr_headPack (Or.inl hhead), husage] at hw
  unfold tryPush
  dsimp only
  rw [husage]
  exact h.push hok hw (fun x hx => (hfree x hx).2) (fun x hx => push_elsewhere hx)
    (stored_push (k := .shard cpu cls) hchain hnodup)

/-- The walk of `pop` ends at the last block of the batch. -/
theorem batchTail_eq {next : ℕ → ℕ} {x : ℕ} {rest : List ℕ} (n count : ℕ)
    (h : Stored (b.xorPtr b.numaKey) next (next x) rest 0) (hgood : ∀ y ∈ rest, b.Avoids y) :
    ∃ m, (x :: rest).take (n + 1) = m ++ [(batchTail b next n x count).1] ∧
      (batchTail b next n x count).2 = count + m.length := by
  induction n generalizing x rest count with
  | zero => exact ⟨[], rfl, rfl⟩
  | succ n ih =>
    rw [batchTail]
    cases rest with
    | nil =>
      have hnull : next x = 0 := h
      rw [if_pos hnull]
      exact ⟨[], rfl, rfl⟩
    | cons y rest =>
      have hy := hgood y List.mem_cons_self
      have hword : next x = b.xorPtr (b.key (.shard 0 0)) y := h.1
      rw [if_neg (by rw [hword]; exact xorPtr_ne_zero hy), hword]
      have hback : b.xorPtr b.numaKey (b.xorPtr (b.key (.shard 0 0)) y) = y :=
        xorPtr_xorPtr (k := .shard 0 0) hy
      rw [hback]
      obtain ⟨m, htake, hcount⟩ := ih (count + 1) h.2
        fun z hz => hgood z (List.mem_cons_of_mem y hz)
      refine ⟨x :: m, ?_, ?_⟩
      · rw [List.take_succ_cons, htake]
        rfl
      · rw [hcount, List.length_cons]
        omega

/-- The batch that `pop` cuts off. -/
theorem batchTail_take {next : ℕ → ℕ} {x : ℕ} {rest : List ℕ} (batchSize : ℕ)
    (h : Stored (b.xorPtr b.numaKey) next (next x) rest 0) (hgood : ∀ y ∈ rest, b.Avoids y) :
    ∃ m, (x :: rest).take (max batchSize 1) =
        m ++ [(batchTail b next (batchSize - 1) x 1).1] ∧
      (batchTail b next (batchSize - 1) x 1).2 = 1 + m.length ∧
      m.length + 1 ≤ max batchSize 1 ∧
      (m ++ [(batchTail b next (batchSize - 1) x 1).1]).headD 0 = x := by
  have hmax : max batchSize 1 = batchSize - 1 + 1 := by omega
  obtain ⟨m, htake, hcount⟩ := batchTail_eq (batchSize - 1) 1 h hgood
  rw [hmax]
  refine ⟨m, htake, hcount, ?_, ?_⟩
  · have hle := List.length_take_le (batchSize - 1 + 1) (x :: rest)
    rw [htake, List.length_append, List.length_singleton] at hle
    exact hle
  · rw [← htake]
    rfl

/-- The word that follows the blocks of a batch. -/
theorem stored_end {k : Cache} {next : ℕ → ℕ} {v tag : ℕ} {r : List ℕ}
    (h : Stored (b.xorPtr (b.key k)) next v r 0) (hgood : ∀ y ∈ r, b.Avoids y) :
    b.headPtr (b.headPack v tag) = v := by
  cases r with
  | nil =>
    have hzero : v = b.xorPtr 0 0 := by
      rw [xorPtr_zero]
      exact h
    rw [hzero]
    exact headPtr_headPack (Or.inr rfl)
  | cons y r =>
    rw [h.1]
    exact headPtr_headPack (Or.inl (hgood y List.mem_cons_self))

theorem pop_refines (cpu cls batchSize : ℕ) (h : Rep b live s a) (hok : a.Ok b.Avoids)
    (hlive : live (.shard cpu cls)) :
    (pop b cls batchSize cpu s = some (none, s) ∧ a.popShard cls batchSize cpu = (none, a)) ∨
      ∃ s' m a', pop b cls batchSize cpu s = some (some (m.headD 0), s') ∧
        a.popShard cls batchSize cpu = (some m, a') ∧ Rep b live s' a' ∧
        Stored id s'.next (m.headD 0) m 0 ∧ m.length ≤ max batchSize 1 ∧ ∀ x ∈ m, b.Avoids x := by
  have husage : s.usage cpu cls = a.usage (.shard cpu cls) := h.usage _ hlive
  have hempty : b.headPtr (s.list cpu cls) = 0 ↔ a.blocks (.cache (.shard cpu cls)) = [] :=
    h.word_eq_zero hok hlive
  have hstored := h.chains _ hlive
  have hgood := hok.good (.cache (.shard cpu cls))
  have hnodup := hok.nodup (.cache (.shard cpu cls))
  unfold pop Abs.popShard
  dsimp only
  rw [husage]
  by_cases hnone : a.usage (.shard cpu cls) = 0 ∨ a.blocks (.cache (.shard cpu cls)) = []
  · refine Or.inl ⟨?_, if_pos hnone⟩
    rcases hnone with hzero | hnil
    · exact if_pos hzero
    · rw [if_pos (hempty.mpr hnil), ite_self]
  · rw [not_or] at hnone
    rw [if_neg hnone.1, if_neg fun hzero => hnone.2 (hempty.mp hzero),
      if_neg fun hor => hor.elim hnone.1 hnone.2]
    cases hblocks : a.blocks (.cache (.shard cpu cls)) with
    | nil => exact absurd hblocks hnone.2
    | cons x rest =>
      rw [hblocks] at hstored hgood hnodup
      obtain ⟨hword, hrest⟩ := hstored
      have hword : b.headPtr (s.list cpu cls) = b.xorPtr b.numaKey x := hword
      have hx : b.xorPtr b.numaKey (b.headPtr (s.list cpu cls)) = x := by
        rw [hword]
        exact xorPtr_xorPtr (k := .shard cpu cls) (hgood x List.mem_cons_self)
      obtain ⟨m, htake, hcount, hlen, hhead⟩ := batchTail_take batchSize hrest
        fun y hy => hgood y (List.mem_cons_of_mem x hy)
      rw [hx]
      generalize (batchTail b s.next (batchSize - 1) x 1).1 = tail at htake hhead
      generalize (batchTail b s.next (batchSize - 1) x 1).2 = count at hcount
      have hsplit : x :: rest = (m ++ [tail]) ++ (x :: rest).drop (max batchSize 1) := by
        rw [← htake, List.take_append_drop]
      generalize (x :: rest).drop (max batchSize 1) = r at hsplit
      rw [htake]
      have hall : Stored (b.xorPtr (b.key (.shard cpu cls))) s.next (b.xorPtr b.numaKey x)
          (x :: rest) 0 := ⟨rfl, hrest⟩
      rw [hsplit] at hall hgood hnodup
      obtain ⟨v, hbatch, hr⟩ := stored_append.mp hall
      have hbatchGood : ∀ y ∈ m ++ [tail], b.Avoids y := fun y hy =>
        hgood y (List.mem_append_left r hy)
      have hbatchNodup := (List.nodup_append.mp hnodup).1
      have htailNot : tail ∉ m := fun hmem =>
        List.disjoint_of_nodup_append hbatchNodup hmem List.mem_cons_self
      have hlast : s.next tail = v := hbatch.last
      have hdecode := decode_eq (k := .shard cpu cls) hbatch hbatchNodup hbatchGood
      rw [show b.xorPtr (b.key (.shard cpu cls)) (b.xorPtr b.numaKey x) = x from
        hword ▸ hx] at hdecode
      rw [show decode b b.numaKey s.next x tail = _ from hdecode, Option.map_some, hcount]
      have hw := setShard_setWord (b := b) s
        (update (relink (b.xorPtr b.numaKey) m s.next) tail 0) cpu cls
        (b.headPack (s.next tail) ((b.headTag (s.list cpu cls) + 1) % usizeBound))
        ((a.usage (.shard cpu cls) + (usizeBound - (1 + m.length))) % usizeBound)
      rw [hlast, stored_end (k := .shard cpu cls) hr fun y hy =>
        hgood y (List.mem_append_right _ hy)] at hw
      have hplain := (Stored.decode (k := .shard cpu cls) hbatch hbatchGood).redirect (v := 0)
        htailNot
      rw [show b.xorPtr (b.key (.shard cpu cls)) (b.xorPtr b.numaKey x) = x from
        hword ▸ hx] at hplain
      refine Or.inr ⟨_, m ++ [tail], _, congrArg (fun y => some (some y, _)) hhead.symm, rfl,
        ?_, ?_, ?_, hbatchGood⟩
      · refine Rep.hand ?_ hplain
        have hrep := h.take hok hw (hblocks.trans hsplit) (fun y hy => push_elsewhere hy)
          fun _ => hr
        rw [List.length_append, List.length_singleton, Nat.add_comm m.length 1, hlast]
        exact hrep
      · rw [hhead]
        exact hplain
      · rw [List.length_append, List.length_singleton]
        exact hlen

end Interconnect

section Exit

variable {b : Build} {live : Cache → Prop} {s : Lists} {a : Abs} {t cls cpu : ℕ} {ours : ℕ → Bool}

/-- The walk over a bin ends at the last block before the first that is not ours, and the
blocks up to it are linked as a caller's. -/
theorem exitChain_eq {next : ℕ → ℕ} {x : ℕ} {rest : List ℕ} (count fuel : ℕ)
    (h : Stored (b.xorPtr (b.key (.bin t cls))) next (next x) rest 0)
    (hgood : ∀ y ∈ rest, b.Avoids y) (hnodup : (x :: rest).Nodup) (hours : ours x = true)
    (hfuel : rest.length < fuel) :
    ∃ m tail, (x :: rest).takeWhile ours = m ++ [tail] ∧
      exitChain b (b.xorKey t) ours fuel next x count =
        some (update (relink (b.xorPtr (b.xorKey t)) m next) tail 0, tail,
          count + m.length) := by
  obtain ⟨fuel, rfl⟩ := Nat.exists_eq_add_one.mpr (Nat.zero_lt_of_lt hfuel)
  induction rest generalizing next x count fuel with
  | nil =>
    refine ⟨[], x, by rw [List.takeWhile_cons_of_pos hours]; rfl, ?_⟩
    have hnull : next x = 0 := h
    rw [exitChain, hnull, xorPtr_zero, if_pos rfl, relink_nil]
    rfl
  | cons y rest ih =>
    obtain ⟨hword, hrest⟩ := h
    have hy := hgood y List.mem_cons_self
    have hfollow : b.xorPtr (b.xorKey t) (next x) = y := by
      rw [hword]
      exact xorPtr_xorPtr (k := .bin t cls) hy
    rw [exitChain, hfollow, if_neg hy.isBlock.ne_null, List.takeWhile_cons_of_pos hours]
    by_cases hmine : ours y = true
    · rw [if_neg (by rw [hmine]; decide)]
      obtain ⟨hnotMem, hnodup⟩ := List.nodup_cons.mp hnodup
      rw [List.length_cons] at hfuel
      have hrest' : Stored (b.xorPtr (b.key (.bin t cls))) (update next x y)
          (update next x y y) rest 0 := by
        have hyx : y ≠ x := fun heq => hnotMem (by rw [heq]; exact List.mem_cons_self)
        rw [update_of_ne hyx]
        refine hrest.congr fun z hz => update_of_ne ?_ _ _
        intro heq
        exact hnotMem (heq ▸ List.mem_cons_of_mem y hz)
      obtain ⟨fuel, rfl⟩ := Nat.exists_eq_add_one.mpr (by omega : 0 < fuel)
      obtain ⟨m, tail, htake, heq⟩ := ih (count + 1) hrest'
        (fun z hz => hgood z (List.mem_cons_of_mem y hz)) hnodup hmine fuel (by omega)
      have hmem : x ∉ m := fun hm => by
        have hsub := List.takeWhile_subset ours
          (by rw [htake]; exact List.mem_append_left _ hm : x ∈ (y :: rest).takeWhile ours)
        exact hnotMem hsub
      have hupdate : update next x y =
          update next x (b.xorPtr (b.xorKey t) (next x)) := by rw [hfollow]
      refine ⟨x :: m, tail, by rw [htake]; rfl, ?_⟩
      rw [heq, hupdate, relink_cons hmem, List.length_cons]
      congr 3
      omega
    · rw [Bool.not_eq_true] at hmine
      rw [if_pos hmine, List.takeWhile_cons_of_neg (by rw [hmine]; decide)]
      exact ⟨[], x, rfl, by rw [relink_nil]; rfl⟩

theorem carveLinks_stored {l : List ℕ} (next : ℕ → ℕ) (hnodup : l.Nodup) :
    Stored id (carveLinks next l).1 (l.headD 0) l 0 ∧
      (carveLinks next l).2 = l.headD 0 ∧ ∀ x, x ∉ l → (carveLinks next l).1 x = next x := by
  induction l with
  | nil => exact ⟨rfl, rfl, fun _ _ => rfl⟩
  | cons x l ih =>
    obtain ⟨hnotMem, hnodup⟩ := List.nodup_cons.mp hnodup
    obtain ⟨hstored, hhead, helse⟩ := ih hnodup
    refine ⟨⟨rfl, ?_⟩, rfl, fun y hy => ?_⟩
    · show Stored id (update (carveLinks next l).1 x (carveLinks next l).2)
        (update (carveLinks next l).1 x (carveLinks next l).2 x) l 0
      rw [update_self, hhead]
      refine hstored.congr fun y hy => update_of_ne ?_ _ _
      intro heq
      exact hnotMem (heq ▸ hy)
    · rw [List.mem_cons, not_or] at hy
      exact (update_of_ne hy.1 _ _).trans (helse y hy.2)

/-- The blocks of a store that is given up are in the hands of a caller, with other links. -/
theorem Rep.release {good : ℕ → Prop} {x : Store} {live' : Cache → Prop} {next : ℕ → ℕ}
    {pending : ℕ → ℕ → List ℕ} (h : Rep b live s a) (hok : a.Ok good)
    (hnext : ∀ y, y ∉ a.blocks x → next y = s.next y)
    (hlive : ∀ k, live' k → live k ∧ x ≠ .cache k)
    (hpending : ∀ t cls, pending t cls = if x = .pending t cls then [] else s.pending t cls) :
    Rep b live' { s with next := next, pending := pending } (a.leave x (a.blocks x) []) := by
  have hblocks : ∀ y, (a.leave x (a.blocks x) []).blocks y = if y = x then [] else a.blocks y :=
    fun y => update_apply _ _ _ _
  refine ⟨fun k hk => ?_, fun k hk => h.usage k (hlive k hk).1, fun t cls => ?_, fun y v hy => ?_⟩
  · rw [hblocks, if_neg fun heq => (hlive k hk).2 heq.symm]
    refine h.chain_congr (hlive k hk).1 fun y hy => hnext y fun hmem => ?_
    rw [hok.mem] at hy hmem
    exact (hlive k hk).2 (Option.some.inj (hmem.symm.trans hy))
  · rw [hblocks]
    show pending t cls = _
    rw [hpending]
    by_cases hx : x = .pending t cls
    · rw [if_pos hx, if_pos hx.symm]
    · rw [if_neg hx, if_neg fun heq => hx heq.symm]
      exact h.pending t cls
  · have hy : a.link y = some v := hy
    have hnot : y ∉ a.blocks x := fun hmem => by
      rw [hok.link y x ((hok.mem x y).mp hmem)] at hy
      contradiction
    show next y = v
    rw [hnext y hnot]
    exact h.links y v hy

theorem drainPending_refines (h : Rep b live s a) (hok : a.Ok b.Avoids)
    (hlive : live (.shard cpu cls)) :
    ∃ s', drainPending b t cls cpu s = some s' ∧ Rep b live s' (a.drainPending t cls cpu) := by
  have hpending := h.pending t cls
  unfold drainPending Abs.drainPending
  rw [hpending]
  cases hblocks : a.blocks (.pending t cls) with
  | nil => exact ⟨s, rfl, h⟩
  | cons x rest =>
    dsimp only
    have hnodup := hok.nodup (.pending t cls)
    have hgood := hok.good (.pending t cls)
    rw [hblocks] at hnodup hgood
    obtain ⟨hchain, _, helse⟩ := carveLinks_stored s.next hnodup
    have hrelease : Rep b live
        { s with
          next := (carveLinks s.next (x :: rest)).1, pending := put s.pending t cls [] }
        (a.leave (.pending t cls) (x :: rest) []) := by
      rw [← hblocks]
      refine h.release hok (fun y hy => ?_) (fun k hk => ⟨hk, nofun⟩) fun t' cls' => ?_
      · rw [hblocks] at hy ⊢
        exact helse y hy
      · simp only [put_apply, Store.pending.injEq, eq_comm]
    have hsplit := List.dropLast_append_getLast (List.cons_ne_nil x rest)
    have hchain : Stored id (carveLinks s.next (x :: rest)).1 x
        ((x :: rest).dropLast ++ [(x :: rest).getLast (List.cons_ne_nil x rest)]) 0 := by
      rw [hsplit]
      exact hchain
    obtain ⟨s', hs', hrep⟩ := pushToGlobal_refines cpu cls (rest.length + 1) hrelease
      (hok.leave (by rw [hblocks, List.append_nil])) hlive hchain (by rw [hsplit]; exact hnodup)
      (fun y hy => by
        rw [hsplit] at hy
        exact ⟨hgood y hy, if_pos hy⟩)
    rw [hsplit] at hrep
    exact ⟨s', hs', hrep⟩

theorem drainBin_refines (h : Rep b live s a) (hok : a.Ok b.Avoids) (hbin : live (.bin t cls))
    (hlive : live (.shard cpu cls))
    (hours : ours ((a.blocks (.cache (.bin t cls))).headD 0) = true) :
    ∃ s', drainBin b t cls cpu ours s = some s' ∧
      Rep b (fun k => live k ∧ k ≠ .bin t cls) s' (a.drainBin t cls cpu ours) := by
  have hstored := h.chains _ hbin
  have hempty : (s.bins t cls).head = 0 ↔ a.blocks (.cache (.bin t cls)) = [] :=
    h.word_eq_zero hok hbin
  unfold drainBin Abs.drainBin
  cases hblocks : a.blocks (.cache (.bin t cls)) with
  | nil =>
    dsimp only
    rw [hempty.mpr hblocks, xorPtr_zero, if_pos rfl]
    exact ⟨s, rfl, h.mono fun k hk => hk.1⟩
  | cons x rest =>
    dsimp only
    have hnodup := hok.nodup (.cache (.bin t cls))
    have hgood := hok.good (.cache (.bin t cls))
    rw [hblocks] at hstored hnodup hgood hours
    obtain ⟨hword, hrest⟩ := hstored
    have hx := hgood x List.mem_cons_self
    have hhead : b.xorPtr (b.xorKey t) (s.bins t cls).head = x := by
      have hword : (s.bins t cls).head = b.xorPtr (b.xorKey t) x := hword
      rw [hword]
      exact xorPtr_xorPtr (k := .bin t cls) hx
    have hlt := length_lt_of_blocks hnodup fun y hy => (hgood y hy).isBlock
    rw [List.length_cons] at hlt
    obtain ⟨m, tail, htake, hexit⟩ := exitChain_eq 1 usizeBound hrest
      (fun y hy => hgood y (List.mem_cons_of_mem x hy)) hnodup hours (by omega)
    have hsub : ∀ y ∈ m ++ [tail], y ∈ x :: rest := fun y hy => by
      rw [← htake] at hy
      exact List.takeWhile_subset ours hy
    obtain ⟨r, hsplit⟩ : ∃ r, x :: rest = (m ++ [tail]) ++ r :=
      ⟨_, by rw [← htake, List.takeWhile_append_dropWhile]⟩
    have hchainNodup : (m ++ [tail]).Nodup := by
      rw [hsplit] at hnodup
      exact (List.nodup_append.mp hnodup).1
    have hall : Stored (b.xorPtr (b.key (.bin t cls))) s.next (b.xorPtr (b.xorKey t) x)
        (x :: rest) 0 := ⟨rfl, hrest⟩
    rw [hsplit] at hall
    obtain ⟨v, hbatch, _⟩ := stored_append.mp hall
    have hplain := (Stored.decode (k := .bin t cls) hbatch fun y hy => hgood y (hsub y hy)).redirect
      (v := 0) fun hmem => List.disjoint_of_nodup_append hchainNodup hmem List.mem_cons_self
    rw [show b.xorPtr (b.key (.bin t cls)) (b.xorPtr (b.xorKey t) x) = x from
      xorPtr_xorPtr (k := .bin t cls) hx] at hplain
    have hrelease : Rep b (fun k => live k ∧ k ≠ .bin t cls)
        { s with
          next := update (relink (b.xorPtr (b.xorKey t)) m s.next) tail 0 }
        (a.leave (.cache (.bin t cls)) (x :: rest) []) := by
      rw [← hblocks]
      refine h.release hok (fun y hy => ?_) (fun k hk => ⟨hk.1, fun heq => ?_⟩) fun _ _ => ?_
      · rw [hblocks] at hy
        exact push_elsewhere fun hmem => hy (hsub y hmem)
      · exact hk.2 (Store.cache.inj heq).symm
      · rw [if_neg nofun]
    rw [hhead, if_neg hx.isBlock.ne_null, hexit, Option.bind_some]
    obtain ⟨s', hs', hrep⟩ := pushToGlobal_refines cpu cls (1 + m.length) hrelease
      (hok.leave (by rw [hblocks, List.append_nil])) ⟨hlive, nofun⟩ hplain hchainNodup
      (fun y hy => ⟨hgood y (hsub y hy), if_pos (hsub y hy)⟩)
    refine ⟨s', hs', ?_⟩
    rw [htake, List.length_append, List.length_singleton, Nat.add_comm m.length 1]
    exact hrep

theorem cleanupClass_refines (ours : ℕ → Bool) (cpus : ℕ → ℕ × ℕ) (h : Rep b live s a)
    (hok : a.Ok b.Avoids) (hbin : live (.bin t cls)) (hlive : ∀ cpu cls, live (.shard cpu cls)) :
    ∃ s', cleanupClass b t ours cpus s cls = some s' ∧
      Rep b (fun k => live k ∧ k ≠ .bin t cls) s' (Abs.cleanupClass t ours cpus a cls) := by
  have hhead : b.xorPtr (b.xorKey t) (s.bins t cls).head =
      (a.blocks (.cache (.bin t cls))).headD 0 := by
    have hstored := h.chains _ hbin
    cases hblocks : a.blocks (.cache (.bin t cls)) with
    | nil =>
      rw [hblocks] at hstored
      have hword : (s.bins t cls).head = 0 := hstored
      rw [hword, xorPtr_zero]
      rfl
    | cons x rest =>
      rw [hblocks] at hstored
      have hword : (s.bins t cls).head = b.xorPtr (b.xorKey t) x := hstored.1
      rw [hword]
      exact xorPtr_xorPtr (k := .bin t cls)
        (hok.good _ x (by rw [hblocks]; exact List.mem_cons_self))
  unfold cleanupClass Abs.cleanupClass
  rw [hhead]
  split
  · exact ⟨s, rfl, h.mono fun k hk => hk.1⟩
  · rename_i hours
    rw [Bool.not_eq_false] at hours
    obtain ⟨s₁, hs₁, hrep₁⟩ := drainBin_refines h hok hbin (hlive (cpus cls).1 cls) hours
    rw [hs₁, Option.bind_some]
    exact drainPending_refines hrep₁ hok.drainBin ⟨hlive (cpus cls).2 cls, nofun⟩

/-- The loop over the classes: a bin that is done is not represented any more. -/
theorem cleanup_refines {classes : List ℕ} (ours : ℕ → Bool) (cpus : ℕ → ℕ × ℕ)
    (h : Rep b live s a) (hok : a.Ok b.Avoids) (hnodup : classes.Nodup)
    (hbins : ∀ c ∈ classes, live (.bin t c)) (hlive : ∀ cpu cls, live (.shard cpu cls)) :
    ∃ s', classes.foldlM (cleanupClass b t ours cpus) s = some s' ∧
      Rep b (fun k => live k ∧ ∀ c ∈ classes, k ≠ .bin t c) s'
        (classes.foldl (Abs.cleanupClass t ours cpus) a) := by
  induction classes generalizing live s a with
  | nil => exact ⟨s, rfl, h.mono fun k hk => hk.1⟩
  | cons cls rest ih =>
    obtain ⟨hnotMem, hnodup⟩ := List.nodup_cons.mp hnodup
    obtain ⟨s₁, hs₁, hrep₁⟩ := cleanupClass_refines ours cpus h hok
      (hbins cls List.mem_cons_self) hlive
    obtain ⟨s', hs', hrep⟩ := ih hrep₁ (hok.cleanupClass cls) hnodup
      (fun c hc => ⟨hbins c (List.mem_cons_of_mem cls hc), fun heq => by
        rw [Cache.bin.injEq] at heq
        exact hnotMem (heq.2 ▸ hc)⟩)
      fun cpu cls => ⟨hlive cpu cls, nofun⟩
    refine ⟨s', ?_, hrep.mono fun k hk => ⟨⟨hk.1, hk.2 cls List.mem_cons_self⟩, fun c hc =>
      hk.2 c (List.mem_cons_of_mem cls hc)⟩⟩
    rw [List.foldlM_cons, hs₁]
    exact hs'

theorem forget_refines {live' : Cache → Prop} (h : Rep b live s a)
    (hlive : ∀ k, (∀ c, k ≠ .bin t c) → live k) : Rep b live' (s.forget t) (a.forget t) := by
  have hbins : ∀ t' c, (s.forget t).bins t' c = if t' = t then ⟨0, 0⟩ else s.bins t' c := by
    intro t' c
    show update s.bins t (fun _ => ⟨0, 0⟩) t' c = _
    rw [update_apply]
    split <;> rfl
  have hpending : ∀ t' c, (s.forget t).pending t' c = if t' = t then [] else s.pending t' c := by
    intro t' c
    show update s.pending t (fun _ => []) t' c = _
    rw [update_apply]
    split <;> rfl
  have hbin : ∀ {t' c : ℕ}, t' ≠ t → live (.bin t' c) := fun {t' c} ht =>
    hlive _ fun c' heq => ht (Cache.bin.inj heq).1
  refine ⟨fun k _ => ?_, fun k _ => ?_, fun t' c => ?_, h.links⟩
  · cases k with
    | bin t' c =>
      show Stored _ s.next ((s.forget t).bins t' c).head (if decide (t' = t) then _ else _) 0
      rw [hbins]
      by_cases ht : t' = t
      · rw [if_pos ht, if_pos (decide_eq_true ht)]
        rfl
      · rw [if_neg ht, decide_eq_false ht]
        exact h.chains _ (hbin ht)
    | shard cpu c => exact h.chains _ (hlive _ nofun)
  · cases k with
    | bin t' c =>
      show ((s.forget t).bins t' c).usage = if decide (t' = t) then _ else _
      rw [hbins]
      by_cases ht : t' = t
      · rw [if_pos ht, if_pos (decide_eq_true ht)]
      · rw [if_neg ht, decide_eq_false ht]
        exact h.usage _ (hbin ht)
    | shard cpu c => exact h.usage (.shard cpu c) (hlive _ nofun)
  · rw [hpending]
    show _ = if decide (t' = t) then _ else _
    by_cases ht : t' = t
    · rw [if_pos ht, if_pos (decide_eq_true ht)]
    · rw [if_neg ht, decide_eq_false ht]
      exact h.pending t' c

theorem cleanupThreadCache_refines (t : ℕ) (ours : ℕ → Bool) (cpus : ℕ → ℕ × ℕ)
    (h : Rep b (fun _ => True) s a) (hok : a.Ok b.Avoids) :
    ∃ s', cleanupThreadCache b t ours cpus s = some s' ∧
      Rep b (fun _ => True) s' (Abs.cleanupThreadCache t ours cpus a) := by
  obtain ⟨s₁, hs₁, hrep⟩ := cleanup_refines (t := t) ours cpus h hok
    (List.nodup_range (n := numSizeClasses)) (fun _ _ => trivial) fun _ _ => trivial
  refine ⟨s₁.forget t, ?_, forget_refines hrep fun k hk => ⟨trivial, fun c _ => hk c⟩⟩
  unfold cleanupThreadCache
  rw [hs₁, Option.map_some]

end Exit

end Oxidalloc.CacheLists
