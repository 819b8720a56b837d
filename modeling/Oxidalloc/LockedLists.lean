import Oxidalloc.CacheListsSpec
import Oxidalloc.LockInvariants

/-!
The shared lists of the `InterConnectCache` in the hardened build, across all interleavings.
There each list of a CPU and a class has a lock, and `try_push` and `pop` hold it from their
first to their last access; `push_to_global` encodes the links of its chain before. Each
access to a head word, to a counter or to a `next` field is a step of its own. In all
interleavings each list is a stack of blocks: no tags are needed, and the counters are exact
whenever the lock is free.

`ensure_cache` has returned, and head words have no tag in this build. An exchange that is
tried again takes one of the tries that are given with the call.
-/
namespace Oxidalloc.LockedLists

open CacheLists EncodedChain HeadPacking Interleaving LockInvariants Function

/-- The CPU and the class. -/
abbrev Shard := ℕ × ℕ

inductive Word where
  | list (k : Shard)
  | usage (k : Shard)
  | next (ptr : ℕ)
  deriving DecidableEq

/-- What a call did under a lock, with the blocks of the chain. -/
inductive Event where
  | push (chain : List ℕ)
  | pop (batchSize : ℕ) (blocks : List ℕ)
  deriving DecidableEq, Repr

abbrev ListCode := Code Shard Word ℕ Event

section Codes

variable (numaKey : ℕ)

def xorPtrGeneral (ptr : ℕ) : ℕ := Build.xorPtr ⟨true, fun _ => 0, numaKey⟩ numaKey ptr

/-- The loop of `push_to_global` that encodes the links; it follows the old ones. -/
def encodeLoop : ℕ → ℕ → ℕ → ListCode Unit
  | 0, _, _ => .stuck
  | fuel + 1, curr, tail =>
    if curr = tail then pure ()
    else do
      let nextRaw ← Code.read (.next curr)
      Code.write (.next curr) (xorPtrGeneral numaKey nextRaw)
      encodeLoop fuel nextRaw tail

/-- The loop of `try_push`. The exchange is a weak one: a try may fail for no reason. -/
def pushLoop (k : Shard) (head tail batchSize : ℕ) : List Bool → ℕ → ListCode Unit
  | [], _ => .stuck
  | fails :: rest, currentHead => do
    Code.write (.next tail) currentHead
    let actual ← Code.modify (.list k) fun w =>
      if fails = false ∧ w = currentHead then xorPtrGeneral numaKey head else w
    if fails = false ∧ actual = currentHead then do
      let _ ← Code.modify (.usage k) fun u => (u + batchSize) % usizeBound
      pure ()
    else pushLoop k head tail batchSize rest actual

def tryPush (k : Shard) (chain : List ℕ) (tries : List Bool) : ListCode Unit := do
  Code.lock k
  let currentHead ← Code.read (.list k)
  pushLoop numaKey k (chain.headD 0) (chain.getLastD 0) chain.length tries currentHead
  Code.unlock k (.push chain) (chain.map .next) []

def pushToGlobal (k : Shard) (chain : List ℕ) (tries : List Bool) : ListCode Unit := do
  encodeLoop numaKey chain.length (chain.headD 0) (chain.getLastD 0)
  tryPush numaKey k chain tries

/-- The `for _ in 1..batch_size` loop of `pop`: the blocks before the last one, and the last
one. -/
def walkLoop : ℕ → List ℕ → ℕ → ListCode (List ℕ × ℕ)
  | 0, walked, tail => pure (walked, tail)
  | n + 1, walked, tail => do
    let nextEnc ← Code.read (.next tail)
    if nextEnc = 0 then pure (walked, tail)
    else walkLoop n (walked ++ [tail]) (xorPtrGeneral numaKey nextEnc)

/-- The loop at the end of `pop` that decodes the links; it follows the new ones. -/
def decodeLoop : ℕ → ℕ → ℕ → ListCode Unit
  | 0, _, _ => .stuck
  | fuel + 1, curr, tail =>
    if curr = tail then pure ()
    else do
      let nextEnc ← Code.read (.next curr)
      Code.write (.next curr) (xorPtrGeneral numaKey nextEnc)
      decodeLoop fuel (xorPtrGeneral numaKey nextEnc) tail

/-- What `pop` does after its exchange. The answer has the first block, and for the
statements all blocks. -/
def finishPop (k : Shard) (batchSize head : ℕ) (walked : List ℕ) (tail : ℕ) :
    ListCode (Option (ℕ × List ℕ)) := do
  let _ ← Code.modify (.usage k) fun u =>
    (u + (usizeBound - (walked.length + 1) % usizeBound)) % usizeBound
  decodeLoop numaKey (walked.length + 1) head tail
  Code.write (.next tail) 0
  Code.unlock k (.pop batchSize (walked ++ [tail])) [] ((walked ++ [tail]).map .next)
  pure (some (head, walked ++ [tail]))

def popLoop (k : Shard) (batchSize : ℕ) : ℕ → ListCode (Option (ℕ × List ℕ))
  | 0 => .stuck
  | tries + 1 => do
    let cur ← Code.read (.list k)
    if cur = 0 then do
      Code.unlock k (.pop batchSize []) [] []
      pure none
    else do
      let head := xorPtrGeneral numaKey cur
      let (walked, tail) ← walkLoop numaKey (batchSize - 1) [] head
      let newHead ← Code.read (.next tail)
      let actual ← Code.modify (.list k) fun w => if w = cur then newHead else w
      if actual = cur then finishPop numaKey k batchSize head walked tail
      else popLoop k batchSize tries

def pop (k : Shard) (batchSize tries : ℕ) : ListCode (Option (ℕ × List ℕ)) := do
  Code.lock k
  let u ← Code.read (.usage k)
  if u = 0 then do
    Code.unlock k (.pop batchSize []) [] []
    pure none
  else popLoop numaKey k batchSize tries

/-- The shards that `try_pop` visits, its own first. -/
def victims (cpu ncpu : ℕ) : List ℕ :=
  cpu :: (List.range' 1 (ncpu - 1)).map fun i => (cpu + i) % ncpu

def tryPop (cls batchSize tries : ℕ) : List ℕ → ListCode (ℕ × List ℕ)
  | [] => pure (0, [])
  | cpu :: rest => do
    match ← pop numaKey (cpu, cls) batchSize tries with
    | some found => pure found
    | none => tryPop cls batchSize tries rest

/-- A push is called with the CPU that `sched_getcpu` gives it, a pop with that and `ncpu`. -/
inductive Op where
  | pushToGlobal (k : Shard) (chain : List ℕ) (tries : List Bool)
  | popFromGlobal (cls batchSize cpu ncpu tries : ℕ)
  deriving DecidableEq, Repr

def body : Op → ListCode (ℕ × List ℕ)
  | .pushToGlobal k chain tries => do
    pushToGlobal numaKey k chain tries
    pure (0, [])
  | .popFromGlobal cls batchSize cpu ncpu tries =>
    tryPop numaKey cls batchSize tries (victims cpu ncpu)

/-- A block address that is not null under the key either. -/
def Good (b : ℕ) : Prop := b ≠ 0 ∧ 16 ∣ b ∧ b < usizeBound ∧ b ≠ numaKey

instance (b : ℕ) : Decidable (Good numaKey b) := inferInstanceAs (Decidable (_ ∧ _))

/-- A caller pushes a chain of its own blocks that it has linked, and some try of the weak
exchange is an honest one. -/
def ready : Op → Heap Word ℕ → Bool
  | .pushToGlobal _ chain tries, h =>
    decide (chain ≠ [] ∧ chain.Nodup ∧ (∀ b ∈ chain, Good numaKey b ∧ h (.next b) ≠ none) ∧
      chain.IsChain (fun x y => h (.next x) = some y) ∧ false ∈ tries)
  | .popFromGlobal _ _ _ _ tries, _ => decide (0 < tries)

end Codes

abbrev ListState := State Shard Word ℕ Event (ℕ × List ℕ) Op

/-- All lists are empty, and each block belongs to some thread. -/
def initial (next who : ℕ → ℕ) : ListState where
  mem
    | .list _ => 0
    | .usage _ => 0
    | .next b => next b
  holder _ := none
  log _ := []
  owner
    | .list k => .lock k
    | .usage k => .lock k
    | .next b => .thread (who b)
  code _ := none
  trail _ := []

section Stacks

/-- A stack of blocks that is pushed in chains and popped in batches of at least one. -/
def applyEvent (l : List ℕ) : Event → Option (List ℕ)
  | .push chain => some (chain ++ l)
  | .pop batchSize blocks =>
    if blocks = l.take (max batchSize 1) then some (l.drop (max batchSize 1)) else none

/-- The stack after the events, if each pop had the blocks that were on top. -/
def replay (log : List Event) : Option (List ℕ) := log.foldlM applyEvent []

theorem replay_append {log : List Event} {l : List ℕ} (e : Event) (h : replay log = some l) :
    replay (log ++ [e]) = applyEvent l e := by
  rw [replay, List.foldlM_append, ← replay, h]
  simp

/-- The blocks of a chain are in the heap; its links are stored under an encoding, from the
word w to the word e. -/
def ChainAt (enc : ℕ → ℕ) (h : Heap Word ℕ) (w : Option ℕ) (l : List ℕ) (e : Option ℕ) : Prop :=
  Stored (fun b => some (enc b)) (fun b => h (.next b)) w l e

variable (numaKey : ℕ)

/-- The part of the memory that the lock of a shard guards, with the stack in it. -/
structure Shelf (k : Shard) (l : List ℕ) (h : Heap Word ℕ) : Prop where
  usage : h (.usage k) = some l.length
  list : ChainAt (xorPtrGeneral numaKey) h (h (.list k)) l (some 0)
  only : ∀ b, h (.next b) ≠ none → b ∈ l
  nodup : l.Nodup
  good : ∀ b ∈ l, Good numaKey b

def Stocked (k : Shard) (log : List Event) (h : Heap Word ℕ) : Prop :=
  ∃ l, replay log = some l ∧ Shelf numaKey k l h

/-- A pop that gives blocks has taken them from the first shard that was not empty; one that
gives none has found all of them empty. -/
def Delivered : Op → List (Shard × Event) → ℕ × List ℕ → Prop
  | .pushToGlobal k chain _, trail, a => trail = [(k, .push chain)] ∧ a = (0, [])
  | .popFromGlobal cls batchSize cpu ncpu _, trail, a =>
    (a.2 = [] ∧ trail = (victims cpu ncpu).map fun c => ((c, cls), .pop batchSize [])) ∨
      ∃ before c after, victims cpu ncpu = before ++ c :: after ∧ a.2 ≠ [] ∧
        trail = (before.map fun c => ((c, cls), .pop batchSize [])) ++
          [((c, cls), .pop batchSize a.2)]

/-- The blocks are linked in the clear, up to null. -/
def Done (op : Op) (trail : List (Shard × Event)) (a : ℕ × List ℕ) (h : Heap Word ℕ) : Prop :=
  Delivered op trail a ∧ ChainAt id h (some a.1) a.2 (some 0)

end Stacks

section Chains

variable {numaKey b tail : ℕ} {l m : List ℕ} {h h' : Heap Word ℕ} {w e : Option ℕ} {enc : ℕ → ℕ}

theorem Good.isBlock (hb : Good numaKey b) : IsBlock b := ⟨hb.1, hb.2.1, hb.2.2.1⟩

theorem Good.avoids (hb : Good numaKey b) : Build.Avoids ⟨true, fun _ => 0, numaKey⟩ b := by
  refine ⟨hb.isBlock, ?_⟩
  intro _ k
  cases k with
  | bin t cls => exact hb.1
  | shard cpu cls => exact hb.2.2.2

theorem Good.xor_ne_zero (hb : Good numaKey b) : xorPtrGeneral numaKey b ≠ 0 :=
  xorPtr_ne_zero (k := .shard 0 0) hb.avoids

theorem Good.xor_xor (hb : Good numaKey b) :
    xorPtrGeneral numaKey (xorPtrGeneral numaKey b) = b :=
  xorPtr_xorPtr (k := .shard 0 0) hb.avoids

theorem chainAt_nil : ChainAt enc h w [] e ↔ w = e := Iff.rfl

theorem chainAt_cons :
    ChainAt enc h w (b :: l) e ↔ w = some (enc b) ∧ ChainAt enc h (h (.next b)) l e := Iff.rfl

theorem chainAt_append :
    ChainAt enc h w (l ++ m) e ↔ ∃ v, ChainAt enc h w l v ∧ ChainAt enc h v m e := stored_append

theorem ChainAt.congr (hl : ChainAt enc h w l e)
    (hsame : ∀ b ∈ l, h' (.next b) = h (.next b)) : ChainAt enc h' w l e :=
  Stored.congr hl hsame

theorem ChainAt.last (hl : ChainAt enc h w (l ++ [tail]) e) : h (.next tail) = e := by
  obtain ⟨u, _, hlast⟩ := chainAt_append.mp hl
  exact chainAt_nil.mp (chainAt_cons.mp hlast).2

/-- The first block of a chain that is not empty. -/
theorem ChainAt.first (hl : ChainAt enc h w (l ++ [tail]) e) :
    ∃ x, x ∈ l ++ [tail] ∧ w = some (enc x) := by
  cases l with
  | nil => exact ⟨tail, by simp, hl.1⟩
  | cons x l => exact ⟨x, by simp, hl.1⟩

theorem ChainAt.ne_none (hl : ChainAt enc h w l e) (he : e ≠ none) :
    ∀ b ∈ l, h (.next b) ≠ none := by
  induction l generalizing w with
  | nil =>
    intro b hb
    contradiction
  | cons x l ih =>
    obtain ⟨_, hrest⟩ := chainAt_cons.mp hl
    intro b hb
    rcases List.mem_cons.mp hb with rfl | hb
    · cases l with
      | nil => rwa [chainAt_nil.mp hrest]
      | cons y l =>
        rw [(chainAt_cons.mp hrest).1]
        simp
    · exact ih hrest b hb

/-- The link of another block is written. -/
theorem ChainAt.write_other {v : Option ℕ} (hl : ChainAt enc h w l e) (hb : b ∉ l) :
    ChainAt enc (update h (.next b) v) w l e := by
  refine hl.congr fun c hc => update_of_ne ?_ ..
  rw [ne_eq, Word.next.injEq]
  rintro rfl
  exact hb hc

/-- The last block is given another word. -/
theorem ChainAt.redirect {v : Option ℕ} (hl : ChainAt enc h w (l ++ [tail]) e) (htail : tail ∉ l) :
    ChainAt enc (update h (.next tail) v) w (l ++ [tail]) v := by
  obtain ⟨u, hbody, hlast⟩ := chainAt_append.mp hl
  exact chainAt_append.mpr
    ⟨u, hbody.write_other htail, (chainAt_cons.mp hlast).1, update_self ..⟩

/-- One link is written in another encoding, and then those of the rest. -/
theorem ChainAt.recoded {v : ℕ} (hl : ChainAt enc h' (some v) (l ++ [tail]) e)
    (hb : b ∉ l ++ [tail])
    (hother : ∀ x, (∀ c ∈ l, x ≠ .next c) → h' x = update h (.next b) (some v) x) :
    ChainAt enc h' (some (enc b)) (b :: l ++ [tail]) e ∧
      ∀ x, (∀ c ∈ b :: l, x ≠ .next c) → h' x = h x := by
  have hnext : h' (.next b) = some v := by
    refine (hother _ fun c hc heq => ?_).trans (update_self ..)
    rw [Word.next.injEq] at heq
    exact hb (heq ▸ List.mem_append_left [tail] hc)
  refine ⟨chainAt_cons.mpr ⟨rfl, hnext ▸ hl⟩, fun x hx => ?_⟩
  rw [hother x fun c hc => hx c (List.mem_cons_of_mem b hc)]
  exact update_of_ne (hx b List.mem_cons_self) ..

end Chains

section Loops

variable {numaKey : ℕ} {inv : Shard → List Event → Heap Word ℕ → Prop}
  {post : Unit → View Shard Word ℕ Event → Prop}
  {v : View Shard Word ℕ Event} {head tail fuel curr : ℕ} {l body : List ℕ} {h : Heap Word ℕ}
  {w e : Option ℕ} {k : Shard}

theorem encodeLoop_safe (hchain : ChainAt id v.mine (some curr) (body ++ [tail]) e)
    (hnodup : (body ++ [tail]).Nodup) (hfuel : body.length < fuel)
    (hpost : ∀ mine', ChainAt (xorPtrGeneral numaKey) mine' (some (xorPtrGeneral numaKey curr))
        (body ++ [tail]) e →
      (∀ x, (∀ b ∈ body, x ≠ .next b) → mine' x = v.mine x) →
      post () { v with mine := mine' }) :
    Safe inv post (encodeLoop numaKey fuel curr tail) v := by
  induction body generalizing v curr fuel with
  | nil =>
    obtain ⟨fuel, rfl⟩ := Nat.exists_eq_succ_of_ne_zero (Nat.ne_of_gt hfuel)
    obtain ⟨hcurr, hlast⟩ := chainAt_cons.mp hchain
    obtain rfl := Option.some.inj hcurr
    rw [encodeLoop, if_pos rfl]
    exact hpost v.mine (chainAt_cons.mpr ⟨rfl, hlast⟩) (fun _ _ => rfl)
  | cons b body ih =>
    obtain ⟨fuel, rfl⟩ := Nat.exists_eq_add_one.mpr (Nat.zero_lt_of_lt hfuel)
    obtain ⟨hcurr, hrest⟩ := chainAt_cons.mp hchain
    obtain rfl : curr = b := Option.some.inj hcurr
    rw [List.cons_append, List.nodup_cons] at hnodup
    obtain ⟨y, _, hy⟩ := hrest.first
    rw [id_eq] at hy
    have hne : curr ≠ tail := by
      rintro rfl
      exact hnodup.1 (by simp)
    rw [encodeLoop, if_neg hne, safe_bind]
    refine safe_read_mine hy ?_
    rw [safe_bind]
    refine safe_write_mine (by rw [hy]; simp) ?_
    refine ih ((hy ▸ hrest).write_other hnodup.1) hnodup.2 (Nat.lt_of_succ_lt_succ hfuel) ?_
    intro mine' hchain' hother
    obtain ⟨hchain', hother⟩ := hchain'.recoded hnodup.1 hother
    exact hpost mine' hchain' hother

/-- The links are decoded under the lock. -/
theorem decodeLoop_safe
    (hchain : ChainAt (xorPtrGeneral numaKey) v.shared (some (xorPtrGeneral numaKey curr))
      (body ++ [tail]) e)
    (hcurr : Good numaKey curr) (hgood : ∀ b ∈ body ++ [tail], Good numaKey b)
    (hnodup : (body ++ [tail]).Nodup) (hfuel : body.length < fuel)
    (hpost : ∀ shared', ChainAt id shared' (some curr) (body ++ [tail]) e →
      (∀ x, (∀ b ∈ body, x ≠ .next b) → shared' x = v.shared x) →
      post () { v with shared := shared' }) :
    Safe inv post (decodeLoop numaKey fuel curr tail) v := by
  induction body generalizing v curr fuel with
  | nil =>
    obtain ⟨fuel, rfl⟩ := Nat.exists_eq_succ_of_ne_zero (Nat.ne_of_gt hfuel)
    obtain ⟨heq, hlast⟩ := chainAt_cons.mp hchain
    have hsame := congrArg (xorPtrGeneral numaKey) (Option.some.inj heq)
    rw [hcurr.xor_xor, (hgood tail (by simp)).xor_xor] at hsame
    subst hsame
    rw [decodeLoop, if_pos rfl]
    exact hpost v.shared (chainAt_cons.mpr ⟨rfl, hlast⟩) (fun _ _ => rfl)
  | cons b body ih =>
    obtain ⟨fuel, rfl⟩ := Nat.exists_eq_add_one.mpr (Nat.zero_lt_of_lt hfuel)
    obtain ⟨heq, hrest⟩ := chainAt_cons.mp hchain
    have hsame := congrArg (xorPtrGeneral numaKey) (Option.some.inj heq)
    rw [hcurr.xor_xor, (hgood b (by simp)).xor_xor] at hsame
    subst hsame
    rw [List.cons_append, List.nodup_cons] at hnodup
    obtain ⟨y, hmem, hy⟩ := hrest.first
    have hy' : Good numaKey y := hgood y (List.mem_cons_of_mem curr hmem)
    have hne : curr ≠ tail := by
      rintro rfl
      exact hnodup.1 (by simp)
    rw [decodeLoop, if_neg hne, safe_bind]
    refine safe_read_shared hy ?_
    rw [safe_bind, hy'.xor_xor]
    refine safe_write_shared (by rw [hy]; simp) ?_
    refine ih ((hy ▸ hrest).write_other hnodup.1) hy'
      (fun c hc => hgood c (List.mem_cons_of_mem curr hc)) hnodup.2
      (Nat.lt_of_succ_lt_succ hfuel) ?_
    intro shared' hchain' hother
    obtain ⟨hchain', hother⟩ := hchain'.recoded hnodup.1 hother
    exact hpost shared' hchain' hother

/-- Under the lock the first honest try of the exchange succeeds. -/
theorem pushLoop_safe {w u batchSize : ℕ} {tries : List Bool} (hlist : v.shared (.list k) = some w)
    (husage : v.shared (.usage k) = some u)
    (hchain : ChainAt (xorPtrGeneral numaKey) v.mine (some (xorPtrGeneral numaKey head))
      (body ++ [tail]) e)
    (htail : tail ∉ body) (howned : v.mine (.next tail) ≠ none) (htries : false ∈ tries)
    (hpost : ∀ mine', ChainAt (xorPtrGeneral numaKey) mine' (some (xorPtrGeneral numaKey head))
        (body ++ [tail]) (some w) →
      (∀ x, x ≠ .next tail → mine' x = v.mine x) →
      post () { v with
        mine := mine'
        shared := update (update v.shared (.list k)
          (some (xorPtrGeneral numaKey head))) (.usage k)
          (some ((u + batchSize) % usizeBound)) }) :
    Safe inv post (pushLoop numaKey k head tail batchSize tries w) v := by
  induction tries generalizing v e with
  | nil => contradiction
  | cons fails rest ih =>
    rw [pushLoop, safe_bind]
    refine safe_write_mine howned ?_
    rw [safe_bind]
    refine safe_modify_shared hlist ?_
    cases fails with
    | false =>
      rw [if_pos ⟨rfl, rfl⟩, if_pos ⟨rfl, rfl⟩, safe_bind]
      have husage' : update v.shared (.list k) (some (xorPtrGeneral numaKey head))
          (.usage k) = some u := by
        rw [update_of_ne (by simp), husage]
      refine safe_modify_shared husage' (hpost _ (hchain.redirect htail) ?_)
      intro x hx
      exact update_of_ne hx ..
    | true =>
      dsimp only
      rw [if_neg (by simp), if_neg (by simp), ← hlist, update_eq_self, hlist]
      refine ih hlist husage (hchain.redirect htail) ?_ (by simpa using htries) ?_
      · dsimp only
        rw [update_self]
        simp
      · intro mine' hchain' hother
        refine hpost mine' hchain' ?_
        intro x hx
        rw [hother x hx]
        exact update_of_ne hx ..

end Loops

section Shelves

variable {numaKey : ℕ} {l chain m rest : List ℕ} {h h' mine : Heap Word ℕ} {k : Shard} {b : ℕ}

theorem moved_next : moved (chain.map .next) [] h' h (.next b) =
    if b ∈ chain then h' (.next b) else h (.next b) := by
  simp [moved]

theorem moved_next_away : moved [] (m.map .next) h' h (.next b) =
    if b ∈ m then none else h (.next b) := by
  simp [moved]

/-- A chain is put on top. -/
theorem Shelf.push {first w : ℕ} (hs : Shelf numaKey k l h) (hw : h (.list k) = some w)
    (hchain : ChainAt (xorPtrGeneral numaKey) h' (some first) chain (some w))
    (hnodup : chain.Nodup) (hgood : ∀ b ∈ chain, Good numaKey b) (hdisj : ∀ b ∈ chain, b ∉ l) :
    Shelf numaKey k (chain ++ l) (moved (chain.map .next) [] h'
      (update (update h (.list k) (some first)) (.usage k)
        (some ((l.length + chain.length) % usizeBound)))) := by
  have hall : (chain ++ l).Nodup := List.nodup_append'.mpr ⟨hnodup, hs.nodup, hdisj⟩
  have hgood' : ∀ b ∈ chain ++ l, Good numaKey b := by
    intro b hb
    rcases List.mem_append.mp hb with hb | hb
    · exact hgood b hb
    · exact hs.good b hb
  have hlength := length_lt_of_blocks hall (fun b hb => (hgood' b hb).isBlock)
  rw [List.length_append] at hlength
  refine ⟨?_, ?_, ?_, hall, hgood'⟩
  · have hvalue : (l.length + chain.length) % usizeBound = (chain ++ l).length := by
      rw [List.length_append, Nat.add_comm, Nat.mod_eq_of_lt hlength]
    simp [moved, hvalue]
  · have hword : moved (chain.map .next) [] h' (update (update h (.list k)
        (some first)) (.usage k) (some ((l.length + chain.length) % usizeBound))) (.list k) =
        some first := by
      simp [moved]
    rw [hword]
    refine chainAt_append.mpr ⟨some w, hchain.congr ?_, ?_⟩
    · intro b hb
      rw [moved_next, if_pos hb]
    · rw [← hw]
      refine hs.list.congr ?_
      intro b hb
      rw [moved_next, if_neg (fun hc => hdisj b hc hb), update_of_ne (by simp),
        update_of_ne (by simp)]
  · intro b hb
    rw [moved_next] at hb
    split at hb
    · rename_i hmem
      exact List.mem_append.mpr (Or.inl hmem)
    · rw [update_of_ne (by simp), update_of_ne (by simp)] at hb
      exact List.mem_append.mpr (Or.inr (hs.only b hb))

/-- The first blocks are taken away. -/
theorem Shelf.pop (hs : Shelf numaKey k (m ++ rest) h)
    (husage : h' (.usage k) = some rest.length)
    (hlist : ChainAt (xorPtrGeneral numaKey) h (h' (.list k)) rest (some 0))
    (hother : ∀ b, b ∉ m → h' (.next b) = h (.next b)) :
    Shelf numaKey k rest (moved [] (m.map .next) mine h') := by
  obtain ⟨_, hrest, hdisj⟩ := List.nodup_append'.mp hs.nodup
  refine ⟨?_, ?_, ?_, hrest, fun b hb => hs.good b (List.mem_append.mpr (Or.inr hb))⟩
  · simp [moved, husage]
  · have hword : moved [] (m.map .next) mine h' (.list k) = h' (.list k) := by
      simp [moved]
    rw [hword]
    refine hlist.congr ?_
    intro b hb
    have hnot : b ∉ m := fun hm => hdisj hm hb
    rw [moved_next_away, if_neg hnot, hother b hnot]
  · intro b hb
    rw [moved_next_away] at hb
    split at hb
    · contradiction
    · rename_i hnot
      rw [hother b hnot] at hb
      exact (List.mem_append.mp (hs.only b hb)).resolve_left hnot

theorem Shelf.exists_head (hs : Shelf numaKey k l h) : ∃ w, h (.list k) = some w := by
  cases l with
  | nil => exact ⟨0, chainAt_nil.mp hs.list⟩
  | cons b l => exact ⟨_, (chainAt_cons.mp hs.list).1⟩

end Shelves

section Push

variable {numaKey : ℕ} {k : Shard} {chain : List ℕ} {tries : List Bool} {h : Heap Word ℕ}

theorem chainAt_of_isChain {d : ℕ} (hne : chain ≠ [])
    (hlinks : chain.IsChain fun x y => h (.next x) = some y) :
    ∃ body e, chain = body ++ [chain.getLastD d] ∧
      ChainAt id h (some (chain.headD d)) chain e := by
  induction chain with
  | nil => exact absurd rfl hne
  | cons x l ih =>
    cases l with
    | nil => exact ⟨[], h (.next x), rfl, rfl, rfl⟩
    | cons y l =>
      obtain ⟨hxy, hrest⟩ := List.isChain_cons_cons.mp hlinks
      obtain ⟨body, e, hsplit, hchain⟩ := ih (List.cons_ne_nil y l) hrest
      refine ⟨x :: body, e, ?_, chainAt_cons.mpr ⟨rfl, ?_⟩⟩
      · rw [List.getLastD_cons, List.cons_append]
        rw [List.getLastD_cons] at hsplit
        rw [List.getLastD_cons, ← hsplit]
      · rw [hxy]
        exact hchain

theorem push_safe (hready : ready numaKey (.pushToGlobal k chain tries) h = true) :
    Safe (Stocked numaKey) (Ends (Done (.pushToGlobal k chain tries)))
      (LockedLists.body numaKey (.pushToGlobal k chain tries)) (.outside [] h) := by
  obtain ⟨hne, hnodup, howned, hlinks, htries⟩ := of_decide_eq_true hready
  obtain ⟨body, e, hsplit, hchain⟩ := chainAt_of_isChain (d := 0) hne hlinks
  rw [LockedLists.body, safe_bind, pushToGlobal, safe_bind, tryPush]
  generalize chain.headD 0 = head at hchain ⊢
  generalize chain.getLastD 0 = tail at hsplit ⊢
  subst hsplit
  have htail : tail ∉ body := by
    intro hmem
    exact (List.nodup_append'.mp hnodup).2.2 hmem (by simp)
  -- the links are encoded before the lock is taken
  refine encodeLoop_safe hchain hnodup (by simp) ?_
  intro mine₁ hchain₁ hother₁
  have howned₁ : mine₁ (.next tail) ≠ none := by
    rw [hother₁]
    · exact (howned tail (by simp)).2
    · intro b hb heq
      rw [Word.next.injEq] at heq
      exact htail (heq ▸ hb)
  rw [safe_bind]
  refine safe_lock rfl ?_
  rintro log shared hapart ⟨l, hreplay, hshelf⟩
  obtain ⟨w, hw⟩ := hshelf.exists_head
  rw [safe_bind]
  refine safe_read_shared hw ?_
  rw [safe_bind]
  refine pushLoop_safe hw hshelf.usage hchain₁ htail howned₁ htries ?_
  intro mine₂ hchain₂ hother₂
  have howned₂ := hchain₂.ne_none (by simp)
  have hdisj : ∀ b ∈ body ++ [tail], b ∉ l := by
    intro b hb hl
    have hmine := hchain₁.ne_none (e := e) (hchain₁.last ▸ howned₁) b hb
    rcases hapart (.next b) with hnone | hnone
    · exact hmine hnone
    · exact hshelf.list.ne_none (by simp) b hl hnone
  refine safe_unlock rfl ?_ (by simp) ?_ ⟨rfl, ⟨rfl, rfl⟩, rfl⟩
  · intro x hx
    obtain ⟨b, hb, rfl⟩ := List.mem_map.mp hx
    exact howned₂ b hb
  · refine ⟨(body ++ [tail]) ++ l, replay_append _ hreplay, ?_⟩
    exact hshelf.push hw hchain₂ hnodup (fun b hb => (howned b hb).1) hdisj

end Push

section Pop

variable {numaKey : ℕ} {k : Shard} {l : List ℕ} {h : Heap Word ℕ} {log : List Event}
  {v : View Shard Word ℕ Event} {batchSize tries : ℕ}

theorem walkLoop_safe {inv : Shard → List Event → Heap Word ℕ → Prop}
    {post : List ℕ × ℕ → View Shard Word ℕ Event → Prop} {w : Option ℕ} {walked rest : List ℕ}
    {n tail : ℕ} (hchain : ChainAt (xorPtrGeneral numaKey) v.shared w l (some 0))
    (hgood : ∀ b ∈ l, Good numaKey b) (hl : l = walked ++ tail :: rest)
    (hpost : ∀ walked' tail' rest', l = walked' ++ tail' :: rest' →
      walked'.length = walked.length + min n rest.length → post (walked', tail') v) :
    Safe inv post (walkLoop numaKey n walked tail) v := by
  induction n generalizing walked tail rest with
  | zero => exact hpost walked tail rest hl (by simp)
  | succ n ih =>
    have hnext :
        ChainAt (xorPtrGeneral numaKey) v.shared (v.shared (.next tail)) rest (some 0) := by
      rw [hl] at hchain
      obtain ⟨_, _, htail⟩ := chainAt_append.mp hchain
      exact (chainAt_cons.mp htail).2
    rw [walkLoop, safe_bind]
    cases rest with
    | nil =>
      refine safe_read_shared (chainAt_nil.mp hnext) ?_
      rw [if_pos rfl]
      exact hpost walked tail [] hl (by simp)
    | cons y rest =>
      have hy : Good numaKey y := hgood y (by simp [hl])
      refine safe_read_shared (chainAt_cons.mp hnext).1 ?_
      rw [if_neg hy.xor_ne_zero, hy.xor_xor]
      have hnext' : l = (walked ++ [tail]) ++ y :: rest := by simp [hl]
      refine ih hnext' ?_
      intro walked' tail' rest' hl' hlength
      refine hpost walked' tail' rest' hl' ?_
      rw [List.length_append, List.length_singleton] at hlength
      rw [List.length_cons]
      omega

/-- The batch is the top of the stack. -/
theorem take_batch {walked rest : List ℕ} {tail : ℕ} (hl : l = walked ++ tail :: rest)
    (hlength : walked.length = min (batchSize - 1) (l.length - 1)) :
    applyEvent l (.pop batchSize (walked ++ [tail])) = some rest := by
  have hsplit : l = (walked ++ [tail]) ++ rest := by simp [hl]
  have hlen : l.length = walked.length + 1 + rest.length := by
    rw [hl, List.length_append, List.length_cons]
    omega
  have hcount : max batchSize 1 = (walked ++ [tail]).length ∨
      rest = [] ∧ l.length ≤ max batchSize 1 := by
    rw [List.length_append, List.length_singleton]
    by_cases hle : batchSize - 1 ≤ l.length - 1
    · exact Or.inl (by omega)
    · refine Or.inr ⟨List.eq_nil_of_length_eq_zero (by omega), by omega⟩
  rcases hcount with hcount | ⟨rfl, hle⟩
  · rw [applyEvent, hcount, hsplit, List.take_left', List.drop_left', if_pos rfl]
    · rfl
    · rfl
  · rw [applyEvent, List.take_of_length_le hle, List.drop_of_length_le hle, if_pos]
    simpa using hsplit.symm

/-- A `fetch_sub` of no more than there is. -/
theorem fetchSub_eq {u count : ℕ} (hle : count ≤ u) (hlt : u < usizeBound) :
    (u + (usizeBound - count % usizeBound)) % usizeBound = u - count := by
  rw [Nat.mod_eq_of_lt (show count < usizeBound by omega),
    show u + (usizeBound - count) = u - count + usizeBound by omega, Nat.add_mod_right,
    Nat.mod_eq_of_lt (by omega)]

theorem finishPop_safe {post : Option (ℕ × List ℕ) → View Shard Word ℕ Event → Prop}
    {walked rest : List ℕ} {head tail newHead : ℕ} (hheld : v.held = some (k, log))
    (hreplay : replay log = some l)
    (hbatch : applyEvent l (.pop batchSize (walked ++ [tail])) = some rest)
    (hshelf : Shelf numaKey k ((walked ++ [tail]) ++ rest) h)
    (hm : ChainAt (xorPtrGeneral numaKey) h (some (xorPtrGeneral numaKey head)) (walked ++ [tail])
      (some newHead))
    (hrest : ChainAt (xorPtrGeneral numaKey) h (some newHead) rest (some 0))
    (hhead : Good numaKey head)
    (hshared : v.shared = update h (.list k) (some newHead))
    (hpost : ∀ mine', ChainAt id mine' (some head) (walked ++ [tail]) (some 0) →
      post (some (head, walked ++ [tail]))
        (.outside (v.trail ++ [(k, .pop batchSize (walked ++ [tail]))]) mine')) :
    Safe (Stocked numaKey) post (finishPop numaKey k batchSize head walked tail) v := by
  have hnodup := (List.nodup_append'.mp hshelf.nodup).1
  have htail : tail ∉ walked := fun hmem => (List.nodup_append'.mp hnodup).2.2 hmem (by simp)
  have hlt := length_lt_of_blocks hshelf.nodup (fun b hb => (hshelf.good b hb).isBlock)
  have husage : v.shared (.usage k) = some ((walked ++ [tail]) ++ rest).length := by
    rw [hshared, update_of_ne (by simp), hshelf.usage]
  have hcount : (((walked ++ [tail]) ++ rest).length +
      (usizeBound - (walked.length + 1) % usizeBound)) % usizeBound = rest.length := by
    rw [fetchSub_eq (by simp) hlt]
    simp only [List.length_append, List.length_singleton]
    omega
  rw [finishPop, safe_bind]
  refine safe_modify_shared husage ?_
  rw [hcount, safe_bind]
  generalize hshared₁ : update v.shared (.usage k) (some rest.length) = shared₁
  have hnext₁ : ∀ b, shared₁ (.next b) = h (.next b) := by
    intro b
    rw [← hshared₁, hshared, update_of_ne (by simp), update_of_ne (by simp)]
  refine decodeLoop_safe (hm.congr fun b _ => hnext₁ b) hhead
    (fun b hb => hshelf.good b (List.mem_append.mpr (Or.inl hb))) hnodup (by simp) ?_
  intro shared₂ hm₂ hother₂
  rw [safe_bind]
  refine safe_write_shared (hm₂.ne_none (by simp) tail (by simp)) ?_
  have hm₃ := hm₂.redirect (v := some 0) htail
  have hother₃ : ∀ x, (∀ b ∈ walked ++ [tail], x ≠ .next b) →
      update shared₂ (.next tail) (some 0) x = shared₁ x := by
    intro x hx
    rw [update_of_ne (hx tail (by simp))]
    exact hother₂ x (fun b hb => hx b (by simp [hb]))
  dsimp only
  generalize update shared₂ (.next tail) (some 0) = shared₃ at hm₃ hother₃ ⊢
  have hlist₃ : shared₃ (.list k) = some newHead := by
    rw [hother₃ _ (by simp), ← hshared₁, hshared, update_of_ne (by simp),
      update_self]
  have husage₃ : shared₃ (.usage k) = some rest.length := by
    rw [hother₃ _ (by simp), ← hshared₁, update_self]
  have hnext₃ : ∀ b, b ∉ walked ++ [tail] → shared₃ (.next b) = h (.next b) := by
    intro b hb
    rw [hother₃ _ ?_, hnext₁]
    intro c hc heq
    rw [Word.next.injEq] at heq
    exact hb (heq ▸ hc)
  rw [safe_bind]
  refine safe_unlock hheld (by simp) ?_ ?_ (hpost _ (hm₃.congr ?_))
  · intro x hx
    obtain ⟨b, hb, rfl⟩ := List.mem_map.mp hx
    exact hm₃.ne_none (by simp) b hb
  · rw [← hlist₃] at hrest
    exact ⟨rest, (replay_append _ hreplay).trans hbatch, hshelf.pop husage₃ hrest hnext₃⟩
  · intro b hb
    rw [moved_next, if_pos hb]

theorem popLoop_safe {post : Option (ℕ × List ℕ) → View Shard Word ℕ Event → Prop}
    (hheld : v.held = some (k, log)) (hreplay : replay log = some l)
    (hshelf : Shelf numaKey k l v.shared) (hne : l ≠ []) (htries : 0 < tries)
    (hpost : ∀ head blocks mine', blocks ≠ [] → ChainAt id mine' (some head) blocks (some 0) →
      post (some (head, blocks)) (.outside (v.trail ++ [(k, .pop batchSize blocks)]) mine')) :
    Safe (Stocked numaKey) post (popLoop numaKey k batchSize tries) v := by
  obtain ⟨tries, rfl⟩ := Nat.exists_eq_succ_of_ne_zero (Nat.ne_of_gt htries)
  obtain ⟨head, top, rfl⟩ := List.exists_cons_of_ne_nil hne
  have hhead := hshelf.good head (by simp)
  have hword := (chainAt_cons.mp hshelf.list).1
  rw [popLoop, safe_bind]
  refine safe_read_shared hword ?_
  rw [if_neg hhead.xor_ne_zero]
  dsimp only
  rw [hhead.xor_xor, safe_bind]
  have hstart : head :: top = [] ++ head :: top := rfl
  refine walkLoop_safe hshelf.list hshelf.good hstart ?_
  intro walked tail rest hl hlength
  have hbatch : applyEvent (head :: top) (.pop batchSize (walked ++ [tail])) = some rest :=
    take_batch hl (by simpa using hlength)
  rw [show head :: top = (walked ++ [tail]) ++ rest by simp [hl]] at hshelf
  obtain ⟨newHead, hnewHead⟩ := Option.ne_none_iff_exists'.mp
    (hshelf.list.ne_none (by simp) tail (by simp))
  obtain ⟨u, hm, hrest⟩ := chainAt_append.mp hshelf.list
  rw [← hm.last, hnewHead] at hrest
  rw [← hm.last, hnewHead, hword] at hm
  rw [safe_bind]
  refine safe_read_shared hnewHead ?_
  rw [safe_bind]
  refine safe_modify_shared hword ?_
  rw [if_pos rfl, if_pos rfl]
  exact finishPop_safe hheld hreplay hbatch hshelf hm hrest hhead rfl
    (fun mine' hchain => hpost head _ mine' (by simp) hchain)

theorem pop_safe {post : Option (ℕ × List ℕ) → View Shard Word ℕ Event → Prop}
    {trail : List (Shard × Event)} {mine : Heap Word ℕ} (htries : 0 < tries)
    (hnone : post none (.outside (trail ++ [(k, .pop batchSize [])]) mine))
    (hpost : ∀ head blocks mine', blocks ≠ [] → ChainAt id mine' (some head) blocks (some 0) →
      post (some (head, blocks)) (.outside (trail ++ [(k, .pop batchSize blocks)]) mine')) :
    Safe (Stocked numaKey) post (pop numaKey k batchSize tries) (.outside trail mine) := by
  rw [pop, safe_bind]
  refine safe_lock rfl ?_
  rintro log shared hapart ⟨l, hreplay, hshelf⟩
  rw [safe_bind]
  refine safe_read_shared hshelf.usage ?_
  split
  · rename_i hzero
    obtain rfl := List.eq_nil_of_length_eq_zero hzero
    rw [safe_bind]
    refine safe_unlock rfl (by simp) (by simp) ?_ ?_
    · refine ⟨[], (replay_append _ hreplay).trans (by simp [applyEvent]), ?_⟩
      rw [moved_nil]
      exact hshelf
    · rw [moved_nil]
      exact hnone
  · rename_i hne
    exact popLoop_safe rfl hreplay hshelf (fun hnil => hne (by rw [hnil]; rfl)) htries hpost

/-- The shards are visited in their order, up to the first that is not empty. -/
theorem tryPop_safe {cls : ℕ} {post : ℕ × List ℕ → View Shard Word ℕ Event → Prop}
    {cpus : List ℕ} {trail : List (Shard × Event)} {mine : Heap Word ℕ} (htries : 0 < tries)
    (hnone : post (0, [])
      (.outside (trail ++ cpus.map fun c => ((c, cls), .pop batchSize [])) mine))
    (hpost : ∀ before c after head blocks mine', cpus = before ++ c :: after → blocks ≠ [] →
      ChainAt id mine' (some head) blocks (some 0) →
      post (head, blocks)
        (.outside (trail ++ ((before.map fun c => ((c, cls), .pop batchSize [])) ++
          [((c, cls), .pop batchSize blocks)])) mine')) :
    Safe (Stocked numaKey) post (tryPop numaKey cls batchSize tries cpus)
      (.outside trail mine) := by
  induction cpus generalizing trail mine with
  | nil =>
    rw [List.map_nil, List.append_nil] at hnone
    exact hnone
  | cons cpu cpus ih =>
    rw [tryPop, safe_bind]
    refine pop_safe htries ?_ ?_
    · refine ih ?_ ?_
      · rw [List.append_assoc]
        exact hnone
      · intro before c after head blocks mine' hsplit hne hchain
        have hfound := hpost (cpu :: before) c after head blocks mine' (by rw [hsplit]; rfl) hne
          hchain
        rw [List.append_assoc]
        exact hfound
    · intro head blocks mine' hne hchain
      exact hpost [] cpu cpus head blocks mine' rfl hne hchain

theorem popFromGlobal_safe {cls cpu ncpu : ℕ}
    (hready : ready numaKey (.popFromGlobal cls batchSize cpu ncpu tries) h = true) :
    Safe (Stocked numaKey) (Ends (Done (.popFromGlobal cls batchSize cpu ncpu tries)))
      (body numaKey (.popFromGlobal cls batchSize cpu ncpu tries)) (.outside [] h) := by
  refine tryPop_safe (of_decide_eq_true hready) ?_ ?_
  · exact ⟨rfl, Or.inl ⟨rfl, rfl⟩, rfl⟩
  · intro before c after head blocks mine' hsplit hne hchain
    exact ⟨rfl, Or.inr ⟨before, c, after, hsplit, hne, rfl⟩, hchain⟩

end Pop

section Runs

variable {numaKey : ℕ} {next who : ℕ → ℕ} {s : ListState}

theorem body_safe (op : Op) (h : Heap Word ℕ) (hready : ready numaKey op h = true) :
    Safe (Stocked numaKey) (Ends (Done op)) (body numaKey op) (.outside [] h) := by
  cases op with
  | pushToGlobal k chain tries => exact push_safe hready
  | popFromGlobal cls batchSize cpu ncpu tries => exact popFromGlobal_safe hready

theorem inv_initial : LockInvariants.Inv (Stocked numaKey) Done (initial next who) := by
  have hfree : ∀ k, Stocked numaKey k [] ((initial next who).heap (.lock k)) := by
    intro k
    refine ⟨[], rfl, ?_, ?_, ?_, List.nodup_nil, by simp⟩
    · exact heap_eq_some.mpr ⟨rfl, rfl⟩
    · exact heap_eq_some.mpr ⟨rfl, rfl⟩
    · intro b hb
      have howner := heap_ne_none.mp hb
      contradiction
  refine ⟨fun k => ⟨_, hfree k⟩, fun k _ => hfree k, ?_, ?_⟩
  · intro t _ k hk
    contradiction
  · intro t op c hc
    contradiction

theorem run_lists {schedule : List (Action Word ℕ Op)}
    (hrun : run (step (body numaKey) (ready numaKey)) (initial next who) schedule = some s) :
    LockInvariants.Inv (Stocked numaKey) Done s :=
  run_inv body_safe inv_initial hrun

/-- A chain in the words of an owner is a chain in the memory. -/
theorem stored_of_chainAt {o : LockInvariants.Owner Shard} {enc : ℕ → ℕ} {w e : ℕ} {l : List ℕ}
    (hl : ChainAt enc (s.heap o) (some w) l (some e)) :
    Stored enc (fun b => s.mem (.next b)) w l e := by
  induction l generalizing w with
  | nil => exact Option.some.inj (chainAt_nil.mp hl)
  | cons b l ih =>
    have hb := hl.ne_none (by simp) b (by simp)
    obtain ⟨hw, hrest⟩ := chainAt_cons.mp hl
    refine ⟨Option.some.inj hw, ih ?_⟩
    rwa [heap_eq_some.mpr ⟨heap_ne_none.mp hb, rfl⟩] at hrest

/-- In every interleaving the calls on a shard are those on a stack, in the order in which
they held its lock. While the lock is free the memory has the stack, the counter its length,
and its blocks belong to nobody else. A call returns what it took, in the clear: a pop gives
the blocks of the first shard in its order that was not empty when it came there. -/
theorem shards_linearizable (numaKey : ℕ) (next who : ℕ → ℕ)
    (schedule : List (Action Word ℕ Op)) (s : ListState)
    (hrun : run (step (body numaKey) (ready numaKey)) (initial next who) schedule = some s) :
    (∀ k, ∃ l, replay (s.log k) = some l ∧ l.Nodup ∧
      (s.holder k = none → s.mem (.usage k) = l.length ∧
        Stored (xorPtrGeneral numaKey) (fun b => s.mem (.next b)) (s.mem (.list k)) l 0 ∧
        ∀ b, s.owner (.next b) = .lock k ↔ b ∈ l)) ∧
      ∀ t op a, s.code t = some (op, .ret a) → Delivered op (s.trail t) a ∧
        Stored id (fun b => s.mem (.next b)) a.1 a.2 0 ∧
        ∀ b ∈ a.2, s.owner (.next b) = .thread t := by
  have hinv := run_lists hrun
  refine ⟨?_, ?_⟩
  · intro k
    cases hholder : s.holder k with
    | some t =>
      obtain ⟨h, l, hreplay, hshelf⟩ := hinv.logs k
      exact ⟨l, hreplay, hshelf.nodup, by simp⟩
    | none =>
      obtain ⟨l, hreplay, hshelf⟩ := hinv.free k hholder
      obtain ⟨w, hw⟩ := hshelf.exists_head
      have hlist := hshelf.list
      rw [hw] at hlist
      refine ⟨l, hreplay, hshelf.nodup, fun _ => ⟨?_, ?_, ?_⟩⟩
      · exact (heap_eq_some.mp hshelf.usage).2
      · rw [(heap_eq_some.mp hw).2]
        exact stored_of_chainAt hlist
      · intro b
        rw [← heap_ne_none]
        exact ⟨hshelf.only b, hlist.ne_none (by simp) b⟩
  · intro t op a hcode
    obtain ⟨held, _, hends⟩ := hinv.busy t op _ hcode
    cases held with
    | some k =>
      have hnone := hends.1
      contradiction
    | none =>
      obtain ⟨_, hdelivered, hchain⟩ := hends
      refine ⟨hdelivered, stored_of_chainAt hchain, ?_⟩
      intro b hb
      exact heap_ne_none.mp (hchain.ne_none (by simp) b hb)

/-- A pop finds the lock taken while two blocks are pushed; one try of the exchange fails. -/
def racingPop : List (Action Word ℕ Op) :=
  [.call 0 (.pushToGlobal (0, 0) [16, 32] [true, false]), .advance 0, .advance 0, .advance 0,
    .call 1 (.popFromGlobal 0 8 0 1 1), .advance 1, .advance 0, .advance 0, .advance 0,
    .advance 1, .advance 0, .advance 0, .advance 0, .advance 0]

/-- The pop comes to its end after the push. -/
def finishedPop : List (Action Word ℕ Op) := racingPop ++ List.replicate 12 (.advance 1)

/-- What a call of the operation is about to return. -/
def answer (s : ListState) (t : ℕ) (op : Op) : Option (ℕ × List ℕ) :=
  match s.code t with
  | some (op', .ret a) => if op' = op then some a else none
  | _ => none

theorem answer_eq_some {s : ListState} {t : ℕ} {op : Op} {a : ℕ × List ℕ}
    (h : answer s t op = some a) : s.code t = some (op, .ret a) := by
  unfold answer at h
  split at h
  · rename_i op' a' hcode
    split at h
    · rename_i hop
      rw [hcode, hop, Option.some.inj h]
    · contradiction
  · contradiction

theorem finishedPop_result :
    (run (step (body 1000) (ready 1000)) (initial (fun b => b + 16) fun _ => 0) finishedPop).map
      (fun s => (s.holder (0, 0), s.log (0, 0), answer s 1 (.popFromGlobal 0 8 0 1 1))) =
        some (none, [.push [16, 32], .pop 8 [16, 32]], some (16, [16, 32])) := by
  decide +kernel

theorem shards_linearizable_finishedPop :
    ∃ s, run (step (body 1000) (ready 1000)) (initial (fun b => b + 16) fun _ => 0) finishedPop =
        some s ∧ s.mem (.usage (0, 0)) = 0 ∧
      Delivered (.popFromGlobal 0 8 0 1 1) (s.trail 1) (16, [16, 32]) ∧
      Stored id (fun b => s.mem (.next b)) 16 [16, 32] 0 ∧ s.owner (.next 32) = .thread 1 := by
  obtain ⟨s, hrun, hs⟩ := Option.map_eq_some_iff.mp finishedPop_result
  obtain ⟨hfree, hs⟩ := Prod.mk.inj hs
  obtain ⟨hlog, hanswer⟩ := Prod.mk.inj hs
  obtain ⟨hshards, hcalls⟩ := shards_linearizable 1000 _ _ finishedPop s hrun
  obtain ⟨l, hreplay, _, hmem⟩ := hshards (0, 0)
  rw [hlog] at hreplay
  obtain rfl : [] = l := Option.some.inj hreplay
  obtain ⟨hdelivered, hstored, howner⟩ := hcalls 1 _ _ (answer_eq_some hanswer)
  exact ⟨s, hrun, (hmem hfree).1, hdelivered, hstored, howner 32 (by decide)⟩

/-- No thread reads or writes a word of another thread, or a word of a shard whose lock it
does not hold, and every call can be completed whatever the others do. -/
theorem shards_race_free (numaKey : ℕ) (next who : ℕ → ℕ)
    (schedule : List (Action Word ℕ Op)) (s : ListState)
    (hrun : run (step (body numaKey) (ready numaKey)) (initial next who) schedule = some s) :
    (∀ t op x f c, s.code t = some (op, .access x f c) →
      s.owner x = .thread t ∨ ∃ k, s.owner x = .lock k ∧ s.holder k = some t) ∧
      ∀ t, ∃ rest s', run (step (body numaKey) (ready numaKey)) s rest = some s' ∧
        s'.code t = none := by
  have hinv := run_lists hrun
  refine ⟨?_, hinv.exists_return _ _⟩
  intro t op x f c hcode
  exact hinv.owner_of_access hcode

theorem racingPop_runs :
    (run (step (body 1000) (ready 1000)) (initial (fun b => b + 16) fun _ => 0)
      racingPop).isSome = true := by
  decide +kernel

theorem shards_race_free_racingPop :
    ∃ s rest s', run (step (body 1000) (ready 1000)) (initial (fun b => b + 16) fun _ => 0)
        racingPop = some s ∧ run (step (body 1000) (ready 1000)) s rest = some s' ∧
      s'.code 1 = none := by
  obtain ⟨s, hrun⟩ := Option.isSome_iff_exists.mp racingPop_runs
  obtain ⟨rest, s', hrest, hend⟩ := (shards_race_free 1000 _ _ racingPop s hrun).2 1
  exact ⟨s, rest, s', hrun, hrest, hend⟩

end Runs

end Oxidalloc.LockedLists
