import Oxidalloc.HeapRefinement

/-!
Where the blocks of the process are. Every slot of every slab is with exactly one pointer of
the user, in exactly one cache, in the part of its slab that one thread has still to carve, or
lost: the cleanup of a thread's cache passes over the pending slab of a class whose bin is
empty, and no slot is lost in another way. Every pointer of the user leads to one block that
passes the checks of `free`, `realloc` and `malloc_usable_size`, and no other pointer leads
there. Every block of a cache is of the class of the cache and carries the mark of freed blocks,
as the check of `trim` wants it.
-/
namespace Oxidalloc.Process

open ByteMemory Programs Interleaving LinkedChain

/-- Where a block slot can be. -/
inductive Location where
  | pointer (ptr : ℕ)
  | cache (k : Cache)
  | pending (t cls : ℕ)
  | lost

/-- The test for the tag leads from the pointer to the header. -/
def LeadsTo (w : World) (ptr h : ℕ) : Prop :=
  ∃ offset, Runs (resolve ptr) w (h + headerSize, offset) w

/-- The slot with header h of the slab at b is at a location. -/
def At (s : State) (b h : ℕ) : Location → Prop
  | .pointer ptr => s.live ptr ≠ none ∧ LeadsTo s.world ptr h
  | .cache k => ∃ l, Chain s.world k l ∧ h ∈ l
  | .pending t cls =>
    s.world.pendingOf t cls = b ∧ b ≠ 0 ∧ MetaData.next s.world.mem b ≤ h ∧
      h < MetaData.stop s.world.mem b
  | .lost => h ∈ s.world.slabs.lost

/-- A header that the calls accept: it carries the mark of blocks in use, and the size that is
recorded for it, behind the pointer, is at least the requested one. -/
structure Passes (w : World) (ptr size h : ℕ) : Prop where
  leads : LeadsTo w ptr h
  valid : Runs (validatePtrForAbi h) w () w
  usable : ∃ n, Runs (mallocUsableSize ptr) w n w ∧ size ≤ n

structure Accounted (s : State) : Prop where
  slots : ∀ b cls, (b, cls) ∈ s.world.slabs.made → ∀ i < slabBlocks cls,
    ∃! place, At s b (slot b cls i) place
  passes : ∀ ptr size, s.live ptr = some size → ∃ h, Passes s.world ptr size h
  apart : ∀ ptr ptr' h, s.live ptr ≠ none → s.live ptr' ≠ none → LeadsTo s.world ptr h →
    LeadsTo s.world ptr' h → ptr = ptr'
  cached : ∀ ptr h k l, s.live ptr ≠ none → LeadsTo s.world ptr h → Chain s.world k l → h ∉ l
  caches : ∀ k, ∃ l, Chain s.world k l ∧ s.world.usageOf k = l.length ∧ ∀ h ∈ l,
    s.world.isOurs h = true ∧ OxHeader.cls s.world.mem h = k.cls ∧
      OxHeader.magic s.world.mem h = s.world.freedMagic

variable {s : State} {g : Layout} {ptr size h b t cls : ℕ} {k : Cache}

theorem Points.leadsTo_iff {w : World} {h' : ℕ} (hp : Points w g ptr size h) (hinv : Inv w g) :
    LeadsTo w ptr h' ↔ h' = h := by
  constructor
  · rintro ⟨offset, hrun⟩
    have hsame := (hrun.unique (hp.resolve hinv)).1
    exact Nat.add_right_cancel (congrArg Prod.fst hsame)
  · rintro rfl
    exact ⟨_, hp.resolve hinv⟩

/-- A pointer of the user leads to a block that the user holds. -/
theorem Valid.leadsTo (hs : Valid s g) (hlive : s.live ptr ≠ none)
    (hleads : LeadsTo s.world ptr h) : ∃ size, s.live ptr = some size ∧
      Points s.world g ptr size h := by
  obtain ⟨size, hlive⟩ := Option.ne_none_iff_exists'.mp hlive
  obtain ⟨h', hp⟩ := hs.header ptr size hlive
  obtain rfl := (hp.leadsTo_iff hs.inv).mp hleads
  exact ⟨size, hlive, hp⟩

theorem Valid.at_pointer (hs : Valid s g) (hat : At s b h (.pointer ptr)) :
    g.place h = some .held := by
  obtain ⟨_, _, hp⟩ := hs.leadsTo hat.1 hat.2
  exact hp.held

theorem Valid.at_cache (hs : Valid s g) :
    At s b h (.cache k) ↔ g.place h = some (.cached k) := by
  obtain ⟨l, hchain, _, hmem⟩ := hs.inv.chains k
  rw [← hmem h]
  constructor
  · rintro ⟨l', hchain', hh⟩
    rwa [hchain.unique hchain']
  · intro hh
    exact ⟨l, hchain, hh⟩

/-- The uncarved part of a slab belongs to the thread that has it pending. -/
theorem Valid.own_of_pending (hs : Valid s g) (hat : At s b h (.pending t cls)) :
    g.own h = .pending t cls := by
  obtain ⟨hpend, hb, hlo, hhi⟩ := hat
  obtain ⟨k, harea⟩ := hs.inv.pendings t cls (hpend ▸ hb)
  rw [hpend] at harea
  rw [harea.next] at hlo
  rw [harea.stop] at hhi
  have hlast := slot_end b cls
  have hk : k < slabBlocks cls := by
    by_contra hge
    rw [Nat.le_antisymm harea.le (Nat.le_of_not_lt hge)] at hlo
    omega
  refine harea.rawOwn h ?_ (by omega)
  rwa [areaStart_of_lt hk]

/-- A slot that is not carved, or lost, is no block. -/
theorem Valid.place_of_raw {pl : Place} (hs : Valid s g) (hpl : g.place h = some pl) :
    (∀ t cls, ¬ At s b h (.pending t cls)) ∧ ¬ At s b h .lost := by
  have hown := hs.inv.own_header hpl (Nat.le_refl h) (by omega)
  refine ⟨fun t cls hpend => ?_, fun hlost => ?_⟩
  · rw [hs.own_of_pending hpend] at hown
    exact absurd hown (by simp)
  · rw [hs.inv.lost h hlost] at hown
    exact absurd hown (by simp)

/-- The places exclude each other because the layout is a function. -/
theorem Valid.at_unique {place place' : Location} (hs : Valid s g) (hat : At s b h place)
    (hat' : At s b h place') : place = place' := by
  cases place with
  | pointer ptr =>
    have hheld := hs.at_pointer hat
    cases place' with
    | pointer ptr' =>
      obtain ⟨size, hlive, hp⟩ := hs.leadsTo hat.1 hat.2
      obtain ⟨size', hlive', hp'⟩ := hs.leadsTo hat'.1 hat'.2
      rw [hs.unique ptr ptr' size size' h hlive hlive' hp hp']
    | cache k =>
      rw [hs.at_cache, hheld] at hat'
      exact absurd hat' (by simp)
    | pending t cls => exact absurd hat' ((hs.place_of_raw hheld).1 t cls)
    | lost => exact absurd hat' (hs.place_of_raw (b := b) hheld).2
  | cache k =>
    have hcached := hs.at_cache.mp hat
    cases place' with
    | pointer ptr =>
      rw [hs.at_pointer hat'] at hcached
      exact absurd hcached (by simp)
    | cache k' =>
      rw [hs.at_cache, hcached] at hat'
      rw [Place.cached.inj (Option.some.inj hat')]
    | pending t cls => exact absurd hat' ((hs.place_of_raw hcached).1 t cls)
    | lost => exact absurd hat' (hs.place_of_raw (b := b) hcached).2
  | pending t cls =>
    have hown := hs.own_of_pending hat
    cases place' with
    | pointer ptr => exact absurd hat ((hs.place_of_raw (hs.at_pointer hat')).1 t cls)
    | cache k => exact absurd hat ((hs.place_of_raw (hs.at_cache.mp hat')).1 t cls)
    | pending t' cls' =>
      rw [hs.own_of_pending hat', Owner.pending.injEq] at hown
      rw [hown.1, hown.2]
    | lost =>
      rw [hs.inv.lost h hat'] at hown
      exact absurd hown (by simp)
  | lost =>
    cases place' with
    | pointer ptr => exact absurd hat (hs.place_of_raw (b := b) (hs.at_pointer hat')).2
    | cache k => exact absurd hat (hs.place_of_raw (b := b) (hs.at_cache.mp hat')).2
    | pending t cls =>
      have hown := hs.own_of_pending hat'
      rw [hs.inv.lost h hat] at hown
      exact absurd hown (by simp)
    | lost => rfl

theorem Valid.exists_at {i : ℕ} (hs : Valid s g) (hmem : (b, cls) ∈ s.world.slabs.made)
    (hi : i < slabBlocks cls) : ∃ place, At s b (slot b cls i) place := by
  rcases (hs.inv.slabs b cls hmem).slots i hi with ⟨hplaced, _⟩ | ⟨t, hpend, hb, hnext⟩ | hlost
  · obtain ⟨pl, hpl⟩ := Option.ne_none_iff_exists'.mp hplaced
    cases pl with
    | held =>
      obtain ⟨ptr, size, hlive, hp⟩ := hs.pointer _ hpl
      exact ⟨.pointer ptr, by simp [hlive], (hp.leadsTo_iff hs.inv).mpr rfl⟩
    | loose c => exact absurd hpl (hs.loose _ c)
    | cached k => exact ⟨.cache k, hs.at_cache.mpr hpl⟩
  · obtain ⟨k, harea⟩ := hs.inv.pendings t cls (hpend ▸ hb)
    rw [hpend] at harea
    refine ⟨.pending t cls, hpend, hb, hnext, ?_⟩
    rw [harea.stop]
    exact slot_lt hi
  · exact ⟨.lost, hlost⟩

theorem Points.passes {w : World} (hp : Points w g ptr size h) (hinv : Inv w g) :
    Passes w ptr size h := by
  have hstart := hp.start
  have hfits := hp.fits
  exact ⟨⟨_, hp.resolve hinv⟩, hp.validate hinv, _, hp.usable hinv, by omega⟩

theorem Valid.accounted (hs : Valid s g) : Accounted s where
  slots := by
    intro b cls hmem i hi
    obtain ⟨place, hat⟩ := hs.exists_at hmem hi
    exact ⟨place, hat, fun _ hat' => hs.at_unique hat' hat⟩
  passes := by
    intro ptr size hlive
    obtain ⟨h, hp⟩ := hs.header ptr size hlive
    exact ⟨h, hp.passes hs.inv⟩
  apart := by
    intro ptr ptr' h hlive hlive' hleads hleads'
    obtain ⟨size, hsize, hp⟩ := hs.leadsTo hlive hleads
    obtain ⟨size', hsize', hp'⟩ := hs.leadsTo hlive' hleads'
    exact hs.unique ptr ptr' size size' h hsize hsize' hp hp'
  cached := by
    intro ptr h k l hlive hleads hchain hmem
    obtain ⟨_, _, hp⟩ := hs.leadsTo hlive hleads
    have hcached := hs.at_cache (b := 0) |>.mp ⟨l, hchain, hmem⟩
    rw [hp.held] at hcached
    exact absurd hcached (by simp)
  caches := by
    intro k
    obtain ⟨l, hchain, husage, hmem⟩ := hs.inv.chains k
    refine ⟨l, hchain, husage, fun h hh => ?_⟩
    have hplace := (hmem h).mp hh
    obtain ⟨_, _, hcls, hmagic⟩ := hs.inv.blocks h _ hplace
    exact ⟨hs.inv.isOurs_block hplace, hcls, hmagic⟩

/-- The slots that an action loses. -/
def losses (s : State) : Action → List ℕ
  | .cleanup t => s.world.passedOver t
  | _ => []

theorem Valid.step_lost {s' : State} {a : Action} (hs : Valid s g) (h : step s a = some s') :
    s'.world.slabs.lost = losses s a ++ s.world.slabs.lost := by
  cases a with
  | call t c =>
    rw [step] at h
    split at h
    · obtain ⟨⟨r, w'⟩, hrun, rfl⟩ := Option.map_eq_some_iff.mp h
      exact (checked_perform.runs (outcome_eq_some.mp hrun)).lost
    · contradiction
  | trim pad =>
    obtain ⟨⟨r, w'⟩, hrun, rfl⟩ := Option.map_eq_some_iff.mp h
    obtain ⟨g', hreach⟩ := GTrim.trim_spec hs.inv hs.loose (outcome_eq_some.mp hrun)
    exact hreach.frame.lost
  | cleanup t =>
    obtain ⟨⟨u, w'⟩, hrun, rfl⟩ := Option.map_eq_some_iff.mp h
    have hlost := (tame_cleanupThreadCache.runs (outcome_eq_some.mp hrun)).lost
    exact congrArg (s.world.passedOver t ++ ·) hlost
  | observe stamp pressure =>
    obtain rfl := Option.some.inj h
    rfl

/-- An action of the run has lost the slot. -/
def LostBy (s : State) (actions : List Action) (h : ℕ) : Prop :=
  ∃ first a rest s₀, actions = first ++ a :: rest ∧ run step s first = some s₀ ∧ h ∈ losses s₀ a

theorem lostBy_cons {s' : State} {a : Action} {rest : List Action} (hstep : step s a = some s') :
    LostBy s (a :: rest) h ↔ h ∈ losses s a ∨ LostBy s' rest h := by
  constructor
  · rintro ⟨first, b, last, s₀, heq, hrun, hmem⟩
    cases first with
    | nil =>
      obtain ⟨rfl, rfl⟩ := List.cons.inj heq
      obtain rfl : s = s₀ := Option.some.inj hrun
      exact Or.inl hmem
    | cons c first =>
      obtain ⟨rfl, rfl⟩ := List.cons.inj heq
      obtain ⟨s₁, hfirst, hrun⟩ := run_cons hrun
      obtain rfl : s' = s₁ := Option.some.inj (hstep.symm.trans hfirst)
      exact Or.inr ⟨first, b, last, s₀, rfl, hrun, hmem⟩
  · rintro (hmem | ⟨first, b, last, s₀, rfl, hrun, hmem⟩)
    · exact ⟨[], a, rest, s, rfl, rfl, hmem⟩
    · refine ⟨a :: first, b, last, s₀, rfl, ?_, hmem⟩
      rw [run, hstep]
      exact hrun

/-- A slot that is lost stays lost. -/
theorem Valid.run_lost {s' : State} {actions : List Action} (hs : Valid s g)
    (hok : Guarded step Regular s actions) (hrun : run step s actions = some s') :
    h ∈ s'.world.slabs.lost ↔ LostBy s actions h ∨ h ∈ s.world.slabs.lost := by
  induction actions generalizing s g with
  | nil =>
    obtain rfl : s = s' := Option.some.inj hrun
    refine ⟨Or.inr, fun hor => hor.resolve_left ?_⟩
    rintro ⟨first, a, rest, _, heq, _⟩
    simp at heq
  | cons a rest ih =>
    obtain ⟨s₁, hstep, hrest⟩ := run_cons hrun
    obtain ⟨⟨g₁, hs₁⟩, _⟩ := hs.step_trace hok.1 hstep
    rw [ih hs₁ (hok.2 s₁ hstep) hrest, hs.step_lost hstep, List.mem_append, lostBy_cons hstep,
      or_left_comm, or_assoc]

/-- Every block of the process is accounted for, whatever the threads call, and the slots that
are lost are those that the cleanups of the run have passed over. -/
theorem process_blocks_accounted (env : Env) (henv : env.forceThp ≠ some 1) (sys : ℕ → ℕ)
    (actions : List Action) (s : State) (hok : Guarded step Regular (initial env sys) actions)
    (hrun : run step (initial env sys) actions = some s) :
    Accounted s ∧ ∀ h, h ∈ s.world.slabs.lost ↔ LostBy (initial env sys) actions h := by
  obtain ⟨g, hs⟩ := ((valid_initial henv).run_trace hok hrun).1
  refine ⟨hs.accounted, fun h => ?_⟩
  rw [(valid_initial henv).run_lost hok hrun]
  exact or_iff_left List.not_mem_nil

/-- A block of three is with the user behind an aligned pointer, one is in the cache of the
thread that freed it, and one is not carved yet. Another thread has a block of two, and its
cache is cleaned up before the second block is carved. -/
def mixedSlabs : List Action :=
  [.call 0 (.posixMemalign 64 1900), .call 0 (.malloc 2000), .call 1 (.free 4294973504),
    .observe 7 0, .call 2 (.malloc 3000), .cleanup 2]

theorem process_blocks_accounted_mixed :
    ∃ s, run step (initial ⟨none, none, 1⟩ SlabConservation.grantAll) mixedSlabs = some s ∧
      s.world.slabs.made = [(4294979584, 20), (4294971392, 18)] ∧
      s.world.slabs.lost = [4294982704] ∧ Accounted s ∧
      LostBy (initial ⟨none, none, 1⟩ SlabConservation.grantAll) mixedSlabs 4294982704 := by
  have hresult : (run step (initial ⟨none, none, 1⟩ SlabConservation.grantAll) mixedSlabs).map
      (fun s => (s.world.slabs.made, s.world.slabs.lost)) =
        some ([(4294979584, 20), (4294971392, 18)], [4294982704]) := by
    decide +kernel
  obtain ⟨s, hrun, heq⟩ := Option.map_eq_some_iff.mp hresult
  obtain ⟨hmade, hlost⟩ := Prod.mk.inj heq
  obtain ⟨haccounted, hlosses⟩ := process_blocks_accounted ⟨none, none, 1⟩ (by decide)
    SlabConservation.grantAll mixedSlabs s (by decide +kernel) hrun
  refine ⟨s, hrun, hmade, hlost, haccounted, (hlosses _).mp ?_⟩
  rw [hlost]
  exact List.mem_singleton_self _

end Oxidalloc.Process
