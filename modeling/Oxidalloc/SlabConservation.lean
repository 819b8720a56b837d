import Oxidalloc.AbiSpec
import Oxidalloc.GTrimSpec
import Oxidalloc.Interleaving

/-!
The slab layer as a system: threads allocate and free blocks of slab classes and trim
the shared cache, in any order, each operation as one step. No block of a slab is ever
lost or in two places, and the counters are the lengths of the chains they count.
-/
namespace Oxidalloc.SlabConservation

open LinkedChain Interleaving Programs VaBitmap

/-- The world, and the pointers that the user holds. -/
structure State where
  world : World
  user : List ℕ

/-- The clock and the memory pressure are set from outside. -/
inductive Op where
  | malloc (t cls : ℕ)
  | free (t ptr : ℕ)
  | trim (pad : ℕ)
  | observe (stamp pressure : ℕ)

def initial (env : Env) (sys : ℕ → ℕ) : State := ⟨World.new env sys, []⟩

/-- A program that aborts ends the run; only pointers that the user holds are freed. -/
def step (s : State) : Op → Option State
  | .malloc t cls =>
    (outcome (allocateClass t cls) s.world).map fun (r, w) =>
      ⟨w, if r = 0 then s.user else r :: s.user⟩
  | .free t ptr =>
    if ptr ∈ s.user then
      (outcome (freeInternal t ptr) s.world).map fun (_, w) => ⟨w, s.user.erase ptr⟩
    else none
  | .trim pad => (outcome (GTrim.trim pad) s.world).map fun (_, w) => ⟨w, s.user⟩
  | .observe stamp pressure =>
    some ⟨{ s.world with currentStamp := stamp, lastPressureCheck := pressure }, s.user⟩

/-- Where a block slot can be. -/
inductive Location where
  | user
  | cache (k : Cache)
  | pending (t cls : ℕ)

/-- The slot with header h of the slab at b is at a location. -/
def At (s : State) (b h : ℕ) : Location → Prop
  | .user => h + headerSize ∈ s.user
  | .cache k => ∃ l, Chain s.world k l ∧ h ∈ l
  | .pending t cls =>
    s.world.pendingOf t cls = b ∧ b ≠ 0 ∧ MetaData.next s.world.mem b ≤ h ∧
      h < MetaData.stop s.world.mem b

/-- Every slot is in exactly one place, cached blocks are in a cache of their class, and
each counter is the length of its chain, so that it is positive before a block is taken. -/
structure Conserved (s : State) : Prop where
  slots : ∀ b cls, (b, cls) ∈ s.world.slabs.made → ∀ i < slabBlocks cls,
    ∃! place, At s b (slot b cls i) place
  user : s.user.Nodup
  caches : ∀ k, ∃ l, Chain s.world k l ∧ s.world.usageOf k = l.length ∧
    ∀ h ∈ l, OxHeader.cls s.world.mem h = k.cls
  counters : ∀ k, s.world.headOf k ≠ 0 → 0 < s.world.usageOf k

/-- The layout in which the user holds exactly its pointers, all of slab classes. -/
structure Laid (s : State) (g : Layout) : Prop where
  inv : Inv s.world g
  loose : NoLoose g
  nodup : s.user.Nodup
  user : ∀ p, p ∈ s.user ↔ ∃ h, p = h + 16 ∧ g.place h = some .held
  cls : ∀ h, g.place h = some .held → OxHeader.cls s.world.mem h < 34

section Read

variable {s : State} {g : Layout} {b h : ℕ}

theorem Laid.at_user (hs : Laid s g) : At s b h .user ↔ g.place h = some .held := by
  show h + 16 ∈ s.user ↔ _
  rw [hs.user]
  constructor
  · intro hex
    obtain ⟨h', heq, hheld⟩ := hex
    rw [show h = h' by omega]
    exact hheld
  · intro hheld
    exact ⟨h, rfl, hheld⟩

theorem Laid.at_cache (hs : Laid s g) (k : Cache) :
    At s b h (.cache k) ↔ g.place h = some (.cached k) := by
  obtain ⟨l, hchain, _, hmem⟩ := hs.inv.chains k
  rw [← hmem h]
  constructor
  · intro hex
    obtain ⟨l', hchain', hh⟩ := hex
    rw [hchain.unique hchain']
    exact hh
  · intro hh
    exact ⟨l, hchain, hh⟩

/-- The uncarved part of a slab belongs to the thread that has it pending. -/
theorem Laid.own_of_pending (hs : Laid s g) {t cls : ℕ} (hat : At s b h (.pending t cls)) :
    g.own h = .pending t cls := by
  obtain ⟨hpend, hb, hlo, hhi⟩ := hat
  obtain ⟨k, harea⟩ := hs.inv.pendings t cls (hpend ▸ hb)
  rw [hpend] at harea
  rw [harea.next] at hlo
  rw [harea.stop] at hhi
  have hlast := slot_end b cls
  have hk : k < slabBlocks cls := by
    by_contra hge
    rw [Nat.le_antisymm harea.le (Nat.le_of_not_lt hge)] at hlo
    omega
  refine harea.rawOwn h ?_ (by omega)
  rw [areaStart_of_lt hk]
  exact hlo

theorem Laid.own_of_place (hs : Laid s g) {pl : Place} (hpl : g.place h = some pl) :
    g.own h = .block h :=
  hs.inv.own_header hpl (Nat.le_refl h) (by omega)

/-- The places exclude each other because the layout is a function. -/
theorem Laid.at_unique (hs : Laid s g) {place place' : Location} (hat : At s b h place)
    (hat' : At s b h place') : place = place' := by
  have hmixed : ∀ {t cls pl}, At s b h (.pending t cls) → g.place h = some pl → False := by
    intro t cls pl hpend hpl
    have hown := hs.own_of_pending hpend
    rw [hs.own_of_place hpl] at hown
    exact absurd hown nofun
  cases place with
  | user =>
    have hheld := hs.at_user.mp hat
    cases place' with
    | user => rfl
    | cache k =>
      rw [hs.at_cache, hheld] at hat'
      exact absurd (Option.some.inj hat') nofun
    | pending t cls => exact (hmixed hat' hheld).elim
  | cache k =>
    have hcached := (hs.at_cache k).mp hat
    cases place' with
    | user =>
      rw [hs.at_user, hcached] at hat'
      exact absurd (Option.some.inj hat') nofun
    | cache k' =>
      rw [hs.at_cache, hcached] at hat'
      rw [Place.cached.inj (Option.some.inj hat')]
    | pending t cls => exact (hmixed hat' hcached).elim
  | pending t cls =>
    cases place' with
    | user => exact (hmixed hat (hs.at_user.mp hat')).elim
    | cache k => exact (hmixed hat ((hs.at_cache k).mp hat')).elim
    | pending t' cls' =>
      have hown := hs.own_of_pending hat
      rw [hs.own_of_pending hat', Owner.pending.injEq] at hown
      rw [hown.1, hown.2]

theorem Laid.exists_at (hs : Laid s g) (hnone : s.world.slabs.lost = []) {cls i : ℕ}
    (hmem : (b, cls) ∈ s.world.slabs.made) (hi : i < slabBlocks cls) :
    ∃ place, At s b (slot b cls i) place := by
  rcases (hs.inv.slabs b cls hmem).slots i hi with ⟨hplaced, _⟩ | ⟨t, hpend, hb, hnext⟩ | hlost
  · obtain ⟨pl, hpl⟩ := Option.ne_none_iff_exists'.mp hplaced
    cases pl with
    | held => exact ⟨.user, hs.at_user.mpr hpl⟩
    | loose c => exact absurd hpl (hs.loose _ c)
    | cached k => exact ⟨.cache k, (hs.at_cache k).mpr hpl⟩
  · obtain ⟨k, harea⟩ := hs.inv.pendings t cls (hpend ▸ hb)
    rw [hpend] at harea
    refine ⟨.pending t cls, hpend, hb, hnext, ?_⟩
    rw [harea.stop]
    exact slot_lt hi
  · rw [hnone] at hlost
    contradiction

theorem Laid.conserved (hs : Laid s g) (hnone : s.world.slabs.lost = []) : Conserved s where
  slots := by
    intro b cls hmem i hi
    obtain ⟨place, hat⟩ := hs.exists_at hnone hmem hi
    exact ⟨place, hat, fun _ hat' => hs.at_unique hat' hat⟩
  user := hs.nodup
  caches := by
    intro k
    obtain ⟨l, hchain, husage, hmem⟩ := hs.inv.chains k
    exact ⟨l, hchain, husage, fun h hh => (hs.inv.blocks h _ ((hmem h).mp hh)).2.2.1⟩
  counters := by
    intro k hhead
    obtain ⟨l, hchain, husage, _⟩ := hs.inv.chains k
    rw [husage]
    exact List.length_pos_of_mem (hchain.head_mem hhead)

end Read

section Steps

variable {s s' : State} {g : Layout}

theorem laid_initial (env : Env) (sys : ℕ → ℕ) :
    Laid (initial env sys) ⟨fun _ => none, fun _ => .free⟩ where
  inv := inv_new env sys
  loose := nofun
  nodup := List.nodup_nil
  user := fun _ => ⟨nofun, fun hex => absurd hex.choose_spec.2 nofun⟩
  cls := nofun

/-- The blocks that a step does not touch keep their class. -/
theorem cls_of_frame {w w' : World} {g g' : Layout} {touched : Set ℕ} {h : ℕ} (hinv : Inv w g)
    (hframe : Frame w g w' g' touched) (hh : h ∉ touched) (hheld : g.place h = some .held) :
    OxHeader.cls w'.mem h = OxHeader.cls w.mem h :=
  (OxHeader.fields_congr fun x hlo hhi =>
    (hframe.bytes h x hh hheld (hinv.own_header hheld hlo hhi)).2).2.1

/-- A step of the allocator alone, up to the record of the slabs. -/
theorem Laid.silent (hs : Laid s g) {w' w₁ : World} {g' : Layout} (hinv : Inv w' g')
    (hno : NoLoose g') (hframe : Frame s.world g w₁ g' ∅) (hmem : w'.mem = w₁.mem) :
    Laid ⟨w', s.user⟩ g' where
  inv := hinv
  loose := hno
  nodup := hs.nodup
  user := by
    intro p
    rw [hs.user]
    simp only [hframe.held _ (Set.notMem_empty _)]
  cls := by
    intro x hx
    have hheld := (hframe.held x (Set.notMem_empty _)).mp hx
    show OxHeader.cls w'.mem x < 34
    rw [hmem, cls_of_frame hs.inv hframe (Set.notMem_empty _) hheld]
    exact hs.cls x hheld

theorem Laid.reaches (hs : Laid s g) {w' : World} {g' : Layout} (h : Reaches s.world g w' g' ∅) :
    Laid ⟨w', s.user⟩ g' :=
  hs.silent h.inv h.loose h.frame rfl

theorem Laid.hands (hs : Laid s g) {w' : World} {g' : Layout} {h : ℕ}
    (hhands : Hands s.world g w' g' h) (hcls : OxHeader.cls w'.mem h < 34) :
    Laid ⟨w', (h + 16) :: s.user⟩ g' where
  inv := hhands.inv
  loose := hhands.loose
  nodup := by
    refine List.nodup_cons.mpr ⟨fun hmem => ?_, hs.nodup⟩
    obtain ⟨h', heq, hheld⟩ := (hs.user _).mp hmem
    rw [show h' = h by omega] at hheld
    exact hhands.fresh hheld
  user := by
    intro p
    rw [List.mem_cons, hs.user]
    constructor
    · intro hor
      rcases hor with heq | ⟨h', heq, hheld⟩
      · exact ⟨h, heq, hhands.held⟩
      · refine ⟨h', heq, ?_⟩
        by_cases hh : h' = h
        · rw [hh]
          exact hhands.held
        · exact (hhands.frame.held h' hh).mpr hheld
    · intro hex
      obtain ⟨h', heq, hheld⟩ := hex
      by_cases hh : h' = h
      · exact Or.inl (by rw [heq, hh])
      · exact Or.inr ⟨h', heq, (hhands.frame.held h' hh).mp hheld⟩
  cls := by
    intro x hx
    by_cases hxh : x = h
    · rw [hxh]
      exact hcls
    · have hheld := (hhands.frame.held x hxh).mp hx
      have hsame := cls_of_frame hs.inv hhands.frame hxh hheld
      have hlt := hs.cls x hheld
      rw [← hsame] at hlt
      exact hlt

/-- The layout after a step, which loses no slot. -/
def Lays (s s' : State) : Prop := (∃ g, Laid s' g) ∧ s'.world.slabs.lost = s.world.slabs.lost

theorem malloc_laid {t cls : ℕ} (hs : Laid s g) (h : step s (.malloc t cls) = some s') :
    Lays s s' := by
  rw [step, Option.map_eq_some_iff] at h
  obtain ⟨⟨r, w⟩, hrun, heq⟩ := h
  subst heq
  rcases allocateClass_spec hs.inv hs.loose (outcome_eq_some.mp hrun) with
    ⟨hr, g', hreach⟩ | ⟨header, g', hr, hhands, hlt, hcls⟩
  · dsimp only
    rw [if_pos hr]
    exact ⟨⟨g', hs.reaches hreach⟩, hreach.frame.lost⟩
  · dsimp only
    rw [if_neg (by omega), hr]
    exact ⟨⟨g', hs.hands hhands (by rw [hcls]; exact hlt)⟩, hhands.frame.lost⟩

/-- A held block goes back to the allocator. -/
theorem Laid.released (hs : Laid s g) {w' : World} {g' : Layout} {header : ℕ}
    (hreach : Reaches s.world g w' g' {header}) (hgone : g'.place header ≠ some .held) :
    Laid ⟨w', s.user.erase (header + 16)⟩ g' := by
  refine ⟨hreach.inv, hreach.loose, hs.nodup.erase _, fun p => ?_, fun x hx => ?_⟩
  · rw [hs.nodup.mem_erase_iff, hs.user]
    constructor
    · intro hand
      obtain ⟨hne, h', heq, hheld'⟩ := hand
      exact ⟨h', heq, (hreach.frame.held h' fun hh => hne (by rw [heq, hh])).mpr hheld'⟩
    · intro hex
      obtain ⟨h', heq, hheld'⟩ := hex
      have hne : h' ≠ header := fun hh => hgone (hh ▸ hheld')
      exact ⟨by omega, h', heq, (hreach.frame.held h' hne).mp hheld'⟩
  · have hne : x ≠ header := fun hh => hgone (hh ▸ hx)
    have hheld' := (hreach.frame.held x hne).mp hx
    rw [cls_of_frame hs.inv hreach.frame hne hheld']
    exact hs.cls x hheld'

theorem free_laid {t ptr : ℕ} (hs : Laid s g) (h : step s (.free t ptr) = some s') :
    Lays s s' := by
  rw [step] at h
  split at h
  · rename_i hmem
    obtain ⟨⟨u, w⟩, hrun, heq⟩ := Option.map_eq_some_iff.mp h
    subst heq
    obtain ⟨header, hptr, hheld⟩ := (hs.user ptr).mp hmem
    subst hptr
    have hslab := freeInternal_slab hs.inv hheld (hs.cls header hheld) (outcome_eq_some.mp hrun)
    obtain ⟨g', hreach, hgone, _⟩ :=
      slabFree_spec hs.inv hs.loose hheld rfl (hs.cls header hheld) hslab
    exact ⟨⟨g', hs.released hreach hgone⟩, hreach.frame.lost⟩
  · exact absurd h nofun

theorem step_laid {op : Op} (hs : ∃ g, Laid s g) (h : step s op = some s') : Lays s s' := by
  obtain ⟨g, hs⟩ := hs
  cases op with
  | malloc t cls => exact malloc_laid hs h
  | free t ptr => exact free_laid hs h
  | trim pad =>
    obtain ⟨⟨r, w⟩, hrun, heq⟩ := Option.map_eq_some_iff.mp h
    subst heq
    obtain ⟨g', hreach⟩ := GTrim.trim_spec hs.inv hs.loose (outcome_eq_some.mp hrun)
    exact ⟨⟨g', hs.reaches hreach⟩, hreach.frame.lost⟩
  | observe stamp pressure =>
    rw [← Option.some.inj h]
    refine ⟨⟨g, hs.reaches ⟨?_, hs.loose, frame_of_eq rfl rfl rfl id id fun _ => ⟨rfl, rfl⟩⟩⟩, rfl⟩
    exact hs.inv.statics rfl rfl rfl rfl rfl rfl (Or.inl ⟨rfl, rfl⟩) hs.inv.boot

theorem run_laid {env : Env} {sys : ℕ → ℕ} {ops : List Op}
    (hrun : run step (initial env sys) ops = some s) :
    (∃ g, Laid s g) ∧ s.world.slabs.lost = [] := by
  refine @run_invariant _ _ step (fun _ _ => True)
    (fun s => (∃ g, Laid s g) ∧ s.world.slabs.lost = []) ?_ _ _ _ ⟨⟨_, laid_initial env sys⟩, rfl⟩
    (guarded_trivial _) hrun
  intro s op s' hs _ hstep
  have hlays := step_laid hs.1 hstep
  exact ⟨hlays.1, hlays.2.trans hs.2⟩

end Steps

/-- Slab blocks are conserved: whatever the threads do, every slot of every slab is in
exactly one place, and the counters agree with the chains. -/
theorem slab_blocks_conserved (env : Env) (sys : ℕ → ℕ) (ops : List Op) (s : State)
    (hrun : run step (initial env sys) ops = some s) : Conserved s := by
  obtain ⟨⟨g, hs⟩, hnone⟩ := run_laid hrun
  exact hs.conserved hnone

/-- A kernel that grants everything; the tenth answer is the address of the segment. -/
def grantAll (n : ℕ) : ℕ := if n = 9 then 2 ^ 32 else 1

/-- Two threads allocate a block each, and the second frees the block of the first. -/
def crossFree : List Op := [.malloc 0 20, .malloc 1 20, .free 1 4294971440, .trim 0]

theorem crossFree_result :
    (run step (initial ⟨none, none, 1⟩ grantAll) crossFree).map
        (fun s => (s.user, s.world.slabs.made)) =
      some ([4294979632], [(4294979584, 20), (4294971392, 20)]) := by
  decide +kernel

theorem slab_blocks_conserved_crossFree :
    ∃ s, run step (initial ⟨none, none, 1⟩ grantAll) crossFree = some s ∧
      s.user = [4294979632] ∧ s.world.slabs.made = [(4294979584, 20), (4294971392, 20)] ∧
      Conserved s := by
  obtain ⟨s, hrun, heq⟩ := Option.map_eq_some_iff.mp crossFree_result
  obtain ⟨huser, hslabs⟩ := Prod.mk.inj heq
  exact ⟨s, hrun, huser, hslabs,
    slab_blocks_conserved ⟨none, none, 1⟩ grantAll crossFree s hrun⟩

end Oxidalloc.SlabConservation
