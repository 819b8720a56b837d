import Oxidalloc.OwnedCalls

/-!
The growth of a block where it is. The map gives the pages behind the block, and the kernel
is asked to make them writable; if it does not, the pages are given back. Both ranges are
computed from the rounded sizes. They are the same just for a big block whose header is at the
start of a page. For the only block of a slab the writable range is too long, and pages
that could not be made writable are never given back.
-/
namespace Oxidalloc.Records

open Hashmap Programs Interleaving ByteMemory

variable {o : Oracle} {s s' : State} {n r header size cls cap ptr q : ℕ} {effects : List Effect}

/-- The pages that calls to the map have claimed. -/
def ClaimedBy (effects : List Effect) (q : ℕ) : Prop :=
  ∃ addr len, .claim addr len ∈ effects ∧ Covers addr len q

/-- The pages that the kernel has made writable. -/
def CommittedBy (effects : List Effect) (q : ℕ) : Prop :=
  ∃ addr len, .commit addr len ∈ effects ∧ Covers addr len q

theorem Extends.log_eq {old new : ℕ} (h : Extends o s header old new s') :
    ∃ claims, s'.log = s.log ++ claims ∧
      ∀ e, e ∈ claims ↔ old < new ∧
        e = .claim ((header / 4096 + old) * 4096) ((new - old) * 4096) := by
  cases h with
  | same heq =>
    refine ⟨[], (List.append_nil _).symm, fun e => ⟨nofun, fun he => ?_⟩⟩
    exact absurd he.1 (by omega)
  | claimed k hlt _ =>
    refine ⟨[_], rfl, fun e => ?_⟩
    simp only [List.mem_singleton, hlt, true_and]

theorem State.giveBack_log (s : State) (start len k : ℕ) :
    ((s.giveBack start len).later k).log =
      s.log ++ [.discard start len, .forbid start len, .release start len] := by
  show ((s.log ++ [_]) ++ [_]) ++ [_] = _
  rw [List.append_assoc, List.append_assoc]
  rfl

/-- The log has no new growth. -/
def NoGrowth (s s' : State) : Prop :=
  ∃ more, s'.log = s.log ++ more ∧ ∀ h len, .grow h len ∉ more

theorem noGrowth_of_eq (h : s'.log = s.log) : NoGrowth s s' :=
  ⟨[], by rw [h, List.append_nil], fun _ _ => List.not_mem_nil⟩

theorem NoGrowth.trans {s₁ : State} (h : NoGrowth s s₁) (h' : NoGrowth s₁ s') :
    NoGrowth s s' := by
  obtain ⟨first, hfirst, hnone⟩ := h
  obtain ⟨more, hmore, hnone'⟩ := h'
  refine ⟨first ++ more, by rw [hmore, hfirst, List.append_assoc], fun x len hmem => ?_⟩
  rcases List.mem_append.mp hmem with hleft | hright
  · exact hnone x len hleft
  · exact hnone' x len hright

theorem Prepares.noGrowth (h : Prepares o s s') : NoGrowth s s' := by
  induction h with
  | refl => exact noGrowth_of_eq rfl
  | wait n _ ih => exact ih
  | undone hint len n owner _ _ ih =>
    refine ih.trans ⟨[.claim hint len, .release hint len], List.append_assoc _ _ _, ?_⟩
    simp only [List.mem_cons, reduceCtorEq, List.not_mem_nil, or_self, not_false_eq_true,
      implies_true]

theorem Extends.owner_iff {s₁ : State} {old new : ℕ} (hexact : o.Exact)
    (h : Extends o s header old new s₁) : s₁.owner = s.owner ↔ new = old := by
  cases h with
  | same heq => exact ⟨fun _ => heq, fun _ => rfl⟩
  | claimed k hlt hadmits =>
    refine ⟨fun howner => ?_, fun heq => absurd heq (by omega)⟩
    -- the first of the new pages had no owner
    have hq := (@covers_behind header (header / 4096 + old) old new (by omega)).mpr
      ⟨by omega, by omega⟩
    have hnone := (hexact.free hadmits).2 _ hq
    have hsome := @claim_owner_self s _ _ (.block header) _ hq
    exact absurd (hnone.symm.trans ((congrFun howner _).symm.trans hsome)) nofun

section Commit

variable [Layout]

theorem Reclasses.log_eq {newCls : ℕ} (h : Reclasses s header cls newCls size s') :
    s'.log = s.log := by
  cases h <;> rfl

/-- The effects of a resize where the block is: none, those of a range that is given back, or
those of a range that is added. -/
theorem Resizes.effect_cases (h : Resizes o s header cls cap n true s')
    (hlog : s'.log = s.log ++ effects) :
    effects = [] ∨
      (extent (newClass n) n < extent cls cap ∧ freedLen cls cap n % 4096 = 0 ∧
        ∀ e ∈ effects, e = .discard (freedStart header n) (freedLen cls cap n) ∨
          e = .forbid (freedStart header n) (freedLen cls cap n) ∨
          e = .release (freedStart header n) (freedLen cls cap n)) ∨
      (extent cls cap < extent (newClass n) n ∧
        ∀ e, e ∈ effects ↔ (pagesOf (cap + headerSize) < pagesOf (newCapacity n + headerSize) ∧
            e = .claim ((header / 4096 + pagesOf (cap + headerSize)) * 4096)
              ((pagesOf (newCapacity n + headerSize) - pagesOf (cap + headerSize)) * 4096)) ∨
          e = .grow header (pagesOf (newCapacity n + headerSize) * 4096) ∨
          e = .commit (growStart header cls cap) (growLen cls cap n)) := by
  cases h with
  | same _ _ hre => exact Or.inl (List.self_eq_append_right.mp (hre.log_eq ▸ hlog))
  | kept _ => exact Or.inl (List.self_eq_append_right.mp hlog)
  | refusedShrink k hlt hlen =>
    refine Or.inr (Or.inl ⟨hlt, hlen, fun e he => Or.inl ?_⟩)
    rw [← List.append_cancel_left hlog] at he
    exact List.mem_singleton.mp he
  | shrunk k _ hlt hlen hre =>
    refine Or.inr (Or.inl ⟨hlt, hlen, fun e he => ?_⟩)
    rw [hre.log_eq] at hlog
    have hall := List.append_cancel_left (hlog.symm.trans (State.giveBack_log s _ _ k))
    simpa only [hall, List.mem_cons, List.not_mem_nil, or_false] using he
  | grown k s₁ _ hgt hext hre =>
    obtain ⟨claims, hclaims, hmem⟩ := hext.log_eq
    refine Or.inr (Or.inr ⟨hgt, fun e => ?_⟩)
    rw [hre.log_eq] at hlog
    have hall : effects = claims ++ [.grow header (pagesOf (newCapacity n + headerSize) * 4096),
        .commit (growStart header cls cap) (growLen cls cap n)] := by
      refine List.append_cancel_left (hlog.symm.trans ?_)
      show (s₁.log ++ [_]) ++ [_] = _
      rw [hclaims, List.append_assoc, List.append_assoc]
      rfl
    simp only [hall, List.mem_append, List.mem_cons, List.not_mem_nil, or_false, hmem]

theorem Extends.extended_log {old : ℕ}
    (h : Extends o s header old (pagesOf (newCapacity n + headerSize)) s') :
    ∃ claims, (s'.extended header n).log = s.log ++ claims ∧ ∀ x len, .grow x len ∈ claims →
      len = pagesOf (newCapacity n + headerSize) * 4096 := by
  obtain ⟨claims, hclaims, hmem⟩ := h.log_eq
  refine ⟨claims ++ [.grow header (pagesOf (newCapacity n + headerSize) * 4096)], ?_,
    fun x len hx => ?_⟩
  · rw [← List.append_assoc, ← hclaims]
    rfl
  · simp only [List.mem_append, hmem, List.mem_singleton, reduceCtorEq, and_false, false_or,
      Effect.grow.injEq] at hx
    exact hx.2

/-- The only growth in the log of a resize is that of the block. -/
theorem Resizes.log_extends {b : Bool} (h : Resizes o s header cls cap n b s') :
    ∃ more, s'.log = s.log ++ more ∧ ∀ x len, .grow x len ∈ more →
      extent cls cap < extent (newClass n) n ∧
        len = pagesOf (newCapacity n + headerSize) * 4096 := by
  cases h with
  | same _ _ hre =>
    exact ⟨[], by rw [hre.log_eq, List.append_nil], fun _ _ h => absurd h List.not_mem_nil⟩
  | kept _ => exact ⟨[], (List.append_nil _).symm, fun _ _ h => absurd h List.not_mem_nil⟩
  | refusedShrink k _ _ =>
    refine ⟨[_], rfl, fun x len hmem => ?_⟩
    simp only [List.mem_cons, reduceCtorEq, List.not_mem_nil, or_self] at hmem
  | shrunk k _ _ _ hre =>
    refine ⟨_, hre.log_eq.trans (State.giveBack_log s _ _ k), fun x len hmem => ?_⟩
    simp only [List.mem_cons, reduceCtorEq, List.not_mem_nil, or_self] at hmem
  | refused k _ => exact ⟨[], (List.append_nil _).symm, fun _ _ h => absurd h List.not_mem_nil⟩
  | grown k s₁ _ hgt hext hre =>
    obtain ⟨claims, hclaims, hgrow⟩ := hext.extended_log
    refine ⟨claims ++ [.commit (growStart header cls cap) (growLen cls cap n)], ?_,
      fun x len hx => ⟨hgt, hgrow x len ?_⟩⟩
    · rw [hre.log_eq, ← List.append_assoc, ← hclaims]
      rfl
    · simpa only [List.mem_append, List.mem_singleton, reduceCtorEq, or_false] using hx
  | stuck k s₁ hgt hext _ =>
    obtain ⟨claims, hclaims, hgrow⟩ := hext.extended_log
    exact ⟨claims, hclaims, fun x len hx => ⟨hgt, hgrow x len hx⟩⟩
  | undone k s₁ hgt hext _ _ =>
    obtain ⟨claims, hclaims, hgrow⟩ := hext.extended_log
    refine ⟨claims ++ [.release (header + extent cls cap) (growLen cls cap n)], ?_,
      fun x len hx => ⟨hgt, hgrow x len ?_⟩⟩
    · rw [← List.append_assoc, ← hclaims]
      rfl
    · simpa only [List.mem_append, List.mem_singleton, reduceCtorEq, or_false] using hx

/-- The pages of a block that has grown: those that the map gave and those that are writable. -/
theorem Resizes.grown_pages (h : Resizes o s header cls cap n true s')
    (hlog : s'.log = s.log ++ effects) (hgrow : ∃ len, .grow header len ∈ effects) :
    extent cls cap < extent (newClass n) n ∧
      ∀ q, (ClaimedBy effects q ↔ header / 4096 + pagesOf (cap + headerSize) ≤ q ∧
          q < header / 4096 + pagesOf (newCapacity n + headerSize)) ∧
        (CommittedBy effects q ↔ Covers (growStart header cls cap) (growLen cls cap n) q) := by
  obtain ⟨len, hgrow⟩ := hgrow
  rcases h.effect_cases hlog with rfl | ⟨_, _, hall⟩ | ⟨hgt, hall⟩
  · exact absurd hgrow List.not_mem_nil
  · have hkind := hall _ hgrow
    simp only [reduceCtorEq, or_self] at hkind
  · refine ⟨hgt, fun q => ⟨?_, ?_⟩⟩
    · simp only [ClaimedBy, hall, Effect.claim.injEq, reduceCtorEq, or_self, or_false]
      constructor
      · rintro ⟨addr, len, ⟨hlt, rfl, rfl⟩, hq⟩
        exact (covers_behind (by omega)).mp hq
      · intro hq
        exact ⟨_, _, ⟨by omega, rfl, rfl⟩, (covers_behind (by omega)).mpr hq⟩
    · simp only [CommittedBy, hall, reduceCtorEq, and_false, false_or, Effect.commit.injEq]
      constructor
      · rintro ⟨addr, len, ⟨rfl, rfl⟩, hq⟩
        exact hq
      · intro hq
        exact ⟨_, _, ⟨rfl, rfl⟩, hq⟩

/-- For a big block at the start of a page the range that is made writable is the new one. -/
theorem covers_grown (halign : header % 4096 = 0) :
    Covers (growStart header 100 cap) (growLen 100 cap n) q ↔
      header / 4096 + pagesOf (cap + headerSize) ≤ q ∧
        q < header / 4096 + pagesOf (newCapacity n + headerSize) := by
  have hstart : growStart header 100 cap = (header / 4096 + pagesOf (cap + headerSize)) * 4096 := by
    rw [growStart, extent_big]
    unfold pagesOf
    omega
  have hlen : growLen 100 cap n =
      (pagesOf (newCapacity n + headerSize) - pagesOf (cap + headerSize)) * 4096 := by
    rw [growLen, extent_big, Nat.sub_mul]
  rw [hstart, hlen, covers_pages, Nat.mul_div_cancel _ (by decide)]
  omega

/-- For a block of a slab class one page too many is made writable. -/
theorem covers_grown_slab (hcls : cls < 34) :
    Covers (growStart header cls (payload cls)) (growLen cls (payload cls) n) q ↔
      growStart header cls (payload cls) / 4096 ≤ q ∧
        q < growStart header cls (payload cls) / 4096 +
          (pagesOf (newCapacity n + headerSize) + 1 - pagesOf (payload cls + headerSize)) := by
  have hmod := (payload_page hcls).1
  have hlen : pagesOf (growLen cls (payload cls) n) =
      pagesOf (newCapacity n + headerSize) + 1 - pagesOf (payload cls + headerSize) := by
    rw [growLen, extent_slab hcls]
    unfold pagesOf
    omega
  rw [Covers, hlen]

/-- A block that grows makes writable just what it claims if and only if it is big and its
header is at the start of a page. -/
theorem growth_commits_its_claim (o : Oracle) (s s' : State) (header cls cap n : ℕ)
    (effects : List Effect) (hrec : Recorded s header cls cap)
    (hrun : Runs (resizeInplace o header cls cap n) s true s') (hlog : s'.log = s.log ++ effects)
    (hgrow : ∃ len, .grow header len ∈ effects) :
    (∀ q, ClaimedBy effects q ↔ CommittedBy effects q) ↔ cls = 100 ∧ header % 4096 = 0 := by
  obtain ⟨hgt, hpages⟩ := (runs_resizeInplace hrec hrun).grown_pages hlog hgrow
  have hnew := newExtent_bounds n
  constructor
  · intro hsame
    rcases hrec with ⟨rfl, _⟩ | ⟨hcls, rfl⟩
    · refine ⟨rfl, ?_⟩
      by_contra hodd
      -- the first page that is claimed lies in front of the writable ones
      rw [extent_big] at hgt
      have hfirst := (hpages (header / 4096 + pagesOf (cap + headerSize))).1.mpr (by omega)
      have hcommit := (hpages _).2.mp ((hsame _).mp hfirst)
      rw [Covers, growStart, extent_big, Nat.mul_div_cancel _ (by decide)] at hcommit
      unfold pagesOf at hcommit
      omega
    · -- as many pages as are claimed do not reach from the first to the last writable one
      have hold := extent_bounds (Or.inr ⟨hcls, rfl⟩ : Recorded s header cls (payload cls))
      have hcovers : ∀ q, Covers (growStart header cls (payload cls))
          (growLen cls (payload cls) n) q → header / 4096 + pagesOf (payload cls + headerSize) ≤ q ∧
            q < header / 4096 + pagesOf (newCapacity n + headerSize) := fun q hq =>
        (hpages q).1.mp ((hsame q).mpr ((hpages q).2.mpr hq))
      have hle : pagesOf (payload cls + headerSize) ≤ pagesOf (newCapacity n + headerSize) := by
        unfold pagesOf at *
        omega
      have hfirst := hcovers _ ((covers_grown_slab hcls).mpr ⟨Nat.le_refl _, by omega⟩)
      have hlast := hcovers (growStart header cls (payload cls) / 4096 +
        (pagesOf (newCapacity n + headerSize) - pagesOf (payload cls + headerSize)))
        ((covers_grown_slab hcls).mpr ⟨by omega, by omega⟩)
      omega
  · rintro ⟨rfl, halign⟩ q
    rw [(hpages q).1, (hpages q).2, covers_grown halign]

end Commit

/-- A block of 3000000 bytes grows to 4000000, and one of 4096 bytes to 8192. -/
theorem growth_results :
    ((run (step (listed [1048576])) (initial false) [.malloc 3000000]).bind fun s =>
      (outcome (resizeInplace (listed [1048576]) 1048576 100 3000000 4000000) s).map fun x =>
        (s.entry 1048576, s.log, x.1, x.2.log)) =
      some (some 3000000, [.claim 1048576 3002368, .commit 1048576 3002368], true,
        [.claim 1048576 3002368, .commit 1048576 3002368, .claim 4050944 999424,
          .grow 1048576 4001792, .commit 4050944 999424]) ∧
    ((run (step (listed [0, 0, 1048576])) (initial false) [.malloc 4096]).bind fun s =>
      (outcome (perform (listed [0, 0, 1048576]) (.realloc 1048624 8192)) s).map fun x =>
        (s.log, x.1, x.2.log)) =
      some ([.claim 1048576 4144], 1048624,
        [.claim 1048576 4144, .claim 1056768 4096, .grow 1048608 12288, .commit 1056768 8176]) := by
  decide +kernel

/-- A block of 3000000 bytes grows to 4000000. -/
theorem growth_commits_its_claim_big :
    ∃ s s', run (step (listed [1048576])) (initial false) [.malloc 3000000] = some s ∧
      Runs (resizeInplace (listed [1048576]) 1048576 100 3000000 4000000) s true s' ∧
      ∃ effects, s'.log = s.log ++ effects ∧ ∀ q, ClaimedBy effects q ↔ CommittedBy effects q := by
  obtain ⟨s, b, s', hrun, hruns, hs'⟩ := exists_outcome growth_results.1
  simp only [Prod.mk.injEq] at hs'
  obtain ⟨hentry, hlog, rfl, hlog'⟩ := hs'
  refine ⟨s, s', hrun, hruns,
    [.claim 4050944 999424, .grow 1048576 4001792, .commit 4050944 999424],
    by rw [hlog, hlog']; rfl, ?_⟩
  exact (growth_commits_its_claim _ s s' 1048576 100 3000000 4000000 _ (Or.inl ⟨rfl, hentry⟩) hruns
    (by rw [hlog, hlog']; rfl) ⟨4001792, by decide⟩).mpr ⟨rfl, by decide⟩

/-- A block of 4096 bytes that grows to 8192 claims one page, and two are made writable. -/
theorem slab_growth_commits_more :
    ∃ s s', run (step (listed [0, 0, 1048576])) (initial false) [.malloc 4096] = some s ∧
      Runs (perform (listed [0, 0, 1048576]) (.realloc 1048624 8192)) s 1048624 s' ∧
      ∃ effects, s'.log = s.log ++ effects ∧ .grow 1048608 12288 ∈ effects ∧
        CommittedBy effects 259 ∧ ¬ ClaimedBy effects 259 := by
  obtain ⟨s, r, s', hrun, hruns, hs'⟩ := exists_outcome growth_results.2
  simp only [Prod.mk.injEq] at hs'
  obtain ⟨hlog, rfl, hlog'⟩ := hs'
  refine ⟨s, s', hrun, hruns,
    [.claim 1056768 4096, .grow 1048608 12288, .commit 1056768 8176], by rw [hlog, hlog']; rfl,
    by decide, ⟨1056768, 8176, by decide, by decide⟩, ?_⟩
  rintro ⟨addr, len, hmem, hq⟩
  simp only [List.mem_cons, Effect.claim.injEq, reduceCtorEq, List.not_mem_nil, or_false] at hmem
  obtain ⟨rfl, rfl⟩ := hmem
  exact absurd hq (by decide)

section Undo

variable [Layout]

/-- A block has got pages behind its own. -/
def Enlarges (effects : List Effect) (header cap n : ℕ) : Prop :=
  (∃ len, .grow header len ∈ effects) ∧
    pagesOf (cap + headerSize) < pagesOf (newCapacity n + headerSize)

theorem enlarges_nil : ¬ Enlarges [] header cap n := by
  rintro ⟨⟨_, hgrow⟩, _⟩
  exact absurd hgrow List.not_mem_nil

/-- A failed growth leaves the owners as they were if it has got no page, or if the block is
big and its header at the start of a page. -/
theorem Resizes.undone_iff (hexact : o.Exact) (hrec : Recorded s header cls cap)
    (h : Resizes o s header cls cap n false s') (hlog : s'.log = s.log ++ effects) :
    s'.owner = s.owner ↔ (Enlarges effects header cap n → cls = 100 ∧ header % 4096 = 0) := by
  have hnew := newExtent_bounds n
  have hold := extent_bounds hrec
  have hhead := headerSize_cases
  cases h with
  | refused k _ =>
    obtain rfl := List.self_eq_append_right.mp hlog
    refine ⟨fun _ henlarges => ?_, fun _ => rfl⟩
    exact absurd henlarges enlarges_nil
  | stuck k s₁ hgt hext hodd =>
    have hmem : .grow header (pagesOf (newCapacity n + headerSize) * 4096) ∈ effects := by
      obtain ⟨claims, hclaims, _⟩ := hext.log_eq
      have hall : s.log ++ (claims ++
          [.grow header (pagesOf (newCapacity n + headerSize) * 4096)]) = s.log ++ effects := by
        rw [← List.append_assoc, ← hclaims]
        exact hlog
      rw [← List.append_cancel_left hall]
      exact List.mem_append_right _ (List.mem_singleton_self _)
    have hpages : pagesOf (cap + headerSize) ≤ pagesOf (newCapacity n + headerSize) := by
      unfold pagesOf at *
      omega
    have hnot : ¬ (cls = 100 ∧ header % 4096 = 0) := by
      rintro ⟨rfl, halign⟩
      rw [growLen, extent_big] at hodd
      omega
    rw [show ((s₁.extended header n).later k).owner = s₁.owner from rfl, hext.owner_iff hexact]
    refine ⟨fun heq henlarges => absurd henlarges.2 (by omega), fun himp => ?_⟩
    by_contra hne
    exact hnot (himp ⟨⟨_, hmem⟩, by omega⟩)
  | undone k s₁ hgt hext hstart hlen =>
    have hcls : cls = 100 := by
      refine (extent_mod hrec.class_cases cap).mp ?_
      unfold growLen at hlen
      omega
    have halign : header % 4096 = 0 := by
      rw [hcls, extent_big] at hstart
      omega
    exact ⟨fun _ _ => ⟨hcls, halign⟩, fun _ =>
      Resizes.undone_owner hexact (Or.inl halign) hrec hgt hext hstart⟩

theorem Mallocs.noGrowth (h : Mallocs o s size r s') : NoGrowth s s' := by
  obtain ⟨s₁, hprepares, hgives⟩ := h
  refine hprepares.noGrowth.trans ?_
  cases hgives with
  | nothing n => exact noGrowth_of_eq rfl
  | cached n b cls _ _ _ _ _ => exact noGrowth_of_eq rfl
  | carved n b cls _ _ _ _ _ _ => exact noGrowth_of_eq rfl
  | opened k n hint cls _ _ _ _ _ _ =>
    refine ⟨[.claim hint (slabTotal cls)], rfl, fun x len hmem => ?_⟩
    simp only [List.mem_cons, reduceCtorEq, List.not_mem_nil, or_self] at hmem
  | big k n hint _ _ commits _ _ _ _ _ hmem =>
    refine ⟨.claim hint (reserved s₁.thp size) :: commits, List.append_assoc _ _ _,
      fun x len hx => ?_⟩
    rcases hmem with ⟨_, rfl⟩ | ⟨_, rfl⟩ <;>
      simp only [List.mem_cons, reduceCtorEq, List.not_mem_nil, or_self] at hx

theorem Frees.noGrowth (h : Frees s header s') : NoGrowth s s' := by
  cases h with
  | slab _ _ _ => exact noGrowth_of_eq rfl
  | big n info _ _ =>
    refine ⟨_, State.giveBack_log s header (reserved s.thp info.size) n, fun x len hx => ?_⟩
    simp only [List.mem_cons, reduceCtorEq, List.not_mem_nil, or_self] at hx

theorem Moves.noGrowth {p : Handle} {old : ℕ} (h : Moves o s ptr n old p r s') :
    NoGrowth s s' := by
  obtain ⟨s₁, hmallocs, ⟨_, rfl⟩ | ⟨_, hfrees⟩⟩ := h
  · exact hmallocs.noGrowth
  · have hcopied : NoGrowth s₁ { s₁ with mem := copy s₁.mem ptr r (min old n) } :=
      noGrowth_of_eq rfl
    exact hmallocs.noGrowth.trans (hcopied.trans hfrees.noGrowth)

/-- A growth in the log of `realloc` is that of a block with pages of its own. -/
theorem Reallocs.growth {p : Handle} {x len : ℕ} (h : Reallocs o s ptr n p cls cap r s')
    (hlog : s'.log = s.log ++ effects) (hgrow : .grow x len ∈ effects) :
    (cls = 100 ∨ slabBlocks cls = 1) ∧ len = pagesOf (newCapacity n + headerSize) * 4096 := by
  cases h with
  | same _ _ _ =>
    obtain rfl := List.self_eq_append_right.mp hlog
    exact absurd hgrow List.not_mem_nil
  | inPlace _ _ hsolo _ hresize =>
    obtain ⟨more, hmore, hall⟩ := hresize.log_extends
    obtain rfl := List.append_cancel_left (hmore.symm.trans hlog)
    exact ⟨hsolo, (hall x len hgrow).2⟩
  | moved _ _ _ hmoves =>
    obtain ⟨more, hmore, hnone⟩ := hmoves.noGrowth
    obtain rfl := List.append_cancel_left (hmore.symm.trans hlog)
    exact absurd hgrow (hnone x len)
  | movedAfter _ s₁ _ _ hsolo _ hresize hmoves =>
    obtain ⟨first, hfirst, hall⟩ := hresize.log_extends
    obtain ⟨more, hmore, hnone⟩ := hmoves.noGrowth
    obtain rfl : first ++ more = effects := by
      refine List.append_cancel_left (Eq.trans ?_ hlog)
      rw [hmore, hfirst, List.append_assoc]
    exact ⟨hsolo, (hall x len ((List.mem_append.mp hgrow).resolve_right (hnone x len))).2⟩

theorem Moves.refused {p : Handle} {old : ℕ} (hexact : o.Exact) (h : Moves o s ptr n old p 0 s') :
    s'.owner = s.owner ∧ s'.headers = s.headers ∧ s'.big = s.big := by
  obtain ⟨s₁, ⟨s₂, hprepares, hgives⟩, ⟨_, rfl⟩ | ⟨hne, _⟩⟩ := h
  · obtain ⟨k, rfl⟩ := hgives.eq_later
    obtain ⟨hheaders, hbig, _⟩ := hprepares.records
    have howner := hprepares.owner_eq hexact
    exact ⟨howner, hheaders, hbig⟩
  · exact absurd rfl hne

/-- A resize that fails leaves the records as they were. -/
theorem Resizes.failed_records (h : Resizes o s header cls cap n false s') :
    s'.headers = s.headers ∧ s'.big = s.big := by
  cases h with
  | refused k _ => exact ⟨rfl, rfl⟩
  | stuck k s₁ _ hext _ => exact ⟨hext.records.1, hext.records.2.1⟩
  | undone k s₁ _ hext _ => exact ⟨hext.records.1, hext.records.2.1⟩

theorem Reallocs.refused {p : Handle} (hexact : o.Exact) (hptr : ptr ≠ 0)
    (hrec : Recorded s (p.raw - headerSize) cls cap) (h : Reallocs o s ptr n p cls cap 0 s')
    (hlog : s'.log = s.log ++ effects) :
    (s'.owner = s.owner ∧ s'.headers = s.headers ∧ s'.big = s.big) ↔
      (Enlarges effects (p.raw - headerSize) cap n →
        cls = 100 ∧ (p.raw - headerSize) % 4096 = 0) := by
  generalize hzero : (0 : ℕ) = r at h
  cases h with
  | same _ _ _ => exact absurd hzero.symm hptr
  | inPlace _ _ _ _ _ => exact absurd hzero.symm hptr
  | moved _ _ _ hmoves =>
    subst hzero
    have hsame := hmoves.refused hexact
    obtain ⟨more, hmore, hnone⟩ := hmoves.noGrowth
    obtain rfl := List.append_cancel_left (hmore.symm.trans hlog)
    refine ⟨fun _ henlarges => ?_, fun _ => hsame⟩
    obtain ⟨len, hgrow⟩ := henlarges.1
    exact absurd hgrow (hnone _ len)
  | movedAfter _ s₁ _ _ hsolo _ hresize hmoves =>
    subst hzero
    obtain ⟨howner, hheaders, hbig⟩ := hmoves.refused hexact
    obtain ⟨more, hmore, hnone⟩ := hmoves.noGrowth
    obtain ⟨first, hfirst, _⟩ := hresize.log_extends
    obtain rfl : first ++ more = effects := by
      refine List.append_cancel_left (Eq.trans ?_ hlog)
      rw [hmore, hfirst, List.append_assoc]
    have hfailed := hresize.failed_records
    have hgrow : Enlarges (first ++ more) (p.raw - headerSize) cap n ↔
        Enlarges first (p.raw - headerSize) cap n := by
      simp only [Enlarges, List.mem_append, hnone, or_false]
    rw [hgrow, ← hresize.undone_iff hexact hrec hfirst, howner, hheaders, hbig]
    exact ⟨fun h => h.1, fun h => ⟨h, hfailed.1, hfailed.2⟩⟩

/-- The map is as it was before a growth that fails if and only if the growth has got no page,
or the block is big and its header at the start of a page. If there is no new block either, so
are the records. -/
theorem failed_growth_is_undone (answer : ℕ → ℕ) (pages : ℕ → Bool) (s : State)
    (ptr n cls cap : ℕ) (p : Handle) (hptr : ptr ≠ 0) (hraw : headerSize < p.raw)
    (hlive : s.live ptr = some p)
    (hget : s.headers.get (p.raw - headerSize) = some ⟨cls, true⟩)
    (hrec : Recorded s (p.raw - headerSize) cls cap) :
    (∀ s' effects,
      Runs (resizeInplace (exactly answer pages) (p.raw - headerSize) cls cap n) s false s' →
      s'.log = s.log ++ effects →
      (s'.owner = s.owner ↔ (Enlarges effects (p.raw - headerSize) cap n →
        cls = 100 ∧ (p.raw - headerSize) % 4096 = 0))) ∧
    ∀ s' effects, n ≠ 0 → Runs (realloc (exactly answer pages) ptr n) s 0 s' →
      s'.log = s.log ++ effects →
      ((s'.owner = s.owner ∧ s'.headers = s.headers ∧ s'.big = s.big) ↔
        (Enlarges effects (p.raw - headerSize) cap n →
          cls = 100 ∧ (p.raw - headerSize) % 4096 = 0)) := by
  have hexact := exactly_exact answer pages
  refine ⟨fun s' effects hrun hlog => ?_, fun s' effects hn hrun hlog => ?_⟩
  · exact (runs_resizeInplace hrec hrun).undone_iff hexact hrec hlog
  · rw [realloc, CInterface.realloc, if_neg hptr] at hrun
    split at hrun
    · obtain ⟨_, rfl⟩ := runs_pure.mp hrun
      obtain rfl := List.self_eq_append_right.mp hlog
      exact ⟨fun _ henlarges => absurd henlarges enlarges_nil, fun _ => ⟨rfl, rfl, rfl⟩⟩
    · obtain ⟨cls', cap', hget', hrec', hreallocs⟩ :=
        runs_reallocBlock hptr hlive (by omega) hrun
      obtain rfl : cls' = cls := congrArg Header.cls (Option.some.inj (hget'.symm.trans hget))
      obtain rfl : cap' = cap :=
        (capacity_of_recorded hrec').symm.trans (capacity_of_recorded hrec)
      exact hreallocs.refused hexact hptr hrec hlog

end Undo

/-- The answers under which a block of 4096 bytes cannot grow and there is no other place. -/
def noPlace : List ℕ := [0, 0, 1048576, 1, 1, 1, 1, 0, 0, 0, 2097152, 0, 2097152, 0, 2097152, 0]

theorem refused_growth_results :
    ((run (step (listed [1048576, 1, 1, 1, 0, 0])) (initial false) [.malloc 3000000]).bind fun s =>
      (outcome (realloc (listed [1048576, 1, 1, 1, 0, 0]) 1048592 4000000) s).map fun x =>
        (s.live 1048592, s.headers.get 1048576, s.entry 1048576, x.1,
          decide (x.2.log = s.log ++ [.claim 4050944 999424, .grow 1048576 4001792,
            .release 4050944 999424]))) =
      some (some ⟨1048592, 0, 3000000⟩, some ⟨100, true⟩, some 3000000, 0, true) ∧
    ((run (step (listed noPlace)) (initial false) [.malloc 4096]).bind fun s =>
      (outcome (perform (listed noPlace) (.realloc 1048624 8192)) s).map fun x =>
        (s.owner 258, x.1, x.2.owner 258)) = some (none, 0, some (.block 1048608)) := by
  decide +kernel

/-- A block of 3000000 bytes cannot grow to 4000000 and there is no other place either. -/
theorem failed_growth_is_undone_big :
    ∃ s s', run (step (listed [1048576, 1, 1, 1, 0, 0])) (initial false)
        [.malloc 3000000] = some s ∧
      Runs (realloc (listed [1048576, 1, 1, 1, 0, 0]) 1048592 4000000) s 0 s' ∧
      (∃ effects, s'.log = s.log ++ effects ∧ Enlarges effects 1048576 3000000 4000000) ∧
      s'.owner = s.owner ∧ s'.headers = s.headers ∧ s'.big = s.big := by
  obtain ⟨s, r, s', hrun, hruns, hs'⟩ := exists_outcome refused_growth_results.1
  simp only [Prod.mk.injEq, decide_eq_true_eq] at hs'
  obtain ⟨hlive, hget, hentry, rfl, hlog⟩ := hs'
  refine ⟨s, s', hrun, hruns, ⟨_, hlog, ⟨4001792, by decide⟩, by decide⟩, ?_⟩
  exact ((failed_growth_is_undone _ _ s 1048592 4000000 100 3000000 ⟨1048592, 0, 3000000⟩
    (by decide) (by decide) hlive (by rwa [headerSize_standard])
    (Or.inl ⟨rfl, by rwa [headerSize_standard]⟩)).2 s' _ (by decide) hruns hlog).mpr fun _ =>
      ⟨rfl, by decide⟩

/-- A block of 4096 bytes cannot grow to 8192 and there is no other place; it keeps the page
that was claimed for it. -/
theorem slab_growth_leaks :
    ∃ s s', run (step (listed noPlace)) (initial false) [.malloc 4096] = some s ∧
      Runs (perform (listed noPlace) (.realloc 1048624 8192)) s 0 s' ∧
      s.owner 258 = none ∧ s'.owner 258 = some (.block 1048608) := by
  obtain ⟨s, r, s', hrun, hruns, hs'⟩ := exists_outcome refused_growth_results.2
  simp only [Prod.mk.injEq] at hs'
  obtain ⟨hfree, rfl, hkept⟩ := hs'
  exact ⟨s, s', hrun, hruns, hfree, hkept⟩

end Oxidalloc.Records
