import Oxidalloc.GrowthEffects
import Oxidalloc.HeaderOffsets

/-!
A block and its pages in whole runs. The end of a big block, a block that shrinks and a
block that grows where it is change pages of the block alone, and what it has then holds
its payload. All this fails for a block behind the header of a slab that becomes big: its
payload ends behind its pages if the last of them has not 32 bytes to spare.
-/
namespace Oxidalloc.Records

open Hashmap Programs Interleaving ByteMemory

variable {o : Oracle} {s s' : State} {n r header size cls cap ptr q x : ℕ} {effects : List Effect}

theorem covers_byte (halign : header % 4096 = 0) (hlo : header ≤ x)
    (hhi : x < header + pagesOf size * 4096) : Covers header size (x / 4096) := by
  unfold Covers
  omega

theorem Recorded.unique {cap' : ℕ} (h : Recorded s header cls cap)
    (h' : Recorded s header cls cap') : cap = cap' := by
  rw [← capacity_of_recorded h, ← capacity_of_recorded h']

section End

variable [Layout]

/-- The end of a block changes bytes and owners in its own pages. -/
theorem Frees.own_pages (h : Frees s header s') (ha : Agree s) (ho : Owned s) :
    (∀ x, s'.mem x ≠ s.mem x → s.owner (x / 4096) = some (.block header)) ∧
      ∀ q, s'.owner q ≠ s.owner q → s.owner q = some (.block header) := by
  cases h with
  | slab cls _ _ => exact ⟨fun x hx => absurd rfl hx, fun q hq => absurd rfl hq⟩
  | big n info hget hinfo =>
    obtain ⟨halign, hown⟩ := ho.big_pages hget (removed_entry ha hinfo)
    refine ⟨fun x hx => ?_, fun q hq => ?_⟩
    · by_contra hnot
      refine hx (if_neg fun hin => hnot (hown _ (covers_byte halign hin.1 ?_)))
      rw [reserved_pages]
      exact hin.2
    · by_contra hnot
      exact hq (if_neg fun hin => hnot (hown q hin))

/-- Whatever is in the memory, `big_free` writes and releases pages of the block only. -/
theorem big_free_stays_in_its_pages (answer : ℕ → ℕ) (pages : ℕ → Bool) (thp : Bool)
    (calls : List Call) (s : State)
    (hok : Guarded (step (exactly answer pages)) Call.Seated (initial thp) calls)
    (hrun : run (step (exactly answer pages)) (initial thp) calls = some s) (header : ℕ)
    (hget : s.headers.get header = some ⟨100, true⟩) (mem : Memory) (u : Unit) (s' : State)
    (hfree : Runs (bigFree (exactly answer pages) header) { s with mem := mem } u s') :
    (∀ x, s'.mem x ≠ mem x → s.owner (x / 4096) = some (.block header)) ∧
      ∀ q, s'.owner q ≠ s.owner q → s.owner q = some (.block header) := by
  have hs := run_seated (exactly_exact answer pages) hok hrun
  have hheader := hs.agree.header_ne_zero (by rw [hget]; exact Option.some_ne_none _)
  have hfrees : Frees { s with mem := mem } header s' := runs_bigFree hheader hget hfree
  exact hfrees.own_pages (hs.agree.of_eq rfl rfl rfl)
    (hs.owned.same rfl rfl rfl rfl fun _ _ h _ => h)

end End

/-- A block of 3000000 bytes ends where the kernel does not take the pages, and a block of
4000000 bytes shrinks to 3000000. -/
theorem released_pages_results :
    ((run (step (listed [1048576, 1, 1, 0])) (initial false) [.malloc 3000000]).bind fun s =>
      (outcome (bigFree (listed [1048576, 1, 1, 0]) 1048576)
        { s with mem := fun _ => 7 }).map fun x => (s.headers.get 1048576, x.2.mem 1048600)) =
      some (some ⟨100, true⟩, 0) ∧
    ((run (step (listed [1048576])) (initial false) [.malloc 4000000]).bind fun s =>
      (outcome (realloc (listed [1048576]) 1048592 3000000) s).map fun x =>
        (x.1, x.2.owner 1000, decide (s.live 1048592 = some ⟨1048592, 0, 4000000⟩ ∧
          s.headers.get 1048576 = some ⟨100, true⟩ ∧ s.entry 1048576 = some 4000000 ∧
          x.2.log = s.log ++
            [.discard 4050944 999424, .forbid 4050944 999424, .release 4050944 999424]))) =
      some (1048592, none, true) := by
  decide +kernel

/-- A block of 3000000 bytes ends where the kernel does not take the pages. -/
theorem big_free_stays_in_its_pages_refused :
    ∃ s s', run (step (listed [1048576, 1, 1, 0])) (initial false) [.malloc 3000000] = some s ∧
      Runs (bigFree (listed [1048576, 1, 1, 0]) 1048576) { s with mem := fun _ => 7 } () s' ∧
      s'.mem 1048600 = 0 ∧ ∀ x, s'.mem x ≠ 7 → s.owner (x / 4096) = some (.block 1048576) := by
  obtain ⟨s, hrun, hs⟩ := Option.bind_eq_some_iff.mp released_pages_results.1
  obtain ⟨⟨u, s'⟩, hfree, hs'⟩ := Option.map_eq_some_iff.mp hs
  simp only [Prod.mk.injEq] at hs'
  have hruns := outcome_eq_some.mp hfree
  refine ⟨s, s', hrun, hruns, hs'.2, ?_⟩
  exact (big_free_stays_in_its_pages _ _ false [.malloc 3000000] s
    ⟨trivial, fun _ _ => trivial⟩ hrun 1048576 hs'.1
    (fun _ => 7) () s' hruns).1

/-- A block of 4096 bytes that was grown to 4194288 bytes, with a slab behind its pages: what its
end does, and what happens when it shrinks. -/
theorem grown_neighbour_result :
    (run (step (listed [0, 0, 1048576, 1, 1, 1, 1, 1, 1, 0, 0, 5242880])) (initial false)
      [.malloc 4096, .realloc 1048624 4194288, .malloc 4096]).bind (fun s =>
        (outcome (bigFree (listed [0, 0, 1048576, 1, 1, 1, 1, 1, 1, 0, 0, 5242880]) 1048608)
          { s with mem := fun _ => 7 }).bind fun x =>
            (outcome (perform (listed [0, 0, 1048576, 1, 1, 1, 1, 1, 1, 0, 0, 5242880])
              (.realloc 1048624 3145728)) s).map fun y =>
                (s.headers.get 1048608, s.owner 1280, x.2.mem 5242911, y.1, y.2.owner 1280)) =
      some (some ⟨100, true⟩, some (.block 5242912), 0, 1048624, none) := by
  decide +kernel

/-- The end of the block zeroes 32 bytes of the page behind its pages, the header of the slab
that lies there. -/
theorem grown_slab_block_zeroes_its_neighbour :
    ∃ s s', run (step (listed [0, 0, 1048576, 1, 1, 1, 1, 1, 1, 0, 0, 5242880])) (initial false)
        [.malloc 4096, .realloc 1048624 4194288, .malloc 4096] = some s ∧
      s.headers.get 1048608 = some ⟨100, true⟩ ∧ s.owner 1280 = some (.block 5242912) ∧
      Runs (bigFree (listed [0, 0, 1048576, 1, 1, 1, 1, 1, 1, 0, 0, 5242880]) 1048608)
        { s with mem := fun _ => 7 } () s' ∧ s'.mem 5242911 = 0 := by
  obtain ⟨s, hrun, hs⟩ := Option.bind_eq_some_iff.mp grown_neighbour_result
  obtain ⟨⟨u, s'⟩, hfree, hs⟩ := Option.bind_eq_some_iff.mp hs
  obtain ⟨_, _, hs'⟩ := Option.map_eq_some_iff.mp hs
  simp only [Prod.mk.injEq] at hs'
  obtain ⟨hget, howner, hmem, _⟩ := hs'
  exact ⟨s, s', hrun, hget, howner, outcome_eq_some.mp hfree, hmem⟩

section Realloc

variable [Layout] {p : Handle} {Q : Option Header → Option ℕ → Handle → Prop}

/-- `realloc` of a live pointer refuses the size or works on the recorded block. -/
theorem Placed.runs_realloc (hp : Placed s) (hlive : s.live ptr = some p) (hn : n ≠ 0)
    (h : Runs (realloc o ptr n) s r s') :
    (r = 0 ∧ s' = s) ∨ ∃ cls cap, s.headers.get (p.raw - headerSize) = some ⟨cls, true⟩ ∧
      Recorded s (p.raw - headerSize) cls cap ∧ Reallocs o s ptr n p cls cap r s' := by
  obtain ⟨hptr, hraw⟩ := hp.pointer hlive
  rw [realloc, CInterface.realloc, if_neg hptr] at h
  split at h
  · exact Or.inl (runs_pure.mp h)
  · exact Or.inr (runs_reallocBlock hptr hlive hraw h)

theorem Resizes.grows_of_false (h : Resizes o s header cls cap n false s') :
    extent cls cap < extent (newClass n) n := by
  cases h with
  | refused _ hgt => exact hgt
  | stuck _ _ hgt _ _ => exact hgt
  | undone _ _ hgt _ _ => exact hgt

/-- The payload of a resized block lies before the end of its pages. -/
theorem AtPage.payload_end (hat : AtPage header (newClass n)) :
    header + headerSize + n ≤ (header / 4096 + pagesOf (newCapacity n + headerSize)) * 4096 := by
  have hend := hat.end_page (newClass_cases n) n
  have hfit := (newExtent_bounds n).2
  have hle := le_newCapacity n
  rw [pagesOf_newExtent] at hend
  have hbound : header + extent (newClass n) n ≤
      pagesOf (header + extent (newClass n) n) * 4096 := by
    unfold pagesOf
    omega
  omega

/-- The pages that a block gives back are its own, and behind its new payload. -/
theorem freed_own (ho : Owned s) (hget : s.headers.get header = some ⟨cls, true⟩)
    (hrec : Recorded s header cls cap) (hsolo : cls = 100 ∨ slabBlocks cls = 1)
    (hlt : extent (newClass n) n < extent cls cap) (hlen : freedLen cls cap n % 4096 = 0)
    (hq : Covers (freedStart header n) (freedLen cls cap n) q) :
    s.owner q = some (.block header) ∧
      ∀ x, header ≤ x → x < header + headerSize + n → x / 4096 ≠ q := by
  obtain ⟨hat, hown⟩ : AtPage header cls ∧ _ := (ho.heads header _ hget).solo hsolo
  rw [capacity_of_recorded hrec] at hown
  obtain ⟨hlo, hhi⟩ := (covers_freed hat hrec hlt hlen).mp hq
  refine ⟨hown q (covers_span ⟨by omega, hhi⟩), fun x _ hx => ?_⟩
  have hend := (hat.freed hrec hlt hlen).payload_end
  omega

/-- A block that shrinks where it is discards, protects and releases only pages of its own,
none of which has a byte of its header or its new payload. -/
theorem shrink_releases_its_tail (answer : ℕ → ℕ) (pages : ℕ → Bool) (calls : List Call)
    (s s' : State) (thp : Bool)
    (hok : Guarded (step (exactly answer pages)) Call.Seated (initial thp) calls)
    (hrun : run (step (exactly answer pages)) (initial thp) calls = some s)
    (ptr n r cls cap : ℕ) (p : Handle) (effects : List Effect) (hn : n ≠ 0)
    (hlive : s.live ptr = some p) (hplain : p.offset = 0)
    (hget : s.headers.get (p.raw - headerSize) = some ⟨cls, true⟩)
    (hrec : Recorded s (p.raw - headerSize) cls cap)
    (hsolo : cls = 100 ∨ slabBlocks cls = 1) (hshrink : extent (newClass n) n < extent cls cap)
    (hrealloc : Runs (realloc (exactly answer pages) ptr n) s r s')
    (hlog : s'.log = s.log ++ effects) (addr len q : ℕ)
    (heffect : .discard addr len ∈ effects ∨ .forbid addr len ∈ effects ∨
      .release addr len ∈ effects)
    (hq : Covers addr len q) :
    s.owner q = some (.block (p.raw - headerSize)) ∧ ∀ x, p.raw - headerSize ≤ x → x < p.raw + n →
      x / 4096 ≠ q := by
  have hs := run_seated (exactly_exact answer pages) hok hrun
  have hnone : effects ≠ [] := by
    rintro rfl
    simp only [List.not_mem_nil, or_self] at heffect
  obtain ⟨header, hraw, _⟩ := hs.pointed.header ptr p hlive
  rcases hs.placed.runs_realloc hlive hn hrealloc with
    ⟨_, rfl⟩ | ⟨cls', cap', hget', hrec', hreallocs⟩
  · exact absurd (List.self_eq_append_right.mp hlog) hnone
  · obtain rfl : cls' = cls := congrArg Header.cls (Option.some.inj (hget'.symm.trans hget))
    obtain rfl := hrec'.unique hrec
    cases hreallocs with
    | same _ _ _ => exact absurd (List.self_eq_append_right.mp hlog) hnone
    | inPlace _ _ _ _ hresize =>
      rcases hresize.effect_cases hlog with hnil | ⟨hlt, hlen, hall⟩ | ⟨hgt, _⟩
      · exact absurd hnil hnone
      · have hrange : addr = freedStart (p.raw - headerSize) n ∧ len = freedLen cls' cap' n := by
          rcases heffect with he | he | he
          · simpa only [Effect.discard.injEq, reduceCtorEq, or_false] using hall _ he
          · simpa only [Effect.forbid.injEq, reduceCtorEq, or_false, false_or] using hall _ he
          · simpa only [Effect.release.injEq, reduceCtorEq, false_or] using hall _ he
        obtain ⟨rfl, rfl⟩ := hrange
        obtain ⟨howner, hbytes⟩ := freed_own hs.owned hget hrec hsolo hlt hlen hq
        exact ⟨howner, fun x hlo hhi => hbytes x hlo (by omega)⟩
      · exact absurd hshrink (by omega)
    | moved _ _ hwhy _ => exact absurd hwhy (not_or.mpr ⟨not_not.mpr hplain, not_not.mpr hsolo⟩)
    | movedAfter _ _ _ _ _ _ hresize _ => exact absurd hresize.grows_of_false (by omega)

end Realloc

/-- A block of 4000000 bytes shrinks to 3000000. -/
theorem shrink_releases_its_tail_big :
    ∃ s s', run (step (listed [1048576])) (initial false) [.malloc 4000000] = some s ∧
      Runs (realloc (listed [1048576]) 1048592 3000000) s 1048592 s' ∧ s'.owner 1000 = none ∧
      s.owner 1000 = some (.block 1048576) ∧ ∀ x, 1048576 ≤ x → x < 4048592 → x / 4096 ≠ 1000 := by
  obtain ⟨s, r, s', hrun, hruns, hs'⟩ := exists_outcome released_pages_results.2
  simp only [Prod.mk.injEq] at hs'
  obtain ⟨rfl, howner, hfacts⟩ := hs'
  obtain ⟨hlive, hget, hentry, hlog⟩ := of_decide_eq_true hfacts
  refine ⟨s, s', hrun, hruns, howner, ?_⟩
  exact shrink_releases_its_tail _ _ [.malloc 4000000] s s' false ⟨trivial, fun _ _ => trivial⟩ hrun
    1048592 3000000
    1048592 100 4000000 ⟨1048592, 0, 4000000⟩
    [.discard 4050944 999424, .forbid 4050944 999424, .release 4050944 999424] (by decide) hlive rfl
    (by rwa [headerSize_standard]) (Or.inl ⟨rfl, by rwa [headerSize_standard]⟩) (Or.inl rfl)
    (by decide) hruns hlog
    4050944 999424 1000 (by decide) (by decide)

/-- The block that was grown releases, when it shrinks to 3145728 bytes, the page behind its
pages, where another block is. -/
theorem grown_slab_block_releases_its_neighbour :
    ∃ s s', run (step (listed [0, 0, 1048576, 1, 1, 1, 1, 1, 1, 0, 0, 5242880])) (initial false)
        [.malloc 4096, .realloc 1048624 4194288, .malloc 4096] = some s ∧
      Runs (perform (listed [0, 0, 1048576, 1, 1, 1, 1, 1, 1, 0, 0, 5242880])
        (.realloc 1048624 3145728))
        s 1048624 s' ∧ s.owner 1280 = some (.block 5242912) ∧ s'.owner 1280 = none := by
  obtain ⟨s, hrun, hs⟩ := Option.bind_eq_some_iff.mp grown_neighbour_result
  obtain ⟨_, _, hs⟩ := Option.bind_eq_some_iff.mp hs
  obtain ⟨⟨r, s'⟩, hperform, hs'⟩ := Option.map_eq_some_iff.mp hs
  simp only [Prod.mk.injEq] at hs'
  obtain ⟨_, howner, _, rfl, hnone⟩ := hs'
  exact ⟨s, s', hrun, outcome_eq_some.mp hperform, howner, hnone⟩

section Growth

variable [Layout] {p : Handle} {Q : Option Header → Option ℕ → Handle → Prop}

/-- The pages of a block that has grown are its own. -/
theorem Resizes.grown_own (h : Resizes o s header cls cap n true s') (hexact : o.Exact)
    (ho : Owned s) (hget : s.headers.get header = some ⟨cls, true⟩)
    (hrec : Recorded s header cls cap) (hsolo : cls = 100 ∨ slabBlocks cls = 1)
    (hgt : extent cls cap < extent (newClass n) n) (hlo : header / 4096 ≤ q)
    (hhi : q < header / 4096 + pagesOf (newCapacity n + headerSize)) :
    s'.owner q = some (.block header) := by
  obtain ⟨_, hown⟩ := (ho.heads header _ hget).solo hsolo
  rw [capacity_of_recorded hrec] at hown
  cases h with
  | same _ heq _ => exact absurd hgt (by omega)
  | kept hlt => exact absurd hgt (by omega)
  | refusedShrink _ hlt _ => exact absurd hgt (by omega)
  | shrunk _ _ hlt _ _ => exact absurd hgt (by omega)
  | grown k s₁ _ _ hext hre =>
    have hnew := hext.own hexact (fun q hlo hold => hown q (covers_span ⟨hlo, hold⟩)) hlo hhi
    rw [hre.frame.1]
    exact hnew

/-- A call that gives the pointer back and did something has resized the block where it is. -/
theorem Sane.grown_in_place (hs : Sane Q s) (hexact : o.Exact) (hlive : s.live ptr = some p)
    (hplain : p.offset = 0) (hget : s.headers.get (p.raw - headerSize) = some ⟨cls, true⟩)
    (hrec : Recorded s (p.raw - headerSize) cls cap) (h : Reallocs o s ptr n p cls cap ptr s')
    (hlog : s'.log = s.log ++ effects) (hnone : effects ≠ []) :
    (cls = 100 ∨ slabBlocks cls = 1) ∧ Resizes o s (p.raw - headerSize) cls cap n true s' := by
  obtain ⟨header, hraw, hlives, _⟩ := hs.pointed.header ptr p hlive
  have hptr : ptr = header + headerSize := by
    rw [hs.pointed.distance ptr p hlive, hplain, hraw, Nat.add_zero]
  have hcareful := hs.owned.careful hexact hs.agree
  -- a new block is never where a live one is
  have hmoved : ∀ s₀ old, o.AvoidsFrom s₀ → s₀.headers = s.headers →
      ¬ Moves o s₀ ptr n old p ptr s' := by
    rintro s₀ old havoids hheaders ⟨s₁, hmallocs, _⟩
    rw [hptr] at hmallocs
    have hfresh := hmallocs.fresh havoids
    rw [Live, hheaders] at hfresh
    exact hfresh hlives
  cases h with
  | same _ _ _ => exact absurd (List.self_eq_append_right.mp hlog) hnone
  | inPlace _ _ hsolo _ hresize => exact ⟨hsolo, hresize⟩
  | moved _ _ _ hmoves => exact absurd hmoves (hmoved s _ hcareful.here rfl)
  | movedAfter _ s₁ _ _ hsolo _ hresize hmoves =>
    have havoids := hcareful.stuck _ cls cap n s₁ hget hrec hsolo hresize
    exact absurd hmoves (hmoved s₁ _ havoids hresize.failed_records.1)

/-- The payload of a block ends before the last of its pages, unless it is a big one behind the
header of a slab and has no 32 bytes to spare. -/
theorem payload_end_iff (hn : n ≠ 0) (hoffset : header % 4096 = 0 ∨ header % 4096 = 32) :
    header + headerSize + n ≤
        header / 4096 * 4096 + pagesOf (newCapacity n + headerSize) * 4096 ↔
      header % 4096 = 0 ∨ n ≤ 2097152 ∨ (n + headerSize - 1) % 4096 < 4064 := by
  cases hmatch : matchSizeClass n with
  | none =>
    have hlarge := (matchSizeClass_none hmatch).resolve_left hn
    rw [(newClass_none hmatch).2]
    unfold pagesOf
    omega
  | some c =>
    have hat : AtPage header (newClass n) := by
      rw [(newClass_some hmatch).1]
      have hcls := (matchSizeClass_some hmatch).1
      unfold AtPage
      omega
    have hend := hat.payload_end
    have hsmall : n ≤ 2097152 := by
      have hle := (matchSizeClass_some hmatch).2.1
      have hbound := (payload_bounds (matchSizeClass_some hmatch).1).2.2
      omega
    rw [Nat.add_mul] at hend
    exact ⟨fun _ => Or.inr (Or.inl hsmall), fun _ => hend⟩

/-- A block that grows where it is ends before the last page that it then has if and only if
its header is at the start of a page, or it has a slab class, or it has 32 bytes to spare. The
pages up to there are its own if the calls before were seated. -/
theorem growth_stays_in_its_claim (answer : ℕ → ℕ) (pages : ℕ → Bool) (thp : Bool)
    (calls : List Call) (s s' : State) (ptr n len : ℕ) (p : Handle) (effects : List Effect)
    (hrun : run (step (exactly answer pages)) (initial thp) calls = some s) (hn : n ≠ 0)
    (hlive : s.live ptr = some p) (hplain : p.offset = 0)
    (hrealloc : Runs (realloc (exactly answer pages) ptr n) s ptr s')
    (hlog : s'.log = s.log ++ effects) (hgrow : .grow (p.raw - headerSize) len ∈ effects) :
    (ptr + n ≤ (p.raw - headerSize) / 4096 * 4096 + len ↔
      (p.raw - headerSize) % 4096 = 0 ∨ n ≤ 2097152 ∨ (n + headerSize - 1) % 4096 < 4064) ∧
    (Guarded (step (exactly answer pages)) Call.Seated (initial thp) calls →
      ∀ q, (p.raw - headerSize) / 4096 ≤ q →
        q * 4096 < (p.raw - headerSize) / 4096 * 4096 + len →
        s'.owner q = some (.block (p.raw - headerSize))) := by
  have hexact := exactly_exact answer pages
  have hnone : effects ≠ [] := fun hnil => absurd (hnil ▸ hgrow) List.not_mem_nil
  have ht := run_tidy hexact hrun
  obtain ⟨hptr, hraw⟩ := ht.placed.pointer hlive
  have hdistance := ht.distance ptr p hlive
  rcases ht.placed.runs_realloc hlive hn hrealloc with ⟨_, rfl⟩ | ⟨cls, cap, hget, hrec, hreallocs⟩
  · exact absurd (List.self_eq_append_right.mp hlog) hnone
  obtain ⟨hsolo, rfl⟩ := hreallocs.growth hlog hgrow
  refine ⟨?_, fun hok q hlo hhi => ?_⟩
  · rw [← payload_end_iff hn ((ht.shelved.heads _ _ hget).2 hsolo)]
    omega
  · have hs := run_seated hexact hok hrun
    obtain ⟨_, hresize⟩ := hs.grown_in_place hexact hlive hplain hget hrec hreallocs hlog hnone
    obtain ⟨more, hmore, hall⟩ := hresize.log_extends
    obtain rfl := List.append_cancel_left (hmore.symm.trans hlog)
    exact hresize.grown_own hexact hs.owned hget hrec hsolo (hall _ _ hgrow).1 hlo (by omega)

end Growth

/-- A block of 4096 bytes behind a slab header grows to 3000000 bytes or to 4194288. -/
theorem slab_growth_result :
    (run (step (listed [0, 0, 1048576])) (initial false) [.malloc 4096]).bind (fun s =>
      (outcome (realloc (listed [0, 0, 1048576]) 1048624 3000000) s).bind fun x =>
        (outcome (perform (listed [0, 0, 1048576]) (.realloc 1048624 4194288)) s).map fun y =>
          (x.1, decide (s.live 1048624 = some ⟨1048624, 0, 4096⟩ ∧ x.2.log = s.log ++
              [.claim 1056768 2994176, .grow 1048608 3002368, .commit 1056768 2998256]),
            y.1, decide (.grow 1048608 4194304 ∈ y.2.log), y.2.owner 1280)) =
      some (1048624, true, 1048624, true, none) := by
  decide +kernel

/-- The block that grows to 3000000 bytes stays in its pages. -/
theorem growth_stays_in_its_claim_slab :
    ∃ s s', run (step (listed [0, 0, 1048576])) (initial false) [.malloc 4096] = some s ∧
      Runs (realloc (listed [0, 0, 1048576]) 1048624 3000000) s 1048624 s' ∧
      1048624 + 3000000 ≤ 1048608 / 4096 * 4096 + 3002368 ∧
      s'.owner 988 = some (.block 1048608) := by
  obtain ⟨s, hrun, hs⟩ := Option.bind_eq_some_iff.mp slab_growth_result
  obtain ⟨⟨r, s'⟩, hrealloc, hs⟩ := Option.bind_eq_some_iff.mp hs
  obtain ⟨_, _, hs'⟩ := Option.map_eq_some_iff.mp hs
  simp only [Prod.mk.injEq] at hs'
  obtain ⟨rfl, hfacts, _⟩ := hs'
  obtain ⟨hlive, hlog⟩ := of_decide_eq_true hfacts
  have hruns := outcome_eq_some.mp hrealloc
  obtain ⟨hend, hown⟩ := growth_stays_in_its_claim _ _ false [.malloc 4096] s s' 1048624 3000000
    3002368 ⟨1048624, 0, 4096⟩ _ hrun (by decide) hlive rfl hruns hlog (by decide)
  refine ⟨s, s', hrun, hruns, hend.mpr (Or.inr (Or.inr (by decide))), ?_⟩
  exact hown ⟨trivial, fun _ _ => trivial⟩ 988 (by decide) (by decide)

/-- The block that grows to 4194288 bytes ends 32 bytes behind its last page. -/
theorem grown_slab_block_leaves_its_claim :
    ∃ s s', run (step (listed [0, 0, 1048576])) (initial false) [.malloc 4096] = some s ∧
      Runs (perform (listed [0, 0, 1048576]) (.realloc 1048624 4194288)) s 1048624 s' ∧
      .grow 1048608 4194304 ∈ s'.log ∧ s'.owner 1280 = none ∧
      1048608 / 4096 * 4096 + 4194304 < 1048624 + 4194288 := by
  obtain ⟨s, hrun, hs⟩ := Option.bind_eq_some_iff.mp slab_growth_result
  obtain ⟨_, _, hs⟩ := Option.bind_eq_some_iff.mp hs
  obtain ⟨⟨r, s'⟩, hperform, hs'⟩ := Option.map_eq_some_iff.mp hs
  simp only [Prod.mk.injEq] at hs'
  obtain ⟨_, _, rfl, hgrow, howner⟩ := hs'
  exact ⟨s, s', hrun, outcome_eq_some.mp hperform, of_decide_eq_true hgrow, howner, by decide⟩

end Oxidalloc.Records
