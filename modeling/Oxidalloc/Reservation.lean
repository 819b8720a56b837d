import Oxidalloc.GrowthEffects

/-!
The life of a big block: `big_malloc` claims pages, resizes where the block is claim or
release some, and `big_free` releases the rest. Each of them computes the range from the
recorded size, but with huge pages forced `realloc` rounds to a page where the others round
to a huge page. As long as the pages of a block only change between sizes for which this is
the same, each page is released once, and a change between other sizes breaks it.
-/
namespace Oxidalloc.Records

open Hashmap HashmapRefinement Programs Interleaving ByteMemory

variable {o : Oracle} {s s' : State} {n header cls cap q : ℕ} {effects more : List Effect}
variable {had had' : ℕ → Prop}

/-- The pages that a block has after an effect. -/
def after (had : ℕ → Prop) : Effect → ℕ → Prop
  | .claim addr len => fun q => had q ∨ Covers addr len q
  | .release addr len => fun q => had q ∧ ¬ Covers addr len q
  | _ => had

def held (had : ℕ → Prop) (effects : List Effect) : ℕ → Prop := effects.foldl after had

/-- Every release is one of pages that the block has. -/
def Proper (had : ℕ → Prop) : List Effect → Prop
  | [] => True
  | e :: rest => (∀ addr len, e = .release addr len → ∀ q, Covers addr len q → had q) ∧
    Proper (after had e) rest

/-- Each page that was claimed is released, and was there when it was released. -/
def Released (effects : List Effect) : Prop :=
  Proper (fun _ => False) effects ∧ ∀ q, ¬ held (fun _ => False) effects q

/-- Something else has happened, which leaves the records and the pages of the block alone. -/
structure Elsewhere (header : ℕ) (s s' : State) : Prop where
  headers : s'.headers.get header = s.headers.get header
  entry : s'.entry header = s.entry header
  thp : s'.thp = s.thp
  owner : ∀ q, s.owner q = some (.block header) → s'.owner q = some (.block header)
  sound : ∃ f, Sound s'.big f

section Ledger

theorem held_append : held had (effects ++ more) = held (held had effects) more := List.foldl_append

theorem proper_append :
    Proper had (effects ++ more) ↔ Proper had effects ∧ Proper (held had effects) more := by
  induction effects generalizing had with
  | nil => simp only [List.nil_append, Proper, true_and, held, List.foldl_nil]
  | cons e rest ih => simp only [List.cons_append, Proper, ih, held, List.foldl_cons, and_assoc]

theorem matchSizeClass_large (h : 2097152 < n) : matchSizeClass n = none := by
  cases hcls : matchSizeClass n with
  | none => rfl
  | some c => exact absurd (matchSizeClass_some hcls).2.2.2 (by omega)

end Ledger

/-- The records of a big block. -/
structure Big (header cap : ℕ) (s : State) : Prop where
  get : s.headers.get header = some ⟨100, true⟩
  entry : s.entry header = some cap
  large : matchSizeClass cap = none
  ne_zero : header ≠ 0
  align : header % 4096 = 0
  sound : ∃ f, Sound s.big f

theorem Big.of_records (h : Big header cap s) (hheaders : s'.headers = s.headers)
    (hbig : s'.big = s.big) : Big header cap s' := by
  refine ⟨hheaders ▸ h.get, ?_, h.large, h.ne_zero, h.align, hbig ▸ h.sound⟩
  rw [State.entry, hbig]
  exact h.entry

section Lives

variable [Layout]

/-- The life of a block that is larger than all slab classes, with its effects so far. A
condition may be put on the resizes. -/
inductive Life (ok : State → ℕ → ℕ → Bool → List Effect → Prop) (o : Oracle) (header : ℕ) :
    State → List Effect → Prop
  | born (s s' : State) (size : ℕ) (effects : List Effect) (hsize : 2097152 < size)
    (hsound : ∃ f, Sound s.big f) (hrun : Runs (bigMalloc o size) s (header + headerSize) s')
    (hlog : s'.log = s.log ++ effects) : Life ok o header s' effects
  | elsewhere (s s' : State) (effects : List Effect) (h : Life ok o header s effects)
    (hkept : Elsewhere header s s') : Life ok o header s' effects
  | resized (s s' : State) (effects more : List Effect) (n cap : ℕ) (b : Bool)
    (h : Life ok o header s effects) (hn : 2097152 < n) (hentry : s.entry header = some cap)
    (hrun : Runs (resizeInplace o header 100 cap n) s b s') (hlog : s'.log = s.log ++ more)
    (hok : ok s cap n b more) : Life ok o header s' (effects ++ more)

/-- A resize that succeeds and claims or releases pages is one between two sizes whose
reservations end with their last page. -/
def Level (s : State) (cap n : ℕ) (b : Bool) (more : List Effect) : Prop :=
  b = true → (∃ addr len, .claim addr len ∈ more ∨ .release addr len ∈ more) →
    Snug s.thp 100 cap ∧ Snug s.thp 100 n

/-- The pages that the block has are those of its reservation. -/
def Matched (header cap : ℕ) (s : State) (effects : List Effect) : Prop :=
  Proper (fun _ => False) effects ∧
    ∀ q, held (fun _ => False) effects q ↔ Covers header (reserved s.thp cap) q

/-- A big block with the pages of its reservation. -/
structure Steady (header cap : ℕ) (s : State) (effects : List Effect) : Prop
    extends Big header cap s where
  own : ∀ q, Covers header (reserved s.thp cap) q → s.owner q = some (.block header)
  matched : Matched header cap s effects

/-- The block after a resize: it has the pages of its reservation if the resize was level, and
only then. -/
def Follows (header cap' : ℕ) (s' : State) (effects : List Effect) (level : Prop) : Prop :=
  Big header cap' s' ∧ (Matched header cap' s' effects ↔ level) ∧
    (level → ∀ q, Covers header (reserved s'.thp cap') q → s'.owner q = some (.block header))

section Birth

theorem Steady.born {size : ℕ} {answer : ℕ → ℕ} {pages : ℕ → Bool}
    (hsize : 2097152 < size) (hsound : ∃ f, Sound s.big f)
    (hrun : Runs (bigMalloc (exactly answer pages) size) s (header + headerSize) s')
    (hlog : s'.log = s.log ++ effects) : Steady header size s' effects := by
  have hlarge := matchSizeClass_large hsize
  rcases runs_bigMalloc_cases hlarge hrun with ⟨hzero, _⟩ | hgives
  · exact absurd hzero (pointer_ne_zero header)
  generalize hr : header + headerSize = r at hgives
  cases hgives with
  | nothing n => exact absurd hr (pointer_ne_zero header)
  | cached _ _ _ _ _ hcls _ _ => exact absurd (hcls.symm.trans hlarge) (Option.some_ne_none _)
  | carved _ _ _ _ _ hcls _ _ _ => exact absurd (hcls.symm.trans hlarge) (Option.some_ne_none _)
  | opened _ _ _ _ _ _ hcls _ _ _ =>
    exact absurd (hcls.symm.trans hlarge) (Option.some_ne_none _)
  | big k n hint mmapOk mem commits big _ hhint hadmits hinsert hmem =>
    obtain rfl := Nat.add_right_cancel hr
    obtain ⟨hsound', hget⟩ := insert_get hsound hinsert
    obtain ⟨halign, _⟩ := exactly_admits hadmits
    have heffects : effects = .claim header (reserved s.thp size) :: commits := by
      refine List.append_cancel_left (hlog.symm.trans ?_)
      show (s.log ++ [_]) ++ commits = _
      rw [List.append_assoc]
      rfl
    have hheld : ∀ q, held (fun _ => False) effects q ↔ Covers header (reserved s.thp size) q := by
      intro q
      rw [heffects]
      rcases hmem with ⟨_, rfl⟩ | ⟨_, rfl⟩ <;>
        simp only [held, List.foldl_cons, List.foldl_nil, after, false_or]
    have hproper : Proper (fun _ => False) effects := by
      rw [heffects]
      rcases hmem with ⟨_, rfl⟩ | ⟨_, rfl⟩ <;>
        simp only [Proper, reduceCtorEq, false_implies, implies_true, and_self]
    refine ⟨⟨HeaderTable.get_set_self _ _ _, ?_, hlarge, hhint, halign, hsound'⟩,
      fun q hq => if_pos hq, hproper, hheld⟩
    show (big.get header).map BigAllocMeta.size = some size
    rw [hget, Function.update_self, Option.map_some]

theorem Steady.elsewhere (h : Steady header cap s effects) (hkept : Elsewhere header s s') :
    Steady header cap s' effects where
  get := hkept.headers.trans h.get
  entry := hkept.entry.trans h.entry
  large := h.large
  ne_zero := h.ne_zero
  align := h.align
  sound := hkept.sound
  own q hq := hkept.owner q (h.own q (by rwa [hkept.thp] at hq))
  matched := by
    rw [Matched, hkept.thp]
    exact h.matched

end Birth

section Resizing

/-- The next effects, told from the pages of the block. -/
theorem Steady.matched_iff {cap' : ℕ} (h : Steady header cap s effects) :
    Matched header cap' s' (effects ++ more) ↔
      Proper (Covers header (reserved s.thp cap)) more ∧
        ∀ q, held (Covers header (reserved s.thp cap)) more q ↔
          Covers header (reserved s'.thp cap') q := by
  have hhad : held (fun _ => False) effects = Covers header (reserved s.thp cap) :=
    funext fun q => propext (h.matched.2 q)
  rw [Matched, proper_append, held_append, hhad]
  exact ⟨fun hm => ⟨hm.1.2, hm.2⟩, fun hm => ⟨⟨h.matched.1, hm.1⟩, hm.2⟩⟩

theorem snug_big (thp : Bool) (cap : ℕ) :
    Snug thp 100 cap ↔ pagesOf (reserved thp cap) = pagesOf (cap + headerSize) := by
  rw [Snug, span_big]

theorem pagesOf_le_reserved (thp : Bool) (cap : ℕ) :
    pagesOf (cap + headerSize) ≤ pagesOf (reserved thp cap) := by
  have hle := le_span thp 100 cap
  rw [span_big] at hle
  unfold pagesOf
  omega

theorem level_iff {addr len : ℕ} (h : .claim addr len ∈ more ∨ .release addr len ∈ more) :
    Level s cap n true more ↔ pagesOf (reserved s.thp cap) = pagesOf (cap + headerSize) ∧
      pagesOf (reserved s.thp n) = pagesOf (n + headerSize) := by
  rw [Level, snug_big, snug_big]
  exact ⟨fun hl => hl rfl ⟨addr, len, h⟩, fun hl _ _ => hl⟩

/-- A resize that neither claims nor releases. -/
theorem Steady.quiet {b : Bool} {cap' : ℕ} (h : Steady header cap s effects)
    (hbig : Big header cap' s') (hthp : s'.thp = s.thp) (howner : s'.owner = s.owner)
    (hpages : pagesOf (cap' + headerSize) = pagesOf (cap + headerSize))
    (hquiet : more = [] ∨ ∃ addr len, more = [.discard addr len]) :
    Follows header cap' s' (effects ++ more) (Level s cap n b more) := by
  have hreserved : reserved s'.thp cap' = reserved s.thp cap := by
    rw [hthp, reserved_congr hpages]
  refine ⟨hbig, ?_, fun _ q hq => ?_⟩
  · rw [h.matched_iff, hreserved]
    rcases hquiet with rfl | ⟨addr, len, rfl⟩
    · exact ⟨fun _ _ hpage => by simp at hpage, fun _ => ⟨trivial, fun _ => Iff.rfl⟩⟩
    · refine ⟨fun _ _ hpage => by simp at hpage, fun _ => ⟨?_, fun _ => Iff.rfl⟩⟩
      simp only [Proper, reduceCtorEq, false_implies, implies_true, and_self]
  · rw [howner]
    exact h.own q (hreserved ▸ hq)

/-- The block gets the records of a new size. -/
theorem Reclasses.big {s₁ : State} (hn : 2097152 < n)
    (h : Reclasses s₁ header 100 (newClass n) (newCapacity n) s') (hsound : ∃ f, Sound s₁.big f) :
    s'.headers.get header = some ⟨100, true⟩ ∧ s'.entry header = some n ∧ ∃ f, Sound s'.big f := by
  have hnew := newClass_none (matchSizeClass_large hn)
  rw [hnew.1, hnew.2] at h
  cases h with
  | removed _ hne => exact absurd rfl hne
  | inserted k mmapOk big _ hinsert =>
    obtain ⟨hsound', hget⟩ := insert_get hsound hinsert
    refine ⟨HeaderTable.get_set_self _ _ _, ?_, hsound'⟩
    show (big.get header).map BigAllocMeta.size = some n
    rw [hget, Function.update_self, Option.map_some]
  | plain hne _ => exact absurd rfl hne

theorem Big.reclassed {s₁ : State} (h : Big header cap s) (hn : 2097152 < n)
    (hre : Reclasses s₁ header 100 (newClass n) (newCapacity n) s') (hbig : s₁.big = s.big) :
    Big header n s' := by
  obtain ⟨hget, hentry, hsound⟩ := hre.big hn (hbig ▸ h.sound)
  exact ⟨hget, hentry, matchSizeClass_large hn, h.ne_zero, h.align, hsound⟩

/-- A shrink releases the pages between the two sizes. -/
theorem Steady.shrunk {k : ℕ} (h : Steady header cap s effects) (hn : 2097152 < n)
    (hlt : extent (newClass n) n < extent 100 cap) (hlen : freedLen 100 cap n % 4096 = 0)
    (hre : Reclasses ((s.giveBack (freedStart header n) (freedLen 100 cap n)).later k) header 100
      (newClass n) (newCapacity n) s')
    (hlog : s'.log = s.log ++ more) :
    Follows header n s' (effects ++ more) (Level s cap n true more) := by
  have hnew := newClass_none (matchSizeClass_large hn)
  have hrec : Recorded s header 100 cap := Or.inl ⟨rfl, h.entry⟩
  have hfreed := fun q => @covers_freed _ _ _ _ _ q _ (Or.inl h.align) hrec hlt hlen
  have hthp : s'.thp = s.thp := hre.live_eq.2
  have howner : s'.owner = (s.release (freedStart header n) (freedLen 100 cap n)).owner :=
    hre.frame.1
  have hall : more = [.discard (freedStart header n) (freedLen 100 cap n),
      .forbid (freedStart header n) (freedLen 100 cap n),
      .release (freedStart header n) (freedLen 100 cap n)] := by
    refine List.append_cancel_left (hlog.symm.trans (hre.log_eq.trans ?_))
    exact State.giveBack_log ..
  rw [hnew.2] at hfreed
  rw [hnew.1, extent_big, extent_big] at hlt
  have hle := pagesOf_le_reserved s.thp cap
  have hle' := pagesOf_le_reserved s.thp n
  have hrelease : .release (freedStart header n) (freedLen 100 cap n) ∈ more := by
    rw [hall]
    simp
  have hlevel := @level_iff s n cap more _ _ _ (Or.inr hrelease)
  refine ⟨h.toBig.reclassed hn hre rfl, ?_, fun hl q hq => ?_⟩
  · have hheld : ∀ q, held (Covers header (reserved s.thp cap)) more q ↔
        Covers header (reserved s.thp cap) q ∧
          ¬ Covers (freedStart header n) (freedLen 100 cap n) q := by
      intro q
      rw [hall]
      rfl
    rw [h.matched_iff, hlevel, hthp]
    constructor
    · rintro ⟨_, hiff⟩
      simp only [hheld, hfreed] at hiff
      -- the first page that is released, and the first one behind the block
      have hfirst := hiff (header / 4096 + pagesOf (n + headerSize))
      have hbehind := hiff (header / 4096 + pagesOf (cap + headerSize))
      unfold Covers at hfirst hbehind
      omega
    · rintro ⟨hsnug, hsnug'⟩
      refine ⟨?_, fun q => ?_⟩
      · rw [hall]
        refine ⟨fun _ _ h => Effect.noConfusion h, fun _ _ h => Effect.noConfusion h, ?_, trivial⟩
        rintro addr len heq q hq
        obtain ⟨rfl, rfl⟩ := Effect.release.inj heq
        have hpages := (hfreed q).mp hq
        exact ⟨by omega, by omega⟩
      · rw [hheld, hfreed, Covers, Covers]
        omega
  · obtain ⟨hsnug, hsnug'⟩ := hlevel.mp hl
    have hout : ¬ Covers (freedStart header n) (freedLen 100 cap n) q := by
      rw [hfreed]
      unfold Covers at hq
      rw [hthp] at hq
      omega
    rw [howner]
    refine (if_neg hout).trans (h.own q ?_)
    unfold Covers at hq ⊢
    rw [hthp] at hq
    omega

section Frame

variable {addr len k : ℕ} {e : Effect}

theorem State.noted_big : (((s.extended header n).noted e).later k).big = s.big := rfl

theorem State.released_records :
    (((s.extended header n).release addr len).later k).headers = s.headers ∧
      (((s.extended header n).release addr len).later k).big = s.big := ⟨rfl, rfl⟩

end Frame

/-- The first page behind a block that grows was free, so its reservation ends there. -/
theorem Steady.extends {s₁ : State} (h : Steady header cap s effects) (hexact : o.Exact)
    (hlt : pagesOf (cap + headerSize) < pagesOf (n + headerSize))
    (hext : Extends o s header (pagesOf (cap + headerSize)) (pagesOf (n + headerSize)) s₁) :
    pagesOf (reserved s.thp cap) = pagesOf (cap + headerSize) ∧ s₁.big = s.big ∧
      s₁.headers = s.headers ∧ s₁.thp = s.thp ∧
      s₁.log = s.log ++ [.claim ((header / 4096 + pagesOf (cap + headerSize)) * 4096)
        ((pagesOf (n + headerSize) - pagesOf (cap + headerSize)) * 4096)] ∧
      ∀ q, header / 4096 ≤ q → q < header / 4096 + pagesOf (n + headerSize) →
        s₁.owner q = some (.block header) := by
  have hle := pagesOf_le_reserved s.thp cap
  have hown : ∀ q, header / 4096 ≤ q → q < header / 4096 + pagesOf (cap + headerSize) →
      s.owner q = some (.block header) := fun q hlo hhi => h.own q ⟨hlo, by omega⟩
  have hall := fun q => @Extends.own _ _ _ _ q _ _ hexact hext hown
  cases hext with
  | same heq => omega
  | claimed k _ hadmits =>
    refine ⟨?_, rfl, rfl, rfl, rfl, hall⟩
    by_contra hne
    have hfree := (hexact.free hadmits).2 (header / 4096 + pagesOf (cap + headerSize))
      ((covers_behind hlt.le).mpr ⟨Nat.le_refl _, by omega⟩)
    have htaken := h.own (header / 4096 + pagesOf (cap + headerSize)) ⟨by omega, by omega⟩
    exact absurd (hfree.symm.trans htaken) (by simp)

theorem Steady.grown {k : ℕ} {s₁ : State} (h : Steady header cap s effects) (hexact : o.Exact)
    (hn : 2097152 < n) (hlt : pagesOf (cap + headerSize) < pagesOf (n + headerSize))
    (hext : Extends o s header (pagesOf (cap + headerSize)) (pagesOf (n + headerSize)) s₁)
    (hre : Reclasses (((s₁.extended header n).noted
      (.commit (growStart header 100 cap) (growLen 100 cap n))).later k) header 100 (newClass n)
      (newCapacity n) s')
    (hlog : s'.log = s.log ++ more) :
    Follows header n s' (effects ++ more) (Level s cap n true more) := by
  obtain ⟨hsnug, hbig, _, hthp₁, hclaim, hown⟩ := h.extends hexact hlt hext
  have hthp : s'.thp = s.thp := hre.live_eq.2.trans hthp₁
  have hall : more = [.claim ((header / 4096 + pagesOf (cap + headerSize)) * 4096)
      ((pagesOf (n + headerSize) - pagesOf (cap + headerSize)) * 4096),
      .grow header (pagesOf (newCapacity n + headerSize) * 4096),
      .commit (growStart header 100 cap) (growLen 100 cap n)] := by
    refine List.append_cancel_left (hlog.symm.trans (hre.log_eq.trans ?_))
    show (s₁.log ++ [_]) ++ [_] = _
    rw [hclaim, List.append_assoc, List.append_assoc]
    rfl
  have hle' := pagesOf_le_reserved s.thp n
  have hin : .claim ((header / 4096 + pagesOf (cap + headerSize)) * 4096)
      ((pagesOf (n + headerSize) - pagesOf (cap + headerSize)) * 4096) ∈ more := by
    rw [hall]
    simp
  have hlevel : Level s cap n true more ↔
      pagesOf (reserved s.thp n) = pagesOf (n + headerSize) := by
    rw [level_iff (Or.inl hin)]
    exact and_iff_right hsnug
  refine ⟨h.toBig.reclassed hn hre (State.noted_big.trans hbig), ?_, fun hl q hq => ?_⟩
  · have hheld : ∀ q, held (Covers header (reserved s.thp cap)) more q ↔
        header / 4096 ≤ q ∧ q < header / 4096 + pagesOf (n + headerSize) := by
      intro q
      rw [hall]
      show Covers _ _ q ∨ Covers _ _ q ↔ _
      rw [covers_behind hlt.le, Covers]
      omega
    rw [h.matched_iff, hlevel, hthp]
    constructor
    · rintro ⟨_, hiff⟩
      have hlast := hiff (header / 4096 + pagesOf (n + headerSize))
      rw [hheld, Covers] at hlast
      omega
    · intro hsnug'
      refine ⟨?_, fun q => ?_⟩
      · rw [hall]
        simp only [Proper, reduceCtorEq, false_implies, implies_true, and_self]
      · rw [hheld, Covers, hsnug']
  · rw [hthp] at hq
    have hsame : s'.owner = s₁.owner := hre.frame.1
    rw [hsame]
    exact hown q hq.1 (by rw [← hlevel.mp hl]; exact hq.2)

/-- A growth whose commit fails gives back what it has claimed. -/
theorem Steady.undone {k : ℕ} {s₁ : State} (h : Steady header cap s effects) (hexact : o.Exact)
    (hn : 2097152 < n) (hlt : pagesOf (cap + headerSize) < pagesOf (n + headerSize))
    (hext : Extends o s header (pagesOf (cap + headerSize)) (pagesOf (n + headerSize)) s₁)
    (hlog : (((s₁.extended header n).release (header + extent 100 cap) (growLen 100 cap n)).later
      k).log = s.log ++ more) :
    Follows header cap
      (((s₁.extended header n).release (header + extent 100 cap) (growLen 100 cap n)).later k)
      (effects ++ more) (Level s cap n false more) := by
  have hnew := newClass_none (matchSizeClass_large hn)
  obtain ⟨hsnug, hbig, hheaders, hthp, hclaim, hown⟩ := h.extends hexact hlt hext
  have hall : more = [.claim ((header / 4096 + pagesOf (cap + headerSize)) * 4096)
      ((pagesOf (n + headerSize) - pagesOf (cap + headerSize)) * 4096),
      .grow header (pagesOf (newCapacity n + headerSize) * 4096),
      .release (header + extent 100 cap) (growLen 100 cap n)] := by
    refine List.append_cancel_left (hlog.symm.trans ?_)
    show (s₁.log ++ [_]) ++ [_] = _
    rw [hclaim, List.append_assoc, List.append_assoc]
    rfl
  have hback : ∀ q, Covers (header + extent 100 cap) (growLen 100 cap n) q ↔
      header / 4096 + pagesOf (cap + headerSize) ≤ q ∧
        q < header / 4096 + pagesOf (n + headerSize) := by
    intro q
    rw [growLen, extent_big, hnew.2, ← Nat.sub_mul, covers_pages,
      Nat.add_mul_div_right _ _ (by decide)]
    omega
  have hlevel : Level s cap n false more := fun hfalse => absurd hfalse Bool.false_ne_true
  refine ⟨h.toBig.of_records (State.released_records.1.trans hheaders)
    (State.released_records.2.trans hbig), ⟨fun _ => hlevel, fun _ => ?_⟩, fun _ q hq => ?_⟩
  · rw [h.matched_iff]
    show _ ∧ ∀ q, _ ↔ Covers header (reserved s₁.thp cap) q
    rw [hthp, hall]
    refine ⟨⟨fun _ _ h => Effect.noConfusion h, fun _ _ h => Effect.noConfusion h, ?_, trivial⟩,
      fun q => ?_⟩
    · rintro addr len heq q hq
      obtain ⟨rfl, rfl⟩ := Effect.release.inj heq
      exact Or.inr ((covers_behind hlt.le).mpr ((hback q).mp hq))
    · show (Covers _ _ q ∨ Covers _ _ q) ∧ ¬ Covers _ _ q ↔ _
      rw [covers_behind hlt.le, hback, Covers]
      omega
  · have hin : Covers header (reserved s.thp cap) q := hthp ▸ hq
    have hout : ¬ Covers (header + extent 100 cap) (growLen 100 cap n) q := by
      rw [hback]
      unfold Covers at hin
      omega
    refine (if_neg hout).trans (hown q hin.1 ?_)
    have hhi := hin.2
    omega

/-- One resize. -/
theorem Steady.resizes {b : Bool} (h : Steady header cap s effects) (hexact : o.Exact)
    (hn : 2097152 < n) (hresize : Resizes o s header 100 cap n b s')
    (hlog : s'.log = s.log ++ more) :
    ∃ cap', Follows header cap' s' (effects ++ more) (Level s cap n b more) := by
  have hnew := newClass_none (matchSizeClass_large hn)
  have hpages : extent 100 cap < extent (newClass n) n →
      pagesOf (cap + headerSize) < pagesOf (n + headerSize) := by
    rw [hnew.1, extent_big, extent_big]
    omega
  cases hresize with
  | same _ heq hre =>
    obtain rfl : more = [] := List.self_eq_append_right.mp (hre.log_eq ▸ hlog)
    rw [hnew.1, extent_big, extent_big] at heq
    exact ⟨n, h.quiet (h.toBig.reclassed hn hre rfl) hre.live_eq.2 hre.frame.1 (by omega)
      (Or.inl rfl)⟩
  | kept _ =>
    obtain rfl : more = [] := List.self_eq_append_right.mp hlog
    exact ⟨cap, h.quiet h.toBig rfl rfl rfl (Or.inl rfl)⟩
  | refusedShrink k _ _ =>
    obtain rfl := List.append_cancel_left hlog
    exact ⟨cap, h.quiet (h.toBig.of_records rfl rfl) rfl rfl rfl (Or.inr ⟨_, _, rfl⟩)⟩
  | shrunk k _ hlt hlen hre => exact ⟨n, h.shrunk hn hlt hlen hre hlog⟩
  | refused k _ =>
    obtain rfl : more = [] := List.self_eq_append_right.mp hlog
    exact ⟨cap, h.quiet (h.toBig.of_records rfl rfl) rfl rfl rfl (Or.inl rfl)⟩
  | grown k s₁ _ hgt hext hre =>
    rw [hnew.2] at hext
    exact ⟨n, h.grown hexact hn (hpages hgt) hext hre hlog⟩
  | stuck k s₁ hgt hext hodd =>
    -- a big block begins and ends at a page
    refine absurd ⟨?_, ?_⟩ hodd
    · rw [extent_big, Nat.add_mul_mod_self_right]
      exact h.align
    · rw [growLen, extent_big, ← Nat.sub_mul]
      exact Nat.mul_mod_left _ _
  | undone k s₁ hgt hext _ _ =>
    rw [hnew.2] at hext
    exact ⟨cap, h.undone hexact hn (hpages hgt) hext hlog⟩

end Resizing

section End

/-- `big_free` releases the reservation of the recorded size. -/
theorem Big.released_iff {last : List Effect} (h : Big header cap s)
    (hfree : Runs (bigFree o header) s () s') (hlog : s'.log = s.log ++ last) :
    Released (effects ++ last) ↔ Matched header cap s effects := by
  cases runs_bigFree h.ne_zero h.get hfree with
  | slab cls hget hcls =>
    obtain rfl : 100 = cls := congrArg Header.cls (Option.some.inj (h.get.symm.trans hget))
    exact absurd hcls (by decide)
  | big n info hget hinfo =>
    have hsize : info.size = cap := by
      rw [(remove_get h.sound header).2.2] at hinfo
      refine Option.some.inj (Eq.trans ?_ h.entry)
      rw [State.entry, hinfo, Option.map_some]
    have hall : last = [.discard header (reserved s.thp cap), .forbid header (reserved s.thp cap),
        .release header (reserved s.thp cap)] := by
      rw [← hsize]
      refine List.append_cancel_left (hlog.symm.trans ?_)
      show ((s.log ++ [_]) ++ [_]) ++ [_] = _
      rw [List.append_assoc, List.append_assoc]
      rfl
    have hlast : ∀ had, Proper had last ↔ ∀ q, Covers header (reserved s.thp cap) q → had q := by
      intro had
      rw [hall]
      refine ⟨fun hp => hp.2.2.1 _ _ rfl, fun hin => ⟨fun _ _ h => Effect.noConfusion h,
        fun _ _ h => Effect.noConfusion h, ?_, trivial⟩⟩
      rintro addr len heq
      obtain ⟨rfl, rfl⟩ := Effect.release.inj heq
      exact hin
    have hleft : ∀ had q, held had last q ↔ had q ∧ ¬ Covers header (reserved s.thp cap) q := by
      intro had q
      rw [hall]
      rfl
    rw [Released, Matched, proper_append, held_append, hlast]
    constructor
    · rintro ⟨⟨hproper, hin⟩, hnone⟩
      refine ⟨hproper, fun q => ⟨fun hheld => ?_, hin q⟩⟩
      by_contra hout
      exact hnone q ((hleft _ q).mpr ⟨hheld, hout⟩)
    · rintro ⟨hproper, hiff⟩
      refine ⟨⟨hproper, fun q => (hiff q).mpr⟩, fun q hq => ?_⟩
      obtain ⟨hheld, hout⟩ := (hleft _ q).mp hq
      exact hout ((hiff q).mp hheld)

theorem Life.steady {answer : ℕ → ℕ} {pages : ℕ → Bool}
    (h : Life Level (exactly answer pages) header s effects) :
    ∃ cap, Steady header cap s effects := by
  induction h with
  | born s s' size effects hsize hsound hrun hlog =>
    exact ⟨size, Steady.born hsize hsound hrun hlog⟩
  | elsewhere s s' effects _ hkept ih =>
    obtain ⟨cap, hcap⟩ := ih
    exact ⟨cap, hcap.elsewhere hkept⟩
  | resized s s' effects more n cap b _ hn hentry hrun hlog hok ih =>
    obtain ⟨cap', hcap⟩ := ih
    obtain rfl : cap' = cap := Option.some.inj (hcap.entry.symm.trans hentry)
    obtain ⟨cap', hbig, hiff, hown⟩ := hcap.resizes (exactly_exact answer pages) hn
      (runs_resizeInplace (Or.inl ⟨rfl, hentry⟩) hrun) hlog
    exact ⟨cap', hbig, hown hok, hiff.mpr hok⟩

/-- A big block whose resizes were level releases each of its pages once, and so it does after
one more resize exactly if this is level too. -/
theorem reservation_is_released_once (answer : ℕ → ℕ) (pages : ℕ → Bool) (header : ℕ)
    (s : State) (effects : List Effect)
    (hlife : Life Level (exactly answer pages) header s effects) :
    (∀ s' last, Runs (bigFree (exactly answer pages) header) s () s' →
      s'.log = s.log ++ last → Released (effects ++ last)) ∧
    ∀ n cap b more s₁, 2097152 < n → s.entry header = some cap →
      Runs (resizeInplace (exactly answer pages) header 100 cap n) s b s₁ →
      s₁.log = s.log ++ more →
      ∀ s' last, Runs (bigFree (exactly answer pages) header) s₁ () s' →
        s'.log = s₁.log ++ last →
        (Released (effects ++ more ++ last) ↔ Level s cap n b more) := by
  obtain ⟨cap, hcap⟩ := hlife.steady
  refine ⟨fun s' last hfree hlog => (hcap.toBig.released_iff hfree hlog).mpr hcap.matched, ?_⟩
  intro n cap' b more s₁ hn hentry hrun hlog s' last hfree hlast
  obtain rfl : cap = cap' := Option.some.inj (hcap.entry.symm.trans hentry)
  obtain ⟨cap', hbig, hiff, _⟩ := hcap.resizes (exactly_exact answer pages) hn
    (runs_resizeInplace (Or.inl ⟨rfl, hentry⟩) hrun) hlog
  rw [hbig.released_iff hfree hlast, hiff]

end End

/-- A life of three calls. -/
theorem life_of_calls {ok : State → ℕ → ℕ → Bool → List Effect → Prop} {thp : Bool} {size : ℕ}
    {last : List Effect} (hsize : 2097152 < size) (hn : 2097152 < n)
    (hok : ∀ s b, s.thp = thp → ok s size n b more)
    (h : (outcome (bigMalloc o size) (initial thp)).bind (fun x =>
      (outcome (resizeInplace o header 100 size n) x.2).bind fun y =>
        (outcome (bigFree o header) y.2).map fun z => decide (x.1 = header + headerSize ∧
          x.2.log = (initial thp).log ++ effects ∧ x.2.entry header = some size ∧
          y.2.log = x.2.log ++ more ∧ x.2.thp = thp ∧ z.2.log = y.2.log ++ last)) = some true) :
    ∃ s s', Life ok o header s (effects ++ more) ∧ Runs (bigFree o header) s () s' ∧
      s'.log = s.log ++ last := by
  obtain ⟨⟨r, s₁⟩, hmalloc, h⟩ := Option.bind_eq_some_iff.mp h
  obtain ⟨⟨b, s₂⟩, hresize, h⟩ := Option.bind_eq_some_iff.mp h
  obtain ⟨⟨u, s₃⟩, hfree, h⟩ := Option.map_eq_some_iff.mp h
  obtain ⟨rfl, hlog₁, hentry, hlog₂, hthp, hlog₃⟩ := of_decide_eq_true h
  have hborn : Life ok o header s₁ effects :=
    .born (initial thp) s₁ size effects hsize (agree_initial thp).sound
      (outcome_eq_some.mp hmalloc) hlog₁
  refine ⟨s₂, s₃, ?_, outcome_eq_some.mp hfree, hlog₃⟩
  exact .resized s₁ s₂ effects more n size b hborn hn hentry (outcome_eq_some.mp hresize) hlog₂
    (hok s₁ b hthp)

end Lives

/-- With huge pages forced, a block that fills two of them grows until it fills three. -/
theorem reservation_is_released_once_grown :
    ∃ s s' : State, s'.log = s.log ++ [.discard 2097152 6291456, .forbid 2097152 6291456,
        .release 2097152 6291456] ∧
      Released ([.claim 2097152 4194304, .commit 2097152 4194304, .claim 6291456 2097152,
        .grow 2097152 6291456, .commit 6291456 2097152] ++
        [.discard 2097152 6291456, .forbid 2097152 6291456, .release 2097152 6291456]) := by
  obtain ⟨s, s', hlife, hfree, hlog⟩ := @life_of_calls (listed [2097152]) 6291440 2097152
    [.claim 2097152 4194304, .commit 2097152 4194304]
    [.claim 6291456 2097152, .grow 2097152 6291456, .commit 6291456 2097152] _ Level true 4194288
    [.discard 2097152 6291456, .forbid 2097152 6291456, .release 2097152 6291456]
    (by decide) (by decide) (fun s b hthp _ _ => by rw [hthp]; decide) (by decide +kernel)
  exact ⟨s, s', hlog, (reservation_is_released_once _ _ 2097152 s _ hlife).1 s' _ hfree hlog⟩

/-- With huge pages forced, a block of 3000000 bytes that shrinks to 2621440 bytes releases the
pages from 641 on, and `big_free` releases them again. -/
theorem shrunk_huge_block_is_released_twice :
    ∃ s s', Life (fun _ _ _ _ _ => True) (listed [1048576]) 1048576 s
        [.claim 1048576 4194304, .commit 1048576 4194304,
          .discard 3674112 376832, .forbid 3674112 376832, .release 3674112 376832] ∧
      Runs (bigFree (listed [1048576]) 1048576) s () s' ∧
      s'.log = s.log ++ [.discard 1048576 4194304, .forbid 1048576 4194304,
        .release 1048576 4194304] ∧
      ¬ Released ([.claim 1048576 4194304, .commit 1048576 4194304,
        .discard 3674112 376832, .forbid 3674112 376832, .release 3674112 376832] ++
        [.discard 1048576 4194304, .forbid 1048576 4194304, .release 1048576 4194304]) := by
  obtain ⟨s, s', hlife, hfree, hlog⟩ := @life_of_calls (listed [1048576]) 2621440 1048576
    [.claim 1048576 4194304, .commit 1048576 4194304]
    [.discard 3674112 376832, .forbid 3674112 376832, .release 3674112 376832] _
    (fun _ _ _ _ _ => True) true 3000000
    [.discard 1048576 4194304, .forbid 1048576 4194304, .release 1048576 4194304]
    (by decide) (by decide) (fun _ _ _ => trivial) (by decide +kernel)
  refine ⟨s, s', hlife, hfree, hlog, fun hreleased => ?_⟩
  obtain ⟨⟨_, _, _, _, _, _, _, hlast, _⟩, _⟩ := hreleased
  exact (hlast _ _ rfl 897 (by decide)).2 (by decide)

end Oxidalloc.Records
