import Oxidalloc.BlockRecordsSpec

/-!
What `realloc` can do to the records. A block that is big or alone in its slab is resized
where it is if that works; otherwise, and for all other blocks, a new block is filled with
the old contents and the old one is freed.
-/
namespace Oxidalloc.Records

open Hashmap Programs ByteMemory

variable {o : Oracle} {s s' : State} {n header size cls newCls cap ptr : ℕ} {u : Unit}

/-- The class and the payload that a request is rounded to. -/
def newClass (n : ℕ) : ℕ := (matchSizeClass n).getD 100

def newCapacity (n : ℕ) : ℕ := ((matchSizeClass n).map payload).getD n

/-- The payload that is recorded for a block of a class. -/
def Recorded (s : State) (header cls cap : ℕ) : Prop :=
  (cls = 100 ∧ s.entry header = some cap) ∨ (cls < 34 ∧ cap = payload cls)

theorem runs_recorded {message : String} (h : Runs (recorded o header message) s cap s') :
    ∃ cls live, s.headers.get header = some ⟨cls, live⟩ ∧ Recorded s header cls cap ∧ s' = s := by
  rw [recorded, CInterface.recorded, runs_bind] at h
  obtain ⟨cls, s₁, hclass, h⟩ := h
  obtain ⟨live, hget, rfl⟩ := runs_classOf hclass
  refine ⟨cls, live, hget, ?_⟩
  split at h
  · rename_i hbig
    rw [runs_read_bind] at h
    split at h
    · rename_i info hinfo
      obtain ⟨rfl, rfl⟩ := runs_pure.mp h
      exact ⟨Or.inl ⟨hbig, congrArg (Option.map BigAllocMeta.size) hinfo⟩, rfl⟩
    · exact absurd h runs_throw
  · obtain ⟨hcls, hcap, hs'⟩ := runs_lookup h
    exact ⟨Or.inr ⟨hcls, hcap⟩, hs'⟩

theorem newClass_none (h : matchSizeClass n = none) : newClass n = 100 ∧ newCapacity n = n := by
  simp only [newClass, newCapacity, h, Option.map_none, Option.getD_none, and_self]

theorem newClass_some (h : matchSizeClass n = some cls) :
    newClass n = cls ∧ newCapacity n = payload cls := by
  simp only [newClass, newCapacity, h, Option.map_some, Option.getD_some, and_self]

theorem le_newCapacity (n : ℕ) : n ≤ newCapacity n := by
  cases h : matchSizeClass n with
  | none => rw [(newClass_none h).2]
  | some cls =>
    rw [(newClass_some h).2]
    exact (matchSizeClass_some h).2.1

theorem pagesOf_mul (k : ℕ) : pagesOf (k * 4096) = k := by
  unfold pagesOf
  omega

def State.giveBack (s : State) (start len : ℕ) : State :=
  (((s.noted (.discard start len)).zero start (pagesOf len * 4096)).noted
    (.forbid start len)).release
    start len

section GiveBack

variable (s : State) (start len k : ℕ)

theorem State.giveBack_headers : ((s.giveBack start len).later k).headers = s.headers := rfl

theorem State.giveBack_big : ((s.giveBack start len).later k).big = s.big := rfl

theorem State.giveBack_uncarved : ((s.giveBack start len).later k).uncarved = s.uncarved := rfl

theorem State.giveBack_live_eq :
    ((s.giveBack start len).later k).live = s.live ∧ ((s.giveBack start len).later k).thp = s.thp :=
  ⟨rfl, rfl⟩

end GiveBack

/-- The pages behind a block are claimed for it, unless it has enough. -/
inductive Extends (o : Oracle) (s : State) (header old new : ℕ) : State → Prop
  | same (heq : new = old) : Extends o s header old new s
  | claimed (k : ℕ) (hlt : old < new)
    (hadmits : o.admits (s.later k) ((header / 4096 + old) * 4096) ((new - old) * 4096) = true) :
    Extends o s header old new
      ((s.claim ((header / 4096 + old) * 4096) ((new - old) * 4096) (.block header)).later k)

theorem Extends.live_eq {old new : ℕ} (h : Extends o s header old new s') :
    s'.live = s.live ∧ s'.thp = s.thp := by
  cases h <;> exact ⟨rfl, rfl⟩

theorem Prepares.live_eq (h : Prepares o s s') : s'.live = s.live ∧ s'.thp = s.thp := by
  induction h with
  | refl => exact ⟨rfl, rfl⟩
  | wait n _ ih => exact ih
  | undone hint len n owner _ _ ih => exact ih

variable [Layout]

/-- The bytes that a block of a class needs with its header. -/
def extent (cls size : ℕ) : ℕ :=
  if cls = 100 then pagesOf (size + headerSize) * 4096 else payload cls + headerSize

section Extent

theorem extent_big (size : ℕ) : extent 100 size = pagesOf (size + headerSize) * 4096 := if_pos rfl

theorem extent_slab (h : cls < 34) : extent cls size = payload cls + headerSize := if_neg (by omega)

theorem newExtent_eq {p : ℕ × ℕ} (h : CInterface.newExtent headerSize n = .ok p) :
    p = (newCapacity n, extent (newClass n) n) ∧ (matchSizeClass p.1).getD 100 = newClass n := by
  unfold CInterface.newExtent at h
  cases hcls : matchSizeClass n with
  | none =>
    obtain ⟨hclass, hcap⟩ := newClass_none hcls
    simp only [hcls] at h
    cases htotal : alignTo (n + headerSize) 4096 with
    | error e =>
      rw [htotal] at h
      exact absurd h nofun
    | ok total =>
      rw [htotal] at h
      obtain rfl := Except.ok.inj h
      rw [hclass, hcap, extent_big, alignTo_page htotal]
      exact ⟨rfl, by rw [hcls, Option.getD_none]⟩
  | some c =>
    obtain ⟨hclass, hcap⟩ := newClass_some hcls
    have hc := (matchSizeClass_some hcls).1
    simp only [hcls] at h
    have hindex : index sizeClasses c = .ok (payload c) := index_sizeClasses.mpr ⟨hc, rfl⟩
    rw [hindex] at h
    have hrest : (alignTo (payload c + headerSize) 16).bind
        (fun total => Except.ok (payload c, total)) = .ok p := h
    rw [alignTo_payload hc] at hrest
    obtain rfl := Except.ok.inj hrest
    rw [hclass, hcap, extent_slab hc]
    exact ⟨rfl, by rw [matchSizeClass_payload hc, Option.getD_some]⟩

theorem alignTo_recorded {total : ℕ} (hrec : Recorded s header cls cap)
    (h : alignTo (cap + headerSize) (if cls = 100 then 4096 else 16) = .ok total) :
    total = extent cls cap := by
  rcases hrec with ⟨rfl, _⟩ | ⟨hcls, rfl⟩
  · rw [if_pos rfl] at h
    rw [extent_big]
    exact alignTo_page h
  · rw [if_neg (by omega), alignTo_payload hcls] at h
    rw [extent_slab hcls]
    exact (Except.ok.inj h).symm

/-- A block lies within the pages of its payload and header, and needs the last of them. -/
theorem extent_bounds (hrec : Recorded s header cls cap) :
    extent cls cap ≤ pagesOf (cap + headerSize) * 4096 ∧ cap + headerSize ≤ extent cls cap := by
  rcases hrec with ⟨rfl, _⟩ | ⟨hcls, rfl⟩
  · rw [extent_big]
    unfold pagesOf
    omega
  · rw [extent_slab hcls]
    unfold pagesOf
    omega

theorem newExtent_bounds (n : ℕ) :
    extent (newClass n) n ≤ pagesOf (newCapacity n + headerSize) * 4096 ∧
      newCapacity n + headerSize ≤ extent (newClass n) n := by
  cases h : matchSizeClass n with
  | none =>
    rw [(newClass_none h).1, (newClass_none h).2, extent_big]
    unfold pagesOf
    omega
  | some c =>
    rw [(newClass_some h).1, (newClass_some h).2, extent_slab (matchSizeClass_some h).1]
    unfold pagesOf
    omega

end Extent

/-- A block gets another class where it is. -/
inductive Reclasses (s : State) (header cls newCls size : ℕ) : State → Prop
  | removed (hcls : cls = 100) (hnew : newCls ≠ 100) :
    Reclasses s header cls newCls size
      { s with
        headers := s.headers.set header ⟨newCls, true⟩, big := (s.big.remove header).1
        mem := setClass s.mem header newCls }
  | inserted (n : ℕ) (mmapOk : Bool) (big : BigAllocMap) (hnew : newCls = 100)
    (hinsert : s.big.insert mmapOk header ⟨size, 100, 0, 0⟩ = .ok big) :
    Reclasses s header cls newCls size
      ({ s with
        headers := s.headers.set header ⟨newCls, true⟩, big := big
        mem := setClass s.mem header newCls }.later n)
  | plain (hcls : cls ≠ 100) (hnew : newCls ≠ 100) :
    Reclasses s header cls newCls size
      { s with
        headers := s.headers.set header ⟨newCls, true⟩
        mem := setClass s.mem header newCls }

/-- The range that a block gives back when it shrinks. -/
def freedStart (header n : ℕ) : ℕ := pagesOf (header + extent (newClass n) n) * 4096

def freedLen (cls cap n : ℕ) : ℕ := extent cls cap - extent (newClass n) n

def State.extended (s : State) (header n : ℕ) : State :=
  s.noted (.grow header (pagesOf (newCapacity n + headerSize) * 4096))

/-- The range that is made writable when a block grows. -/
def growStart (header cls cap : ℕ) : ℕ := pagesOf (header + extent cls cap) * 4096

def growLen (cls cap n : ℕ) : ℕ := pagesOf (newCapacity n + headerSize) * 4096 - extent cls cap

/-- The resize of a block where it is; the result is false if it has to move. -/
inductive Resizes (o : Oracle) (s : State) (header cls cap n : ℕ) : Bool → State → Prop
  | same (s' : State) (heq : extent (newClass n) n = extent cls cap)
    (hre : Reclasses s header cls (newClass n) (newCapacity n) s') :
    Resizes o s header cls cap n true s'
  | kept (hlt : extent (newClass n) n < extent cls cap) : Resizes o s header cls cap n true s
  | refusedShrink (k : ℕ) (hlt : extent (newClass n) n < extent cls cap)
    (hlen : freedLen cls cap n % 4096 = 0) :
    Resizes o s header cls cap n true
      ((s.noted (.discard (freedStart header n) (freedLen cls cap n))).later k)
  | shrunk (k : ℕ) (s' : State) (hlt : extent (newClass n) n < extent cls cap)
    (hlen : freedLen cls cap n % 4096 = 0)
    (hre : Reclasses ((s.giveBack (freedStart header n) (freedLen cls cap n)).later k) header cls
      (newClass n) (newCapacity n) s') :
    Resizes o s header cls cap n true s'
  | refused (k : ℕ) (hgt : extent cls cap < extent (newClass n) n) :
    Resizes o s header cls cap n false (s.later k)
  | grown (k : ℕ) (s₁ s' : State) (hgt : extent cls cap < extent (newClass n) n)
    (hext : Extends o s header (pagesOf (cap + headerSize))
      (pagesOf (newCapacity n + headerSize)) s₁)
    (hre : Reclasses (((s₁.extended header n).noted
      (.commit (growStart header cls cap) (growLen cls cap n))).later k) header cls (newClass n)
      (newCapacity n) s') :
    Resizes o s header cls cap n true s'
  | stuck (k : ℕ) (s₁ : State) (hgt : extent cls cap < extent (newClass n) n)
    (hext : Extends o s header (pagesOf (cap + headerSize))
      (pagesOf (newCapacity n + headerSize)) s₁)
    (hodd : ¬ ((header + extent cls cap) % 4096 = 0 ∧ growLen cls cap n % 4096 = 0)) :
    Resizes o s header cls cap n false ((s₁.extended header n).later k)
  | undone (k : ℕ) (s₁ : State) (hgt : extent cls cap < extent (newClass n) n)
    (hext : Extends o s header (pagesOf (cap + headerSize))
      (pagesOf (newCapacity n + headerSize)) s₁)
    (hstart : (header + extent cls cap) % 4096 = 0) (hlen : growLen cls cap n % 4096 = 0) :
    Resizes o s header cls cap n false
      (((s₁.extended header n).release (header + extent cls cap) (growLen cls cap n)).later k)

section Resize

theorem runs_reclass (h : Runs (reclass o header cls newCls size) s u s') :
    Reclasses s header cls newCls size s' := by
  rw [reclass, CInterface.reclass, runs_modify_bind] at h
  split at h
  · rename_i hboth
    rw [runs_bind] at h
    obtain ⟨found, s₁, hremove, h⟩ := h
    obtain ⟨_, rfl⟩ := runs_bigRemove hremove
    obtain ⟨_, rfl⟩ := runs_pure.mp h
    exact .removed hboth.1 hboth.2
  · rename_i hboth
    split at h
    · rename_i hnew
      obtain ⟨n, mmapOk, big, hbig, rfl⟩ := runs_bigInsert h
      exact .inserted n mmapOk big hnew hbig
    · rename_i hnew
      obtain ⟨_, rfl⟩ := runs_pure.mp h
      exact .plain (fun hcls => hboth ⟨hcls, hnew⟩) hnew

omit [Layout] in
theorem runs_vaResize {old new : ℕ} {r : Option ℕ} (hle : old ≤ new)
    (h : Runs (vaResize o header (old * 4096) (new * 4096)) s r s') :
    (r = none ∧ ∃ n, s' = s.later n) ∨
      (r = some (new * 4096) ∧ Extends o s header old new s') := by
  unfold vaResize at h
  rw [pagesOf_mul, pagesOf_mul] at h
  split at h
  · rename_i heq
    obtain ⟨rfl, rfl⟩ := runs_pure.mp h
    exact Or.inr ⟨by rw [heq], .same heq⟩
  · rename_i hne
    rw [if_neg (by omega)] at h
    dsimp only at h
    rw [runs_bind] at h
    obtain ⟨answer, s₁, hdraw, h⟩ := h
    rw [runs_draw hdraw, runs_get_bind] at h
    split at h
    · obtain ⟨hr, hs'⟩ := runs_pure.mp h
      exact Or.inl ⟨hr, _, hs'⟩
    · rename_i hok
      rw [not_or, Bool.not_eq_false] at hok
      rw [runs_set_bind] at h
      obtain ⟨hr, hs'⟩ := runs_pure.mp h
      rw [hs']
      exact Or.inr ⟨hr, .claimed _ (by omega) hok.2⟩

omit [Layout] in
theorem runs_vaReallocInplace {old new : ℕ} {r : Option ℕ} (hle : old ≤ new)
    (h : Runs (vaReallocInplace o header (old * 4096) (new * 4096)) s r s') :
    (r = none ∧ ∃ n, s' = s.later n) ∨ (r = some (new * 4096) ∧
      ∃ s₁, Extends o s header old new s₁ ∧ s' = s₁.noted (.grow header (new * 4096))) := by
  rw [vaReallocInplace, runs_bind] at h
  obtain ⟨found, s₁, hresize, h⟩ := h
  rcases runs_vaResize hle hresize with ⟨rfl, hlater⟩ | ⟨rfl, hext⟩
  · obtain ⟨hr, rfl⟩ := runs_pure.mp h
    exact Or.inl ⟨hr, hlater⟩
  · dsimp only at h
    rw [runs_bind] at h
    obtain ⟨_, s₂, hnote, h⟩ := h
    obtain ⟨hr, rfl⟩ := runs_pure.mp h
    exact Or.inr ⟨hr, s₁, hext, runs_modify.mp hnote⟩

theorem runs_shrinkInplace (hlt : extent (newClass n) n < extent cls cap)
    (h : Runs (shrinkInplace o header cls (newClass n) (newCapacity n) (extent cls cap)
      (extent (newClass n) n)) s u s') :
    Resizes o s header cls cap n true s' := by
  rw [shrinkInplace, CInterface.shrinkInplace, runs_bind] at h
  dsimp only at h
  obtain ⟨start, s₁, hstart, h⟩ := h
  obtain ⟨halign, rfl⟩ := runs_check hstart
  obtain rfl := alignTo_page halign
  split at h
  · rename_i haligned
    rw [runs_bind] at h
    obtain ⟨given, s₂, hdiscard, h⟩ := h
    rcases runs_discard hdiscard with ⟨rfl, k, rfl⟩ | ⟨rfl, _, k, rfl⟩
    · rw [if_neg Bool.false_ne_true] at h
      obtain ⟨_, rfl⟩ := runs_pure.mp h
      exact .refusedShrink k hlt haligned.2
    · rw [if_pos rfl, runs_bind] at h
      obtain ⟨_, s₃, hforbid, h⟩ := h
      obtain ⟨m, rfl⟩ := runs_forbid hforbid
      rw [runs_bind] at h
      obtain ⟨_, s₄, hfree, h⟩ := h
      have hpos := newExtent_bounds n
      have hhead := headerSize_cases
      have hpage : pagesOf (header + extent (newClass n) n) * 4096 ≠ 0 := by
        unfold pagesOf
        omega
      rw [runs_vaFree hpage (by omega) hfree] at h
      exact .shrunk m s' hlt haligned.2 (runs_reclass h)
  · obtain ⟨_, rfl⟩ := runs_pure.mp h
    exact .kept hlt

theorem runs_growInplace {r : Bool} (hrec : Recorded s header cls cap)
    (hgt : extent cls cap < extent (newClass n) n)
    (h : Runs (growInplace o header cls (newClass n) cap (newCapacity n) (extent cls cap)) s r s') :
    Resizes o s header cls cap n r s' := by
  have hold := extent_bounds hrec
  have hnew := newExtent_bounds n
  have hhead := headerSize_cases
  rw [growInplace, CInterface.growInplace, runs_bind] at h
  dsimp only at h
  obtain ⟨oldVa, s₁, holdVa, h⟩ := h
  obtain ⟨halign, rfl⟩ := runs_check holdVa
  obtain rfl := alignTo_page halign
  rw [runs_bind] at h
  obtain ⟨newVa, s₂, hnewVa, h⟩ := h
  obtain ⟨halign', rfl⟩ := runs_check hnewVa
  obtain rfl := alignTo_page halign'
  rw [runs_bind] at h
  obtain ⟨actual, s₃, hinplace, h⟩ := h
  -- a larger extent never needs fewer pages
  have hpages : pagesOf (cap + headerSize) ≤ pagesOf (newCapacity n + headerSize) := by
    unfold pagesOf at *
    omega
  rcases runs_vaReallocInplace hpages hinplace with ⟨rfl, k, rfl⟩ | ⟨rfl, s₄, hext, rfl⟩
  · obtain ⟨rfl, rfl⟩ := runs_pure.mp h
    exact .refused k hgt
  · dsimp only at h
    rw [runs_bind] at h
    obtain ⟨start, s₅, hstart, h⟩ := h
    obtain ⟨halign₂, rfl⟩ := runs_check hstart
    obtain rfl := alignTo_page halign₂
    rw [if_neg (by omega), runs_bind] at h
    obtain ⟨permitted, s₆, hpermit, h⟩ := h
    rcases runs_permit hpermit with ⟨rfl, k, rfl⟩ | ⟨rfl, _, k, rfl⟩
    · rw [if_neg Bool.false_ne_true] at h
      split at h
      · rename_i haligned
        rw [runs_bind] at h
        obtain ⟨_, s₇, hback, h⟩ := h
        obtain ⟨rfl, rfl⟩ := runs_pure.mp h
        have hlen : pagesOf (newCapacity n + headerSize) * 4096 - extent cls cap ≠ 0 := by
          omega
        rw [runs_vaFree (by omega) hlen hback]
        exact .undone k s₄ hgt hext haligned.1 haligned.2
      · rename_i hodd
        obtain ⟨rfl, rfl⟩ := runs_pure.mp h
        exact .stuck k s₄ hgt hext hodd
    · rw [if_pos rfl, runs_bind] at h
      obtain ⟨_, s₇, hre, h⟩ := h
      obtain ⟨rfl, rfl⟩ := runs_pure.mp h
      exact .grown k s₄ _ hgt hext (runs_reclass hre)

theorem runs_resizeInplace {r : Bool} (hrec : Recorded s header cls cap)
    (h : Runs (resizeInplace o header cls cap n) s r s') : Resizes o s header cls cap n r s' := by
  rw [resizeInplace, CInterface.resizeInplace, runs_bind] at h
  obtain ⟨oldTotal, s₁, hold, h⟩ := h
  obtain ⟨halign, rfl⟩ := runs_check hold
  obtain rfl := alignTo_recorded hrec halign
  rw [runs_bind] at h
  obtain ⟨p, s₂, hnew, h⟩ := h
  obtain ⟨hextent, rfl⟩ := runs_check hnew
  obtain ⟨rfl, hclass⟩ := newExtent_eq hextent
  dsimp only at h hclass
  rw [hclass] at h
  split at h
  · rename_i heq
    rw [runs_bind] at h
    obtain ⟨_, s₃, hre, h⟩ := h
    obtain ⟨rfl, rfl⟩ := runs_pure.mp h
    exact .same _ heq (runs_reclass hre)
  · rename_i hne
    split at h
    · rename_i hlt
      rw [runs_bind] at h
      obtain ⟨_, s₃, hshrink, h⟩ := h
      obtain ⟨rfl, rfl⟩ := runs_pure.mp h
      exact runs_shrinkInplace hlt hshrink
    · exact runs_growInplace hrec (by omega) h

end Resize

section Live

theorem Gives.live_eq {r : ℕ} (h : Gives o s size r s') : s'.live = s.live ∧ s'.thp = s.thp := by
  cases h <;> exact ⟨rfl, rfl⟩

theorem Mallocs.live_eq {r : ℕ} (h : Mallocs o s size r s') :
    s'.live = s.live ∧ s'.thp = s.thp := by
  obtain ⟨s₁, hprepares, hgives⟩ := h
  exact ⟨hgives.live_eq.1.trans hprepares.live_eq.1, hgives.live_eq.2.trans hprepares.live_eq.2⟩

theorem Frees.live_eq (h : Frees s header s') : s'.live = s.live ∧ s'.thp = s.thp := by
  cases h <;> exact ⟨rfl, rfl⟩

theorem Reclasses.live_eq (h : Reclasses s header cls newCls size s') :
    s'.live = s.live ∧ s'.thp = s.thp := by
  cases h <;> exact ⟨rfl, rfl⟩

theorem Resizes.live_eq {r : Bool} (h : Resizes o s header cls cap n r s') :
    s'.live = s.live ∧ s'.thp = s.thp := by
  cases h with
  | same _ _ hre => exact hre.live_eq
  | kept _ => exact ⟨rfl, rfl⟩
  | refusedShrink _ _ _ => exact ⟨rfl, rfl⟩
  | shrunk k _ _ _ hre =>
    have hgive := State.giveBack_live_eq s (freedStart header n) (freedLen cls cap n) k
    exact ⟨hre.live_eq.1.trans hgive.1, hre.live_eq.2.trans hgive.2⟩
  | refused _ _ => exact ⟨rfl, rfl⟩
  | grown _ _ _ _ hext hre =>
    exact ⟨hre.live_eq.1.trans hext.live_eq.1, hre.live_eq.2.trans hext.live_eq.2⟩
  | stuck _ _ _ hext _ => exact hext.live_eq
  | undone _ _ _ hext _ _ => exact hext.live_eq

end Live

/-- A new block, a copy and the end of the old block. -/
def Moves (o : Oracle) (s : State) (ptr n old : ℕ) (handle : Handle) (r : ℕ) (s' : State) : Prop :=
  ∃ s₁, Mallocs o s n r s₁ ∧
    ((r = 0 ∧ s' = s₁) ∨
      (r ≠ 0 ∧ Frees { s₁ with mem := copy s₁.mem ptr r (min old n) } (handle.raw - headerSize) s'))

inductive Reallocs (o : Oracle) (s : State) (ptr n : ℕ) (handle : Handle) (cls cap : ℕ) :
    ℕ → State → Prop
  | same (hplain : handle.offset = 0) (hcls : matchSizeClass n = some cls) (hcap : n ≤ cap) :
    Reallocs o s ptr n handle cls cap ptr s
  | inPlace (s' : State) (hplain : handle.offset = 0) (hsolo : cls = 100 ∨ slabBlocks cls = 1)
    (hother : ¬ (matchSizeClass n = some cls ∧ n ≤ cap))
    (hresize : Resizes o s (handle.raw - headerSize) cls cap n true s') :
    Reallocs o s ptr n handle cls cap ptr s'
  | moved (r : ℕ) (s' : State)
    (hwhy : handle.offset ≠ 0 ∨ ¬ (cls = 100 ∨ slabBlocks cls = 1))
    (hmoves : Moves o s ptr n (cap - handle.offset) handle r s') :
    Reallocs o s ptr n handle cls cap r s'
  | movedAfter (r : ℕ) (s₁ s' : State) (hplain : handle.offset = 0)
    (hsolo : cls = 100 ∨ slabBlocks cls = 1)
    (hother : ¬ (matchSizeClass n = some cls ∧ n ≤ cap))
    (hresize : Resizes o s (handle.raw - headerSize) cls cap n false s₁)
    (hmoves : Moves o s₁ ptr n cap handle r s') :
    Reallocs o s ptr n handle cls cap r s'

theorem runs_moveBlock {handle : Handle} {r old : ℕ} (hptr : ptr ≠ 0)
    (hlive : s.live ptr = some handle) (hraw : handle.raw - headerSize ≠ 0)
    (h : Runs (moveBlock o ptr n old) s r s') : Moves o s ptr n old handle r s' := by
  rw [moveBlock, CInterface.moveBlock, runs_bind] at h
  obtain ⟨newPtr, s₁, hmalloc, h⟩ := h
  have hmallocs := runs_malloc hmalloc
  split at h
  · rename_i hzero
    obtain ⟨rfl, rfl⟩ := runs_pure.mp h
    exact ⟨s', hzero ▸ hmallocs, Or.inl ⟨rfl, rfl⟩⟩
  · rename_i hne
    rw [runs_modify_bind, runs_bind] at h
    obtain ⟨_, s₂, hfree, h⟩ := h
    obtain ⟨rfl, rfl⟩ := runs_pure.mp h
    refine ⟨s₁, hmallocs, Or.inr ⟨hne, ?_⟩⟩
    refine runs_free hptr ?_ hraw hfree
    show s₁.live ptr = some handle
    rw [hmallocs.live_eq.1, hlive]

/-- `realloc` of a live pointer to a size that is neither zero nor too large. -/
theorem runs_reallocBlock {handle : Handle} {r : ℕ} (hptr : ptr ≠ 0)
    (hlive : s.live ptr = some handle) (hraw : handle.raw - headerSize ≠ 0)
    (h : Runs (reallocBlock o ptr n) s r s') :
    ∃ cls cap, s.headers.get (handle.raw - headerSize) = some ⟨cls, true⟩ ∧
      Recorded s (handle.raw - headerSize) cls cap ∧ Reallocs o s ptr n handle cls cap r s' := by
  rw [reallocBlock, CInterface.reallocBlock, runs_bind] at h
  obtain ⟨p, s₁, hresolve, h⟩ := h
  obtain ⟨handle', hlive', rfl, rfl⟩ := runs_resolve hresolve
  obtain rfl := Option.some.inj (hlive.symm.trans hlive')
  dsimp only at h
  rw [runs_bind] at h
  obtain ⟨_, s₂, hvalid, h⟩ := h
  obtain ⟨cls, hget, rfl⟩ := runs_validatePtrForAbi hvalid
  rw [runs_bind] at h
  obtain ⟨cap, s₃, hcap, h⟩ := h
  obtain ⟨cls', live', hget', hrec, rfl⟩ := runs_recorded (o := o) hcap
  obtain ⟨rfl, _⟩ := Header.mk.inj (Option.some.inj (hget.symm.trans hget'))
  refine ⟨cls, cap, hget, hrec, ?_⟩
  rw [runs_bind] at h
  obtain ⟨cls'', s₄, hclass, h⟩ := h
  obtain ⟨live'', hget'', rfl⟩ := runs_classOf hclass
  obtain ⟨rfl, _⟩ := Header.mk.inj (Option.some.inj (hget.symm.trans hget''))
  rw [runs_bind] at h
  obtain ⟨it, s₅, hit, h⟩ := h
  have hiter : s₅ = s₄ ∧ ((cls = 100 ∨ it = 1) ↔ cls = 100 ∨ slabBlocks cls = 1) := by
    unfold CInterface.iterationsOf at hit
    split at hit
    · rename_i hbig
      exact ⟨(runs_pure.mp hit).2, by simp only [hbig, true_or]⟩
    · obtain ⟨_, rfl, hs⟩ := runs_lookup hit
      exact ⟨hs, Iff.rfl⟩
  obtain ⟨rfl, hsolo⟩ := hiter
  split at h
  · rename_i hoffset
    exact .moved r s' (Or.inl hoffset) (runs_moveBlock hptr hlive hraw h)
  · rename_i hoffset
    have hplain : handle.offset = 0 := not_not.mp hoffset
    rw [hplain, Nat.sub_zero] at h
    split at h
    · rename_i hsame
      obtain ⟨rfl, rfl⟩ := runs_pure.mp h
      exact .same hplain hsame.1 hsame.2
    · rename_i hother
      split at h
      · rename_i halone
        rw [hsolo] at halone
        rw [runs_bind] at h
        obtain ⟨resized, s₆, hresize, h⟩ := h
        have hresizes := runs_resizeInplace hrec hresize
        cases resized with
        | true =>
          obtain ⟨rfl, rfl⟩ := runs_pure.mp h
          exact .inPlace _ hplain halone hother hresizes
        | false =>
          rw [if_neg Bool.false_ne_true] at h
          have hlive₆ : s₆.live ptr = some handle := by rw [hresizes.live_eq.1, hlive]
          exact .movedAfter r s₆ s' hplain halone hother hresizes
            (runs_moveBlock hptr hlive₆ hraw h)
      · rename_i hshared
        rw [hsolo] at hshared
        refine .moved r s' (Or.inr hshared) ?_
        rw [hplain, Nat.sub_zero]
        exact runs_moveBlock hptr hlive hraw h

end Oxidalloc.Records
