import Oxidalloc.CacheSpec

/-!
How a slab is cut into blocks. The slots follow the metadata without gaps, and the last
one extends to the end of the last page, so that every byte after the metadata belongs
to one slot. `init_blocks` writes the headers from the last to the first and links them
in ascending order; for the layout this turns the next slots of the uncarved part into
loose blocks.
-/
namespace Oxidalloc

open ByteMemory HeadPacking LinkedChain Programs VaBitmap Function

section Slots

variable {b cls i k n x : ℕ}

/-- The slots k, ..., k + n - 1 of a slab. -/
def slots (b cls k n : ℕ) : List ℕ := (List.range n).map fun i => slot b cls (k + i)

theorem mem_slots {s : ℕ} : s ∈ slots b cls k n ↔ ∃ i, k ≤ i ∧ i < k + n ∧ s = slot b cls i := by
  unfold slots
  rw [List.mem_map]
  constructor
  · intro h
    obtain ⟨i, hi, hs⟩ := h
    have hlt := List.mem_range.mp hi
    exact ⟨k + i, by omega, by omega, hs.symm⟩
  · intro h
    obtain ⟨i, hlo, hhi, hs⟩ := h
    refine ⟨i - k, List.mem_range.mpr (by omega), ?_⟩
    rw [hs]
    congr 1
    omega

theorem slot_succ (b cls i : ℕ) : slot b cls (i + 1) = slot b cls i + (payload cls + 16) := by
  unfold slot
  rw [Nat.add_mul]
  omega

theorem slot_add (b cls k i : ℕ) : slot b cls (k + i) = slot b cls k + i * (payload cls + 16) := by
  unfold slot
  rw [Nat.add_mul]
  omega

theorem slot_le (h : i ≤ k) : slot b cls i ≤ slot b cls k := by
  unfold slot
  have := Nat.mul_le_mul_right (payload cls + 16) h
  omega

theorem slot_lt (h : i < k) : slot b cls i < slot b cls k := by
  have hle := @slot_le b cls (i + 1) k h
  rw [slot_succ] at hle
  omega

theorem slot_inj (h : slot b cls i = slot b cls k) : i = k := by
  rcases Nat.lt_trichotomy i k with hlt | heq | hgt
  · have := @slot_lt b cls i k hlt
    omega
  · exact heq
  · have := @slot_lt b cls k i hgt
    omega

/-- The slots end before the pages of the slab do. -/
theorem slot_end (b cls : ℕ) : slot b cls (slabBlocks cls) ≤ b + slabPages cls * 4096 := by
  unfold slot slabPages pagesOf
  rw [Nat.mul_comm (payload cls + 16)]
  omega

theorem areaStart_zero (h : cls < 34) : areaStart b cls 0 = b + 32 := by
  unfold areaStart
  rw [if_pos (slabBlocks_bounds h).1]
  unfold slot
  omega

theorem slot_le_areaStart (h : k ≤ slabBlocks cls) : slot b cls k ≤ areaStart b cls k := by
  unfold areaStart
  split
  · exact Nat.le_refl _
  · have heq : k = slabBlocks cls := by omega
    rw [heq]
    exact slot_end b cls

theorem areaStart_le_end : areaStart b cls k ≤ b + slabPages cls * 4096 := by
  unfold areaStart
  split
  · rename_i hlt
    exact Nat.le_trans (Nat.le_of_lt (slot_lt hlt)) (slot_end b cls)
  · exact Nat.le_refl _

theorem areaStart_mono (h : i ≤ k) : areaStart b cls i ≤ areaStart b cls k := by
  by_cases hk : k < slabBlocks cls
  · unfold areaStart
    rw [if_pos hk, if_pos (by omega)]
    exact slot_le h
  · have hend : areaStart b cls k = b + slabPages cls * 4096 := if_neg hk
    rw [hend]
    exact areaStart_le_end

theorem areaStart_of_lt (h : k < slabBlocks cls) : areaStart b cls k = slot b cls k := if_pos h

/-- The header of the slot that a byte behind the metadata belongs to. -/
def slotOf (b cls x : ℕ) : ℕ :=
  slot b cls (min ((x - (b + 32)) / (payload cls + 16)) (slabBlocks cls - 1))

theorem slotOf_eq (hi : i < slabBlocks cls) (hlo : slot b cls i ≤ x)
    (hhi : x < areaStart b cls (i + 1)) : slotOf b cls x = slot b cls i := by
  have hge : i ≤ (x - (b + 32)) / (payload cls + 16) := by
    rw [Nat.le_div_iff_mul_le (by omega)]
    unfold slot at hlo
    omega
  unfold slotOf
  congr 1
  by_cases hlast : i + 1 < slabBlocks cls
  · rw [areaStart_of_lt hlast] at hhi
    have hlt : (x - (b + 32)) / (payload cls + 16) < i + 1 := by
      rw [Nat.div_lt_iff_lt_mul (by omega)]
      unfold slot at hhi hlo
      omega
    omega
  · omega

end Slots

section Carve

variable {cls base bs stamp head tail : ℕ} {magic : UInt8} {m : Memory} {l : List ℕ}

/-- The loop of `init_blocks` writes n headers and chains them in front of the blocks
that it wrote before. -/
theorem carve_spec (n : ℕ) (hbs : 16 ≤ bs) (hbs16 : 16 ∣ bs) (hbase : base ≠ 0)
    (hbase16 : 16 ∣ base)
    (hcls : cls < 256) (hlt : base + n * bs < usizeBound) (hhead : head < usizeBound)
    (hhead16 : 16 ∣ head) (hl : Linked 0 (OxHeader.next m) head l 0)
    (hlow : ∀ h ∈ l, base + n * bs ≤ h) :
    Linked 0 (OxHeader.next (carve cls base bs magic stamp n m head tail).1)
        (carve cls base bs magic stamp n m head tail).2.1
        ((List.range n).map (fun i => base + i * bs) ++ l) 0 ∧
      (∀ i < n, OxHeader.cls (carve cls base bs magic stamp n m head tail).1 (base + i * bs) = cls ∧
        OxHeader.magic (carve cls base bs magic stamp n m head tail).1 (base + i * bs) = magic ∧
        16 ∣ OxHeader.next (carve cls base bs magic stamp n m head tail).1 (base + i * bs)) ∧
      (∀ x, x < base ∨ base + n * bs ≤ x →
        (carve cls base bs magic stamp n m head tail).1 x = m x) ∧
      (carve cls base bs magic stamp n m head tail).2.2 =
        if head = 0 ∧ 0 < n then base + (n - 1) * bs else tail := by
  induction n generalizing m head tail l with
  | zero =>
    refine ⟨hl, nofun, fun _ _ => rfl, ?_⟩
    rw [if_neg (by omega)]
    rfl
  | succ n ih =>
    rw [Nat.add_mul] at hlt hlow
    have hcurrent : base + n * bs ≠ 0 := by omega
    have hcurrentLt : base + n * bs < usizeBound := by omega
    have hcurrent16 : 16 ∣ base + n * bs := Nat.dvd_add hbase16 (Nat.dvd_mul_left_of_dvd hbs16 n)
    have helse := @OxHeader.write_elsewhere m (base + n * bs) head cls stamp magic
    have hnext := @OxHeader.next_write m (base + n * bs) head cls stamp magic hhead
    have hlinked : Linked 0 (OxHeader.next (OxHeader.write m (base + n * bs) head cls magic stamp))
        (base + n * bs) ((base + n * bs) :: l) 0 := by
      refine ⟨rfl, hcurrent, ?_⟩
      rw [hnext]
      refine hl.congr fun h hh => ?_
      have := hlow h hh
      exact (OxHeader.fields_congr fun x hlo hhi => helse x (by omega)).1
    have hlow' : ∀ h ∈ (base + n * bs) :: l, base + n * bs ≤ h := by
      intro h hh
      rcases List.mem_cons.mp hh with heq | hmem
      · omega
      · have := hlow h hmem
        omega
    obtain ⟨hchain, hfields, helsewhere, htail⟩ := @ih (base + n * bs)
      (if head = 0 then base + n * bs else tail) _ _ hcurrentLt hcurrentLt hcurrent16 hlinked hlow'
    rw [carve]
    refine ⟨?_, ?_, ?_, ?_⟩
    · rw [List.range_succ, List.map_append, List.append_assoc]
      exact hchain
    · intro i hi
      by_cases hin : i < n
      · exact hfields i hin
      · have heq : i = n := by omega
        subst heq
        obtain ⟨hn, hc, hm⟩ := OxHeader.fields_congr fun x hlo (_ : x < base + i * bs + 16) =>
          helsewhere x (Or.inr hlo)
        rw [hn, hc, hm, hnext]
        exact ⟨OxHeader.cls_write hcls, OxHeader.magic_write, hhead16⟩
    · intro x hx
      rw [Nat.add_mul] at hx
      rw [helsewhere x (by omega)]
      exact helse x (by omega)
    · rw [htail, if_neg (by omega), Nat.add_sub_cancel]
      by_cases hnull : head = 0
      · rw [if_pos hnull, if_pos ⟨hnull, by omega⟩]
      · rw [if_neg hnull, if_neg fun h => hnull h.1]

end Carve

section Layout

variable {w : World} {g : Layout} {t cls b k n : ℕ} {m' : Memory}

/-- The next n slots of the uncarved part of a slab become loose blocks. -/
def Layout.carve (g : Layout) (cls b k n : ℕ) : Layout where
  place := fun h => if h ∈ slots b cls k n then some (.loose cls) else g.place h
  own := fun x =>
    if areaStart b cls k ≤ x ∧ x < areaStart b cls (k + n) then .block (slotOf b cls x)
    else g.own x

/-- Two threads never carve the same slab, nor one thread for two classes. -/
theorem Area.unique {t' cls' k' : ℕ} (h : Area w g t cls b k) (h' : Area w g t' cls' b k')
    (hk : k < slabBlocks cls) : t' = t ∧ cls' = cls := by
  have hnext := h.next.symm.trans h'.next
  have hstop := h.stop.symm.trans h'.stop
  have hlt := @slot_lt b cls k (slabBlocks cls) hk
  have hk' : k' < slabBlocks cls' := by
    by_contra hge
    have heq : k' = slabBlocks cls' := Nat.le_antisymm h'.le (Nat.le_of_not_lt hge)
    rw [heq] at hnext
    omega
  have hown := h.rawOwn (slot b cls k) (Nat.le_of_eq (areaStart_of_lt hk))
    (Nat.lt_of_lt_of_le hlt (slot_end b cls))
  have hlt' := @slot_lt b cls' k' (slabBlocks cls') hk'
  have hown' := h'.rawOwn (slot b cls' k') (Nat.le_of_eq (areaStart_of_lt hk'))
    (Nat.lt_of_lt_of_le hlt' (slot_end b cls'))
  rw [← hnext, hown, Owner.pending.injEq] at hown'
  exact ⟨hown'.1.symm, hown'.2.symm⟩

theorem soloPages (hcls : cls < 34) (hone : slabBlocks cls = 1) :
    slabPages cls = pagesOf (payload cls + 16) := by
  have hall : ∀ c < 34, slabBlocks c = 1 → slabPages c = pagesOf (payload c + 16) := by decide
  exact hall cls hcls hone

/-- A new block of a slab is well formed. -/
theorem carved_blockOk {g' : Layout} {i : ℕ} (hwf : Wf w.va) (hcls : cls < 34)
    (hfits : Fits w.va b (slabPages cls)) (hi : i < slabBlocks cls)
    (hclass : OxHeader.cls w.mem (slot b cls i) = cls)
    (hnext : 16 ∣ OxHeader.next w.mem (slot b cls i))
    (hown : ∀ x, slot b cls i ≤ x → x < areaStart b cls (i + 1) →
      g'.own x = .block (slot b cls i)) :
    BlockOk w g' (slot b cls i) := by
  have hb : b % 4096 = 0 := hfits.1
  have hb0 := hwf.addr_ne_zero hfits
  have hend := hwf.end_lt_of_fits hfits
  have hlast := slot_end b cls
  have hlt := @slot_lt b cls i (slabBlocks cls) hi
  have hcap : w.capacity (slot b cls i) = payload cls := by
    unfold World.capacity
    rw [hclass, if_neg (by omega)]
  have h16 : 16 ∣ slot b cls i := by
    unfold slot
    refine Nat.dvd_add (Nat.dvd_add (by omega) (by decide)) (Nat.dvd_mul_left_of_dvd ?_ i)
    exact Nat.dvd_add (payload_bounds hcls).1 (by decide)
  refine ⟨⟨by unfold slot; omega, h16, by omega⟩, ?_, hnext, ?_, ?_⟩
  · intro x hlo hhi
    rw [hcap] at hhi
    apply hown x hlo
    have hle := @slot_le_areaStart b cls (i + 1) hi
    rw [slot_succ] at hle
    omega
  · rw [hclass]
    exact Or.inl hcls
  · intro hsolo
    rw [hclass] at hsolo
    have hone : slabBlocks cls = 1 := hsolo.resolve_left (by omega)
    have hi0 : i = 0 := by omega
    subst hi0
    have hstart : slot b cls 0 = b + 32 := by
      unfold slot
      omega
    refine ⟨b, hb, Or.inr ⟨hstart, by rw [hclass]; omega⟩, ?_, ?_⟩
    · rw [hcap, ← soloPages hcls hone]
      exact hfits
    · intro x hlo hhi
      rw [hcap, ← soloPages hcls hone] at hhi
      apply hown x hlo
      unfold areaStart
      rw [if_neg (by omega)]
      exact hhi

/-- What a call of `init_blocks` has done to the memory: it has written the headers of
the next n slots and has advanced the metadata. -/
structure Carves (w : World) (g : Layout) (m' : Memory) (t cls b k n : ℕ) : Prop where
  area : Area w g t cls b k
  pos : 0 < n
  le : k + n ≤ slabBlocks cls
  pending : w.pendingOf t cls = b ∨ w.pendingOf t cls = 0
  elsewhere : ∀ x, x < b + 16 ∨ b + 32 ≤ x → x < slot b cls k ∨ slot b cls (k + n) ≤ x →
    m' x = w.mem x
  stop : MetaData.stop m' b = MetaData.stop w.mem b
  next : MetaData.next m' b = slot b cls (k + n)
  blocks : ∀ h ∈ slots b cls k n, OxHeader.cls m' h = cls ∧
    OxHeader.magic m' h = w.freedMagic ∧ 16 ∣ OxHeader.next m' h

theorem Carves.raw (hc : Carves w g m' t cls b k n) {x : ℕ} (hlo : areaStart b cls k ≤ x)
    (hhi : x < areaStart b cls (k + n)) : g.own x = .pending t cls :=
  hc.area.rawOwn x hlo (Nat.lt_of_lt_of_le hhi areaStart_le_end)

theorem Carves.own_keep (hc : Carves w g m' t cls b k n) {x : ℕ}
    (hx : g.own x ≠ .pending t cls) : (g.carve cls b k n).own x = g.own x :=
  if_neg fun hin => hx (hc.raw hin.1 hin.2)

theorem Carves.mem_keep (hc : Carves w g m' t cls b k n) {x : ℕ}
    (hpend : g.own x ≠ .pending t cls) (hmeta : g.own x ≠ .metaData b) : m' x = w.mem x := by
  have hle := hc.le
  have hpos := hc.pos
  apply hc.elsewhere x
  · by_contra hin
    exact hmeta (hc.area.metaOwn x (by omega) (by omega))
  · by_contra hin
    have hlast := @slot_le_areaStart b cls (k + n) hle
    refine hpend (hc.raw ?_ (by omega))
    rw [areaStart_of_lt (by omega)]
    omega

theorem Carves.slot_own (hc : Carves w g m' t cls b k n) {i x : ℕ} (hki : k ≤ i) (hin : i < k + n)
    (hlo : slot b cls i ≤ x) (hhi : x < areaStart b cls (i + 1)) :
    (g.carve cls b k n).own x = .block (slot b cls i) := by
  have hend := hc.le
  have hle : areaStart b cls k ≤ x := by
    rw [areaStart_of_lt (by omega)]
    exact Nat.le_trans (slot_le hki) hlo
  have hlt : x < areaStart b cls (k + n) := Nat.lt_of_lt_of_le hhi (areaStart_mono (by omega))
  rw [← slotOf_eq (by omega) hlo hhi]
  exact if_pos ⟨hle, hlt⟩

/-- A slot of the uncarved part is no block yet. -/
theorem Carves.fresh (hc : Carves w g m' t cls b k n) (hinv : Inv w g) {h : ℕ}
    (hh : h ∈ slots b cls k n) : g.place h = none := by
  have hend := hc.le
  obtain ⟨i, hki, hin, hs⟩ := mem_slots.mp hh
  by_contra hplaced
  obtain ⟨pl, hpl⟩ := Option.ne_none_iff_exists'.mp hplaced
  have hown := hinv.own_header hpl (Nat.le_refl h) (by omega)
  have hlt := @slot_lt b cls i (slabBlocks cls) (by omega)
  have hlast := slot_end b cls
  have hlo : areaStart b cls k ≤ h := by
    rw [areaStart_of_lt (by omega), hs]
    exact slot_le hki
  rw [hc.area.rawOwn h hlo (by omega)] at hown
  exact absurd hown nofun

theorem Layout.carve_old {h : ℕ} (hh : h ∉ slots b cls k n) :
    (g.carve cls b k n).place h = g.place h := if_neg hh

theorem Layout.carve_new {h : ℕ} (hh : h ∈ slots b cls k n) :
    (g.carve cls b k n).place h = some (.loose cls) := if_pos hh

theorem Carves.sameBlock (hc : Carves w g m' t cls b k n) (hinv : Inv w g) {h : ℕ} {pl : Place}
    (hpl : g.place h = some pl) : SameBlock w { w with mem := m' } g (g.carve cls b k n) h := by
  refine ⟨fun x hlo hhi => ?_, rfl, fun x hx => ?_⟩
  · have hown := hinv.own_header hpl hlo hhi
    exact hc.mem_keep (by rw [hown]; exact nofun) (by rw [hown]; exact nofun)
  · rw [hc.own_keep (by rw [hx]; exact nofun), hx]

theorem Carves.area_rest (hc : Carves w g m' t cls b k n) :
    Area { w with mem := m' } (g.carve cls b k n) t cls b (k + n) := by
  have harea := hc.area
  refine ⟨harea.cls_lt, hc.le, harea.fits, hc.next, hc.stop.trans harea.stop, fun x hlo hhi => ?_,
    fun x hlo hhi => ?_⟩
  · have hmeta := harea.metaOwn x hlo hhi
    rw [hc.own_keep (by rw [hmeta]; exact nofun), hmeta]
  · have hpend := harea.rawOwn x (Nat.le_trans (areaStart_mono (by omega)) hlo) hhi
    rw [← hpend]
    exact if_neg fun hin => absurd hin.2 (Nat.not_lt.mpr hlo)

theorem Carves.chain (hc : Carves w g m' t cls b k n) (hinv : Inv w g) (c : Cache) :
    ∃ l, Chain { w with mem := m' } c l ∧ w.usageOf c = l.length ∧
      ∀ h, h ∈ l ↔ (g.carve cls b k n).place h = some (.cached c) := by
  obtain ⟨l, hchain, husage, hmembers⟩ := hinv.chains c
  refine ⟨l, hchain.congr fun x hx => ?_, husage, fun x => ?_⟩
  · exact (hc.sameBlock hinv ((hmembers x).mp hx)).next_eq
  · by_cases hx : x ∈ slots b cls k n
    · rw [hmembers, hc.fresh hinv hx, Layout.carve_new hx]
      exact ⟨nofun, fun h => absurd (Option.some.inj h) nofun⟩
    · rw [Layout.carve_old hx]
      exact hmembers x

theorem Carves.block (hc : Carves w g m' t cls b k n) (hinv : Inv w g) {h : ℕ} {pl : Place}
    (hpl : (g.carve cls b k n).place h = some pl) :
    BlockOk { w with mem := m' } (g.carve cls b k n) h ∧ PlaceOk { w with mem := m' } h pl := by
  have hend := hc.le
  by_cases hh : h ∈ slots b cls k n
  · rw [Layout.carve_new hh] at hpl
    have heq := Option.some.inj hpl
    subst heq
    obtain ⟨hclass, hmagic, hnext⟩ := hc.blocks h hh
    obtain ⟨i, hki, hin, hs⟩ := mem_slots.mp hh
    subst hs
    refine ⟨?_, hc.area.cls_lt, hclass, hmagic⟩
    exact @carved_blockOk { w with mem := m' } cls b _ i hinv.wf hc.area.cls_lt hc.area.fits
      (by omega) hclass hnext fun x => hc.slot_own hki hin
  · rw [Layout.carve_old hh] at hpl
    obtain ⟨hb, hp⟩ := hinv.blocks h pl hpl
    have hsame := hc.sameBlock hinv hpl
    exact ⟨hb.mono (Extends.refl w.va) hsame, hp.mono rfl rfl hsame.header⟩

/-- The other slabs are not touched. -/
theorem Carves.area_other (hc : Carves w g m' t cls b k n) {t' cls' b' k' : ℕ}
    (harea : Area w g t' cls' b' k') (hother : ¬ (t' = t ∧ cls' = cls)) :
    Area { w with mem := m' } (g.carve cls b k n) t' cls' b' k' := by
  have hend := hc.le
  have hpos := hc.pos
  have hbne : b' ≠ b := by
    intro hb
    rw [hb] at harea
    exact hother (hc.area.unique harea (by omega))
  refine harea.mono (Extends.refl w.va) (fun x hlo hhi => ?_) (fun x hx => ?_) fun x hx => ?_
  · have hmeta := harea.metaOwn x hlo hhi
    apply hc.mem_keep
    · rw [hmeta]
      exact nofun
    · rw [hmeta]
      exact fun heq => hbne (Owner.metaData.inj heq)
  · rw [hc.own_keep (by rw [hx]; exact nofun), hx]
  · rw [hc.own_keep (by rw [hx]; exact fun heq => hother (Owner.pending.inj heq)), hx]

theorem Carves.pendings (hc : Carves w g m' t cls b k n) (hinv : Inv w g) {t' cls' : ℕ}
    (hne : w.pendingOf t' cls' ≠ 0) :
    ∃ k', Area { w with mem := m' } (g.carve cls b k n) t' cls' (w.pendingOf t' cls') k' := by
  obtain ⟨k', harea⟩ := hinv.pendings t' cls' hne
  by_cases hthis : t' = t ∧ cls' = cls
  · obtain ⟨ht, hcls⟩ := hthis
    subst ht hcls
    rw [hc.pending.resolve_right hne]
    exact ⟨k + n, hc.area_rest⟩
  · exact ⟨k', hc.area_other harea hthis⟩

theorem Carves.slab (hc : Carves w g m' t cls b k n) (hinv : Inv w g) {b' cls' : ℕ}
    (hmem : (b', cls') ∈ w.slabs.made) :
    SlabOk { w with mem := m' } (g.carve cls b k n) b' cls' := by
  have hend := hc.le
  have hpos := hc.pos
  obtain ⟨hlt, haligned, hmeta, hslots⟩ := hinv.slabs b' cls' hmem
  refine ⟨hlt, haligned, fun x hlo hhi => ?_, fun i hi => ?_⟩
  · have hx := hmeta x hlo hhi
    rw [hc.own_keep (by rw [hx]; exact nofun), hx]
  · rcases hslots i hi with ⟨hplaced, hfixed⟩ | ⟨t', hpend, hb', hnext⟩ | hlost
    · left
      obtain ⟨pl, hpl⟩ := Option.ne_none_iff_exists'.mp hplaced
      refine ⟨?_, fun hone => ?_⟩
      · by_cases hs : slot b' cls' i ∈ slots b cls k n
        · exact absurd (hc.fresh hinv hs) hplaced
        · rw [Layout.carve_old hs]
          exact hplaced
      · rw [(hc.sameBlock hinv hpl).cls_eq]
        exact hfixed hone
    · by_cases hbb : b' = b
      · subst hbb
        obtain ⟨k', harea⟩ := hinv.pendings t' cls' (hpend ▸ hb')
        rw [hpend] at harea
        obtain ⟨ht, hcls⟩ := hc.area.unique harea (by omega)
        subst ht hcls
        rw [hc.area.next] at hnext
        have hki : k ≤ i := by
          by_contra hlt'
          have := @slot_lt b' cls' i k (by omega)
          omega
        by_cases hin : i < k + n
        · left
          have hs : slot b' cls' i ∈ slots b' cls' k n := mem_slots.mpr ⟨i, hki, hin, rfl⟩
          rw [Layout.carve_new hs]
          exact ⟨nofun, fun _ => (hc.blocks _ hs).1⟩
        · right; left
          refine ⟨t', hpend, hb', ?_⟩
          show MetaData.next m' b' ≤ _
          rw [hc.next]
          exact slot_le (by omega)
      · right; left
        refine ⟨t', hpend, hb', ?_⟩
        have hsame := MetaData.fields_congr fun x hlo hhi => hc.mem_keep
          (by rw [hmeta x hlo hhi]; exact nofun)
          (by rw [hmeta x hlo hhi]; exact fun heq => hbb (Owner.metaData.inj heq))
        show MetaData.next m' b' ≤ _
        rw [hsame.1]
        exact hnext
    · exact Or.inr (Or.inr hlost)

theorem Inv.carve (hinv : Inv w g) (hc : Carves w g m' t cls b k n) (hbooted : w.booted = true) :
    Inv { w with mem := m' } (g.carve cls b k n) where
  wf := hinv.wf
  taken := by
    intro x hx
    by_cases hpend : g.own x = .pending t cls
    · exact hinv.taken x (by rw [hpend]; exact nofun)
    · rw [hc.own_keep hpend] at hx
      exact hinv.taken x hx
  chains := hc.chain hinv
  blocks := fun _ _ => hc.block hinv
  pendings := fun _ _ => hc.pendings hinv
  slabs := fun _ _ => hc.slab hinv
  lost := by
    intro x hx
    have hold := hinv.lost x hx
    rw [hc.own_keep (by rw [hold]; exact nofun), hold]
  big := hinv.big
  boot := Or.inl hbooted

/-- The carved slots are not with the user, and nothing is taken from the user for them. -/
theorem Carves.frame (hc : Carves w g m' t cls b k n) (hinv : Inv w g) :
    Frame w g { w with mem := m' } (g.carve cls b k n) ∅ where
  held := by
    intro h _
    by_cases hh : h ∈ slots b cls k n
    · rw [Layout.carve_new hh, hc.fresh hinv hh]
      exact ⟨nofun, nofun⟩
    · rw [Layout.carve_old hh]
  bytes := by
    intro h x _ _ hown
    rw [hc.own_keep (by rw [hown]; exact nofun)]
    exact ⟨hown, hc.mem_keep (by rw [hown]; exact nofun) (by rw [hown]; exact nofun)⟩
  big := fun _ _ => rfl
  booted := id
  thp := id
  placed := by
    intro h _ hplace
    by_cases hh : h ∈ slots b cls k n
    · rw [Layout.carve_new hh]
      exact nofun
    · rw [Layout.carve_old hh]
      exact hplace
  lost := rfl
  magics := fun _ => ⟨rfl, rfl⟩

theorem Carves.looseAre {l : List ℕ} (hc : Carves w g m' t cls b k n) (hinv : Inv w g)
    (hl : LooseAre g cls l) :
    LooseAre (g.carve cls b k n) cls (slots b cls k n ++ l) ∧ ∀ h ∈ slots b cls k n, h ∉ l := by
  refine ⟨fun h c => ?_, fun h hh hin => ?_⟩
  · rw [List.mem_append]
    by_cases hh : h ∈ slots b cls k n
    · rw [Layout.carve_new hh, Option.some.injEq, Place.loose.injEq]
      exact ⟨fun heq => ⟨heq.symm, Or.inl hh⟩, fun heq => heq.1.symm⟩
    · rw [Layout.carve_old hh, hl h c]
      exact ⟨fun hx => ⟨hx.1, Or.inr hx.2⟩, fun hx => ⟨hx.1, hx.2.resolve_left hh⟩⟩
  · have := hl.place hin
    rw [hc.fresh hinv hh] at this
    exact absurd this nofun

/-- The pages of a new slab get their owners: the metadata and the thread. -/
def Layout.reserve (g : Layout) (t cls b : ℕ) : Layout :=
  { g with
    own := fun x =>
      if b ≤ x ∧ x < b + slabPages cls * 4096 then
        if x < b + 32 then .metaData b else .pending t cls
      else g.own x }

theorem Layout.reserve_keep (hfree : ∀ x, b ≤ x → x < b + slabPages cls * 4096 → g.own x = .free)
    {x : ℕ} (hx : g.own x ≠ .free) : (g.reserve t cls b).own x = g.own x :=
  if_neg fun hin => hx (hfree x hin.1 hin.2)

theorem slabPages_pos (cls : ℕ) : 0 < slabPages cls := by
  unfold slabPages pagesOf
  omega

theorem Inv.reserve (hinv : Inv w g) (hcls : cls < 34) (hfits : Fits w.va b (slabPages cls))
    (htaken : ∀ q, InPages b (slabPages cls) q → Taken w.va q)
    (hfree : ∀ x, b ≤ x → x < b + slabPages cls * 4096 → g.own x = .free)
    (hnext : MetaData.next w.mem b = slot b cls 0)
    (hstop : MetaData.stop w.mem b = slot b cls (slabBlocks cls)) :
    Inv w (g.reserve t cls b) ∧ Area w (g.reserve t cls b) t cls b 0 := by
  have hsame : ∀ h, SameBlock w w g (g.reserve t cls b) h := fun h =>
    ⟨fun _ _ _ => rfl, rfl, fun x hx => by
      rw [Layout.reserve_keep hfree (by rw [hx]; exact nofun), hx]⟩
  have hpos := slabPages_pos cls
  refine ⟨⟨hinv.wf, ?_, hinv.chains, ?_, ?_, ?_, ?_, hinv.big, hinv.boot⟩,
    ⟨hcls, Nat.zero_le _, hfits, hnext, hstop, ?_, ?_⟩⟩
  · intro x hx
    by_cases hin : b ≤ x ∧ x < b + slabPages cls * 4096
    · exact htaken _ (inPages_of_mem hfits.1 hin.1 hin.2)
    · refine hinv.taken x ?_
      rw [show (g.reserve t cls b).own x = g.own x from if_neg hin] at hx
      exact hx
  · intro h pl hplace
    obtain ⟨hb, hp⟩ := hinv.blocks h pl hplace
    exact ⟨hb.mono (Extends.refl w.va) (hsame h), hp⟩
  · intro t' cls' hne
    obtain ⟨k', harea⟩ := hinv.pendings t' cls' hne
    refine ⟨k', harea.mono (Extends.refl w.va) (fun _ _ _ => rfl) (fun x hx => ?_) fun x hx => ?_⟩
    · rw [Layout.reserve_keep hfree (by rw [hx]; exact nofun), hx]
    · rw [Layout.reserve_keep hfree (by rw [hx]; exact nofun), hx]
  · intro b' cls' hmem
    obtain ⟨hlt, haligned, hmeta, hslots⟩ := hinv.slabs b' cls' hmem
    refine ⟨hlt, haligned, fun x hlo hhi => ?_, hslots⟩
    have hx := hmeta x hlo hhi
    rw [Layout.reserve_keep hfree (by rw [hx]; exact nofun), hx]
  · intro x hx
    have hold := hinv.lost x hx
    rw [Layout.reserve_keep hfree (by rw [hold]; exact nofun), hold]
  · intro x hlo hhi
    show (if _ then _ else _) = _
    rw [if_pos ⟨hlo, by omega⟩, if_pos hhi]
  · intro x hlo hhi
    rw [areaStart_zero hcls] at hlo
    show (if _ then _ else _) = _
    rw [if_pos ⟨by omega, hhi⟩, if_neg (by omega)]

theorem Layout.reserve_frame (w : World)
    (hfree : ∀ x, b ≤ x → x < b + slabPages cls * 4096 → g.own x = .free) :
    Frame w g w (g.reserve t cls b) ∅ where
  held := fun _ _ => Iff.rfl
  bytes := fun _ _ _ _ hown =>
    ⟨by rw [Layout.reserve_keep hfree (by rw [hown]; exact nofun), hown], rfl⟩
  big := fun _ _ => rfl
  booted := id
  thp := id
  placed := fun _ _ => id
  lost := rfl
  magics := fun _ => ⟨rfl, rfl⟩

/-- A thread may exchange a pending slab that is used up for another one, or for none. -/
theorem Inv.setPending {e : ThreadLocalEngine} {v : ℕ} (hinv : Inv w g)
    (he : w.engines t = some e)
    (hold : w.pendingOf t cls ≠ 0 → Area w g t cls (w.pendingOf t cls) (slabBlocks cls))
    (hnew : v ≠ 0 → ∃ k, Area w g t cls v k) :
    Inv { w with engines := update w.engines t (some (e.setPending cls v)) } g := by
  have hbin : ∀ t' cls', World.binOf
      { w with engines := update w.engines t (some (e.setPending cls v)) } t' cls' =
        w.binOf t' cls' := by
    intro t' cls'
    unfold World.binOf
    by_cases ht : t' = t
    · subst ht
      simp only [update_self, he, ThreadLocalEngine.setPending]
    · simp only [update_of_ne ht]
  have hpending : ∀ t' cls', World.pendingOf
      { w with engines := update w.engines t (some (e.setPending cls v)) } t' cls' =
        if t' = t ∧ cls' = cls then v else w.pendingOf t' cls' := by
    intro t' cls'
    unfold World.pendingOf
    by_cases ht : t' = t
    · subst ht
      simp only [update_self, he, ThreadLocalEngine.setPending, update_apply,
        true_and]
    · simp only [update_of_ne ht, ht, false_and, if_false]
  have hext := Extends.refl w.va
  refine ⟨hinv.wf, hinv.taken, fun c => ?_, hinv.blocks_keep hext rfl rfl rfl rfl,
    fun t' cls' hne => ?_, fun b' cls' hmem => ?_, hinv.lost, hinv.big, hinv.boot⟩
  · obtain ⟨l, hchain, husage, hmembers⟩ := hinv.chains c
    cases c with
    | bin t' cls' =>
      refine ⟨l, ?_, ?_, hmembers⟩
      · show Linked 0 _ (World.binOf _ t' cls').head l 0
        rw [hbin]
        exact hchain
      · show (World.binOf _ t' cls').usage = _
        rw [hbin]
        exact husage
    | shard cpu cls' => exact ⟨l, hchain, husage, hmembers⟩
  · rw [hpending] at hne ⊢
    split at hne
    · rename_i hthis
      rw [if_pos hthis, hthis.1, hthis.2]
      obtain ⟨k', harea⟩ := hnew hne
      exact ⟨k', harea.keep hext rfl⟩
    · rename_i hother
      rw [if_neg hother]
      obtain ⟨k', harea⟩ := hinv.pendings t' cls' hne
      exact ⟨k', harea.keep hext rfl⟩
  · obtain ⟨hlt, haligned, hmeta, hslots⟩ := hinv.slabs b' cls' hmem
    refine ⟨hlt, haligned, hmeta, fun i hi =>
      (hslots i hi).imp_right (Or.imp_left fun huncarved => ?_)⟩
    obtain ⟨t', hpend, hb', hnext⟩ := huncarved
    refine ⟨t', ?_, hb', hnext⟩
    rw [hpending, if_neg fun hthis => ?_]
    · exact hpend
    · -- nothing of the old pending slab is uncarved
      obtain ⟨ht, hc⟩ := hthis
      subst ht hc
      have harea := hold (hpend ▸ hb')
      have hlt' := @slot_lt b' cls' i (slabBlocks cls') hi
      rw [hpend] at harea
      rw [harea.next] at hnext
      omega

theorem Inv.addSlab (hinv : Inv w g) (hslab : SlabOk w g b cls) :
    Inv { w with slabs := w.slabs.add b cls } g := by
  have hext := Extends.refl w.va
  refine ⟨hinv.wf, hinv.taken, hinv.chains, hinv.blocks_keep hext rfl rfl rfl rfl,
    fun t' cls' hne => ?_, fun b' cls' hmem => ?_, hinv.lost, hinv.big, hinv.boot⟩
  · obtain ⟨k', harea⟩ := hinv.pendings t' cls' hne
    exact ⟨k', harea.keep hext rfl⟩
  rcases List.mem_cons.mp hmem with heq | hold
  · obtain ⟨hb, hc⟩ := Prod.mk.inj heq
    rw [hb, hc]
    exact ⟨hslab.cls_lt, hslab.aligned, hslab.metaOwn, hslab.slots⟩
  · obtain ⟨hlt, haligned, hmeta, hslots⟩ := hinv.slabs b' cls' hold
    exact ⟨hlt, haligned, hmeta, hslots⟩

end Layout

end Oxidalloc
