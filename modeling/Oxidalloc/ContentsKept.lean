import Oxidalloc.MemoryFrame

/-!
`realloc` keeps the contents. A block that stays where it is keeps the bytes that it still
has. A block that moves is copied up to its recorded size, so this needs a record that
covers the request, which a block of size zero that was kept does not have.
-/
namespace Oxidalloc.Records

open Hashmap Programs Interleaving ByteMemory

variable {o : Oracle} {s s₁ s' : State} {n r header cls cap ptr : ℕ} {p : Handle}

section Contents

variable [Layout]

/-- A block that is moved is copied as far as its record and the new size go. -/
theorem Moves.contents {old : ℕ} (hexact : o.Exact) (ha : Agree s) (ho : Owned s)
    (hlive : Live s (p.raw - headerSize))
    (hold : ∀ i < old, InBlock s (p.raw - headerSize) (ptr + i))
    (h : Moves o s ptr n old p r s') (hr : r ≠ 0) (i : ℕ) (hi : i < old) (hn : i < n) :
    s'.mem (r + i) = s.mem (ptr + i) := by
  obtain ⟨_, header, s₁, rfl, hmallocs, hcopied⟩ := h.bytes hexact ha ho hlive hr
  have hle := le_newCapacity n
  rw [hcopied _ (by omega) (by omega), copy_apply (by omega)]
  exact hmallocs.spares hexact ho _ _ (hold i hi) nofun

theorem Reallocs.contents (hexact : o.Exact) (ha : Agree s) (ho : Owned s)
    (hptr : ptr = p.raw + p.offset) (hraw : headerSize ≤ p.raw)
    (hget : s.headers.get (p.raw - headerSize) = some ⟨cls, true⟩)
    (hrec : Recorded s (p.raw - headerSize) cls cap)
    (hfit : p.offset + p.size ≤ cap) (h : Reallocs o s ptr n p cls cap r s') (hr : r ≠ 0) (i : ℕ)
    (hi : i < p.size) (hn : i < n) : s'.mem (r + i) = s.mem (ptr + i) := by
  have hin : ∀ j < cap - p.offset, InBlock s (p.raw - headerSize) (ptr + j) := fun j hj =>
    ⟨cls, cap, hget, hrec, by omega, by omega⟩
  cases h with
  | same _ _ _ => rfl
  | inPlace _ hplain hsolo _ hresize =>
    exact hresize.payload_bytes ho hget hrec hsolo (by omega) (by omega)
  | moved _ _ _ hmoves =>
    exact hmoves.contents hexact ha ho ⟨cls, hget⟩ hin hr i (by omega) hn
  | movedAfter _ s₁ _ hplain hsolo _ hresize hmoves =>
    obtain ⟨ha₁, ho₁⟩ := hresize.failed hexact ha ho hget hrec hsolo
    obtain ⟨hheaders, hbig⟩ := hresize.failed_records
    have hlive₁ : Live s₁ (p.raw - headerSize) := ⟨cls, by rw [hheaders, hget]⟩
    have hin₁ : ∀ j < cap, InBlock s₁ (p.raw - headerSize) (ptr + j) := fun j hj =>
      (hin j (by omega)).of_records hheaders hbig
    rw [hmoves.contents hexact ha₁ ho₁ hlive₁ hin₁ hr i (by omega) hn, hresize.mem_of_false]

/-- `realloc` keeps the bytes of the old request up to the new one. -/
theorem realloc_keeps_contents (answer : ℕ → ℕ) (pages : ℕ → Bool) (thp : Bool)
    (calls : List Call) (s s' : State)
    (hok : Guarded (step (exactly answer pages)) Call.Regular (initial thp) calls)
    (hrun : run (step (exactly answer pages)) (initial thp) calls = some s)
    (ptr m q : ℕ) (p : Handle)
    (hlive : s.live ptr = some p) (hm : 0 < m) (hq : q ≠ 0)
    (hrealloc : Runs (realloc (exactly answer pages) ptr m) s q s') (i : ℕ)
    (hi : i < min p.size m) :
    s'.mem (q + i) = s.mem (ptr + i) := by
  have hexact := exactly_exact answer pages
  have hs := run_regular hexact hok hrun
  rcases hs.placed.runs_realloc hlive (by omega) hrealloc with
    ⟨rfl, _⟩ | ⟨cls, cap, hget, hrec, hreallocs⟩
  · exact absurd rfl hq
  · obtain ⟨header, hraw, _, cls', cap', hget', hrec', hfit⟩ := hs.pointed.header ptr p hlive
    have hheader : p.raw - headerSize = header := by omega
    rw [← hheader] at hget' hrec'
    obtain rfl : cls' = cls := congrArg Header.cls (Option.some.inj (hget'.symm.trans hget))
    obtain rfl := hrec.unique hrec'
    exact hreallocs.contents hexact hs.agree hs.owned (hs.pointed.distance ptr p hlive)
      (by omega) hget
      hrec hfit hq i (by omega) (by omega)

end Contents

/-- A block of 64 bytes moves, and one of size zero. -/
theorem moved_results :
    ((run (step (listed [0, 0, 1048576, 1, 1, 1, 0, 0, 2097152])) (initial false)
      [.malloc 64, .write 1048624 3 7]).bind fun s =>
        (outcome (realloc (listed [0, 0, 1048576, 1, 1, 1, 0, 0, 2097152]) 1048624 200) s).map
          fun x => (s.live 1048624, s.mem 1048627, x.1)) =
      some (some ⟨1048624, 0, 64⟩, 7, 2097200) ∧
    ((run (step (listed [4096, 1, 1, 0, 0, 0, 1048576])) (initial false)
      [.malloc 0, .realloc 4112 100, .write 4112 0 7]).bind fun s =>
        (outcome (realloc (listed [4096, 1, 1, 0, 0, 0, 1048576]) 4112 5000) s).map fun x =>
          (s.live 4112, s.mem 4112, x.1, x.2.mem 1048624)) =
      some (some ⟨4112, 0, 100⟩, 7, 1048624, 0) := by
  decide +kernel

/-- A block of 64 bytes that moves. -/
theorem realloc_keeps_contents_moved :
    ∃ s s', run (step (listed [0, 0, 1048576, 1, 1, 1, 0, 0, 2097152])) (initial false)
        [.malloc 64, .write 1048624 3 7] = some s ∧
      Runs (realloc (listed [0, 0, 1048576, 1, 1, 1, 0, 0, 2097152]) 1048624 200) s 2097200 s' ∧
      s.mem 1048627 = 7 ∧ s'.mem 2097203 = 7 := by
  obtain ⟨s, r, s', hrun, hruns, hs'⟩ := exists_outcome moved_results.1
  simp only [Prod.mk.injEq] at hs'
  obtain ⟨hlive, hbyte, rfl⟩ := hs'
  refine ⟨s, s', hrun, hruns, hbyte, ?_⟩
  have hkept := realloc_keeps_contents _ _ false [.malloc 64, .write 1048624 3 7] s s'
    ⟨⟨trivial, trivial⟩, fun _ _ => ⟨⟨trivial, trivial⟩, fun _ _ => trivial⟩⟩ hrun
    1048624 200 2097200 ⟨1048624, 0, 64⟩ hlive (by decide) (by decide) hruns 3 (by decide)
  exact hkept.trans hbyte

/-- A block of size zero is kept for 100 bytes; when it cannot grow to 5000 bytes where it is,
nothing is copied. -/
theorem empty_block_loses_its_contents :
    ∃ s s', run (step (listed [4096, 1, 1, 0, 0, 0, 1048576])) (initial false)
        [.malloc 0, .realloc 4112 100, .write 4112 0 7] = some s ∧
      s.live 4112 = some ⟨4112, 0, 100⟩ ∧
      Runs (realloc (listed [4096, 1, 1, 0, 0, 0, 1048576]) 4112 5000) s 1048624 s' ∧
      s.mem 4112 = 7 ∧ s'.mem 1048624 = 0 := by
  obtain ⟨s, r, s', hrun, hruns, hs'⟩ := exists_outcome moved_results.2
  simp only [Prod.mk.injEq] at hs'
  obtain ⟨hlive, hbyte, rfl, hlost⟩ := hs'
  exact ⟨s, s', hrun, hlive, hruns, hbyte, hlost⟩

end Oxidalloc.Records
