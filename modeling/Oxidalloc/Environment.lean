import Mathlib.Data.Nat.Digits.Defs
import Oxidalloc.World

/-!
The environment variables that are read at start-up. `getenv_raw` compares the key with
each entry byte by byte and returns a pointer behind the equals sign; `get_env_usize`
adds up the decimal digits it finds there, under overflow checks. The lookup is exact for
every environment. The sum is exact as long as it fits a machine word; beyond that the
process ends before it has started.
-/
namespace Oxidalloc.Environment

/-- A string of the environment, without the NUL byte that ends it. -/
structure Entry where
  bytes : List UInt8
  no_nul : 0 ∉ bytes

/-- The byte literal of a key or an entry. -/
def ascii (s : String) : List UInt8 := s.toList.map fun c => UInt8.ofNat c.toNat

def equalsSign : UInt8 := 61

section Lookup

/-- What a pointer into an entry reads. The pointer is given by the bytes from there to
the end of the entry, and the terminator stands behind the last one. -/
def deref (p : List UInt8) : UInt8 := p.headD 0

/-- The inner loop of `getenv_raw`, with the pointer and the index at which it ends. -/
def scanName (key : List UInt8) : List UInt8 → ℕ → List UInt8 × ℕ
  | [], i => ([], i)
  | b :: p, i =>
    if b = 0 ∨ b = equalsSign then (b :: p, i)
    else if key.length ≤ i ∨ b ≠ key.getD i 0 then (b :: p, i)
    else scanName key p (i + 1)

def getenvRaw (key : List UInt8) : List Entry → Option (List UInt8)
  | [] => none
  | entry :: env =>
    let (p, i) := scanName key entry.bytes 0
    if i = key.length ∧ deref p = equalsSign then some p.tail
    else getenvRaw key env

/-- What stands before the first equals sign; an entry without one has no name. -/
def Entry.name? (e : Entry) : Option (List UInt8) :=
  if equalsSign ∈ e.bytes then some (e.bytes.takeWhile (· ≠ equalsSign)) else none

def Entry.value (e : Entry) : List UInt8 := (e.bytes.dropWhile (· ≠ equalsSign)).tail

def firstNamed (key : List UInt8) (environ : List Entry) : Option Entry :=
  environ.find? fun e => e.name? = some key

theorem scanName_equals (key p : List UInt8) (i : ℕ) :
    scanName key (equalsSign :: p) i = (equalsSign :: p, i) := by
  rw [scanName, if_pos (Or.inr rfl)]

theorem scanName_differs {key : List UInt8} {b : UInt8} {i : ℕ} (p : List UInt8)
    (h : key[i]? ≠ some b) : scanName key (b :: p) i = (b :: p, i) := by
  have hexit : key.length ≤ i ∨ b ≠ key.getD i 0 := by
    by_contra hstay
    obtain ⟨hlt, hbyte⟩ := not_or.mp hstay
    apply h
    rw [List.getElem?_eq_getElem (not_le.mp hlt)]
    simpa [not_le.mp hlt] using (not_not.mp hbyte).symm
  rw [scanName]
  simp only [hexit, if_true, ite_self]

theorem scanName_agrees {key : List UInt8} {b : UInt8} {i : ℕ} (p : List UInt8) (hb : b ≠ 0)
    (hname : b ≠ equalsSign) (h : key[i]? = some b) :
    scanName key (b :: p) i = scanName key p (i + 1) := by
  obtain ⟨hlt, hbyte⟩ := List.getElem?_eq_some_iff.mp h
  have hstay : ¬(key.length ≤ i ∨ b ≠ key.getD i 0) := by simp [hlt, hbyte]
  rw [scanName, if_neg (not_or.mpr ⟨hb, hname⟩), if_neg hstay]

/-- The loop goes through the name of the entry as long as it agrees with the key from
the index on, so its two exit tests hold together exactly when all of the name does. -/
theorem scanName_spec (key : List UInt8) {s : List UInt8} (hs : 0 ∉ s) {i : ℕ}
    (hi : i ≤ key.length) :
    ((scanName key s i).2 = key.length ∧ deref (scanName key s i).1 = equalsSign ↔
      equalsSign ∈ s ∧ s.takeWhile (· ≠ equalsSign) = key.drop i) ∧
    (deref (scanName key s i).1 = equalsSign →
      (scanName key s i).1 = s.dropWhile (· ≠ equalsSign)) := by
  induction s generalizing i with
  | nil =>
    have hend : deref [] ≠ equalsSign := by decide
    simp [scanName, hend]
  | cons b p ih =>
    obtain ⟨hb, hp⟩ := not_or.mp (mt List.mem_cons.mpr hs)
    by_cases hname : b = equalsSign
    · subst hname
      have hdrop : [] = key.drop i ↔ i = key.length := by
        rw [eq_comm, List.drop_eq_nil_iff]
        omega
      simp [scanName_equals, deref, hdrop]
    · by_cases hkey : key[i]? = some b
      · obtain ⟨hlt, hbyte⟩ := List.getElem?_eq_some_iff.mp hkey
        have hdrop : key.drop i = b :: key.drop (i + 1) := by
          rw [List.drop_eq_getElem_cons hlt, hbyte]
        rw [scanName_agrees p (Ne.symm hb) hname hkey, hdrop]
        simpa [hname, Ne.symm hname] using ih hp hlt
      · have hdrop : b :: p.takeWhile (· ≠ equalsSign) ≠ key.drop i := by
          intro h
          apply hkey
          simpa using (congrArg List.head? h).symm
        rw [scanName_differs p hkey]
        simpa [deref, hname] using fun _ => hdrop

theorem getenvRaw_eq (key : List UInt8) (environ : List Entry) :
    getenvRaw key environ = (firstNamed key environ).map Entry.value := by
  induction environ with
  | nil => rfl
  | cons entry env ih =>
    obtain ⟨htests, hvalue⟩ := scanName_spec key entry.no_nul (Nat.zero_le key.length)
    have hname : entry.name? = some key ↔
        equalsSign ∈ entry.bytes ∧ entry.bytes.takeWhile (· ≠ equalsSign) = key := by
      unfold Entry.name?
      split <;> simp [*]
    rw [List.drop_zero, ← hname] at htests
    simp only [getenvRaw, htests, firstNamed, List.find?_cons]
    by_cases hfound : entry.name? = some key
    · simp [hfound, Entry.value, hvalue (htests.mpr hfound).2]
    · simpa [hfound, firstNamed] using ih

theorem firstNamed_eq_none_iff (key : List UInt8) (environ : List Entry) :
    firstNamed key environ = none ↔ ∀ e ∈ environ, e.name? ≠ some key := by
  simp [firstNamed]

end Lookup

section Parsing

def isDigit (b : UInt8) : Bool := 48 ≤ b && b ≤ 57

def digit (b : UInt8) : ℕ := (b - 48).toNat

/-- The loop of `get_env_usize`; the product and the sum are both checked. -/
def parse : List UInt8 → ℕ → Except Halt ℕ
  | [], out => .ok out
  | b :: p, out =>
    if isDigit b then
      if usizeBound ≤ out * 10 then .error .panic
      else if usizeBound ≤ out * 10 + digit b then .error .panic
      else parse p (out * 10 + digit b)
    else .ok out

def getEnvUsize (key : List UInt8) (environ : List Entry) : Except Halt (Option ℕ) :=
  match getenvRaw key environ with
  | none => .ok none
  | some val => (parse val 0).map some

/-- The number that the decimal digits at the start of a string denote. -/
def number (s : List UInt8) : ℕ := Nat.ofDigits 10 ((s.takeWhile isDigit).map digit).reverse

/-- The digits that are left extend the number that has been read. -/
def extended (out : ℕ) (s : List UInt8) : ℕ :=
  out * 10 ^ (s.takeWhile isDigit).length + number s

theorem extended_cons {b : UInt8} (hb : isDigit b = true) (out : ℕ) (p : List UInt8) :
    extended out (b :: p) = extended (out * 10 + digit b) p := by
  simp only [extended, number, List.takeWhile_cons_of_pos hb, List.map_cons, List.reverse_cons,
    List.length_cons, Nat.ofDigits_append, Nat.ofDigits_singleton, List.length_reverse,
    List.length_map]
  ring

theorem extended_of_not_digit {b : UInt8} (hb : isDigit b = false) (out : ℕ) (p : List UInt8) :
    extended out (b :: p) = out := by
  simp [extended, number, hb]

theorem le_extended (out : ℕ) (s : List UInt8) : out ≤ extended out s :=
  le_add_right (Nat.le_mul_of_pos_right out (by positivity))

/-- The checks stop the loop exactly when the whole number is too large: a partial number
is never larger than the whole. -/
theorem parse_eq (s : List UInt8) {out : ℕ} (hout : out < usizeBound) :
    parse s out =
      if extended out s < usizeBound then .ok (extended out s) else .error .panic := by
  induction s generalizing out with
  | nil => simp [parse, extended, number, hout]
  | cons b p ih =>
    by_cases hb : isDigit b = true
    · have hle := le_extended (out * 10 + digit b) p
      rw [parse, if_pos hb, extended_cons hb]
      by_cases hnext : out * 10 + digit b < usizeBound
      · rw [if_neg (by omega), if_neg (by omega)]
        exact ih hnext
      · rw [if_neg (show ¬extended (out * 10 + digit b) p < usizeBound by omega),
          if_pos (not_lt.mp hnext), ite_self]
    · have hout' := extended_of_not_digit (eq_false_of_ne_true hb) out p
      rw [parse, if_neg hb, hout', if_pos hout]

theorem parse_zero (s : List UInt8) :
    parse s 0 = if number s < usizeBound then .ok (number s) else .error .panic := by
  have hzero : extended 0 s = number s := by simp [extended]
  rw [parse_eq s (by decide), hzero]

theorem getEnvUsize_of_unset {key : List UInt8} {environ : List Entry}
    (h : firstNamed key environ = none) : getEnvUsize key environ = .ok none := by
  simp [getEnvUsize, getenvRaw_eq, h]

theorem getEnvUsize_of_set {key : List UInt8} {environ : List Entry} {e : Entry}
    (h : firstNamed key environ = some e) :
    getEnvUsize key environ =
      if number e.value < usizeBound then .ok (some (number e.value)) else .error .panic := by
  simp only [getEnvUsize, getenvRaw_eq, h, Option.map_some, parse_zero]
  split <;> rfl

/-- The number behind the first entry with this name is a machine word, if there is one. -/
def Fits (environ : List Entry) (key : List UInt8) : Prop :=
  ∀ e, firstNamed key environ = some e → number e.value < usizeBound

/-- What a variable is read as: nothing if no entry has its name, and otherwise a result
of some kind, which is the number at the start of the first such entry if that number is
a machine word. -/
def ReadExactly (key : List UInt8) (environ : List Entry) : Prop :=
  (getEnvUsize key environ = .ok none ↔ ∀ e ∈ environ, e.name? ≠ some key) ∧
    ∀ e, firstNamed key environ = some e →
      ∃ val, getEnvUsize key environ = .ok (some val) ∧
        (number e.value < usizeBound → val = number e.value)

theorem env_read_exactly_iff (key : List UInt8) (environ : List Entry) :
    ReadExactly key environ ↔ Fits environ key := by
  unfold Fits
  cases hfirst : firstNamed key environ with
  | none =>
    have hunset := (firstNamed_eq_none_iff key environ).mp hfirst
    simpa [ReadExactly, hfirst, getEnvUsize_of_unset hfirst] using hunset
  | some e =>
    have hset : ¬∀ e ∈ environ, e.name? ≠ some key := by
      rw [← firstNamed_eq_none_iff, hfirst]
      exact Option.some_ne_none e
    have hread := getEnvUsize_of_set hfirst
    by_cases hfits : number e.value < usizeBound
    · rw [if_pos hfits] at hread
      simp [ReadExactly, hfirst, hread, hset, hfits]
    · rw [if_neg hfits] at hread
      simp [ReadExactly, hfirst, hread, hset, hfits]

end Parsing

section Bootstrap

def oxMaxReservation : List UInt8 := ascii "OX_MAX_RESERVATION"
def oxTrimThreshold : List UInt8 := ascii "OX_TRIM_THRESHOLD"
def oxForceThp : List UInt8 := ascii "OX_FORCE_THP"

def minThreshold : ℕ := 1024 * 1024

/-- The new value of the static `OX_TRIM_THRESHOLD`. -/
def initThreshold (environ : List Entry) (threshold : ℕ) : Except Halt ℕ := do
  match ← getEnvUsize oxTrimThreshold environ with
  | none => .ok threshold
  | some val => .ok (if val = 0 ∨ val < minThreshold then minThreshold else val)

def defaultThreshold : ℕ := 1024 * 1024 * 10

/-- What `boot_strap` finds in the environment, in the order in which it looks: the
values behind `init_reverse` and `init_thp`, and the threshold. -/
def readEnviron (environ : List Entry) (cpuCount : ℕ) : Except Halt (Env × ℕ) := do
  let maxReservation ← getEnvUsize oxMaxReservation environ
  let threshold ← initThreshold environ defaultThreshold
  let forceThp ← getEnvUsize oxForceThp environ
  .ok (⟨maxReservation, forceThp, cpuCount⟩, threshold)

/-- A value below one mebibyte is raised to it. -/
theorem initThreshold_ge {environ : List Entry} {threshold val : ℕ}
    (h : initThreshold environ threshold = .ok val) : min threshold minThreshold ≤ val := by
  obtain ⟨val?, _, hval⟩ := bind_eq_ok.mp h
  cases val? with
  | none =>
    cases hval
    exact min_le_left ..
  | some read =>
    apply (min_le_right ..).trans
    rw [← Except.ok.inj hval]
    split <;> omega

/-- Twenty digits, as a user might write them for no limit at all. -/
def hugeThreshold : Entry := ⟨ascii "OX_TRIM_THRESHOLD=99999999999999999999", by decide⟩

theorem huge_threshold_overflows :
    ¬ReadExactly oxTrimThreshold [hugeThreshold] ∧
      readEnviron [hugeThreshold] 1 = .error .panic := by
  have hread : getEnvUsize oxTrimThreshold [hugeThreshold] = .error .panic := rfl
  have hmax : getEnvUsize oxMaxReservation [hugeThreshold] = .ok none := rfl
  constructor
  · intro h
    obtain ⟨val, hval, _⟩ := h.2 hugeThreshold rfl
    rw [hread] at hval
    contradiction
  · simp [readEnviron, initThreshold, hmax, hread, bind, Except.bind]

end Bootstrap

end Oxidalloc.Environment
