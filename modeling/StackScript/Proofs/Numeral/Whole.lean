import Mathlib.Algebra.Group.Int.Defs
import StackScript.Proofs.Numeral.Spelling

/-!
# Reading digit by digit and reading at once

`Numeral.readWhole` looks at a numeral as a whole: it takes the value of all digits in front and
asks first whether that lies in the range, then whether anything else is wrong. A reader that checks
the range at each digit says the same (`read_eq_readWhole`). So words are read from all texts of the
integers in their range, whatever the number of leading zeros (`Word.read_exact`).
-/

set_option autoImplicit false

namespace StackScript

namespace Numeral

/-! ## The numeral as a whole -/

def frontDigits (cs : List Char) : List Char := cs.takeWhile fun c => '0' ≤ c ∧ c ≤ '9'

def frontValue (cs : List Char) : Nat := Nat.ofDigitChars 10 (frontDigits cs) 0

/-- Judges a text of which the digits in front make the value `v`. -/
def judge (lo hi v : Int) (outside : Error) (cs : List Char) : Except Error Int :=
  if v < lo ∨ hi < v then .error outside
  else if frontDigits cs = [] ∨ frontDigits cs ≠ cs then .error .invalidDigit
  else .ok v

/-- Reads a numeral with an optional sign, looking at all its digits at once. -/
def readWhole (lo hi : Int) : List Char → Except Error Int
  | [] => .error .empty
  | c :: cs =>
    if c = '-' then judge lo hi (-(frontValue cs)) .tooSmall cs
    else if c = '+' then judge lo hi (frontValue cs) .tooLarge cs
    else judge lo hi (frontValue (c :: cs)) .tooLarge (c :: cs)

variable {b : Bounds} {s : Sign} {c : Char} {cs ds : List Char}

theorem takeWhile_isDigit (cs : List Char) : cs.takeWhile Char.isDigit = frontDigits cs := by
  have hdigit : Char.isDigit = fun c => decide ('0' ≤ c ∧ c ≤ '9') := by
    funext c
    rw [Bool.eq_iff_iff, isDigit_iff, decide_eq_true_iff]
  rw [frontDigits, hdigit]

theorem not_contains_iff {v : Int} : ¬ b.Contains v ↔ v < b.lo ∨ b.hi < v := by
  simp only [Bounds.Contains]
  omega

/-! ## The two readers -/

theorem read_eq_judge (h : splitSign b (c :: cs) = (s, ds)) :
    read b (c :: cs) = judge b.lo b.hi (s.apply (frontValue ds)) s.outOfRange ds := by
  have h0 := contains_zero b s
  cases ds with
  | nil =>
    -- the sign stands alone, and zero lies in every range
    have hv : ¬ (s.apply (frontValue []) < b.lo ∨ b.hi < s.apply (frontValue [])) :=
      fun hv => not_contains_iff.2 hv h0
    simp only [read, h]
    rw [judge, if_neg hv, if_pos (.inl rfl)]
  | cons d ds =>
    have hdigits := readDigits_eq (d :: ds) h0
    rw [apply_zero, takeWhile_isDigit] at hdigits
    have hfirst : frontDigits (d :: ds) = [] → frontDigits (d :: ds) ≠ d :: ds := by
      intro he
      simp [he]
    simp only [read, h]
    rw [hdigits, judge]
    simp only [not_contains_iff, or_iff_right_of_imp hfirst]
    rfl

theorem read_eq_readWhole (hlo : b.lo < 0) (cs : List Char) :
    read b cs = readWhole b.lo b.hi cs := by
  cases cs with
  | nil => rfl
  | cons c cs =>
    by_cases hplus : c = '+'
    · have h : splitSign b (c :: cs) = (.plus, cs) := by simp [splitSign, hplus]
      rw [read_eq_judge h, readWhole, hplus, if_neg (by decide), if_pos rfl]
      rfl
    by_cases hminus : c = '-'
    · have h : splitSign b (c :: cs) = (.minus, cs) := by simp [splitSign, hminus, hlo]
      rw [read_eq_judge h, readWhole, if_pos hminus]
      rfl
    · have h : splitSign b (c :: cs) = (.plus, c :: cs) := by simp [splitSign, hplus, hminus]
      rw [read_eq_judge h, readWhole, if_neg hminus, if_neg hplus]
      rfl

end Numeral

/-! ## Words -/

namespace Word

theorem map_toInt_read (s : String) :
    (read s).map Int64.toInt = Numeral.read .signed64 s.toList := by
  rw [read]
  cases h : Numeral.read .signed64 s.toList with
  | error e => rfl
  | ok v => rw [Except.map, Except.map, Word.toInt_ofInt (Numeral.read_contains h)]

/-- Reading a word digit by digit, with the range checked at each of them, is reading the numeral as
a whole: a text without characters is empty; a value of the digits in front that is no word is
reported as too large or, behind a minus sign, as too small, whatever else is wrong; then anything
but digits is reported. So an integer is read from each of its texts exactly if it is a word. -/
theorem read_exact (s : String) :
    (read s).map Int64.toInt = Numeral.readWhole (-2 ^ 63) (2 ^ 63 - 1) s.toList ∧
    ∀ v : Int, (∃ a : Word, a.toInt = v ∧ read s = .ok a) ↔
      Numeral.Spells s.toList v ∧ -2 ^ 63 ≤ v ∧ v ≤ 2 ^ 63 - 1 := by
  have hlo : Numeral.Bounds.signed64.lo < 0 := by decide
  refine ⟨(map_toInt_read s).trans (Numeral.read_eq_readWhole hlo _), fun v => ?_⟩
  have hv : Numeral.Bounds.signed64.Contains v ↔ -2 ^ 63 ≤ v ∧ v ≤ 2 ^ 63 - 1 := Iff.rfl
  rw [← hv, ← Numeral.read_eq_ok_iff hlo, ← map_toInt_read]
  cases read s with
  | error e => simp [Except.map]
  | ok a => simp [Except.map, eq_comm]

/-- A letter behind a number that is too large is not reached, and one behind a word is. -/
example : read "9223372036854775808x" = .error .tooLarge ∧
    read "-9223372036854775809x" = .error .tooSmall ∧
    read "9223372036854775807x" = .error .invalidDigit ∧
    read "-0009223372036854775808" = .ok Int64.minValue :=
  ⟨rfl, rfl, rfl, rfl⟩

end Word

end StackScript
