/-!
# Decimal numerals

`text` writes an integer in canonical decimal. `read` reads a numeral of a bounded range, sign and
leading zeros allowed, one digit at a time, and reports the first character at which it fails.
-/

set_option autoImplicit false

namespace StackScript.Numeral

/-! ## Writing -/

def digits (n : Nat) : List Char := Nat.toDigits 10 n

def decimal : Int → List Char
  | .ofNat n => digits n
  | .negSucc n => '-' :: digits (n + 1)

/-- No leading zero, no plus sign and no minus sign on zero. -/
def text (v : Int) : String := String.ofList (decimal v)

/-! ## Reading -/

/-- An inclusive range of integers that contains zero. -/
structure Bounds where
  lo : Int
  hi : Int
  lo_le_zero : lo ≤ 0 := by decide
  zero_le_hi : 0 ≤ hi := by decide

def Bounds.signed64 : Bounds where
  lo := -0x8000000000000000
  hi := 0x7FFFFFFFFFFFFFFF

def Bounds.unsigned64 : Bounds where
  lo := 0
  hi := 0xFFFFFFFFFFFFFFFF

def Bounds.Contains (b : Bounds) (v : Int) : Prop := b.lo ≤ v ∧ v ≤ b.hi

instance (b : Bounds) (v : Int) : Decidable (b.Contains v) :=
  inferInstanceAs (Decidable (b.lo ≤ v ∧ v ≤ b.hi))

/-- Why a text is not a numeral of the range. -/
inductive Error where
  | empty
  | invalidDigit
  | tooLarge
  | tooSmall
  deriving DecidableEq, Repr

def Error.message : Error → String
  | .empty => "cannot parse integer from empty string"
  | .invalidDigit => "invalid digit found in string"
  | .tooLarge => "number too large to fit in target type"
  | .tooSmall => "number too small to fit in target type"

inductive Sign where
  | plus
  | minus
  deriving DecidableEq, Repr

def Sign.outOfRange : Sign → Error
  | .plus => .tooLarge
  | .minus => .tooSmall

def Sign.apply : Sign → Nat → Int
  | .plus, n => n
  | .minus, n => -n

def digitValue (c : Char) : Nat := c.toNat - '0'.toNat

/-- Extends the value read so far. Each digit first shifts the value and then adds to it, away from
zero; both results have to stay in the range. -/
def readDigits (b : Bounds) (s : Sign) : Int → List Char → Except Error Int
  | acc, [] => .ok acc
  | acc, c :: cs =>
    if !c.isDigit then .error .invalidDigit
    else if ¬ b.Contains (acc * 10) then .error s.outOfRange
    else if ¬ b.Contains (acc * 10 + s.apply (digitValue c)) then .error s.outOfRange
    else readDigits b s (acc * 10 + s.apply (digitValue c)) cs

/-- Takes the sign off a numeral. A minus sign is one only where the range has negative numbers. -/
def splitSign (b : Bounds) : List Char → Sign × List Char
  | [] => (.plus, [])
  | c :: cs =>
    if c = '+' then (.plus, cs)
    else if c = '-' ∧ b.lo < 0 then (.minus, cs)
    else (.plus, c :: cs)

def read (b : Bounds) : List Char → Except Error Int
  | [] => .error .empty
  | c :: cs =>
    match splitSign b (c :: cs) with
    | (_, []) => .error .invalidDigit
    | (s, d :: ds) => readDigits b s 0 (d :: ds)

/-! ## Facts -/

theorem readDigits_contains {b : Bounds} {s : Sign} {acc v : Int} {cs : List Char}
    (hacc : b.Contains acc) (h : readDigits b s acc cs = .ok v) : b.Contains v := by
  induction cs generalizing acc with
  | nil => simp only [readDigits, Except.ok.injEq] at h; exact h ▸ hacc
  | cons c cs ih =>
    rw [readDigits] at h
    split at h
    · cases h
    · split at h
      · cases h
      · split at h
        · cases h
        · exact ih (Decidable.not_not.1 ‹_›) h

theorem read_contains {b : Bounds} {v : Int} {cs : List Char} (h : read b cs = .ok v) :
    b.Contains v := by
  cases cs with
  | nil => cases h
  | cons c cs =>
    rw [read] at h
    split at h
    · cases h
    · exact readDigits_contains ⟨b.lo_le_zero, b.zero_le_hi⟩ h

end StackScript.Numeral
