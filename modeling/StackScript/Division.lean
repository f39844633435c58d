import StackScript.Word

/-!
# Division

Quotient and remainder of words under the two roundings. A quotient fails by zero and where it is no
word, a remainder by zero alone.
-/

set_option autoImplicit false

namespace StackScript

inductive Division where
  /-- Toward zero. -/
  | truncate
  /-- Toward negative infinity. -/
  | floor
  deriving DecidableEq, Repr

namespace Division

def SignsDiffer (a b : Word) : Prop := ¬ (a < 0 ↔ b < 0)

instance (a b : Word) : Decidable (SignsDiffer a b) := inferInstanceAs (Decidable (¬ (_ ↔ _)))

/-- Rounding down lowers a truncated quotient that is not exact if the operands differ in sign. -/
def quot (d : Division) (a b : Word) : Except Fault Word :=
  if b = 0 then .error .divisionByZero
  else if a = Int64.minValue ∧ b = -1 then .error .overflow
  else
    match d with
    | .truncate => .ok (a / b)
    | .floor => .ok (if a % b ≠ 0 ∧ SignsDiffer a b then a / b - 1 else a / b)

def rem (d : Division) (a b : Word) : Except Fault Word :=
  if b = 0 then .error .divisionByZero
  else
    match d with
    | .truncate => .ok (a % b)
    | .floor => .ok (if a % b ≠ 0 ∧ SignsDiffer (a % b) b then a % b + b else a % b)

/-! ## Facts -/

theorem quot_zero (d : Division) (a : Word) : d.quot a 0 = .error .divisionByZero := if_pos rfl

theorem rem_zero (d : Division) (a : Word) : d.rem a 0 = .error .divisionByZero := if_pos rfl

theorem quot_overflow (d : Division) : d.quot Int64.minValue (-1) = .error .overflow := by
  unfold quot
  rw [if_neg (by decide), if_pos (by decide)]

end Division

end StackScript
