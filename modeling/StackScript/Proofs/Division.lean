import Mathlib.Data.Rat.Floor
import Mathlib.Tactic.Linarith
import StackScript.Proofs.Arithmetic

/-!
# Exact division

`Division.rounded` is a rational number without its fraction, rounded as the division says. The
quotient of two integers is their ratio so rounded (`quotient_eq_rounded`), since the remainder is
less than the divisor (`natAbs_remainder_lt`) and lies on the side of one of the operands, its
`leading` one (`remainder_nonneg`, `remainder_nonpos`).

`quotChecked` and `remChecked` compute quotient and remainder of words with every operation on the
way checked for a result. All of them have one (`quotChecked_eq`, `remChecked_eq`).
-/

set_option autoImplicit false

namespace StackScript

namespace Division

/-! ## Remainders of integers -/

section Remainder

variable (d : Division) {x y : Int}

/-- The operand whose sign a remainder has. -/
def leading : Division → Int → Int → Int
  | truncate, x, _ => x
  | floor, _, y => y

theorem mul_quotient_add_remainder (x y : Int) : y * d.quotient x y + d.remainder x y = x := by
  cases d with
  | truncate => exact Int.mul_tdiv_add_tmod x y
  | floor => exact Int.mul_fdiv_add_fmod x y

theorem natAbs_tmod_lt (hy : y ≠ 0) : (x.tmod y).natAbs < y.natAbs := by
  rw [Int.natAbs_tmod]
  exact Nat.mod_lt _ (Int.natAbs_pos.2 hy)

theorem natAbs_remainder_lt (hy : y ≠ 0) : (d.remainder x y).natAbs < y.natAbs := by
  have ht : (x.tmod y).natAbs < y.natAbs := natAbs_tmod_lt hy
  cases d with
  | truncate => exact ht
  | floor =>
    rw [remainder, fmod_eq_ite hy]
    -- the divisor is added to a remainder of the other sign
    split <;> omega

theorem abs_remainder_lt (hy : y ≠ 0) : |d.remainder x y| < |y| := by
  rw [Int.abs_eq_natAbs, Int.abs_eq_natAbs]
  exact_mod_cast d.natAbs_remainder_lt hy

theorem remainder_nonneg (hy : y ≠ 0) (h : 0 ≤ d.leading x y) : 0 ≤ d.remainder x y := by
  cases d with
  | truncate => exact Int.tmod_nonneg y h
  | floor =>
    have ht : (x.tmod y).natAbs < y.natAbs := natAbs_tmod_lt hy
    rw [leading] at h
    rw [remainder, fmod_eq_ite hy]
    split <;> omega

theorem remainder_nonpos (hy : y ≠ 0) (h : d.leading x y ≤ 0) : d.remainder x y ≤ 0 := by
  cases d with
  | truncate =>
    have hn : 0 ≤ (-x).tmod y := Int.tmod_nonneg y (Int.neg_nonneg_of_nonpos h)
    rw [Int.neg_tmod] at hn
    rw [remainder]
    omega
  | floor =>
    have ht : (x.tmod y).natAbs < y.natAbs := natAbs_tmod_lt hy
    rw [leading] at h
    rw [remainder, fmod_eq_ite hy]
    split <;> omega

theorem sign_remainder (hy : y ≠ 0) (h : d.remainder x y ≠ 0) :
    (d.remainder x y).sign = (d.leading x y).sign := by
  have hpos := d.remainder_nonneg (x := x) hy
  have hneg := d.remainder_nonpos (x := x) hy
  rcases Int.lt_trichotomy (d.leading x y) 0 with hl | hl | hl
  · rw [Int.sign_eq_neg_one_of_neg hl, Int.sign_eq_neg_one_of_neg (by omega)]
  · omega
  · rw [Int.sign_eq_one_of_pos hl, Int.sign_eq_one_of_pos (by omega)]

end Remainder

/-! ## Rounded ratios -/

section Rounding

variable (d : Division) {x y : Int}

/-- A number rounded toward zero or toward negative infinity. -/
def rounded : Division → ℚ → Int
  | truncate, v => if 0 ≤ v then ⌊v⌋ else ⌈v⌉
  | floor, v => ⌊v⌋

/-- What the remainder adds to the quotient. -/
theorem ratio_eq (x : Int) (hy : y ≠ 0) :
    (x : ℚ) / y = d.quotient x y + (d.remainder x y : ℚ) / y := by
  have hy' : (y : ℚ) ≠ 0 := Int.cast_ne_zero.2 hy
  have h : (y : ℚ) * d.quotient x y + d.remainder x y = x :=
    mod_cast d.mul_quotient_add_remainder x y
  rw [← h, add_div, mul_div_cancel_left₀ _ hy']

theorem abs_fraction_lt (x : Int) (hy : y ≠ 0) : |(d.remainder x y : ℚ) / y| < 1 := by
  have hpos : 0 < |(y : ℚ)| := abs_pos.2 (Int.cast_ne_zero.2 hy)
  rw [abs_div, div_lt_one hpos]
  exact_mod_cast d.abs_remainder_lt hy

/-- The fraction that the remainder adds has the sign of the ratio of its leading operand. -/
theorem fraction_nonneg (hy : y ≠ 0) (h : 0 ≤ (d.leading x y : ℚ) / y) :
    0 ≤ (d.remainder x y : ℚ) / y := by
  rcases div_nonneg_iff.1 h with ⟨hl, hd⟩ | ⟨hl, hd⟩
  · exact div_nonneg (mod_cast d.remainder_nonneg hy (mod_cast hl)) hd
  · exact div_nonneg_of_nonpos (mod_cast d.remainder_nonpos hy (mod_cast hl)) hd

theorem fraction_nonpos (hy : y ≠ 0) (h : (d.leading x y : ℚ) / y ≤ 0) :
    (d.remainder x y : ℚ) / y ≤ 0 := by
  rcases div_nonpos_iff.1 h with ⟨hl, hd⟩ | ⟨hl, hd⟩
  · exact div_nonpos_of_nonneg_of_nonpos (mod_cast d.remainder_nonneg hy (mod_cast hl)) hd
  · exact div_nonpos_of_nonpos_of_nonneg (mod_cast d.remainder_nonpos hy (mod_cast hl)) hd

/-- The quotient is the ratio of the operands, rounded. -/
theorem quotient_eq_rounded (x : Int) (hy : y ≠ 0) :
    d.quotient x y = d.rounded ((x : ℚ) / y) := by
  obtain ⟨habove, hbelow⟩ := abs_lt.1 (d.abs_fraction_lt x hy)
  have hratio := d.ratio_eq x hy
  have hdown (h : 0 ≤ (d.remainder x y : ℚ) / y) : ⌊(x : ℚ) / y⌋ = d.quotient x y :=
    Int.floor_eq_iff.2 ⟨by linarith, by linarith⟩
  have hup (h : (d.remainder x y : ℚ) / y ≤ 0) : ⌈(x : ℚ) / y⌉ = d.quotient x y :=
    Int.ceil_eq_iff.2 ⟨by linarith, by linarith⟩
  cases d with
  | truncate =>
    rw [rounded]
    split
    · exact (hdown (fraction_nonneg .truncate hy ‹_›)).symm
    · exact (hup (fraction_nonpos .truncate hy (le_of_not_ge ‹_›))).symm
  | floor =>
    have hone : (y : ℚ) / y = 1 := div_self (Int.cast_ne_zero.2 hy)
    exact (hdown (fraction_nonneg .floor hy (by rw [leading, hone]; exact zero_le_one))).symm

theorem remainder_eq_sub (x : Int) (hy : y ≠ 0) :
    d.remainder x y = x - y * d.rounded ((x : ℚ) / y) := by
  have h := d.mul_quotient_add_remainder x y
  rw [← d.quotient_eq_rounded x hy]
  omega

end Rounding

/-! ## Checked operations -/

section Checked

/-- The operands of which the truncated quotient is no word. -/
def NoWord (a b : Word) : Prop := b = 0 ∨ a = Int64.minValue ∧ b = -1

instance (a b : Word) : Decidable (NoWord a b) := inferInstanceAs (Decidable (_ ∨ _))

/-- The truncated quotient and its remainder, where that quotient is a word. -/
def divChecked (a b : Word) : Option Word := if NoWord a b then none else some (a / b)

def modChecked (a b : Word) : Option Word := if NoWord a b then none else some (a % b)

/-- The quotient with every operation on words checked: there is none if one of them has no result,
apart from the division that decides about the overflow. -/
def quotChecked (d : Division) (a b : Word) : Option (Except Fault Word) :=
  if b = 0 then some (.error .divisionByZero)
  else
    match divChecked a b with
    | none => some (.error .overflow)
    | some q =>
      match d with
      | .truncate => some (.ok q)
      | .floor => do
        let r ← modChecked a b
        if r ≠ 0 ∧ SignsDiffer a b then
          let lowered ← (q.subExact 1).toOption
          some (.ok lowered)
        else some (.ok q)

/-- The remainder with every operation on words checked; it is zero where the truncated quotient is
no word. -/
def remChecked (d : Division) (a b : Word) : Option (Except Fault Word) :=
  if b = 0 then some (.error .divisionByZero)
  else
    let r := (modChecked a b).getD 0
    match d with
    | .truncate => some (.ok r)
    | .floor =>
      if r ≠ 0 ∧ SignsDiffer r b then do
        let moved ← (r.addExact b).toOption
        some (.ok moved)
      else some (.ok r)

theorem divChecked_of_word {a b : Word} (h : ¬ NoWord a b) : divChecked a b = some (a / b) :=
  if_neg h

theorem modChecked_of_word {a b : Word} (h : ¬ NoWord a b) : modChecked a b = some (a % b) :=
  if_neg h

theorem modChecked_getD {a b : Word} (hb : b ≠ 0) : (modChecked a b).getD 0 = a % b := by
  by_cases h : NoWord a b
  · obtain ⟨rfl, rfl⟩ : a = Int64.minValue ∧ b = -1 := h.resolve_left hb
    decide
  · rw [modChecked_of_word h, Option.getD_some]

/-- The quotient that is lowered is not the least word. -/
theorem subExact_quotient {a b : Word} (h : ¬ NoWord a b) (hr : a % b ≠ 0) :
    (a / b).subExact 1 = .ok (a / b - 1) := by
  obtain ⟨hb, hmin⟩ := not_or.1 h
  have hb' : b.toInt ≠ 0 := toInt_ne_zero hb
  have hq : (a.toInt.tdiv b.toInt).natAbs ≤ a.toInt.natAbs / 2 :=
    natAbs_tdiv_le hb' (mod_ne_zero_iff.1 hr)
  rw [← toInt_div_of hmin] at hq
  have hle := a.le_toInt
  have hlt := a.toInt_lt
  rw [Word.subExact_eq_ok, Int64.toInt_one]
  exact toInt_sub_one (by omega)

/-- The divisor that is added to a remainder has the other sign. -/
theorem addExact_remainder {a b : Word} (h : SignsDiffer (a % b) b) :
    (a % b).addExact b = .ok (a % b + b) := by
  rw [Word.addExact_eq_ok, toInt_mod_add (signsDiffer_iff.1 h), Int64.toInt_mod]

/-- No operation of a quotient is without a result. -/
theorem quotChecked_eq (d : Division) (a b : Word) : d.quotChecked a b = some (d.quot a b) := by
  unfold quotChecked quot
  by_cases hb : b = 0
  · rw [if_pos hb, if_pos hb]
  rw [if_neg hb, if_neg hb]
  by_cases h : a = Int64.minValue ∧ b = -1
  · rw [divChecked, if_pos (.inr h), if_pos h]
  have hw : ¬ NoWord a b := not_or.2 ⟨hb, h⟩
  rw [divChecked_of_word hw, modChecked_of_word hw, if_neg h]
  cases d with
  | truncate => rfl
  | floor =>
    by_cases hc : a % b ≠ 0 ∧ SignsDiffer a b
    · simp only [Option.bind_eq_bind, Option.bind_some, if_pos hc, subExact_quotient hw hc.1,
        Except.toOption]
    · simp only [Option.bind_eq_bind, Option.bind_some, if_neg hc]

/-- No operation of a remainder is without a result. -/
theorem remChecked_eq (d : Division) (a b : Word) : d.remChecked a b = some (d.rem a b) := by
  unfold remChecked rem
  by_cases hb : b = 0
  · rw [if_pos hb, if_pos hb]
  simp only [if_neg hb, modChecked_getD hb]
  cases d with
  | truncate => rfl
  | floor =>
    by_cases hc : a % b ≠ 0 ∧ SignsDiffer (a % b) b
    · simp only [if_pos hc, addExact_remainder hc.2, Except.toOption, Option.bind_eq_bind,
        Option.bind_some]
    · simp only [if_neg hc]

end Checked

/-! ## Division of words -/

section Words

variable (d : Division) (a b : Word)

/-- A quotient by zero fails, the one that is no word overflows, and every other one is the ratio of
the operands, rounded. -/
theorem quot_cases :
    (b = 0 ∧ d.quot a b = .error .divisionByZero) ∨
      (b ≠ 0 ∧ (a = Int64.minValue ∧ b = -1) ∧ d.quot a b = .error .overflow) ∨
      (b ≠ 0 ∧ ¬ (a = Int64.minValue ∧ b = -1) ∧ ∃ q : Word, d.quot a b = .ok q ∧
        q.toInt = d.rounded ((a.toInt : ℚ) / b.toInt)) := by
  by_cases hb : b = 0
  · exact .inl ⟨hb, hb ▸ d.quot_zero a⟩
  by_cases h : a = Int64.minValue ∧ b = -1
  · exact .inr (.inl ⟨hb, h, by rw [h.1, h.2, quot_overflow]⟩)
  have hq : ∃ q, d.quot a b = .ok q := by
    unfold quot
    rw [if_neg hb, if_neg h]
    cases d <;> exact ⟨_, rfl⟩
  obtain ⟨q, hq⟩ := hq
  have hb' : b.toInt ≠ 0 := toInt_ne_zero hb
  exact .inr (.inr ⟨hb, h, q, hq, by rw [(quot_eq_ok hb).1 hq, d.quotient_eq_rounded _ hb']⟩)

/-- A remainder by zero fails, and every other one is what the rounded ratio leaves. -/
theorem rem_cases :
    (b = 0 ∧ d.rem a b = .error .divisionByZero) ∨
      (b ≠ 0 ∧ ∃ r : Word, d.rem a b = .ok r ∧ r.toInt = d.remainder a.toInt b.toInt) := by
  by_cases hb : b = 0
  · exact .inl ⟨hb, hb ▸ d.rem_zero a⟩
  have hr : ∃ r, d.rem a b = .ok r := by
    unfold rem
    rw [if_neg hb]
    cases d <;> exact ⟨_, rfl⟩
  obtain ⟨r, hr⟩ := hr
  exact .inr ⟨hb, r, hr, (rem_eq_ok hb).1 hr⟩

theorem quot_eq_divisionByZero_iff : d.quot a b = .error .divisionByZero ↔ b = 0 := by
  rcases d.quot_cases a b with ⟨hb, hq⟩ | ⟨hb, -, hq⟩ | ⟨hb, -, q, hq, -⟩
  · exact iff_of_true hq hb
  · exact iff_of_false (by simp [hq]) hb
  · exact iff_of_false (by simp [hq]) hb

theorem quot_eq_overflow_iff :
    d.quot a b = .error .overflow ↔ a = Int64.minValue ∧ b = -1 := by
  rcases d.quot_cases a b with ⟨rfl, hq⟩ | ⟨-, h, hq⟩ | ⟨-, h, q, hq, -⟩
  · exact iff_of_false (by simp [hq]) fun h => absurd h.2 (by decide)
  · exact iff_of_true hq h
  · exact iff_of_false (by simp [hq]) h

theorem rem_eq_divisionByZero_iff : d.rem a b = .error .divisionByZero ↔ b = 0 := by
  rcases d.rem_cases a b with ⟨hb, hr⟩ | ⟨hb, r, hr, -⟩
  · exact iff_of_true hr hb
  · exact iff_of_false (by simp [hr]) hb

/-- What the division of two words comes to. -/
structure Exact : Prop where
  quot_divisionByZero : d.quot a b = .error .divisionByZero ↔ b = 0
  rem_divisionByZero : d.rem a b = .error .divisionByZero ↔ b = 0
  quot_overflow : d.quot a b = .error .overflow ↔ a = Int64.minValue ∧ b = -1
  rem_no_overflow : d.rem a b ≠ .error .overflow
  /-- Every other quotient is the ratio of the operands, rounded. -/
  quot_rounded : b ≠ 0 → ¬ (a = Int64.minValue ∧ b = -1) →
    ∃ q : Word, d.quot a b = .ok q ∧ q.toInt = d.rounded ((a.toInt : ℚ) / b.toInt)
  /-- A remainder is what the rounded ratio leaves of the dividend, whether that ratio is a word or
  not. It is less than the divisor and has the sign of its leading operand. -/
  rem_left : b ≠ 0 → ∃ r : Word, d.rem a b = .ok r ∧
    r.toInt = a.toInt - b.toInt * d.rounded ((a.toInt : ℚ) / b.toInt) ∧
    |r.toInt| < |b.toInt| ∧ (r ≠ 0 → r.toInt.sign = (d.leading a.toInt b.toInt).sign)
  /-- The remainder where the quotient overflows. -/
  rem_minValue : a = Int64.minValue → b = -1 → d.rem a b = .ok 0
  quot_checked : d.quotChecked a b = some (d.quot a b)
  rem_checked : d.remChecked a b = some (d.rem a b)

/-- Quotients and remainders are exact for all words and both ways to round, and no operation on the
way to them is without a result. -/
theorem quot_rem_exact : Exact d a b where
  quot_divisionByZero := d.quot_eq_divisionByZero_iff a b
  rem_divisionByZero := d.rem_eq_divisionByZero_iff a b
  quot_overflow := d.quot_eq_overflow_iff a b
  rem_no_overflow := d.rem_ne_overflow a b
  quot_rounded := fun hb h => by
    rcases d.quot_cases a b with ⟨hb', -⟩ | ⟨-, h', -⟩ | ⟨-, -, hq⟩
    · exact absurd hb' hb
    · exact absurd h' h
    · exact hq
  rem_left := fun hb => by
    rcases d.rem_cases a b with ⟨hb', -⟩ | ⟨-, r, hr, hrem⟩
    · exact absurd hb' hb
    have hb' : b.toInt ≠ 0 := toInt_ne_zero hb
    refine ⟨r, hr, hrem.trans (d.remainder_eq_sub _ hb'), hrem ▸ d.abs_remainder_lt hb', ?_⟩
    intro hr0
    rw [ne_eq, ← toInt_eq_zero_iff] at hr0
    rw [hrem] at hr0 ⊢
    exact d.sign_remainder hb' hr0
  rem_minValue := by
    rintro rfl rfl
    cases d <;> decide
  quot_checked := d.quotChecked_eq a b
  rem_checked := d.remChecked_eq a b

example : (floor.quot (-7) 2, floor.rem (-7) 2, truncate.rem (-7) 2) =
    (.ok (-4), .ok 1, .ok (-1)) := by decide

end Words

end Division

end StackScript
