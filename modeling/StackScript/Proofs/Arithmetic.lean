import StackScript.Division

/-!
# Arithmetic of words and of integers

`Word.exact v` is the word that is the integer `v`, or an overflow if there is none. Every operation
of the machine is `Word.exact` of the operation on integers (`addExact_eq_exact`, …,
`Division.quot_eq_exact`, `Division.rem_eq_exact`), so it fails exactly where its result is no word.
A remainder always is a word (`Division.rem_ne_overflow`).
-/

set_option autoImplicit false

namespace StackScript

open Numeral (Bounds)

namespace Word

theorem contains_signed64 {v : Int} :
    Bounds.signed64.Contains v ↔ -0x8000000000000000 ≤ v ∧ v ≤ 0x7FFFFFFFFFFFFFFF := Iff.rfl

theorem contains_toInt (a : Word) : Bounds.signed64.Contains a.toInt := by
  have h1 := a.le_toInt
  have h2 := a.toInt_lt
  rw [contains_signed64]
  omega

/-- The word that is an integer, if there is one. -/
def exact (v : Int) : Except Fault Word :=
  if Bounds.signed64.Contains v then .ok (Int64.ofInt v) else .error .overflow

theorem toInt_ofInt {v : Int} (h : Bounds.signed64.Contains v) : (Int64.ofInt v).toInt = v := by
  rw [contains_signed64] at h
  exact Int64.toInt_ofInt_of_le (by omega) (by omega)

theorem exact_of_contains {v : Int} (h : Bounds.signed64.Contains v) :
    exact v = .ok (Int64.ofInt v) := if_pos h

theorem exact_overflow {v : Int} (h : ¬ Bounds.signed64.Contains v) :
    exact v = .error .overflow := if_neg h

/-- What gives the word of `v` wherever there is one, and else overflows, is `exact v`. -/
theorem eq_exact {x : Except Fault Word} {v : Int} (hok : ∀ r, x = .ok r ↔ r.toInt = v)
    (herr : ∀ e, x = .error e → e = .overflow) : x = exact v := by
  by_cases h : Bounds.signed64.Contains v
  · rw [exact_of_contains h]
    exact (hok _).2 (toInt_ofInt h)
  · rw [exact_overflow h]
    cases x with
    | ok r =>
      have hr := (hok r).1 rfl
      exact absurd (hr ▸ contains_toInt r) h
    | error e => rw [herr e rfl]

/-! ## Sums and products -/

theorem ite_eq_exact {p : Prop} [Decidable p] {s : Word} {v : Int}
    (h : ∀ r, (if p then .error Fault.overflow else .ok s) = Except.ok r ↔ r.toInt = v) :
    (if p then .error .overflow else .ok s) = exact v := by
  refine eq_exact h fun e he => ?_
  split at he <;> cases he
  rfl

theorem addExact_eq_exact (a b : Word) : addExact a b = exact (a.toInt + b.toInt) :=
  ite_eq_exact fun _ => addExact_eq_ok

theorem subExact_eq_exact (a b : Word) : subExact a b = exact (a.toInt - b.toInt) :=
  ite_eq_exact fun _ => subExact_eq_ok

theorem mulExact_eq_exact (a b : Word) : mulExact a b = exact (a.toInt * b.toInt) :=
  ite_eq_exact fun _ => mulExact_eq_ok

end Word

/-! ## Quotients and remainders of integers -/

namespace Division

/-- The quotient of two integers, rounded toward zero or toward negative infinity. -/
def quotient : Division → Int → Int → Int
  | truncate => Int.tdiv
  | floor => Int.fdiv

/-- What the quotient leaves of the dividend. -/
def remainder : Division → Int → Int → Int
  | truncate => Int.tmod
  | floor => Int.fmod

theorem tmod_lt_zero_iff {x y : Int} (h : x.tmod y ≠ 0) : x.tmod y < 0 ↔ x < 0 := by
  have hs := Int.sign_tmod x y
  rw [if_neg (fun hd => h (Int.tmod_eq_zero_of_dvd hd))] at hs
  rw [← Int.sign_eq_neg_one_iff_neg, hs, Int.sign_eq_neg_one_iff_neg]

/-- Rounding down takes one off the truncated quotient if the division is not exact and the operands
differ in sign. -/
theorem fdiv_eq_ite {x y : Int} (hy : y ≠ 0) :
    x.fdiv y =
      if x.tmod y ≠ 0 ∧ ¬ (x < 0 ↔ y < 0) then x.tdiv y - 1 else x.tdiv y := by
  rw [Int.fdiv_eq_tdiv]
  by_cases hd : y ∣ x
  · simp [hd, Int.tmod_eq_zero_of_dvd hd]
  · have hm : x.tmod y ≠ 0 := fun h => hd (Int.dvd_of_tmod_eq_zero h)
    rw [if_neg hd]
    rcases Int.lt_or_gt_of_ne hy with hneg | hpos
    · have hy' : ¬ 0 ≤ y := by omega
      by_cases hx : 0 ≤ x
      · have hc : x.tmod y ≠ 0 ∧ ¬ (x < 0 ↔ y < 0) := ⟨hm, by omega⟩
        rw [if_pos hx, if_neg hy', if_pos hc]
      · have hc : ¬ (x.tmod y ≠ 0 ∧ ¬ (x < 0 ↔ y < 0)) := fun h => h.2 (by omega)
        rw [if_neg hx, if_neg hy', if_neg hc, Int.sign_eq_neg_one_of_neg hneg]
        omega
    · have hy' : 0 ≤ y := by omega
      by_cases hx : 0 ≤ x
      · have hc : ¬ (x.tmod y ≠ 0 ∧ ¬ (x < 0 ↔ y < 0)) := fun h => h.2 (by omega)
        rw [if_pos hx, if_pos hy', if_neg hc]
        omega
      · have hc : x.tmod y ≠ 0 ∧ ¬ (x < 0 ↔ y < 0) := ⟨hm, by omega⟩
        rw [if_neg hx, if_pos hy', if_pos hc, Int.sign_eq_one_of_pos hpos]

/-- The remainder of rounding down is the truncated one, moved by the divisor if they differ in
sign. -/
theorem fmod_eq_ite {x y : Int} (hy : y ≠ 0) :
    x.fmod y =
      if x.tmod y ≠ 0 ∧ ¬ (x.tmod y < 0 ↔ y < 0) then x.tmod y + y else x.tmod y := by
  have ht := Int.tmod_def x y
  rw [Int.fmod_def, fdiv_eq_ite hy]
  by_cases hm : x.tmod y = 0
  · rw [if_neg (fun h => h.1 hm), if_neg (fun h => h.1 hm), ht]
  · have hs := tmod_lt_zero_iff hm
    by_cases hd : x < 0 ↔ y < 0
    · rw [if_neg (fun h => h.2 hd), if_neg (fun h => h.2 (hs.trans hd)), ht]
    · rw [if_pos ⟨hm, hd⟩, if_pos ⟨hm, fun h => hd (hs.symm.trans h)⟩, ht, Int.mul_sub,
        Int.mul_one]
      omega

/-- A division that is not exact has a divisor other than one and minus one, so its quotient is far
from the ends of the range. -/
theorem natAbs_tdiv_le {x y : Int} (hy : y ≠ 0) (h : x.tmod y ≠ 0) :
    (x.tdiv y).natAbs ≤ x.natAbs / 2 := by
  have h1 : y.natAbs ≠ 1 := by
    intro h1
    rcases Int.natAbs_eq y with hy1 | hy1 <;> rw [h1] at hy1 <;> exact h (by simp [hy1])
  rw [Int.natAbs_tdiv]
  exact Nat.div_le_div_left (by omega) (by decide)

end Division

/-! ## Quotients and remainders of words -/

namespace Division

variable {d : Division} {a b q r : Word}

theorem toInt_eq_zero_iff : b.toInt = 0 ↔ b = 0 := by
  rw [← Int64.toInt_zero, Int64.toInt_inj]

theorem toInt_ne_zero (hb : b ≠ 0) : b.toInt ≠ 0 := fun h => hb (toInt_eq_zero_iff.1 h)

theorem lt_zero_iff : a < 0 ↔ a.toInt < 0 := by
  rw [Int64.lt_iff_toInt_lt, Int64.toInt_zero]

theorem signsDiffer_iff : SignsDiffer a b ↔ ¬ (a.toInt < 0 ↔ b.toInt < 0) := by
  rw [SignsDiffer, lt_zero_iff, lt_zero_iff]

theorem mod_ne_zero_iff : a % b ≠ 0 ↔ a.toInt.tmod b.toInt ≠ 0 := by
  rw [← Int64.toInt_mod, ne_eq, ne_eq, toInt_eq_zero_iff]

theorem toInt_div_of (h : ¬(a = Int64.minValue ∧ b = -1)) :
    (a / b).toInt = a.toInt.tdiv b.toInt := by
  by_cases ha : a = Int64.minValue
  · exact Int64.toInt_div_of_ne_right a b fun hb => h ⟨ha, hb⟩
  · exact Int64.toInt_div_of_ne_left a b ha

theorem toInt_sub_one (h : -0x8000000000000000 ≤ a.toInt - 1) : (a - 1).toInt = a.toInt - 1 := by
  have := a.toInt_lt
  rw [Int64.toInt_sub, Int64.toInt_one]
  exact Int.bmod_eq_of_le (by omega) (by omega)

/-- The sum of a remainder and a divisor of the other sign is a word. -/
theorem toInt_mod_add (h : ¬ ((a % b).toInt < 0 ↔ b.toInt < 0)) :
    (a % b + b).toInt = a.toInt.tmod b.toInt + b.toInt := by
  have h1 := (a % b).toInt_lt
  have h2 := (a % b).le_toInt
  have h3 := b.toInt_lt
  have h4 := b.le_toInt
  rw [Int64.toInt_add, ← Int64.toInt_mod]
  exact Int.bmod_eq_of_le (by omega) (by omega)

/-- The only quotient that is no word. -/
theorem quotient_overflow (d : Division) :
    d.quotient Int64.minValue.toInt (-1 : Word).toInt = 0x8000000000000000 := by
  cases d <;> decide

theorem quot_eq_ok (hb : b ≠ 0) :
    d.quot a b = .ok q ↔ q.toInt = d.quotient a.toInt b.toInt := by
  by_cases h : a = Int64.minValue ∧ b = -1
  · obtain ⟨rfl, rfl⟩ := h
    have := q.toInt_lt
    rw [quot_overflow, quotient_overflow]
    constructor
    · intro h; cases h
    · omega
  · have hb' : b.toInt ≠ 0 := toInt_ne_zero hb
    unfold quot
    rw [if_neg hb, if_neg h]
    cases d with
    | truncate => rw [quotient, ← toInt_div_of h, Int64.toInt_inj, Except.ok.injEq, eq_comm]
    | floor =>
      simp only [quotient, fdiv_eq_ite hb', signsDiffer_iff, mod_ne_zero_iff, ← toInt_div_of h]
      split
      · rename_i hc
        have hq := natAbs_tdiv_le hb' hc.1
        have := a.toInt_lt
        have := a.le_toInt
        rw [← toInt_div_of h] at hq
        rw [← toInt_sub_one (by omega), Int64.toInt_inj, Except.ok.injEq, eq_comm]
      · rw [Int64.toInt_inj, Except.ok.injEq, eq_comm]

theorem rem_eq_ok (hb : b ≠ 0) :
    d.rem a b = .ok r ↔ r.toInt = d.remainder a.toInt b.toInt := by
  have hb' : b.toInt ≠ 0 := toInt_ne_zero hb
  unfold rem
  rw [if_neg hb]
  cases d with
  | truncate => rw [remainder, ← Int64.toInt_mod, Int64.toInt_inj, Except.ok.injEq, eq_comm]
  | floor =>
    simp only [remainder, fmod_eq_ite hb', signsDiffer_iff, mod_ne_zero_iff, Int64.toInt_mod]
    split
    · rename_i hc
      rw [← toInt_mod_add (by rw [Int64.toInt_mod]; exact hc.2), Int64.toInt_inj,
        Except.ok.injEq, eq_comm]
    · rw [← Int64.toInt_mod, Int64.toInt_inj, Except.ok.injEq, eq_comm]

theorem quot_eq_exact (d : Division) (a : Word) (hb : b ≠ 0) :
    d.quot a b = Word.exact (d.quotient a.toInt b.toInt) := by
  refine Word.eq_exact (fun q => quot_eq_ok hb) fun e he => ?_
  unfold quot at he
  rw [if_neg hb] at he
  split at he
  · cases he
    rfl
  · cases d <;> cases he

theorem rem_ne_overflow (d : Division) (a b : Word) : d.rem a b ≠ .error .overflow := by
  unfold rem
  split
  · simp
  · cases d <;> simp

theorem rem_eq_exact (d : Division) (a : Word) (hb : b ≠ 0) :
    d.rem a b = Word.exact (d.remainder a.toInt b.toInt) := by
  refine Word.eq_exact (fun r => rem_eq_ok hb) fun e he => ?_
  unfold rem at he
  rw [if_neg hb] at he
  cases d <;> cases he

end Division

end StackScript
