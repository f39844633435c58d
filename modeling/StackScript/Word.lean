import StackScript.Numeral

/-!
# Machine words

A word is a signed integer of 64 bits. Its arithmetic gives the mathematical result, or `overflow`
where that is no word.
-/

set_option autoImplicit false

namespace StackScript

abbrev Word := Int64

inductive Fault where
  | divisionByZero
  | overflow
  deriving DecidableEq, Repr

def Fault.message : Fault → String
  | .divisionByZero => "divided by 0"
  | .overflow => "integer overflow"

namespace Word

/-! ## Decimal text -/

def text (a : Word) : String := Numeral.text a.toInt

def read (s : String) : Except Numeral.Error Word :=
  (Numeral.read .signed64 s.toList).map Int64.ofInt

/-! ## Exact arithmetic -/

def addExact (a b : Word) : Except Fault Word :=
  if BitVec.saddOverflow a.toBitVec b.toBitVec then .error .overflow else .ok (a + b)

def subExact (a b : Word) : Except Fault Word :=
  if BitVec.ssubOverflow a.toBitVec b.toBitVec then .error .overflow else .ok (a - b)

def mulExact (a b : Word) : Except Fault Word :=
  if BitVec.smulOverflow a.toBitVec b.toBitVec then .error .overflow else .ok (a * b)

theorem addExact_eq_ok {a b r : Word} : addExact a b = .ok r ↔ r.toInt = a.toInt + b.toInt := by
  have hr := r.toInt_lt
  have hr' := r.le_toInt
  unfold addExact
  split
  · simp only [BitVec.saddOverflow, Int64.toInt_toBitVec, Bool.or_eq_true, decide_eq_true_eq] at *
    simp
    omega
  · have h := BitVec.toInt_add_of_not_saddOverflow ‹_›
    simp only [← Int64.toBitVec_add, Int64.toInt_toBitVec] at h
    rw [Except.ok.injEq, ← Int64.toInt_inj, h, eq_comm]

theorem subExact_eq_ok {a b r : Word} : subExact a b = .ok r ↔ r.toInt = a.toInt - b.toInt := by
  have hr := r.toInt_lt
  have hr' := r.le_toInt
  unfold subExact
  split
  · simp only [BitVec.ssubOverflow, Int64.toInt_toBitVec, Bool.or_eq_true, decide_eq_true_eq] at *
    simp
    omega
  · have h := BitVec.toInt_sub_of_not_ssubOverflow ‹_›
    simp only [← Int64.toBitVec_sub, Int64.toInt_toBitVec] at h
    rw [Except.ok.injEq, ← Int64.toInt_inj, h, eq_comm]

theorem mulExact_eq_ok {a b r : Word} : mulExact a b = .ok r ↔ r.toInt = a.toInt * b.toInt := by
  have hr := r.toInt_lt
  have hr' := r.le_toInt
  unfold mulExact
  split
  · simp only [BitVec.smulOverflow, Int64.toInt_toBitVec, Bool.or_eq_true, decide_eq_true_eq] at *
    simp
    omega
  · have h := BitVec.toInt_mul_of_not_smulOverflow ‹_›
    simp only [← Int64.toBitVec_mul, Int64.toInt_toBitVec] at h
    rw [Except.ok.injEq, ← Int64.toInt_inj, h, eq_comm]

end Word

end StackScript
