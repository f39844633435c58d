import Mathlib.Algebra.Group.Int.Defs
import StackScript.Proofs.Code.Printing

/-!
# Which tokens are commands

The canonical numerals are given by a grammar with the value of each numeral (`Numeral.Canonical`),
and they are what the integers are written as (`Numeral.canonical_iff`): digits in front of others
do not change when these are read too (`Numeral.digits_append`). So a token is a literal if it is a
canonical numeral whose value is a word, and there is no other spelling of the word. Of the other
tokens the keywords are operations, and the rest are bad (`classify_exact`).
-/

set_option autoImplicit false

namespace StackScript

namespace Numeral

variable {c : Char} {cs : List Char} {n : Nat} {v : Int}

/-! ## Canonical numerals -/

/-- Digits of which the first is not zero. -/
def IsMagnitude : List Char → Prop
  | [] => False
  | lead :: tail => ('1' ≤ lead ∧ lead ≤ '9') ∧ ∀ c ∈ tail, '0' ≤ c ∧ c ≤ '9'

/-- The canonical numerals and their values. -/
inductive Canonical : List Char → Int → Prop
  | zero : Canonical ['0'] 0
  | positive {cs : List Char} (h : IsMagnitude cs) : Canonical cs (Nat.ofDigitChars 10 cs 0)
  | negative {cs : List Char} (h : IsMagnitude cs) :
      Canonical ('-' :: cs) (-(Nat.ofDigitChars 10 cs 0))

/-- The digits are the ten characters from `48` on. -/
theorem toNat_digit (h : '0' ≤ c ∧ c ≤ '9') : digitValue c < 10 ∧ c.toNat = 48 + digitValue c := by
  have hlo : 48 ≤ c.toNat := h.1
  have hhi : c.toNat ≤ 57 := h.2
  have hv : digitValue c = c.toNat - 48 := rfl
  omega

theorem digits_digitValue (h : '0' ≤ c ∧ c ≤ '9') : digits (digitValue c) = [c] := by
  obtain ⟨hlt, hc⟩ := toNat_digit h
  have hchar : (digitValue c).digitChar = c :=
    Char.toNat_inj.1 ((Nat.toNat_digitChar_of_lt_ten hlt).trans hc.symm)
  rw [digits, Nat.toDigits_of_lt_base hlt, hchar]

/-- The digits of a positive number stay when other digits are put behind them. -/
theorem digits_append (hn : 0 < n) (hd : ∀ c ∈ cs, '0' ≤ c ∧ c ≤ '9') :
    digits n ++ cs = digits (Nat.ofDigitChars 10 cs n) := by
  induction cs generalizing n with
  | nil => rw [List.append_nil, Nat.ofDigitChars_nil]
  | cons c cs ih =>
    rw [List.forall_mem_cons] at hd
    have hstep : digits n ++ digits (digitValue c) = digits (10 * n + digitValue c) :=
      Nat.toDigits_append_toDigits (by decide) hn (toNat_digit hd.1).1
    rw [digits_digitValue hd.1] at hstep
    rw [List.append_cons, hstep, ih (by omega) hd.2, Nat.ofDigitChars_cons]
    rfl

theorem digits_of_isMagnitude (h : IsMagnitude cs) :
    0 < Nat.ofDigitChars 10 cs 0 ∧ digits (Nat.ofDigitChars 10 cs 0) = cs := by
  cases cs with
  | nil => exact h.elim
  | cons lead tail =>
    obtain ⟨⟨hlo, hhi⟩, ht⟩ := h
    have hlead : '0' ≤ lead ∧ lead ≤ '9' := ⟨Char.le_trans (by decide) hlo, hhi⟩
    have hpos : 0 < digitValue lead := by
      have hlo' : 49 ≤ lead.toNat := hlo
      have hc := (toNat_digit hlead).2
      omega
    have hv : Nat.ofDigitChars 10 (lead :: tail) 0 =
        Nat.ofDigitChars 10 tail (digitValue lead) := by
      rw [Nat.ofDigitChars_cons, Nat.mul_zero, Nat.zero_add]
      rfl
    have hle := le_ofDigitChars tail (digitValue lead)
    rw [hv, ← digits_append hpos ht, digits_digitValue hlead]
    exact ⟨by omega, rfl⟩

theorem digit_of_mem_digits (h : c ∈ digits n) : '0' ≤ c ∧ c ≤ '9' := by
  have hd := isDigit_of_mem_digits h
  simpa [Char.isDigit, Char.le_def] using hd

theorem IsMagnitude.append {ds : List Char} (h : IsMagnitude cs)
    (hd : ∀ c ∈ ds, '0' ≤ c ∧ c ≤ '9') : IsMagnitude (cs ++ ds) := by
  cases cs with
  | nil => exact h.elim
  | cons lead tail => exact ⟨h.1, List.forall_mem_append.2 ⟨h.2, hd⟩⟩

/-- The leading digit of a number is that of the number without its last digit. -/
theorem isMagnitude_digits (hn : 0 < n) : IsMagnitude (digits n) := by
  induction n using Nat.strongRecOn with
  | ind n ih =>
    rcases Nat.lt_or_ge n 10 with hlt | hge
    · have hc := Nat.toNat_digitChar_of_lt_ten hlt
      have hlo : 49 ≤ n.digitChar.toNat := by omega
      have hhi : n.digitChar.toNat ≤ 57 := by omega
      rw [digits, Nat.toDigits_of_lt_base hlt]
      exact ⟨⟨hlo, hhi⟩, List.forall_mem_nil _⟩
    · have hsplit : digits n = digits (n / 10) ++ [(n % 10).digitChar] :=
        Nat.toDigits_of_base_le (by decide) hge
      have hfront := ih (n / 10) (by omega) (by omega)
      rw [hsplit]
      refine hfront.append fun c hc => digit_of_mem_digits (n := n) ?_
      rw [hsplit]
      exact List.mem_append_right _ hc

theorem canonical_iff : Canonical cs v ↔ decimal v = cs := by
  constructor
  · intro h
    cases h with
    | zero => rfl
    | positive h => exact (digits_of_isMagnitude h).2
    | @negative cs h =>
      obtain ⟨hpos, hd⟩ := digits_of_isMagnitude h
      obtain ⟨m, hm⟩ := Nat.exists_eq_succ_of_ne_zero (Nat.ne_of_gt hpos)
      rw [hm] at hd ⊢
      exact congrArg ('-' :: ·) hd
  · rintro rfl
    have hread (n : Nat) : Nat.ofDigitChars 10 (digits n) 0 = n := Nat.ofDigitChars_ten_toDigits
    cases v with
    | ofNat n =>
      rcases Nat.eq_zero_or_pos n with rfl | hn
      · exact .zero
      · have h := Canonical.positive (isMagnitude_digits hn)
        rwa [hread] at h
    | negSucc n =>
      have h := Canonical.negative (isMagnitude_digits n.succ_pos)
      rwa [hread] at h

end Numeral

/-! ## Tokens -/

theorem classify_eq_literal_iff {token : String} {v : Int} :
    (∃ value : Word, value.toInt = v ∧ classify token = .ok (.literal value)) ↔
      Numeral.Canonical token.toList v ∧ -2 ^ 63 ≤ v ∧ v ≤ 2 ^ 63 - 1 := by
  rw [Numeral.canonical_iff]
  constructor
  · rintro ⟨value, rfl, h⟩
    have hlo := value.le_toInt
    have hhi := value.toInt_lt
    rw [← classify_eq_ok_iff.1 h, Command.text, Word.toList_text]
    exact ⟨rfl, by omega, by omega⟩
  · rintro ⟨hd, hlo, hhi⟩
    have hv : (Int64.ofInt v).toInt = v := Int64.toInt_ofInt_of_le (by omega) (by omega)
    refine ⟨Int64.ofInt v, hv, classify_eq_ok_iff.2 (String.toList_inj.1 ?_)⟩
    rw [Command.text, Word.toList_text, hv, hd]

theorem classify_eq_op_iff {token : String} {opcode : Opcode} :
    classify token = .ok (.op opcode) ↔ token = opcode.keyword :=
  classify_eq_ok_iff.trans eq_comm

theorem eq_badToken_of_error {token : String} {e : ProgramError} (h : classify token = .error e) :
    e = .badToken token := by
  unfold classify at h
  split at h
  · cases h
  · split at h
    · cases h
    · exact (Except.error.inj h).symm

theorem classify_eq_error_iff {token : String} {e : ProgramError} :
    classify token = .error e ↔ e = .badToken token ∧
      (∀ v, Numeral.Canonical token.toList v → ¬ (-2 ^ 63 ≤ v ∧ v ≤ 2 ^ 63 - 1)) ∧
      ∀ opcode : Opcode, token ≠ opcode.keyword := by
  constructor
  · intro h
    refine ⟨eq_badToken_of_error h, fun v hc hv => ?_, fun opcode hk => ?_⟩
    · obtain ⟨value, -, hok⟩ := classify_eq_literal_iff.2 ⟨hc, hv⟩
      cases h.symm.trans hok
    · cases h.symm.trans (classify_eq_op_iff.2 hk)
  · rintro ⟨rfl, hnum, hop⟩
    cases hc : classify token with
    | error e => rw [eq_badToken_of_error hc]
    | ok command =>
      cases command with
      | literal value =>
        obtain ⟨hcanonical, hv⟩ := classify_eq_literal_iff.1 ⟨value, rfl, hc⟩
        exact absurd hv (hnum _ hcanonical)
      | op opcode => exact absurd (classify_eq_op_iff.1 hc) (hop opcode)

/-- A token is the literal of a word if it is a canonical numeral of the word's value, and an
operation if it is its keyword; every other token is bad, and reported as it is. So a command is
read from its text, and from no other token. -/
theorem classify_exact (token : String) :
    (∀ v : Int, (∃ value : Word, value.toInt = v ∧ classify token = .ok (.literal value)) ↔
      Numeral.Canonical token.toList v ∧ -2 ^ 63 ≤ v ∧ v ≤ 2 ^ 63 - 1) ∧
    (∀ opcode, classify token = .ok (.op opcode) ↔ token = opcode.keyword) ∧
    (∀ e, classify token = .error e ↔ e = .badToken token ∧
      (∀ v, Numeral.Canonical token.toList v → ¬ (-2 ^ 63 ≤ v ∧ v ≤ 2 ^ 63 - 1)) ∧
      ∀ opcode : Opcode, token ≠ opcode.keyword) ∧
    (∀ command, classify token = .ok command → command.text = token) ∧
    (∀ command : Command, classify command.text = .ok command) ∧
    ∀ other command, classify token = .ok command → classify other = .ok command →
      token = other := by
  refine ⟨fun v => classify_eq_literal_iff, fun opcode => classify_eq_op_iff,
    fun e => classify_eq_error_iff, fun command => classify_eq_ok_iff.1, classify_text,
    fun other command h h' => ?_⟩
  rw [← classify_eq_ok_iff.1 h, classify_eq_ok_iff.1 h']

example : classify "-9223372036854775808" = .ok (.literal Int64.minValue) ∧
    classify "9223372036854775808" = .error (.badToken "9223372036854775808") ∧
    classify "-0" = .error (.badToken "-0") := by decide +kernel

end StackScript
