import Mathlib.Data.List.TakeWhile
import StackScript.Word

/-!
# Reading what was written

Every digit moves the value that was read so far away from zero. So some value on the way leaves the
range exactly if the last one does (`readDigits_eq`), a row of digits is read to its end exactly if
its value lies in the range (`readDigits_eq_ok_iff`), and the canonical numeral of an integer in the
range reads as that integer (`read_decimal`, `Word.read_text`).

So different integers have different numerals. A numeral ends where a character stands that is in
none: a text that begins with a numeral says which integer that is and where it ends
(`decimal_append_inj`).
-/

set_option autoImplicit false

namespace StackScript

namespace Numeral

variable {b : Bounds} {s : Sign} {c : Char} {v : Int} {m n : Nat}

/-! ## The characters of a numeral -/

theorem digits_ne_nil (n : Nat) : digits n ≠ [] := Nat.toDigits_ne_nil

theorem isDigit_of_mem_digits (h : c ∈ digits n) : c.isDigit = true :=
  Nat.isDigit_of_mem_toDigits (by decide) (by decide) h

theorem mem_decimal (h : c ∈ decimal v) : c = '-' ∨ c.isDigit = true := by
  cases v with
  | ofNat n => exact .inr (isDigit_of_mem_digits h)
  | negSucc n => exact (List.mem_cons.1 h).imp_right isDigit_of_mem_digits

theorem decimal_ne_nil (v : Int) : decimal v ≠ [] := by
  cases v with
  | ofNat n => exact digits_ne_nil n
  | negSucc n => exact List.cons_ne_nil _ _

/-! ## Rows of digits -/

theorem apply_zero (s : Sign) : s.apply 0 = 0 := by cases s <;> rfl

/-- A digit extends a value of either sign as it extends the magnitude. -/
theorem apply_extend (s : Sign) (n d : Nat) :
    s.apply n * 10 + s.apply d = s.apply (10 * n + d) := by
  cases s with
  | plus => simp only [Sign.apply]; omega
  | minus => simp only [Sign.apply]; omega

theorem contains_apply_of_le (h : m ≤ n) (hn : b.Contains (s.apply n)) :
    b.Contains (s.apply m) := by
  have hlo := b.lo_le_zero
  have hhi := b.zero_le_hi
  cases s with
  | plus => simp only [Bounds.Contains, Sign.apply] at hn ⊢; omega
  | minus => simp only [Bounds.Contains, Sign.apply] at hn ⊢; omega

theorem le_ofDigitChars (cs : List Char) (n : Nat) : n ≤ Nat.ofDigitChars 10 cs n := by
  induction cs generalizing n with
  | nil => simp
  | cons c cs ih =>
    rw [Nat.ofDigitChars_cons]
    have := ih (10 * n + (c.toNat - '0'.toNat))
    omega

/-- The invariant is that the value so far lies in the range. If the next digit takes it out of the
range, the value of all digits is out of it too, for that is no nearer to zero. If it does not, ten
times the value so far lies in the range as well. -/
theorem readDigits_eq (cs : List Char) (h : b.Contains (s.apply n)) :
    readDigits b s (s.apply n) cs =
      if ¬ b.Contains (s.apply (Nat.ofDigitChars 10 (cs.takeWhile Char.isDigit) n)) then
        .error s.outOfRange
      else if cs.takeWhile Char.isDigit ≠ cs then .error .invalidDigit
      else .ok (s.apply (Nat.ofDigitChars 10 (cs.takeWhile Char.isDigit) n)) := by
  induction cs generalizing n with
  | nil => simp [readDigits, h]
  | cons c cs ih =>
    cases hc : c.isDigit with
    | false => simp [readDigits, hc, h]
    | true =>
      let next := 10 * n + digitValue c
      have hnext : s.apply n * 10 + s.apply (digitValue c) = s.apply next := apply_extend s n _
      have hshift : s.apply n * 10 = s.apply (10 * n) := by
        rw [← Nat.add_zero (10 * n), ← apply_extend, apply_zero, Int.add_zero]
      have hvalue : Nat.ofDigitChars 10 (c :: cs.takeWhile Char.isDigit) n =
          Nat.ofDigitChars 10 (cs.takeWhile Char.isDigit) next := Nat.ofDigitChars_cons
      have hle : next ≤ Nat.ofDigitChars 10 (cs.takeWhile Char.isDigit) next :=
        le_ofDigitChars _ _
      rw [readDigits, hnext, hshift, List.takeWhile_cons_of_pos hc, hvalue]
      by_cases hin : b.Contains (s.apply next)
      · have hten : b.Contains (s.apply (10 * n)) := contains_apply_of_le (by omega) hin
        simp [hc, hten, hin, ih hin]
      · have hout : ¬ b.Contains (s.apply (Nat.ofDigitChars 10 (cs.takeWhile Char.isDigit) next)) :=
          fun hv => hin (contains_apply_of_le hle hv)
        simp [hc, hin, hout]

theorem contains_zero (b : Bounds) (s : Sign) : b.Contains (s.apply 0) := by
  rw [apply_zero]
  exact ⟨b.lo_le_zero, b.zero_le_hi⟩

/-- A row of digits is read to its end exactly if its value lies in the range. -/
theorem readDigits_eq_ok_iff {cs : List Char} : readDigits b s 0 cs = .ok v ↔
    (∀ c ∈ cs, c.isDigit = true) ∧ v = s.apply (Nat.ofDigitChars 10 cs 0) ∧ b.Contains v := by
  have h := readDigits_eq cs (contains_zero b s)
  rw [apply_zero] at h
  rw [h, ← List.takeWhile_eq_self_iff]
  by_cases hfront : cs.takeWhile Char.isDigit = cs
  · rw [hfront]
    refine ⟨fun hok => ?_, fun hok => ?_⟩
    · split at hok
      · cases hok
      · rename_i hin
        rw [if_neg (not_not_intro rfl), Except.ok.injEq] at hok
        exact ⟨rfl, hok.symm, hok ▸ Decidable.not_not.1 hin⟩
    · obtain ⟨-, rfl, hin⟩ := hok
      rw [if_neg (not_not_intro hin), if_neg (not_not_intro rfl)]
  · refine iff_of_false (fun hok => ?_) fun hok => hfront hok.1
    rw [if_pos hfront] at hok
    split at hok <;> cases hok

theorem readDigits_digits (h : b.Contains (s.apply n)) :
    readDigits b s 0 (digits n) = .ok (s.apply n) := by
  have hn : Nat.ofDigitChars 10 (digits n) 0 = n := Nat.ofDigitChars_ten_toDigits
  refine readDigits_eq_ok_iff.2 ⟨fun _ hc => isDigit_of_mem_digits hc, ?_, h⟩
  rw [hn]

/-! ## Numerals -/

theorem splitSign_digits (b : Bounds) (n : Nat) : splitSign b (digits n) = (.plus, digits n) := by
  cases hd : digits n with
  | nil => rfl
  | cons c cs =>
    have hc : c.isDigit = true := isDigit_of_mem_digits (n := n) (by simp [hd])
    have hplus : c ≠ '+' := fun h => by rw [h] at hc; cases hc
    have hminus : c ≠ '-' := fun h => by rw [h] at hc; cases hc
    simp [splitSign, hplus, hminus]

/-- A numeral is read that takes the sign off the digits of a magnitude in the range. -/
theorem read_of_splitSign {cs : List Char} (hs : splitSign b cs = (s, digits n))
    (hn : b.Contains (s.apply n)) : read b cs = .ok (s.apply n) := by
  have hr := readDigits_digits hn
  obtain ⟨d, ds, hd⟩ := List.exists_cons_of_ne_nil (digits_ne_nil n)
  rw [hd] at hs hr
  cases cs with
  | nil => cases hs
  | cons c cs =>
    simp only [read, hs]
    exact hr

theorem read_decimal (h : b.Contains v) : read b (decimal v) = .ok v := by
  cases v with
  | ofNat n => exact read_of_splitSign (s := .plus) (splitSign_digits b n) h
  | negSucc n =>
    -- the range has negative numbers, so the minus sign is one
    have hlo : b.lo < 0 := Int.lt_of_le_of_lt h.1 (Int.negSucc_lt_zero n)
    have hs : splitSign b ('-' :: digits (n + 1)) = (.minus, digits (n + 1)) := by
      simp [splitSign, hlo]
    exact read_of_splitSign hs h

/-- Two integers are read back in a range that holds both of them. -/
theorem decimal_injective {w : Int} (h : decimal v = decimal w) : v = w := by
  let b : Bounds := ⟨-(v.natAbs + w.natAbs), v.natAbs + w.natAbs, by omega, by omega⟩
  have hv : b.Contains v := by simp only [Bounds.Contains, b]; omega
  have hw : b.Contains w := by simp only [Bounds.Contains, b]; omega
  have hread := read_decimal hv
  rw [h, read_decimal hw] at hread
  exact (Except.ok.inj hread).symm

/-! ## Numerals in front of a text -/

/-- A character that stands in numerals. -/
def isMark (c : Char) : Bool := c == '-' || c.isDigit

/-- No numeral goes on in this text. -/
def Ends (cs : List Char) : Prop := ∀ c ∈ cs.head?, isMark c = false

variable {xs ys : List Char}

theorem ends_cons (h : isMark c = false) (cs : List Char) : Ends (c :: cs) := by
  intro d hd
  obtain rfl : c = d := by simpa using hd
  exact h

theorem ends_append {as : List Char} (hc : as.head? = some c) (h : isMark c = false)
    (cs : List Char) : Ends (as ++ cs) := by
  obtain ⟨as, rfl⟩ := List.head?_eq_some_iff.1 hc
  exact ends_cons h _

theorem isMark_of_mem_decimal (h : c ∈ decimal v) : isMark c = true := by
  obtain rfl | hd := mem_decimal h
  · rfl
  · simp [isMark, hd]

theorem span_decimal_append (v : Int) (hx : Ends xs) :
    (decimal v ++ xs).takeWhile isMark = decimal v ∧ (decimal v ++ xs).dropWhile isMark = xs := by
  rw [List.takeWhile_append_of_pos fun c => isMark_of_mem_decimal,
    List.dropWhile_append_of_pos fun c => isMark_of_mem_decimal]
  cases xs with
  | nil => simp
  | cons c cs =>
    have hc : isMark c = false := hx c rfl
    simp [hc]

/-- An integer in front of a text that does not continue it is told from that text. -/
theorem decimal_append_inj {w : Int} (hx : Ends xs) (hy : Ends ys)
    (h : decimal v ++ xs = decimal w ++ ys) : v = w ∧ xs = ys := by
  obtain ⟨htake, hdrop⟩ := span_decimal_append v hx
  obtain ⟨htake', hdrop'⟩ := span_decimal_append w hy
  rw [h, htake'] at htake
  rw [h, hdrop'] at hdrop
  exact ⟨decimal_injective htake.symm, hdrop.symm⟩

theorem ne_decimal_append (hx : Ends xs) (v : Int) : xs ≠ decimal v ++ ys := by
  intro h
  obtain ⟨c, cs, hcs⟩ := List.exists_cons_of_ne_nil (decimal_ne_nil v)
  have hmark := isMark_of_mem_decimal (v := v) (c := c) (by simp [hcs])
  rw [h, hcs] at hx
  rw [hx c rfl] at hmark
  cases hmark

end Numeral

/-! ## Words -/

namespace Word

theorem toList_text (a : Word) : a.text.toList = Numeral.decimal a.toInt := String.toList_ofList

theorem read_text (a : Word) : read a.text = .ok a := by
  have ha : Numeral.Bounds.signed64.Contains a.toInt :=
    ⟨a.le_toInt, Int.le_of_lt_add_one a.toInt_lt⟩
  rw [read, toList_text, Numeral.read_decimal ha, Except.map, Int64.ofInt_toInt]

theorem text_append_inj {a b : Word} {xs ys : List Char} (hx : Numeral.Ends xs)
    (hy : Numeral.Ends ys) (h : a.text.toList ++ xs = b.text.toList ++ ys) : a = b ∧ xs = ys := by
  rw [toList_text, toList_text] at h
  obtain ⟨hv, hrest⟩ := Numeral.decimal_append_inj hx hy h
  exact ⟨Int64.toInt_inj.1 hv, hrest⟩

end Word

end StackScript
