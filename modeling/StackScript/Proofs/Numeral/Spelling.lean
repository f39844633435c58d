import StackScript.Proofs.Arithmetic
import StackScript.Proofs.Numeral

/-!
# Every spelling of an integer

An integer may be written with a sign and with leading zeros: `Numeral.Spells` gives all texts of
an integer, and its value is that of all digits together. A reader that goes digit by digit accepts
exactly these texts, as long as the integer lies in its range (`read_eq_ok_iff`).
-/

set_option autoImplicit false

namespace StackScript

namespace Numeral

/-- A row of digits. -/
def IsDigits (cs : List Char) : Prop := cs ≠ [] ∧ ∀ c ∈ cs, '0' ≤ c ∧ c ≤ '9'

-- The instance names the check of the row's own characters: there is one of all characters too.
instance (cs : List Char) : Decidable (IsDigits cs) :=
  @instDecidableAnd _ _ inferInstance (List.decidableBAll _ cs)

/-- The texts of integers: digits with or without a sign. -/
inductive Spells : List Char → Int → Prop
  | unsigned {ds : List Char} (h : IsDigits ds) : Spells ds (Nat.ofDigitChars 10 ds 0)
  | plus {ds : List Char} (h : IsDigits ds) : Spells ('+' :: ds) (Nat.ofDigitChars 10 ds 0)
  | minus {ds : List Char} (h : IsDigits ds) : Spells ('-' :: ds) (-(Nat.ofDigitChars 10 ds 0))

variable {b : Bounds} {s : Sign} {c : Char} {cs ds : List Char} {n : Nat} {v : Int}

/-! ## Digits -/

theorem isDigit_iff : c.isDigit = true ↔ '0' ≤ c ∧ c ≤ '9' := by
  simp [Char.isDigit, Char.le_def]

/-! ## Signs -/

theorem read_of_sign (h : splitSign b (c :: cs) = (s, ds)) : read b (c :: cs) = .ok v ↔
    IsDigits ds ∧ v = s.apply (Nat.ofDigitChars 10 ds 0) ∧ b.Contains v := by
  simp only [IsDigits, ← isDigit_iff]
  cases ds with
  | nil => simp [read, h]
  | cons d ds =>
    have hread : read b (c :: cs) = readDigits b s 0 (d :: ds) := by simp only [read, h]
    rw [hread, readDigits_eq_ok_iff, and_iff_right (List.cons_ne_nil d ds)]

theorem not_isDigits_cons (h : ¬ ('0' ≤ c ∧ c ≤ '9')) : ¬ IsDigits (c :: cs) :=
  fun hd => h (hd.2 c List.mem_cons_self)

/-- A text is that of an integer if digits are left when its sign is taken off. -/
theorem spells_cons_iff (hlo : b.lo < 0) (h : splitSign b (c :: cs) = (s, ds)) :
    Spells (c :: cs) v ↔ IsDigits ds ∧ v = s.apply (Nat.ofDigitChars 10 ds 0) := by
  by_cases hplus : c = '+'
  · subst hplus
    obtain ⟨rfl, rfl⟩ : Sign.plus = s ∧ cs = ds := by simpa [splitSign] using h
    constructor
    · rintro (hd | hd)
      · exact absurd hd (not_isDigits_cons (by decide))
      · exact ⟨hd, rfl⟩
    · rintro ⟨hd, rfl⟩
      exact .plus hd
  by_cases hminus : c = '-'
  · subst hminus
    obtain ⟨rfl, rfl⟩ : Sign.minus = s ∧ cs = ds := by simpa [splitSign, hlo] using h
    constructor
    · rintro (hd | - | hd)
      · exact absurd hd (not_isDigits_cons (by decide))
      · exact ⟨hd, rfl⟩
    · rintro ⟨hd, rfl⟩
      exact .minus hd
  · obtain ⟨rfl, rfl⟩ : Sign.plus = s ∧ c :: cs = ds := by simpa [splitSign, hplus, hminus] using h
    constructor
    · rintro (hd | - | -)
      · exact ⟨hd, rfl⟩
      · exact absurd rfl hplus
      · exact absurd rfl hminus
    · rintro ⟨hd, rfl⟩
      exact .unsigned hd

/-- A range with negative numbers is read from all texts of its integers, and from no other. -/
theorem read_eq_ok_iff (hlo : b.lo < 0) : read b cs = .ok v ↔ Spells cs v ∧ b.Contains v := by
  cases cs with
  | nil =>
    refine iff_of_false (fun h => by cases h) ?_
    rintro ⟨⟨h⟩, -⟩
    exact h.1 rfl
  | cons c cs =>
    rcases h : splitSign b (c :: cs) with ⟨s, ds⟩
    rw [read_of_sign h, spells_cons_iff hlo h, and_assoc]

/-! ## Numerals without a minus sign -/

/-- The texts of natural numbers: digits with or without a plus sign. -/
inductive SpellsNat : List Char → Nat → Prop
  | unsigned {ds : List Char} (h : IsDigits ds) : SpellsNat ds (Nat.ofDigitChars 10 ds 0)
  | plus {ds : List Char} (h : IsDigits ds) : SpellsNat ('+' :: ds) (Nat.ofDigitChars 10 ds 0)

theorem spellsNat_cons_iff (hlo : b.lo = 0) (h : splitSign b (c :: cs) = (s, ds)) :
    s = .plus ∧ (SpellsNat (c :: cs) n ↔ IsDigits ds ∧ n = Nat.ofDigitChars 10 ds 0) := by
  by_cases hplus : c = '+'
  · subst hplus
    obtain ⟨rfl, rfl⟩ : Sign.plus = s ∧ cs = ds := by simpa [splitSign] using h
    refine ⟨rfl, fun hs => ?_, fun hs => ?_⟩
    · obtain hd | hd := hs
      · exact absurd hd (not_isDigits_cons (by decide))
      · exact ⟨hd, rfl⟩
    · obtain ⟨hd, rfl⟩ := hs
      exact .plus hd
  · obtain ⟨rfl, rfl⟩ : Sign.plus = s ∧ c :: cs = ds := by simpa [splitSign, hplus, hlo] using h
    refine ⟨rfl, fun hs => ?_, fun hs => ?_⟩
    · obtain hd | hd := hs
      · exact ⟨hd, rfl⟩
      · exact absurd rfl hplus
    · obtain ⟨hd, rfl⟩ := hs
      exact .unsigned hd

/-- A range without negative numbers is read from all texts of its numbers, and from no other. -/
theorem read_eq_ok_iff_spellsNat (hlo : b.lo = 0) :
    read b cs = .ok v ↔ ∃ n : Nat, SpellsNat cs n ∧ v = n ∧ (n : Int) ≤ b.hi := by
  cases cs with
  | nil =>
    refine iff_of_false (fun h => by cases h) fun h => ?_
    obtain ⟨_, ⟨hd⟩, -⟩ := h
    exact hd.1 rfl
  | cons c cs =>
    rcases h : splitSign b (c :: cs) with ⟨s, ds⟩
    obtain ⟨rfl, -⟩ := spellsNat_cons_iff (n := 0) hlo h
    have hspells (n : Nat) := (spellsNat_cons_iff (n := n) hlo h).2
    have hin : b.Contains (Sign.plus.apply (Nat.ofDigitChars 10 ds 0)) ↔
        (Nat.ofDigitChars 10 ds 0 : Int) ≤ b.hi := by
      simp only [Bounds.Contains, Sign.apply, hlo]
      omega
    rw [read_of_sign h]
    refine ⟨fun hr => ?_, fun hr => ?_⟩
    · obtain ⟨hd, rfl, hv⟩ := hr
      exact ⟨_, (hspells _).2 ⟨hd, rfl⟩, rfl, hin.1 hv⟩
    · obtain ⟨n, hn, rfl, hle⟩ := hr
      obtain ⟨hd, rfl⟩ := (hspells n).1 hn
      exact ⟨hd, rfl, hin.2 hle⟩

end Numeral

/-! ## Words -/

theorem Word.read_eq_ok_iff {s : String} {a : Word} :
    Word.read s = .ok a ↔ Numeral.Spells s.toList a.toInt := by
  have hlo : Numeral.Bounds.signed64.lo < 0 := by decide
  have hnumeral :
      Numeral.read .signed64 s.toList = .ok a.toInt ↔ Numeral.Spells s.toList a.toInt := by
    rw [Numeral.read_eq_ok_iff hlo]
    exact and_iff_left (Word.contains_toInt a)
  rw [← hnumeral, Word.read]
  cases h : Numeral.read .signed64 s.toList with
  | error e => simp [Except.map]
  | ok v =>
    rw [Except.map, Except.ok.injEq, Except.ok.injEq]
    constructor
    · rintro rfl
      exact (Word.toInt_ofInt (Numeral.read_contains h)).symm
    · rintro rfl
      exact Int64.ofInt_toInt a

end StackScript
