import StackScript.Binding
import StackScript.Proofs.Code.Printing
import StackScript.Proofs.Numeral.Spelling
import StackScript.Proofs.Text.Split
import StackScript.Proofs.Text.Trim

/-!
# Which texts are bindings

A text with an equals sign has two sides, `Binding.Sides`: what stands before its first equals sign
and what stands behind it, both without the white space around them. Every such text has them
(`Sides.exists_of_mem`), and they decide how it is read (`parse_of_sides`). So a text is a binding
exactly if it is NAME=VALUE, and each error is one way to fall short of that
(`parse_accepts_exactly`).
-/

set_option autoImplicit false

namespace StackScript

namespace Binding

/-! ## What is written -/

/-- A name that may stand in front of an equals sign. -/
structure IsName (n : String) : Prop where
  ne_empty : n ≠ ""
  no_equals : '=' ∉ n.toList
  trimmed : IsTrimmed n

/-- The text is NAME=VALUE, with white space around the name and around the value. -/
def Written (s : String) (b : Binding) : Prop :=
  ∃ w₁ w₂ w₃ d w₄ : String, IsBlank w₁ ∧ IsBlank w₂ ∧ IsBlank w₃ ∧ IsBlank w₄ ∧ IsName b.name ∧
    Numeral.Spells d.toList b.value.toInt ∧ s = w₁ ++ b.name ++ w₂ ++ "=" ++ w₃ ++ d ++ w₄

/-- What stands on the two sides of the first equals sign, without the white space around it. -/
def Sides (s left right : String) : Prop :=
  ('=' ∉ left.toList ∧ IsTrimmed left ∧ IsTrimmed right) ∧
    ∃ w₁ w₂ w₃ w₄ : String, IsBlank w₁ ∧ IsBlank w₂ ∧ IsBlank w₃ ∧ IsBlank w₄ ∧
      s = w₁ ++ left ++ w₂ ++ "=" ++ w₃ ++ right ++ w₄

variable {s left right n : String} {b : Binding}

/-! ## Sides -/

theorem splitEquals?_of_not_mem {cs : List Char} (h : '=' ∉ cs) : splitEquals? cs = none := by
  rw [splitEquals?, (Text.span_ne_of_not_mem h).2]

theorem splitEquals?_append {as : List Char} (h : '=' ∉ as) (bs : List Char) :
    splitEquals? (as ++ '=' :: bs) = some (as, bs) := by
  rw [splitEquals?, (Text.span_ne_append h bs).1, (Text.span_ne_append h bs).2]

theorem no_equals_of_isBlank {w : String} (h : IsBlank w) : '=' ∉ w.toList :=
  fun hm => absurd (h _ hm) (by decide)

theorem parse_of_no_equals (h : '=' ∉ s.toList) : parse s = .error (.noEquals s) := by
  rw [parse, splitEquals?_of_not_mem h]

theorem parse_of_sides (h : Sides s left right) :
    parse s =
      if left = "" then .error (.emptyName s)
      else
        match Word.read right with
        | .ok value => .ok ⟨left, value⟩
        | .error cause => .error (.invalidValue left cause) := by
  obtain ⟨⟨hl, hleft, hright⟩, w₁, w₂, w₃, w₄, hw₁, hw₂, hw₃, hw₄, rfl⟩ := h
  have hsplit : splitEquals? (w₁ ++ left ++ w₂ ++ "=" ++ w₃ ++ right ++ w₄).toList =
      some (w₁.toList ++ left.toList ++ w₂.toList, w₃.toList ++ right.toList ++ w₄.toList) := by
    have hbefore : '=' ∉ w₁.toList ++ left.toList ++ w₂.toList := by
      simp [no_equals_of_isBlank hw₁, no_equals_of_isBlank hw₂, hl]
    rw [← splitEquals?_append hbefore]
    simp
  have hname := trim_eq_iff.2 ⟨hleft, w₁, w₂, hw₁, hw₂, rfl⟩
  have hvalue := trim_eq_iff.2 ⟨hright, w₃, w₄, hw₃, hw₄, rfl⟩
  rw [parse, hsplit]
  dsimp only
  rewrite [hname, hvalue, String.ofList_toList, String.ofList_toList]
  rfl

theorem Sides.exists_right {w₁ w₂ : String} (hn : '=' ∉ left.toList) (hleft : IsTrimmed left)
    (hw₁ : IsBlank w₁) (hw₂ : IsBlank w₂) (rest : String) :
    ∃ right, Sides (w₁ ++ left ++ w₂ ++ "=" ++ rest) left right := by
  obtain ⟨w₃, right, w₄, hw₃, hright, hw₄, hrest⟩ := exists_isTrimmed rest.toList
  refine ⟨right, ⟨hn, hleft, hright⟩, w₁, w₂, w₃, w₄, hw₁, hw₂, hw₃, hw₄, ?_⟩
  rw [← String.toList_inj]
  simp [hrest]

theorem Sides.exists_of_mem (h : '=' ∈ s.toList) : ∃ left right, Sides s left right := by
  obtain ⟨before, after, hs, hn⟩ := (Text.split_cases '=' s.toList).resolve_left (not_not_intro h)
  obtain ⟨w₁, left, w₂, hw₁, hleft, hw₂, rfl⟩ := exists_isTrimmed before
  have hn' : '=' ∉ left.toList := fun hm => hn (by simp [hm])
  have heq : s = w₁ ++ left ++ w₂ ++ "=" ++ .ofList after := by
    rw [← String.toList_inj, hs]
    simp
  obtain ⟨right, hsides⟩ := exists_right hn' hleft hw₁ hw₂ (.ofList after)
  exact ⟨left, right, heq ▸ hsides⟩

/-! ## Bindings and errors -/

/-- No sign and no digit is white space. -/
theorem isTrimmed_of_spells {d : String} {v : Int} (h : Numeral.Spells d.toList v) :
    IsTrimmed d := by
  have hdigits {ds : List Char} (hd : Numeral.IsDigits ds) : ∀ c ∈ ds, Text.isSpace c = false :=
    fun c hc => isSpace_of_isDigit (Numeral.isDigit_iff.2 (hd.2 c hc))
  refine isTrimmed_of_forall ?_
  generalize d.toList = cs at h
  cases h with
  | unsigned hd => exact hdigits hd
  | plus hd => exact List.forall_mem_cons.2 ⟨by decide, hdigits hd⟩
  | minus hd => exact List.forall_mem_cons.2 ⟨by decide, hdigits hd⟩

theorem written_iff : Written s b ↔
    b.name ≠ "" ∧ ∃ right, Sides s b.name right ∧ Numeral.Spells right.toList b.value.toInt := by
  constructor
  · rintro ⟨w₁, w₂, w₃, d, w₄, hw₁, hw₂, hw₃, hw₄, hn, hd, rfl⟩
    exact ⟨hn.ne_empty, d, ⟨⟨hn.no_equals, hn.trimmed, isTrimmed_of_spells hd⟩, w₁, w₂, w₃, w₄, hw₁,
      hw₂, hw₃, hw₄, rfl⟩, hd⟩
  · rintro ⟨hne, d, ⟨⟨hn, hleft, -⟩, w₁, w₂, w₃, w₄, hw₁, hw₂, hw₃, hw₄, rfl⟩, hd⟩
    exact ⟨w₁, w₂, w₃, d, w₄, hw₁, hw₂, hw₃, hw₄, ⟨hne, hn, hleft⟩, hd, rfl⟩

theorem parse_eq_ok_iff : parse s = .ok b ↔ Written s b := by
  rw [written_iff]
  constructor
  · intro h
    have hmem : '=' ∈ s.toList := by
      by_contra hn
      rw [parse_of_no_equals hn] at h
      cases h
    obtain ⟨left, right, hs⟩ := Sides.exists_of_mem hmem
    rw [parse_of_sides hs] at h
    by_cases hne : left = ""
    · rw [if_pos hne] at h
      cases h
    · rw [if_neg hne] at h
      cases hr : Word.read right with
      | error cause =>
        rw [hr] at h
        cases h
      | ok value =>
        rw [hr] at h
        cases h
        exact ⟨hne, right, hs, Word.read_eq_ok_iff.1 hr⟩
  · rintro ⟨hne, right, hs, hd⟩
    rw [parse_of_sides hs, if_neg hne, Word.read_eq_ok_iff.2 hd]

theorem error_cases {e : BindingError} (h : parse s = .error e) :
    e = .noEquals s ∧ '=' ∉ s.toList ∨ ∃ left right, Sides s left right ∧
      (left = "" ∧ e = .emptyName s ∨ left ≠ "" ∧ ∃ cause, e = .invalidValue left cause) := by
  by_cases hmem : '=' ∈ s.toList
  · obtain ⟨left, right, hs⟩ := Sides.exists_of_mem hmem
    refine .inr ⟨left, right, hs, ?_⟩
    rw [parse_of_sides hs] at h
    by_cases hne : left = ""
    · rw [if_pos hne] at h
      exact .inl ⟨hne, (Except.error.inj h).symm⟩
    · rw [if_neg hne] at h
      cases hr : Word.read right with
      | ok value =>
        rw [hr] at h
        cases h
      | error cause =>
        rw [hr] at h
        exact .inr ⟨hne, cause, (Except.error.inj h).symm⟩
  · rw [parse_of_no_equals hmem] at h
    exact .inl ⟨(Except.error.inj h).symm, hmem⟩

theorem parse_eq_noEquals_iff {text : String} :
    parse s = .error (.noEquals text) ↔ text = s ∧ '=' ∉ s.toList := by
  constructor
  · intro h
    rcases error_cases h with ⟨⟨⟩, hn⟩ | ⟨_, _, _, ⟨_, ⟨⟩⟩ | ⟨_, _, ⟨⟩⟩⟩
    exact ⟨rfl, hn⟩
  · rintro ⟨rfl, hn⟩
    exact parse_of_no_equals hn

theorem parse_eq_emptyName_iff {text : String} : parse s = .error (.emptyName text) ↔
    text = s ∧ ∃ w rest : String, IsBlank w ∧ s = w ++ "=" ++ rest := by
  constructor
  · intro h
    rcases error_cases h with ⟨⟨⟩, _⟩ | ⟨_, right, hs, ⟨rfl, ⟨⟩⟩ | ⟨_, _, ⟨⟩⟩⟩
    obtain ⟨-, w₁, w₂, w₃, w₄, hw₁, hw₂, -, -, heq⟩ := hs
    refine ⟨rfl, w₁ ++ w₂, w₃ ++ right ++ w₄, IsBlank.append hw₁ hw₂, ?_⟩
    simpa [String.append_assoc] using heq
  · rintro ⟨rfl, w, rest, hw, rfl⟩
    have hempty : ∀ c ∈ "".toList, Text.isSpace c = false := List.forall_mem_nil _
    have hblank : IsBlank "" := List.forall_mem_nil _
    have hsides : ∃ right, Sides (w ++ "" ++ "" ++ "=" ++ rest) "" right :=
      Sides.exists_right (by decide) (isTrimmed_of_forall hempty) hw hblank rest
    rw [String.append_empty, String.append_empty] at hsides
    obtain ⟨right, hs⟩ := hsides
    rw [parse_of_sides hs, if_pos rfl]

theorem parse_eq_invalidValue_iff :
    (∃ cause, parse s = .error (.invalidValue n cause)) ↔
      (∃ w₁ w₂ rest : String, IsBlank w₁ ∧ IsBlank w₂ ∧ IsName n ∧
        s = w₁ ++ n ++ w₂ ++ "=" ++ rest) ∧ ∀ b, ¬ Written s b := by
  constructor
  · rintro ⟨cause, h⟩
    refine ⟨?_, fun b hb => by cases h.symm.trans (parse_eq_ok_iff.2 hb)⟩
    rcases error_cases h with ⟨⟨⟩, _⟩ | ⟨_, right, hs, ⟨_, ⟨⟩⟩ | ⟨hne, _, ⟨⟩⟩⟩
    obtain ⟨⟨hn, hleft, -⟩, w₁, w₂, w₃, w₄, hw₁, hw₂, -, -, heq⟩ := hs
    refine ⟨w₁, w₂, w₃ ++ right ++ w₄, hw₁, hw₂, ⟨hne, hn, hleft⟩, ?_⟩
    simpa [String.append_assoc] using heq
  · rintro ⟨⟨w₁, w₂, rest, hw₁, hw₂, hn, rfl⟩, hnone⟩
    obtain ⟨right, hs⟩ := Sides.exists_right hn.no_equals hn.trimmed hw₁ hw₂ rest
    have hparse := parse_of_sides hs
    rw [if_neg hn.ne_empty] at hparse
    cases hr : Word.read right with
    | ok value =>
      rw [hr] at hparse
      exact absurd (parse_eq_ok_iff.1 hparse) (hnone _)
    | error cause =>
      rw [hr] at hparse
      exact ⟨cause, hparse⟩

/-- A text is read as a binding if it is NAME=VALUE, with white space wherever it does not belong to
the name or the value. If it is not, it has no equals sign, or nothing but white space before the
first one, or a name there and no word behind it. -/
theorem parse_accepts_exactly (s : String) :
    (∀ b, parse s = .ok b ↔ ∃ w₁ w₂ w₃ d w₄ : String,
      IsBlank w₁ ∧ IsBlank w₂ ∧ IsBlank w₃ ∧ IsBlank w₄ ∧ IsName b.name ∧
        Numeral.Spells d.toList b.value.toInt ∧
        s = w₁ ++ b.name ++ w₂ ++ "=" ++ w₃ ++ d ++ w₄) ∧
    (∀ text, parse s = .error (.noEquals text) ↔ text = s ∧ '=' ∉ s.toList) ∧
    (∀ text, parse s = .error (.emptyName text) ↔
      text = s ∧ ∃ w rest : String, IsBlank w ∧ s = w ++ "=" ++ rest) ∧
    ∀ n, (∃ cause, parse s = .error (.invalidValue n cause)) ↔
      (∃ w₁ w₂ rest : String, IsBlank w₁ ∧ IsBlank w₂ ∧ IsName n ∧
        s = w₁ ++ n ++ w₂ ++ "=" ++ rest) ∧ ∀ b, parse s ≠ .ok b := by
  refine ⟨fun b => parse_eq_ok_iff, fun text => parse_eq_noEquals_iff,
    fun text => parse_eq_emptyName_iff, fun n => ?_⟩
  rw [parse_eq_invalidValue_iff]
  simp only [ne_eq, parse_eq_ok_iff]

/-- The value is read up to its end, so that a second equals sign spoils it. -/
example : (parse "a = b = 1").mapError BindingError.message =
    .error "invalid value for `a`: invalid digit found in string" := by
  decide +kernel

end Binding

end StackScript
