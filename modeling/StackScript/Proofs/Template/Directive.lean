import StackScript.Proofs.Text.Split
import StackScript.Template.Directive

/-!
# What a directive is

The items of a template are well formed when a plain character is no percent sign and the name of a
field is a nonempty text without a closing bracket (`Item.WellFormed`). Reading a directive finds
exactly the well-formed item that is written there, with the text behind it (`read_eq_ok_iff`).
-/

set_option autoImplicit false

namespace StackScript

/-- An item that can be read back from the way it is written. -/
def Item.WellFormed : Item → Prop
  | char c => c ≠ '%'
  | percent => True
  | field name => name ≠ "" ∧ '>' ∉ name.toList

instance : DecidablePred Item.WellFormed
  | .char c => inferInstanceAs (Decidable (c ≠ '%'))
  | .percent => inferInstanceAs (Decidable True)
  | .field name => inferInstanceAs (Decidable (name ≠ "" ∧ '>' ∉ name.toList))

namespace Directive

variable {cs rest name after : List Char} {i : Item}

/-! ## Fields -/

theorem readField_unterminated (h : '>' ∉ cs) : readField cs = .error .unterminated := by
  obtain ⟨ht, hd⟩ := Text.span_ne_of_not_mem h
  unfold readField
  rw [ht, hd]

theorem readField_emptyName (rest : List Char) : readField ('>' :: rest) = .error .emptyName := rfl

theorem readField_named (hne : name ≠ []) (hn : '>' ∉ name) (rest : List Char) :
    readField (name ++ '>' :: 'd' :: rest) = .ok (.field (String.ofList name), rest) := by
  obtain ⟨c, cs, rfl⟩ := List.exists_cons_of_ne_nil hne
  obtain ⟨ht, hd⟩ := Text.span_ne_append hn ('d' :: rest)
  unfold readField
  rw [ht, hd]
  rfl

theorem readField_noConversion (hne : name ≠ []) (hn : '>' ∉ name)
    (hd : ∀ rest, after ≠ 'd' :: rest) :
    readField (name ++ '>' :: after) = .error .noConversion := by
  obtain ⟨c, cs, rfl⟩ := List.exists_cons_of_ne_nil hne
  obtain ⟨ht, hw⟩ := Text.span_ne_append hn after
  unfold readField
  rw [ht, hw]
  split
  · cases ‹_ :: _ = []›
  · cases ‹_ :: _ = []›
  · rename_i heq
    cases heq
    split
    · exact absurd rfl (hd _)
    · rfl

theorem readField_eq_ok_iff :
    readField cs = .ok (i, rest) ↔
      ∃ name, (name ≠ [] ∧ '>' ∉ name) ∧ cs = name ++ '>' :: 'd' :: rest ∧
        i = .field (String.ofList name) := by
  constructor
  · intro h
    rcases Text.split_cases '>' cs with hm | ⟨name, after, rfl, hn⟩
    · rw [readField_unterminated hm] at h
      cases h
    · by_cases hne : name = []
      · subst hne
        rw [List.nil_append, readField_emptyName] at h
        cases h
      · by_cases hd : ∃ rest, after = 'd' :: rest
        · obtain ⟨rest, rfl⟩ := hd
          rw [readField_named hne hn] at h
          cases h
          exact ⟨name, ⟨hne, hn⟩, rfl, rfl⟩
        · rw [readField_noConversion hne hn (not_exists.1 hd)] at h
          cases h
  · rintro ⟨name, ⟨hne, hn⟩, rfl, rfl⟩
    exact readField_named hne hn rest

/-! ## Directives -/

/-- Reading after a percent sign finds the well-formed item that begins with that sign. -/
theorem read_eq_ok_iff :
    read cs = .ok (i, rest) ↔ i.WellFormed ∧ '%' :: cs = i.written ++ rest := by
  constructor
  · intro h
    unfold read at h
    split at h
    · cases h
      exact ⟨trivial, rfl⟩
    · obtain ⟨name, ⟨hne, hn⟩, rfl, rfl⟩ := readField_eq_ok_iff.1 h
      refine ⟨⟨?_, ?_⟩, ?_⟩
      · rwa [ne_eq, String.ofList_eq_empty_iff]
      · rwa [String.toList_ofList]
      · simp [Item.written]
    · cases h
  · rintro ⟨hi, h⟩
    cases i with
    | char c => exact absurd (List.cons.inj h).1.symm hi
    | percent =>
      cases h
      rfl
    | field name =>
      have hne : name.toList ≠ [] := fun h => hi.1 (String.toList_eq_nil_iff.1 h)
      have hcs : cs = '<' :: (name.toList ++ '>' :: 'd' :: rest) := by
        simpa [Item.written] using h
      subst hcs
      show readField _ = _
      rw [readField_named hne hi.2, String.ofList_toList]

end Directive

end StackScript
