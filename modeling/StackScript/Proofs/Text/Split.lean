import Mathlib.Data.List.TakeWhile
import StackScript.Text.Bytes

/-!
# Texts cut in pieces

A text in which a character stands is split at the first such character by `takeWhile` and
`dropWhile` (`span_ne_append`); every text has the character or has it not (`split_cases`).

A text without line breaks of its own is a line of any text in which a line feed stands behind it
(`splitLines_line`). So lines that are written one after another are the lines that are read
(`lines_outputLines`): none is lost and none is joined to another.
-/

set_option autoImplicit false

namespace StackScript

/-- A text without line feeds and carriage returns. -/
def IsLine (s : String) : Prop := '\n' ∉ s.toList ∧ '\r' ∉ s.toList

namespace Text

/-! ## At a character -/

variable {c : Char} {as bs cs : List Char}

theorem span_ne_of_not_mem (h : c ∉ cs) :
    cs.takeWhile (· != c) = cs ∧ cs.dropWhile (· != c) = [] := by
  have hp : ∀ a ∈ cs, (a != c) = true := fun a ha => bne_iff_ne.2 fun he => h (he ▸ ha)
  exact ⟨List.takeWhile_eq_self_iff.2 hp, List.dropWhile_eq_nil_iff.2 hp⟩

theorem span_ne_append (h : c ∉ as) (bs : List Char) :
    (as ++ c :: bs).takeWhile (· != c) = as ∧ (as ++ c :: bs).dropWhile (· != c) = c :: bs := by
  have hp : ∀ a ∈ as, (a != c) = true := fun a ha => bne_iff_ne.2 fun he => h (he ▸ ha)
  rw [List.takeWhile_append_of_pos hp, List.dropWhile_append_of_pos hp]
  simp

/-- Either the character does not stand in the text, or there is a first one. -/
theorem split_cases (c : Char) (cs : List Char) :
    c ∉ cs ∨ ∃ as bs, cs = as ++ c :: bs ∧ c ∉ as := by
  by_cases h : c ∈ cs
  · obtain ⟨as, bs, rfl, hn⟩ := List.eq_append_cons_of_mem h
    exact .inr ⟨as, bs, rfl, hn⟩
  · exact .inl h

/-! ## At line breaks -/

theorem splitLines_line {l : List Char} (hn : '\n' ∉ l) (hr : '\r' ∉ l) (rest : List Char) :
    splitLines (l ++ '\n' :: rest) = l :: splitLines rest := by
  induction l with
  | nil => rfl
  | cons c l ih =>
    rw [List.mem_cons, not_or] at hn hr
    rw [List.cons_append, splitLines, ih hn.2 hr.2]
    · exact fun h => hn.1 h.symm
    · exact fun _ h => absurd h.symm hr.1

/-- The output of lines, as a text. -/
theorem flatMap_outputLine (ls : List String) :
    ls.flatMap outputLine = encode (String.join (ls.map (· ++ "\n"))) := by
  induction ls with
  | nil => rfl
  | cons l ls ih => rw [List.flatMap_cons, ih, List.map_cons, String.join_cons, encode_append]; rfl

theorem splitLines_join {ls : List String} (h : ∀ l ∈ ls, IsLine l) :
    splitLines (String.join (ls.map (· ++ "\n"))).toList = ls.map String.toList := by
  induction ls with
  | nil => rfl
  | cons l ls ih =>
    rw [List.forall_mem_cons] at h
    have hl := splitLines_line h.1.1 h.1.2 (String.join (ls.map (· ++ "\n"))).toList
    rw [ih h.2] at hl
    simpa using hl

/-- The lines that are read are those that were written. -/
theorem lines_outputLines {ls : List String} (h : ∀ l ∈ ls, IsLine l) :
    lines (decodeFront (ls.flatMap outputLine)) = ls := by
  rw [flatMap_outputLine, decodeFront_encode, lines, splitLines_join h, List.map_map]
  simp

end Text

end StackScript
