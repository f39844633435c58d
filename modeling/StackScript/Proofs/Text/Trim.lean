import Mathlib.Data.List.Basic
import Mathlib.Data.List.TakeWhile
import StackScript.Proofs.Text.Layout

/-!
# Trimmed texts

Every text is one that neither begins nor ends with white space, with white space on both of its
sides, and `trim` gives that one (`trim_eq_iff`).
-/

set_option autoImplicit false

namespace StackScript

/-- A text that neither begins nor ends with white space. -/
def IsTrimmed (s : String) : Prop :=
  (∀ c ∈ s.toList.head?, Text.isSpace c = false) ∧ ∀ c ∈ s.toList.getLast?, Text.isSpace c = false

theorem isTrimmed_of_forall {s : String} (h : ∀ c ∈ s.toList, Text.isSpace c = false) :
    IsTrimmed s :=
  ⟨fun c hc => h c (List.mem_of_mem_head? hc), fun c hc => h c (List.mem_of_mem_getLast? hc)⟩

theorem IsBlank.append {v w : String} (hv : IsBlank v) (hw : IsBlank w) : IsBlank (v ++ w) := by
  unfold IsBlank
  rw [String.toList_append]
  exact List.forall_mem_append.2 ⟨hv, hw⟩

namespace Text

variable {as cs : List Char}

theorem trimLeft_eq_iff : trimLeft cs = as ↔
    (∀ c ∈ as.head?, isSpace c = false) ∧ ∃ w, (∀ c ∈ w, isSpace c = true) ∧ cs = w ++ as := by
  constructor
  · rintro rfl
    refine ⟨fun c hc => ?_, cs.takeWhile isSpace, fun c => List.mem_takeWhile_imp,
      List.takeWhile_append_dropWhile.symm⟩
    have hnot := List.head?_dropWhile_not isSpace cs
    rw [← trimLeft, hc] at hnot
    simpa using hnot
  · rintro ⟨hhead, w, hw, rfl⟩
    rw [trimLeft, List.dropWhile_append_of_pos hw]
    cases as with
    | nil => rfl
    | cons c as => rw [List.dropWhile_cons_of_neg (by simp [hhead c rfl])]

theorem trimRight_eq_iff : trimRight cs = as ↔
    (∀ c ∈ as.getLast?, isSpace c = false) ∧ ∃ w, (∀ c ∈ w, isSpace c = true) ∧ cs = as ++ w := by
  have hreverse : trimRight cs = as ↔ trimLeft cs.reverse = as.reverse :=
    List.reverse_eq_iff
  rw [hreverse, trimLeft_eq_iff, List.head?_reverse]
  refine and_congr_right fun _ => ⟨?_, ?_⟩
  · rintro ⟨w, hw, h⟩
    refine ⟨w.reverse, fun c hc => hw c (List.mem_reverse.1 hc), ?_⟩
    rw [← List.reverse_reverse cs, h, List.reverse_append, List.reverse_reverse]
  · rintro ⟨w, hw, rfl⟩
    exact ⟨w.reverse, fun c hc => hw c (List.mem_reverse.1 hc), List.reverse_append⟩

end Text

theorem trim_eq_iff {cs : List Char} {s : String} : Text.trim cs = s.toList ↔
    IsTrimmed s ∧ ∃ w₁ w₂ : String, IsBlank w₁ ∧ IsBlank w₂ ∧
      cs = w₁.toList ++ s.toList ++ w₂.toList := by
  rw [Text.trim, Text.trimRight_eq_iff]
  constructor
  · rintro ⟨hlast, w₂, hw₂, h⟩
    obtain ⟨hhead, w₁, hw₁, rfl⟩ := Text.trimLeft_eq_iff.1 h
    refine ⟨⟨fun c hc => hhead c (List.mem_head?_append_of_mem_head? hc), hlast⟩, .ofList w₁,
      .ofList w₂, ?_, ?_, ?_⟩
    · simpa [IsBlank] using hw₁
    · simpa [IsBlank] using hw₂
    · simp
  · rintro ⟨⟨hhead, hlast⟩, w₁, w₂, hw₁, hw₂, rfl⟩
    refine ⟨hlast, ?_⟩
    by_cases hs : s.toList = []
    · -- a blank text has no last piece of white space
      refine ⟨[], List.forall_mem_nil _,
        Text.trimLeft_eq_iff.2 ⟨?_, w₁.toList ++ w₂.toList, ?_, ?_⟩⟩
      · simp [hs]
      · exact List.forall_mem_append.2 ⟨hw₁, hw₂⟩
      · simp [hs]
    · refine ⟨w₂.toList, hw₂, Text.trimLeft_eq_iff.2 ⟨fun c hc => hhead c ?_, w₁.toList, hw₁, ?_⟩⟩
      · rwa [List.head?_append_of_ne_nil _ hs] at hc
      · rw [List.append_assoc]

theorem exists_isTrimmed (cs : List Char) : ∃ w₁ s w₂ : String, IsBlank w₁ ∧ IsTrimmed s ∧
    IsBlank w₂ ∧ cs = w₁.toList ++ s.toList ++ w₂.toList := by
  have hs : Text.trim cs = (String.ofList (Text.trim cs)).toList := String.toList_ofList.symm
  obtain ⟨htrim, w₁, w₂, hw₁, hw₂, h⟩ := trim_eq_iff.1 hs
  exact ⟨w₁, _, w₂, hw₁, htrim, hw₂, h⟩

end StackScript
