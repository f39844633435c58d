import Mathlib.Data.List.TakeWhile
import StackScript.Text.Space

/-!
# Tokens with white space between them

A blank ends a word, so a text is cut at any of its blanks into the words on either side
(`words_append_space`). Everything about texts that are put together from tokens follows.

A `Layout` is a row of things with white space around them and some between any two. If each is
written as a token, these are the tokens of the whole text, whatever the white space is
(`Layout.tokenize_text`); single blanks are one choice (`tokenize_intercalate`).
-/

set_option autoImplicit false

namespace StackScript

/-- A text of white space. -/
def IsBlank (s : String) : Prop := ∀ c ∈ s.toList, Text.isSpace c = true

/-- A text that is one token. -/
def IsToken (s : String) : Prop := s ≠ "" ∧ ∀ c ∈ s.toList, Text.isSpace c = false

-- The instances name the check of the text's own characters: there is one of all characters too.
instance : DecidablePred IsBlank := fun s => List.decidableBAll _ s.toList

instance (s : String) : Decidable (IsToken s) :=
  @instDecidableAnd _ _ inferInstance (List.decidableBAll _ s.toList)

/-! ## Words -/

namespace Text

variable {c : Char} {cs : List Char}

theorem firstWord_append_space (h : isSpace c = true) (xs ys : List Char) :
    firstWord (xs ++ c :: ys) = firstWord xs := by
  induction xs with
  | nil => simp [firstWord, h]
  | cons x xs ih =>
    simp only [firstWord, List.cons_append, List.takeWhile_cons] at ih ⊢
    rw [ih]

theorem afterWord_append_space (h : isSpace c = true) (xs ys : List Char) :
    afterWord (xs ++ c :: ys) = afterWord xs ++ c :: ys := by
  induction xs with
  | nil => simp [afterWord, h]
  | cons x xs ih =>
    simp only [afterWord, List.cons_append, List.dropWhile_cons] at ih ⊢
    split
    · exact ih
    · rfl

/-- A blank keeps the words on its two sides apart. -/
theorem words_append_space (h : isSpace c = true) (xs ys : List Char) :
    words (xs ++ c :: ys) = words xs ++ words ys := by
  induction xs using words.induct with
  | case1 => rw [List.nil_append, words_space h, words_nil, List.nil_append]
  | case2 x xs hx ih => rw [List.cons_append, words_space hx, words_space hx, ih]
  | case3 x xs hx ih =>
    rw [Bool.not_eq_true] at hx
    rw [List.cons_append, words_cons hx, words_cons hx, firstWord_append_space h,
      afterWord_append_space h, ih, List.cons_append]

theorem words_of_token (hne : cs ≠ []) (h : ∀ c ∈ cs, isSpace c = false) : words cs = [cs] := by
  obtain ⟨c, cs, rfl⟩ := List.exists_cons_of_ne_nil hne
  rw [List.forall_mem_cons] at h
  have hp : ∀ a ∈ cs, (!isSpace a) = true := fun a ha => by rw [h.2 a ha]; rfl
  have hf : firstWord cs = cs := List.takeWhile_eq_self_iff.2 hp
  have ha : afterWord cs = [] := List.dropWhile_eq_nil_iff.2 hp
  rw [words_cons h.1, hf, ha, words_nil]

/-- Blanks in front do not count. -/
theorem words_blank_append (h : ∀ c ∈ cs, isSpace c = true) (ys : List Char) :
    words (cs ++ ys) = words ys := by
  induction cs with
  | nil => rfl
  | cons c cs ih =>
    rw [List.forall_mem_cons] at h
    rw [List.cons_append, words_space h.1, ih h.2]

theorem isSpace_of_mem_firstWord (h : c ∈ firstWord cs) : isSpace c = false := by
  have hc := List.mem_takeWhile_imp h
  simpa using hc

theorem mem_words {w : List Char} (h : w ∈ words cs) :
    w ≠ [] ∧ ∀ c ∈ w, isSpace c = false := by
  induction cs using words.induct with
  | case1 => simp at h
  | case2 c cs hc ih =>
    rw [words_space hc] at h
    exact ih h
  | case3 c cs hc ih =>
    rw [Bool.not_eq_true] at hc
    rw [words_cons hc, List.mem_cons] at h
    rcases h with rfl | h
    · exact ⟨List.cons_ne_nil _ _,
        List.forall_mem_cons.2 ⟨hc, fun a ha => isSpace_of_mem_firstWord ha⟩⟩
    · exact ih h

end Text

/-! ## Tokens -/

theorem isToken_of_mem_tokenize {source token : String} (h : token ∈ tokenize source) :
    IsToken token := by
  obtain ⟨w, hw, rfl⟩ := List.mem_map.1 h
  obtain ⟨hne, hs⟩ := Text.mem_words hw
  refine ⟨?_, ?_⟩
  · rwa [ne_eq, String.ofList_eq_empty_iff]
  · rwa [String.toList_ofList]

theorem words_toList {t : String} (h : IsToken t) : Text.words t.toList = [t.toList] :=
  Text.words_of_token (fun he => h.1 (String.toList_eq_nil_iff.1 he)) h.2

/-- A token ends at the blanks behind it, or at the end of the text. -/
theorem words_token_append {t gap : String} {rest : List Char} (ht : IsToken t)
    (hb : IsBlank gap) (hg : gap = "" → rest = []) :
    Text.words (t.toList ++ (gap.toList ++ rest)) = t.toList :: Text.words rest := by
  unfold IsBlank at hb
  cases hgap : gap.toList with
  | nil =>
    rw [hg (String.toList_eq_nil_iff.1 hgap)]
    simpa using words_toList ht
  | cons c cs =>
    rw [hgap, List.forall_mem_cons] at hb
    rw [List.cons_append, Text.words_append_space hb.1, words_toList ht,
      Text.words_blank_append hb.2]
    rfl

/-- White space keeps the tokens of the texts on its two sides apart. -/
theorem tokenize_append_blank {w : String} (hb : IsBlank w) (hw : w ≠ "") (s t : String) :
    tokenize (s ++ w ++ t) = tokenize s ++ tokenize t := by
  unfold IsBlank at hb
  obtain ⟨c, cs, hcs⟩ := List.exists_cons_of_ne_nil fun h => hw (String.toList_eq_nil_iff.1 h)
  rw [hcs, List.forall_mem_cons] at hb
  unfold tokenize
  rw [String.toList_append, String.toList_append, hcs, List.append_assoc, List.cons_append,
    Text.words_append_space hb.1, Text.words_blank_append hb.2, List.map_append]

/-- Single blanks keep tokens apart. -/
theorem tokenize_intercalate {tokens : List String} (h : ∀ t ∈ tokens, IsToken t) :
    tokenize (String.intercalate " " tokens) = tokens := by
  induction tokens with
  | nil => simp [tokenize]
  | cons t tokens ih =>
    rw [List.forall_mem_cons] at h
    have ht := words_toList h.1
    by_cases hne : tokens = []
    · subst hne
      simp [tokenize, ht]
    · have hs : (String.intercalate " " (t :: tokens)).toList =
          t.toList ++ ' ' :: (String.intercalate " " tokens).toList := by
        rw [String.intercalate_cons_of_ne_nil hne]
        simp
      have hi := ih h.2
      unfold tokenize at hi ⊢
      rw [hs, Text.words_append_space (by decide), ht, List.map_append, hi]
      simp

/-! ## Layouts -/

/-- A row of things with white space around them, and some between any two. -/
structure Layout (α : Type) where
  /-- The white space in front. -/
  lead : String
  /-- The things, each with the white space behind it. -/
  row : List (α × String)
  isBlank_lead : IsBlank lead
  isBlank_gap : ∀ p ∈ row, IsBlank p.2
  /-- There is a gap behind every thing but the last. -/
  gap_ne_empty : ∀ p ∈ row.dropLast, p.2 ≠ ""

namespace Layout

variable {α : Type}

def things (l : Layout α) : List α := l.row.map Prod.fst

/-- The text of a layout whose things are written in a given way. -/
def text (written : α → String) (l : Layout α) : String :=
  l.lead ++ String.join (l.row.map fun p => written p.1 ++ p.2)

theorem toList_text (written : α → String) (l : Layout α) :
    (l.text written).toList =
      l.lead.toList ++ l.row.flatMap fun p => (written p.1).toList ++ p.2.toList := by
  simp [text, String.toList_join, List.flatMap_map]

theorem words_row {written : α → String} {row : List (α × String)}
    (ht : ∀ p ∈ row, IsToken (written p.1)) (hb : ∀ p ∈ row, IsBlank p.2)
    (hg : ∀ p ∈ row.dropLast, p.2 ≠ "") :
    Text.words (row.flatMap fun p => (written p.1).toList ++ p.2.toList) =
      row.map fun p => (written p.1).toList := by
  induction row with
  | nil => exact Text.words_nil
  | cons p row ih =>
    rw [List.forall_mem_cons] at ht hb
    have hlast : p.2 = "" → row = [] := by
      intro he
      cases row with
      | nil => rfl
      | cons q row => exact absurd he (hg p List.mem_cons_self)
    have hrest : ∀ q ∈ row.dropLast, q.2 ≠ "" := by
      intro q hq
      cases row with
      | nil => cases hq
      | cons r row => exact hg q (List.mem_cons_of_mem p hq)
    rw [List.flatMap_cons, List.map_cons, List.append_assoc,
      words_token_append ht.1 hb.1 fun he => by rw [hlast he]; rfl, ih ht.2 hb.2 hrest]

/-- The tokens of a layout are its things, as they are written. -/
theorem tokenize_text {written : α → String} (l : Layout α)
    (h : ∀ a ∈ l.things, IsToken (written a)) :
    tokenize (l.text written) = l.things.map written := by
  have ht : ∀ p ∈ l.row, IsToken (written p.1) := fun p hp => h _ (List.mem_map_of_mem hp)
  unfold tokenize
  rw [toList_text, Text.words_blank_append l.isBlank_lead,
    words_row ht l.isBlank_gap l.gap_ne_empty, things, List.map_map, List.map_map]
  congr 1
  funext p
  exact String.ofList_toList

end Layout

end StackScript
