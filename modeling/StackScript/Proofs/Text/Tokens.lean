import StackScript.Proofs.Text.Trim

/-!
# The tokens of a text

Every text is a layout of tokens: white space in front, then tokens with white space behind each, and
some between any two (`exists_layout`). There is only one row of tokens of which it is a layout, its
own (`tokenize_exact`).
-/

set_option autoImplicit false

namespace StackScript

/-! ## Building layouts -/

namespace Layout

variable {α : Type}

/-- Nothing but white space. -/
def blank (w : String) (h : IsBlank w) : Layout α where
  lead := w
  row := []
  isBlank_lead := h
  isBlank_gap := List.forall_mem_nil _
  gap_ne_empty := List.forall_mem_nil _

/-- A layout with more white space in front. -/
def indent (w : String) (h : IsBlank w) (l : Layout α) : Layout α where
  lead := w ++ l.lead
  row := l.row
  isBlank_lead := h.append l.isBlank_lead
  isBlank_gap := l.isBlank_gap
  gap_ne_empty := l.gap_ne_empty

/-- A thing in front of a layout. White space has to stand between it and the next. -/
def cons (a : α) (l : Layout α) (h : l.lead = "" → l.row = []) : Layout α where
  lead := ""
  row := (a, l.lead) :: l.row
  isBlank_lead := List.forall_mem_nil _
  isBlank_gap := List.forall_mem_cons.2 ⟨l.isBlank_lead, l.isBlank_gap⟩
  gap_ne_empty := by
    cases hrow : l.row with
    | nil => exact List.forall_mem_nil _
    | cons p row =>
      have hgap := l.gap_ne_empty
      rw [hrow] at hgap
      exact List.forall_mem_cons.2 ⟨fun he => by simp [hrow] at h; exact h he, hgap⟩

variable {written : α → String} {l : Layout α}

@[simp] theorem things_blank (w : String) (h : IsBlank w) : (blank w h : Layout α).things = [] := rfl

@[simp] theorem things_indent (w : String) (h : IsBlank w) : (l.indent w h).things = l.things := rfl

@[simp] theorem things_cons (a : α) (h : l.lead = "" → l.row = []) :
    (cons a l h).things = a :: l.things := rfl

theorem text_blank (w : String) (h : IsBlank w) : (blank w h).text written = w := by
  simp [text, blank]

theorem text_indent (w : String) (h : IsBlank w) :
    (l.indent w h).text written = w ++ l.text written := by
  simp [text, indent, String.append_assoc]

theorem text_cons (a : α) (h : l.lead = "" → l.row = []) :
    (cons a l h).text written = written a ++ l.text written := by
  simp [text, cons, String.append_assoc]

/-- A layout of tokens begins with a character of its first token, if no white space is in front. -/
theorem row_eq_nil {l : Layout String} (hl : l.lead = "") (ht : ∀ t ∈ l.things, IsToken t)
    (hs : ∀ c ∈ (l.text id).toList.head?, Text.isSpace c = true) : l.row = [] := by
  cases hrow : l.row with
  | nil => rfl
  | cons p row =>
    obtain ⟨hne, htoken⟩ := ht p.1 (by simp [things, hrow])
    obtain ⟨c, cs, hcs⟩ := List.exists_cons_of_ne_nil fun h => hne (String.toList_eq_nil_iff.1 h)
    have hhead : (l.text id).toList.head? = some c := by simp [toList_text, hl, hrow, hcs]
    have hspace := hs c hhead
    rw [htoken c (by simp [hcs])] at hspace
    cases hspace

end Layout

/-! ## Every text is a layout -/

theorem exists_layout_chars (cs : List Char) :
    ∃ l : Layout String, (l.text id).toList = cs ∧ ∀ t ∈ l.things, IsToken t := by
  induction cs using Text.words.induct with
  | case1 =>
    have hb : IsBlank "" := List.forall_mem_nil _
    exact ⟨.blank "" hb, by simp [Layout.text_blank], by simp⟩
  | case2 c cs hc ih =>
    obtain ⟨l, hl, ht⟩ := ih
    have hb : IsBlank (.ofList [c]) := by simp [IsBlank, hc]
    exact ⟨l.indent _ hb, by simp [Layout.text_indent, hl], by simpa using ht⟩
  | case3 c cs hc ih =>
    obtain ⟨l, hl, ht⟩ := ih
    rw [Bool.not_eq_true] at hc
    -- what follows the word begins with white space, if it is not empty
    have hnot := List.head?_dropWhile_not (fun c => !Text.isSpace c) cs
    have hs : ∀ c ∈ (l.text id).toList.head?, Text.isSpace c = true := by
      intro d hd
      rw [hl, Text.afterWord] at hd
      rw [hd] at hnot
      simpa using hnot
    have htoken : IsToken (.ofList (c :: Text.firstWord cs)) := by
      refine ⟨by simp, ?_⟩
      rw [String.toList_ofList]
      exact List.forall_mem_cons.2 ⟨hc, fun d => Text.isSpace_of_mem_firstWord⟩
    refine ⟨.cons (.ofList (c :: Text.firstWord cs)) l fun he => Layout.row_eq_nil he ht hs, ?_, ?_⟩
    · simp [Layout.text_cons, hl, Text.firstWord_append_afterWord]
    · rw [Layout.things_cons]
      exact List.forall_mem_cons.2 ⟨htoken, ht⟩

theorem exists_layout (s : String) :
    ∃ l : Layout String, l.text id = s ∧ ∀ t ∈ l.things, IsToken t := by
  obtain ⟨l, hl, ht⟩ := exists_layout_chars s.toList
  exact ⟨l, String.toList_inj.1 hl, ht⟩

theorem tokenize_eq_iff {s : String} {tokens : List String} : tokenize s = tokens ↔
    ∃ l : Layout String, l.things = tokens ∧ (∀ t ∈ tokens, IsToken t) ∧ l.text id = s := by
  constructor
  · intro h
    obtain ⟨l, hl, ht⟩ := exists_layout s
    have hthings : tokenize (l.text id) = l.things.map id := l.tokenize_text ht
    rw [hl, h, List.map_id] at hthings
    exact ⟨l, hthings.symm, hthings ▸ ht, hl⟩
  · intro h
    obtain ⟨l, rfl, ht, rfl⟩ := h
    have hthings : tokenize (l.text id) = l.things.map id := l.tokenize_text ht
    rw [hthings, List.map_id]

/-! ## What the tokens keep -/

theorem flatten_words (cs : List Char) :
    (Text.words cs).flatten = cs.filter fun c => !Text.isSpace c := by
  induction cs using Text.words.induct with
  | case1 => simp
  | case2 c cs hc ih => rw [Text.words_space hc, ih, List.filter_cons_of_neg (by simp [hc])]
  | case3 c cs hc ih =>
    rw [Bool.not_eq_true] at hc
    have hword : (Text.firstWord cs).filter (fun c => !Text.isSpace c) = Text.firstWord cs :=
      List.filter_eq_self.2 fun d hd => by simp [Text.isSpace_of_mem_firstWord hd]
    have hcs : cs.filter (fun c => !Text.isSpace c) =
        Text.firstWord cs ++ (Text.afterWord cs).filter (fun c => !Text.isSpace c) := by
      have happend := congrArg (List.filter fun c => !Text.isSpace c)
        (Text.firstWord_append_afterWord cs)
      rw [List.filter_append, hword] at happend
      exact happend.symm
    rw [Text.words_cons hc, List.flatten_cons, ih, List.filter_cons_of_pos (by simp [hc]), hcs,
      List.cons_append]

theorem flatMap_tokenize (s : String) :
    (tokenize s).flatMap String.toList = s.toList.filter fun c => !Text.isSpace c := by
  rw [← flatten_words, tokenize, List.flatMap_map]
  simp [List.flatMap]

/-- White space is told by its number. -/
theorem isSpace_iff_toNat (c : Char) : Text.isSpace c = true ↔
    0x9 ≤ c.toNat ∧ c.toNat ≤ 0xD ∨ c.toNat ∈ [0x20, 0x85, 0xA0, 0x1680] ∨
      0x2000 ≤ c.toNat ∧ c.toNat ≤ 0x200A ∨
      c.toNat ∈ [0x2028, 0x2029, 0x202F, 0x205F, 0x3000] := by
  simp [Text.isSpace, Text.whiteSpace]
  omega

/-- A text is a layout of its tokens and of no other row of tokens. White space keeps the tokens of
the texts on its two sides apart. The tokens one behind the other are the text without its white
space. White space is the characters of the numbers below; the four separators of information, the
space of no width and the byte order mark are none. -/
theorem tokenize_exact :
    (∀ (s : String) (tokens : List String), tokenize s = tokens ↔
      ∃ l : Layout String, l.things = tokens ∧ (∀ t ∈ tokens, IsToken t) ∧ l.text id = s) ∧
    (∀ a w b : String, IsBlank w → w ≠ "" →
      tokenize (a ++ w ++ b) = tokenize a ++ tokenize b) ∧
    (∀ s : String, (tokenize s).flatMap String.toList =
      s.toList.filter fun c => !Text.isSpace c) ∧
    (∀ c : Char, Text.isSpace c = true ↔
      0x9 ≤ c.toNat ∧ c.toNat ≤ 0xD ∨ c.toNat ∈ [0x20, 0x85, 0xA0, 0x1680] ∨
        0x2000 ≤ c.toNat ∧ c.toNat ≤ 0x200A ∨
        c.toNat ∈ [0x2028, 0x2029, 0x202F, 0x205F, 0x3000]) ∧
    ∀ c ∈ ['\x1C', '\x1D', '\x1E', '\x1F', '\u200B', '\uFEFF'], Text.isSpace c = false :=
  ⟨fun _ _ => tokenize_eq_iff, fun a _ b hb hw => tokenize_append_blank hb hw a b,
    flatMap_tokenize, isSpace_iff_toNat, by simp [Text.isSpace, Text.whiteSpace]⟩

/-- Blanks of several widths around two tokens, of which one begins with a space of no width and the
other ends with a separator. -/
theorem tokenize_exact_widths :
    let s := "\u00A0\u200B7\u3000 PRINT\x1C\u2028"
    tokenize s = ["\u200B7", "PRINT\x1C"] ∧ (IsBlank "\u0085\r\n" ∧ "\u0085\r\n" ≠ "") ∧
      tokenize (s ++ "\u0085\r\n" ++ "\uFEFF") = ["\u200B7", "PRINT\x1C", "\uFEFF"] ∧
      Text.isSpace '\u200B' = false := by
  intro s
  let l : Layout String :=
    { lead := "\u00A0"
      row := [("\u200B7", "\u3000 "), ("PRINT\x1C", "\u2028")]
      isBlank_lead := by decide
      isBlank_gap := by decide
      gap_ne_empty := by decide }
  have hs : tokenize s = ["\u200B7", "PRINT\x1C"] :=
    (tokenize_exact.1 s _).2 ⟨l, rfl, by decide, by decide⟩
  have hmark : tokenize "\uFEFF" = ["\uFEFF"] :=
    (tokenize_exact.1 "\uFEFF" _).2 ⟨.cons "\uFEFF" (.blank "" (List.forall_mem_nil _)) fun _ => rfl,
      rfl, by decide, by decide⟩
  have hw : IsBlank "\u0085\r\n" := by decide
  have happend := tokenize_exact.2.1 s "\u0085\r\n" "\uFEFF" hw (by decide)
  rw [hs, hmark] at happend
  exact ⟨hs, ⟨hw, by decide⟩, happend, tokenize_exact.2.2.2.2 _ (by decide)⟩

end StackScript
