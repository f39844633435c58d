import StackScript.Proofs.Template.Grammar

/-!
# Malformed directives

What is reported of a template that cannot be read is where its first malformed directive stands and
why it is none. A directive goes on behind its percent sign with another one, or with a name in
brackets and a `d` (`Directive.Begins`); if it does neither, exactly one of the four reasons applies
to the text there (`Directive.read_eq_error_iff`). The offset is the size of the front of the text,
which is a template itself, and reading gets there in steps of the widths of its items
(`utf8ByteSize_writtenRow`). So the report and the place where the text breaks determine each other
(`malformed_exact`).
-/

set_option autoImplicit false

namespace StackScript

/-! ## Reasons -/

namespace Directive

/-- A percent sign, or a name in brackets and a `d`, stands at the front of a text. -/
inductive Begins : List Char → Prop
  | percent (rest : List Char) : Begins ('%' :: rest)
  | field {name : List Char} (hne : name ≠ []) (hn : '>' ∉ name) (rest : List Char) :
      Begins ('<' :: (name ++ '>' :: 'd' :: rest))

/-- What is wrong with the text behind a percent sign. -/
def Reason.Applies : Reason → List Char → Prop
  | noDirective, cs => ∀ body, cs ≠ '<' :: body
  | unterminated, cs => ∃ body, cs = '<' :: body ∧ '>' ∉ body
  | emptyName, cs => ∃ rest, cs = '<' :: '>' :: rest
  | noConversion, cs => ∃ name after, (name ≠ [] ∧ '>' ∉ name) ∧
      cs = '<' :: (name ++ '>' :: after) ∧ ∀ rest, after ≠ 'd' :: rest

variable {cs : List Char} {reason : Reason}

theorem read_of_begins (h : Begins cs) : ∃ p, read cs = .ok p := by
  cases h with
  | percent rest => exact ⟨_, rfl⟩
  | field hne hn rest => exact ⟨_, readField_named hne hn rest⟩

theorem begins_or_applies (cs : List Char) : Begins cs ∨ ∃ reason : Reason, reason.Applies cs := by
  by_cases hc : ∃ body, cs = '<' :: body
  · obtain ⟨body, rfl⟩ := hc
    rcases Text.split_cases '>' body with hm | ⟨name, after, rfl, hn⟩
    · exact .inr ⟨.unterminated, body, rfl, hm⟩
    · by_cases hne : name = []
      · subst hne
        exact .inr ⟨.emptyName, after, rfl⟩
      · by_cases hd : ∃ rest, after = 'd' :: rest
        · obtain ⟨rest, rfl⟩ := hd
          exact .inl (.field hne hn rest)
        · exact .inr ⟨.noConversion, name, after, ⟨hne, hn⟩, rfl, not_exists.1 hd⟩
  · exact .inr ⟨.noDirective, not_exists.1 hc⟩

theorem read_of_applies (hb : ¬ Begins cs) (h : reason.Applies cs) : read cs = .error reason := by
  cases reason with
  | noDirective =>
    unfold read
    split
    · exact absurd (.percent _) hb
    · exact absurd rfl (h _)
    · rfl
  | unterminated =>
    obtain ⟨body, rfl, hm⟩ := h
    exact readField_unterminated hm
  | emptyName =>
    obtain ⟨rest, rfl⟩ := h
    exact readField_emptyName rest
  | noConversion =>
    obtain ⟨name, after, ⟨hne, hn⟩, rfl, hd⟩ := h
    exact readField_noConversion hne hn hd

/-- What cannot be read is no directive, for the one reason that applies. -/
theorem read_eq_error_iff : read cs = .error reason ↔ ¬ Begins cs ∧ reason.Applies cs := by
  constructor
  · intro h
    have hb : ¬ Begins cs := by
      intro hb
      obtain ⟨p, hp⟩ := read_of_begins hb
      rw [hp] at h
      cases h
    obtain ⟨reason', ha⟩ := (begins_or_applies cs).resolve_left hb
    rw [read_of_applies hb ha] at h
    cases h
    exact ⟨hb, ha⟩
  · rintro ⟨hb, ha⟩
    exact read_of_applies hb ha

end Directive

/-! ## Where a text breaks -/

namespace Template

/-- A text is a template up to a percent sign behind which no directive goes on. -/
structure BreaksAt (text front rest : String) : Prop where
  text : text = front ++ "%" ++ rest
  front : ∃ names, (parse front).placeholders = .ok names
  rest : ¬ Directive.Begins rest.toList

end Template

/-- The report of a malformed directive gives its place, which reading reaches item by item, and
the one reason that applies. -/
structure Malformed.Pinpoints (m : Malformed) (front rest : String) : Prop where
  offset : m.offset = front.utf8ByteSize
  steps : m.offset = ((Template.parse front).items.map Item.width).sum
  reason : ∀ reason, m.reason = reason ↔ reason.Applies rest.toList

namespace Template

variable {text front rest : String} {is : List Item} {reason : Directive.Reason} {m : Malformed}

theorem parse_malformed (his : ∀ i ∈ is, i.WellFormed)
    (h : Directive.read rest.toList = .error reason) :
    parse (Item.writtenRow is ++ "%" ++ rest) =
      ⟨is, some ⟨(is.map Item.width).sum, reason⟩⟩ := by
  refine parse_eq_iff.2 ⟨his, '%' :: rest.toList, ?_, .directive h⟩
  simp [Item.writtenRow]

theorem placeholders_eq_error_iff {t : Template} :
    t.placeholders = .error m ↔ t.malformed? = some m := by
  unfold placeholders
  cases t.malformed? <;> simp

/-- Where a text breaks, its first malformed directive is reported. -/
theorem BreaksAt.pinpoints (h : BreaksAt text front rest) :
    ∃ m, (parse text).placeholders = .error m ∧ m.Pinpoints front rest := by
  obtain ⟨rfl, ⟨names, hnames⟩, hb⟩ := h
  obtain ⟨is, his, rfl, -⟩ := (placeholders_parse_eq_ok_iff front names).1 hnames
  obtain ⟨reason, ha⟩ := (Directive.begins_or_applies rest.toList).resolve_left hb
  have hr : Directive.read rest.toList = .error reason := Directive.read_of_applies hb ha
  refine ⟨⟨(is.map Item.width).sum, reason⟩, ?_, ?_, ?_, fun reason' => ?_⟩
  · rw [parse_malformed his hr]
    rfl
  · exact (Item.utf8ByteSize_writtenRow is).symm
  · rw [parse_writtenRow his]
  · constructor
    · rintro rfl
      exact ha
    · intro ha'
      rw [Directive.read_of_applies hb ha'] at hr
      cases hr
      rfl

/-- A text that is no template breaks somewhere. -/
theorem exists_breaksAt (h : (parse text).placeholders = .error m) :
    ∃ front rest, BreaksAt text front rest := by
  obtain ⟨his, unread, hcs, hu⟩ := parse_sound text
  rw [placeholders_eq_error_iff.1 h] at hu
  cases hu with
  | directive hr =>
    rename_i reason cs
    refine ⟨Item.writtenRow (parse text).items, String.ofList cs, ?_, ?_, ?_⟩
    · apply String.toList_injective
      simpa [Item.writtenRow] using hcs
    · exact ⟨_, (placeholders_parse_eq_ok_iff _ _).2 ⟨_, his, rfl, rfl⟩⟩
    · rw [String.toList_ofList]
      exact (Directive.read_eq_error_iff.1 hr).1

/-- A text fails to be a template exactly if it breaks somewhere, and what is reported then is where
that is, in bytes, and what is wrong there. -/
theorem malformed_exact (text : String) :
    (∀ m, (parse text).placeholders = .error m →
      ∃ front rest, BreaksAt text front rest ∧ m.Pinpoints front rest) ∧
    ∀ front rest, BreaksAt text front rest →
      ∃ m, (parse text).placeholders = .error m ∧ m.Pinpoints front rest := by
  refine ⟨fun m hm => ?_, fun front rest h => h.pinpoints⟩
  obtain ⟨front, rest, h⟩ := exists_breaksAt hm
  obtain ⟨m', hm', hp⟩ := h.pinpoints
  rw [hm] at hm'
  cases hm'
  exact ⟨front, rest, h, hp⟩

/-- Percent signs in the names, a directive written twice over, letters of more than one byte, and a
directive behind the malformed one that could be read. -/
theorem malformed_exact_noConversion :
    let text := "→%%%<%é>d%%%<ü%>s%<a>d"
    let front := "→%%%<%é>d%%"
    let rest := "<ü%>s%<a>d"
    let m : Malformed := ⟨14, .noConversion⟩
    BreaksAt text front rest ∧ (parse text).placeholders = .error m ∧ m.Pinpoints front rest ∧
      m.message = "malformed template at byte 14: placeholder must use the `d` conversion" := by
  intro text front rest m
  have hfront : ∃ names, (parse front).placeholders = .ok names :=
    ⟨_, (placeholders_parse_eq_ok_iff front _).2
      ⟨[.char '→', .percent, .field "%é", .percent], by decide, by decide, rfl⟩⟩
  have ha : Directive.Reason.noConversion.Applies rest.toList :=
    ⟨"ü%".toList, "s%<a>d".toList, by decide, by decide, by simp⟩
  have hread : Directive.read rest.toList = .error .noConversion := by decide
  have hrest : ¬ Directive.Begins rest.toList := (Directive.read_eq_error_iff.1 hread).1
  have hbreaks : BreaksAt text front rest := ⟨by decide, hfront, hrest⟩
  obtain ⟨m', hm', hp⟩ := (malformed_exact text).2 front rest hbreaks
  have hm : m' = m := by
    obtain ⟨offset, reason⟩ := m'
    obtain rfl : offset = 14 := hp.offset
    obtain rfl : reason = .noConversion := (hp.reason _).2 ha
    rfl
  subst hm
  exact ⟨hbreaks, hm', hp, by decide⟩

end Template

end StackScript
