import StackScript.Code
import StackScript.Proofs.Numeral
import StackScript.Proofs.Text.Layout

/-!
# Printing code and reading it back

A command is read from its text and from no other (`classify_eq_ok_iff`), and its text is one token
(`Command.isToken_text`). So the text of a code, its commands and its bad token with blanks between
them, reads as the code again, and commands are read back whatever white space stands between them
(`Code.ofSource_exact`). What the tokens of a source are when it reads as a code is `Code.Spelt`: the
texts of its commands come first.
-/

set_option autoImplicit false

namespace StackScript

variable {token : String} {value : Word} {command : Command}

/-! ## Tokens of commands -/

theorem literal?_eq_some_iff : literal? token = some value ↔ value.text = token := by
  unfold literal?
  constructor
  · intro h
    split at h
    · split at h
      · cases h
        assumption
      · cases h
    · cases h
  · rintro rfl
    simp [Word.read_text]

theorem literal?_keyword (opcode : Opcode) : literal? opcode.keyword = none := by
  cases opcode <;> rfl

/-- A command is read from its own text alone. -/
theorem classify_eq_ok_iff : classify token = .ok command ↔ command.text = token := by
  constructor
  · intro h
    unfold classify at h
    split at h
    · cases h
      exact literal?_eq_some_iff.1 ‹_›
    · split at h
      · cases h
        exact Opcode.ofKeyword?_eq_some_iff.1 ‹_›
      · cases h
  · rintro rfl
    cases command with
    | literal value =>
      have hl : literal? value.text = some value := literal?_eq_some_iff.2 rfl
      simp only [classify, Command.text, hl]
    | op opcode =>
      have hk : Opcode.ofKeyword? opcode.keyword = some opcode :=
        Opcode.ofKeyword?_eq_some_iff.2 rfl
      simp only [classify, Command.text, literal?_keyword, hk]

theorem classify_text (command : Command) : classify command.text = .ok command :=
  classify_eq_ok_iff.2 rfl

theorem Command.text_injective {c d : Command} (h : c.text = d.text) : c = d := by
  have hc := classify_text c
  rw [h, classify_text] at hc
  exact (Except.ok.inj hc).symm

theorem isSpace_of_isDigit {c : Char} (h : c.isDigit = true) : Text.isSpace c = false := by
  have hd : 48 ≤ c.toNat ∧ c.toNat ≤ 57 := by
    simpa [Char.isDigit, UInt32.le_iff_toNat_le] using h
  simp [Text.isSpace, Text.whiteSpace]
  omega

theorem Word.isToken_text (a : Word) : IsToken a.text := by
  refine ⟨fun h => ?_, fun c hc => ?_⟩
  · have hl := congrArg String.toList h
    rw [toList_text] at hl
    exact Numeral.decimal_ne_nil _ hl
  · rw [toList_text] at hc
    rcases Numeral.mem_decimal hc with rfl | hd
    · rfl
    · exact isSpace_of_isDigit hd

theorem Command.isToken_text (command : Command) : IsToken command.text := by
  cases command with
  | literal value => exact value.isToken_text
  | op opcode => cases opcode <;> decide

/-! ## Code of tokens -/

namespace Code

/-- The tokens of a code: the texts of its commands, then its bad token. -/
def tokens (c : Code) : List String := c.commands.map Command.text ++ c.badToken.toList

theorem ofTokens_texts (commands : List Command) (rest : List String) :
    ofTokens (commands.map Command.text ++ rest) =
      ⟨commands ++ (ofTokens rest).commands, (ofTokens rest).badToken⟩ := by
  induction commands with
  | nil => rfl
  | cons command commands ih =>
    rw [List.map_cons, List.cons_append, ofTokens_cons_ok (classify_text command), ih]
    rfl

/-- The rows of tokens that spell a code: the texts of its commands and nothing else, or the texts
of its commands, a token that is no command, and any tokens behind it. -/
inductive Spelt : Code → List String → Prop
  | whole (commands : List Command) : Spelt ⟨commands, none⟩ (commands.map Command.text)
  | broken {bad : String} {e : ProgramError} (h : classify bad = .error e)
      (commands : List Command) (behind : List String) :
      Spelt ⟨commands, some bad⟩ (commands.map Command.text ++ bad :: behind)

theorem Spelt.cons {c : Code} {ts : List String} (h : Spelt c ts) (command : Command) :
    Spelt (c.cons command) (command.text :: ts) := by
  cases h with
  | whole commands => exact .whole (command :: commands)
  | broken h commands behind => exact .broken h (command :: commands) behind

theorem spelt_ofTokens (ts : List String) : Spelt (ofTokens ts) ts := by
  induction ts with
  | nil => exact .whole []
  | cons t ts ih =>
    cases hc : classify t with
    | error e =>
      rw [ofTokens_cons_error hc]
      exact .broken hc [] ts
    | ok command =>
      rw [ofTokens_cons_ok hc, ← classify_eq_ok_iff.1 hc]
      exact ih.cons command

variable {c : Code} {ts : List String}

/-- A code is read from its own tokens. -/
theorem Spelt.ofTokens_tokens (h : Spelt c ts) : ofTokens c.tokens = c := by
  cases h with
  | whole commands =>
    have h := ofTokens_texts commands []
    simpa [Code.tokens, ofTokens] using h
  | @broken bad e he commands behind =>
    have h := ofTokens_texts commands [bad]
    rw [ofTokens_cons_error he] at h
    simpa [Code.tokens] using h

/-- The commands of a code are read from the longest front of tokens that can all be read, and its
bad token is the next one. -/
theorem Spelt.takeWhile_classify (h : Spelt c ts) :
    ts.takeWhile (fun t => (classify t).isOk) = c.commands.map Command.text ∧
      ts[c.commands.length]? = c.badToken := by
  have hread (commands : List Command) :
      ∀ t ∈ commands.map Command.text, (classify t).isOk = true := by
    intro t ht
    obtain ⟨command, -, rfl⟩ := List.mem_map.1 ht
    rw [classify_text]
    rfl
  cases h with
  | whole commands =>
    exact ⟨List.takeWhile_eq_self_iff.2 (hread commands), by simp⟩
  | broken he commands behind =>
    rw [List.takeWhile_append_of_pos (hread commands)]
    simp [he, Except.isOk, Except.toBool]

theorem Spelt.subset (h : Spelt c ts) : c.tokens ⊆ ts := by
  cases h with
  | whole commands => simp [Code.tokens]
  | broken he commands behind => simp [Code.tokens]

/-! ## Code of sources -/

theorem isToken_of_mem_tokens {source t : String} (h : t ∈ (ofSource source).tokens) :
    IsToken t :=
  isToken_of_mem_tokenize ((spelt_ofTokens (tokenize source)).subset h)

theorem ofSource_layout (l : Layout Command) :
    ofSource (l.text Command.text) = ⟨l.things, none⟩ := by
  have h := ofTokens_texts l.things []
  rw [List.append_nil] at h
  rw [ofSource, l.tokenize_text fun command _ => command.isToken_text, h]
  simp [ofTokens]

theorem ofSource_tokens (source : String) :
    ofSource (String.intercalate " " (ofSource source).tokens) = ofSource source := by
  rw [ofSource, tokenize_intercalate fun t ht => isToken_of_mem_tokens ht]
  exact (spelt_ofTokens (tokenize source)).ofTokens_tokens

/-- Commands are read back from their texts, whatever white space is put around and between them;
and a code is read back from its text. Its commands are what the longest front of readable tokens
is read as, each with its token as its text, and its bad token is the next token. -/
theorem ofSource_exact :
    (∀ l : Layout Command, ofSource (l.text Command.text) = ⟨l.things, none⟩) ∧
    ∀ source, let c := ofSource source
      let front := (tokenize source).takeWhile fun t => (classify t).isOk
      ofSource (String.intercalate " " (c.commands.map Command.text ++ c.badToken.toList)) = c ∧
        front.map classify = c.commands.map .ok ∧ c.commands.map Command.text = front ∧
        c.badToken = (tokenize source)[front.length]? := by
  refine ⟨ofSource_layout, fun source => ?_⟩
  intro c front
  obtain ⟨hfront, hbad⟩ := (spelt_ofTokens (tokenize source)).takeWhile_classify
  have hf : front = c.commands.map Command.text := hfront
  refine ⟨ofSource_tokens source, ?_, hf.symm, ?_⟩
  · rw [hf, List.map_map]
    exact List.map_congr_left fun command _ => classify_text command
  · rw [hf, List.length_map]
    exact hbad.symm

end Code

end StackScript
