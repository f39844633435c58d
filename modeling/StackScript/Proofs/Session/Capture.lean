import StackScript.Proofs.Code.Printing
import StackScript.Proofs.Execution.Interleaving
import StackScript.Proofs.Messages
import StackScript.Proofs.Text.Split

/-!
# What a capture shows

A capture gives the output of an evaluation as lines. Words and messages have no line breaks in
them: a token has no white space, so the message of a bad token is one line too. That is why each
printed word is one line of the capture and a program error is one more (`capture_shows`).

The text of a word is no message, and a message tells its error (`ProgramError.message_injective`).
So the lines tell how the run ended.
-/

set_option autoImplicit false

namespace StackScript

/-! ## Lines -/

/-- The canonical decimal text of a word. -/
def Word.IsText (s : String) : Prop := ∃ a : Word, s = a.text

theorem IsToken.isLine {s : String} (h : IsToken s) : IsLine s :=
  ⟨fun hn => absurd (h.2 _ hn) (by decide), fun hr => absurd (h.2 _ hr) (by decide)⟩

theorem Word.isLine_text (a : Word) : IsLine a.text := a.isToken_text.isLine

namespace ProgramError

/-- A message has letters in it, and the text of a word has none. -/
theorem not_isText_message (cause : ProgramError) : ¬ Word.IsText cause.message := by
  rintro ⟨a, h⟩
  have ht : 't' ∈ cause.message.toList := by
    cases cause with
    | badToken t =>
      rw [toList_message_badToken]
      exact List.mem_append_left _ (by decide)
    | emptyStack => decide
  rw [h, Word.toList_text] at ht
  rcases Numeral.mem_decimal ht with h | h
  · cases h
  · cases h

/-- The message of a token that is one is one line. -/
theorem isLine_message {cause : ProgramError} (h : ∀ t, cause = .badToken t → IsToken t) :
    IsLine cause.message := by
  cases cause with
  | badToken t =>
    have ht := (h t rfl).isLine
    unfold IsLine
    rw [toList_message_badToken, List.mem_append, List.mem_append, not_or, not_or]
    exact ⟨⟨by decide, ht.1⟩, ⟨by decide, ht.2⟩⟩
  | emptyStack => exact ⟨by decide, by decide⟩

end ProgramError

/-! ## Captures of an output -/

/-- The line that is written for how a run ended. -/
def errorLines : Except EvalError Halt → List String
  | .ok .ok => []
  | .ok (.error cause) => [cause.message]
  | .error _ => []

/-- What a capture shows of an evaluation that printed some words. -/
structure Capture.Shows (c : Capture) (e : Evaluation) (printed : List Word) : Prop where
  /-- Every printed word is a line, and a program error is one more. -/
  lines : c.lines = printed.map Word.text ++ errorLines e.result
  out : e.out = c.lines.flatMap outputLine
  failure : ∀ cause, c.failure = some cause ↔ e.result = .error cause
  /-- Nothing is printed if the template cannot be filled in. -/
  unrendered : ∀ cause, e.result = .error (.template cause) → c.lines = []
  /-- Of the runs that are not broken off, those without error have only words for their lines. -/
  complete : e.result = .ok .ok ↔ c.failure = none ∧ ∀ l ∈ c.lines, Word.IsText l
  /-- The last line, and no other, is the message of the error. -/
  halted : ∀ cause, e.result = .ok (.error cause) ↔ c.failure = none ∧
    ∃ front, c.lines = front ++ [cause.message] ∧ (∀ l ∈ front, Word.IsText l) ∧
      ¬ Word.IsText cause.message

/-- What is captured of an evaluation. -/
def Evaluation.captured (e : Evaluation) : Capture where
  log := e.log
  lines := Text.lines (Text.decodeFront e.out)
  failure :=
    match e.result with
    | .ok _ => none
    | .error cause => some cause

theorem isText_of_mem_map {printed : List Word} : ∀ l ∈ printed.map Word.text, Word.IsText l :=
  List.forall_mem_map.2 fun a _ => ⟨a, rfl⟩

namespace Evaluation

variable {e : Evaluation} {printed : List Word}

theorem failure_captured (e : Evaluation) (cause : EvalError) :
    e.captured.failure = some cause ↔ e.result = .error cause := by
  unfold captured
  cases e.result <;> simp

theorem failure_captured_eq_none (e : Evaluation) :
    e.captured.failure = none ↔ ∃ halt, e.result = .ok halt := by
  unfold captured
  cases e.result <;> simp

theorem lines_captured
    (ho : e.out = (printed.map Word.text ++ errorLines e.result).flatMap outputLine)
    (hl : ∀ l ∈ errorLines e.result, IsLine l) :
    e.captured.lines = printed.map Word.text ++ errorLines e.result := by
  show Text.lines (Text.decodeFront e.out) = _
  rw [ho]
  refine Text.lines_outputLines fun l hm => ?_
  rcases List.mem_append.1 hm with hm | hm
  · obtain ⟨a, -, rfl⟩ := List.mem_map.1 hm
    exact a.isLine_text
  · exact hl l hm

theorem complete_iff (h : e.captured.lines = printed.map Word.text ++ errorLines e.result) :
    e.result = .ok .ok ↔
      e.captured.failure = none ∧ ∀ l ∈ e.captured.lines, Word.IsText l := by
  rw [failure_captured_eq_none]
  constructor
  · intro hr
    rw [hr] at h
    rw [h, errorLines, List.append_nil]
    exact ⟨⟨_, hr⟩, isText_of_mem_map⟩
  · rintro ⟨⟨halt, hr⟩, hall⟩
    cases halt with
    | ok => exact hr
    | error cause =>
      -- the last line is a message
      rw [hr] at h
      have hm : cause.message ∈ e.captured.lines := by
        rw [h]
        exact List.mem_append_right _ (List.mem_singleton_self _)
      exact absurd (hall _ hm) cause.not_isText_message

theorem halted_iff (h : e.captured.lines = printed.map Word.text ++ errorLines e.result)
    (cause : ProgramError) :
    e.result = .ok (.error cause) ↔ e.captured.failure = none ∧
      ∃ front, e.captured.lines = front ++ [cause.message] ∧ (∀ l ∈ front, Word.IsText l) ∧
        ¬ Word.IsText cause.message := by
  rw [failure_captured_eq_none]
  constructor
  · intro hr
    rw [hr] at h
    exact ⟨⟨_, hr⟩, _, h, isText_of_mem_map, cause.not_isText_message⟩
  · rintro ⟨⟨halt, hr⟩, front, hlast, -, hno⟩
    rw [hr] at h
    cases halt with
    | ok =>
      rw [errorLines, List.append_nil] at h
      have hm : cause.message ∈ printed.map Word.text := by
        rw [← h, hlast]
        exact List.mem_append_right _ (List.mem_singleton_self _)
      exact absurd (isText_of_mem_map _ hm) hno
    | error found =>
      rw [h] at hlast
      have hmessage : found.message = cause.message := by
        have := congrArg List.getLast? hlast
        simpa [errorLines] using this
      rw [hr, ProgramError.message_injective hmessage]

theorem captured_shows
    (ho : e.out = (printed.map Word.text ++ errorLines e.result).flatMap outputLine)
    (hl : ∀ l ∈ errorLines e.result, IsLine l)
    (ht : ∀ cause, e.result = .error (.template cause) → printed = []) :
    e.captured.Shows e printed where
  lines := lines_captured ho hl
  out := by rw [lines_captured ho hl]; exact ho
  failure := failure_captured e
  unrendered cause hr := by rw [lines_captured ho hl, ht cause hr, hr]; rfl
  complete := complete_iff (lines_captured ho hl)
  halted := halted_iff (lines_captured ho hl)

end Evaluation

/-! ## Captures of a run -/

namespace Stop

theorem errorLines_result (stop : Stop) : errorLines stop.result = stop.lines := by
  cases stop <;> rfl

theorem result_ne_template (stop : Stop) (cause : TemplateError) :
    stop.result ≠ .error (.template cause) := by
  cases stop <;> simp [result]

/-- A run that stops at a bad token stops at the one of its code. -/
theorem badToken_of_ofTrap {trap : Option Trap} {code : Code} {t : String}
    (h : ofTrap trap code.trailingError = .program (.badToken t)) : code.badToken = some t := by
  unfold ofTrap at h
  split at h
  · cases h
  · cases h
  · rename_i cause hcause
    cases h
    simpa [Code.trailingError] using hcause
  · cases h

theorem isLine_of_mem_lines {trap : Option Trap} {source : String} :
    ∀ l ∈ (ofTrap trap (Code.ofSource source).trailingError).lines, IsLine l := by
  intro l hl
  cases hs : ofTrap trap (Code.ofSource source).trailingError with
  | program cause =>
    rw [hs, lines, List.mem_singleton] at hl
    subst hl
    refine ProgramError.isLine_message fun t ht => ?_
    subst ht
    have hb := badToken_of_ofTrap hs
    have hm : t ∈ (Code.ofSource source).tokens := by simp [Code.tokens, hb]
    exact Code.isToken_of_mem_tokens hm
  | complete => rw [hs] at hl; cases hl
  | fault cause => rw [hs] at hl; cases hl

end Stop

theorem Execution.Writes.captured_shows {e : Execution} {emitted : List Word} {stop : Stop}
    (h : e.Writes emitted stop) (hl : ∀ l ∈ stop.lines, IsLine l) :
    e.evaluation.captured.Shows e.evaluation emitted := by
  obtain ⟨hout, hresult⟩ := h
  have he : errorLines e.evaluation.result = stop.lines := by
    show errorLines e.result = _
    rw [hresult, stop.errorLines_result]
  refine Evaluation.captured_shows ?_ (by rwa [he]) fun cause hr => ?_
  · rw [he]
    exact hout
  · exact absurd (hresult.symm.trans hr) (stop.result_ne_template cause)

/-- What the program of a template prints, if the template can be filled in. -/
def Template.printed (division : Division) (template : Template) (bindings : Bindings) :
    List Word :=
  match template.render bindings with
  | .ok source => (Machine.initial.course division (Code.ofSource source).commands).emitted
  | .error _ => []

namespace Interpreter

theorem capture_eq_captured (i : Interpreter) (template : Template) (bindings : Bindings) :
    i.capture template bindings =
      ((i.eval template bindings .unlimited).1, (i.eval template bindings .unlimited).2.captured) :=
  rfl

/-- After any session, what is captured of a template shows what the evaluation of the template
writes and how it ends: its lines are the printed words and the message of the program error, if
there is one, and they tell which of these it is. -/
theorem capture_shows (config : Config) (steps : List Step) (template : Template)
    (bindings : Bindings) :
    let i := after config steps
    (i.capture template bindings).2.Shows (i.eval template bindings .unlimited).2
      (template.printed config.division bindings) := by
  intro i
  rw [capture_eq_captured]
  unfold Template.printed
  cases ht : template.render bindings with
  | error cause =>
    rw [eval_of_error ht]
    exact Evaluation.captured_shows rfl (fun l hl => by cases hl) fun _ _ => rfl
  | ok source =>
    rw [eval_of_ok ht]
    exact (writes_course config steps source).captured_shows Stop.isLine_of_mem_lines

end Interpreter

end StackScript
