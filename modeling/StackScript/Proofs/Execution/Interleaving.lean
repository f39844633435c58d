import StackScript.Proofs.Execution.Course
import StackScript.Proofs.Session.Transparency

/-!
# Reading and executing by turns

`Reading.ofTokens` takes the tokens of a program one at a time, reads each and carries it out at
once, and stops at the first token that is no command, at the first command that cannot be carried
out, or at the end. An interpreter first reads the whole text and then carries out the commands, and
nobody can tell: the lines it writes and the end it reports are those of the reading
(`run_eq_reading`). What stands behind the token at which the reading stops does not count.
-/

set_option autoImplicit false

namespace StackScript

/-- What a program emits that is read and carried out by turns, and why it stops. -/
structure Reading where
  emitted : List Word
  stop : Stop

namespace Reading

def cons (value : Option Word) (r : Reading) : Reading :=
  { r with emitted := value.toList ++ r.emitted }

/-- Takes one token after another, and carries each out before the next is taken. -/
def ofTokens (division : Division) : Machine → List String → Reading
  | _, [] => ⟨[], .complete⟩
  | m, token :: tokens =>
    match classify token with
    | .error _ => ⟨[], .program (.badToken token)⟩
    | .ok command =>
      match m.perform division command with
      | (m', .ok value) => (ofTokens division m' tokens).cons value
      | (_, .error .emptyStack) => ⟨[], .program .emptyStack⟩
      | (_, .error (.fault cause)) => ⟨[], .fault cause⟩

def ofSource (division : Division) (source : String) : Reading :=
  ofTokens division .initial (tokenize source)

/-- The reading that goes on to a bad token unless it has stopped before. -/
def thenBad (token : String) (r : Reading) : Reading :=
  if r.stop = .complete then { r with stop := .program (.badToken token) } else r

variable {division : Division} {m m' : Machine} {token : String} {command : Command}

/-! ## One token at a time -/

theorem ofTokens_bad {e : ProgramError} (h : classify token = .error e) (tokens : List String) :
    ofTokens division m (token :: tokens) = ⟨[], .program (.badToken token)⟩ := by
  simp [ofTokens, h]

theorem ofTokens_ok {value : Option Word} (h : classify token = .ok command)
    (hp : m.perform division command = (m', .ok value)) (tokens : List String) :
    ofTokens division m (token :: tokens) = (ofTokens division m' tokens).cons value := by
  simp [ofTokens, h, hp]

theorem ofTokens_trap {trap : Trap} (h : classify token = .ok command)
    (hp : m.perform division command = (m', .error trap)) (tokens : List String) :
    ofTokens division m (token :: tokens) = ⟨[], .ofTrap (some trap) none⟩ := by
  cases trap <;> simp [ofTokens, h, hp, Stop.ofTrap]

theorem thenBad_cons (value : Option Word) (r : Reading) (token : String) :
    (r.cons value).thenBad token = (r.thenBad token).cons value := by
  unfold thenBad cons
  split <;> rfl

/-! ## Against the code of the tokens -/

/-- Reading by turns stops where the course of the code stops, and for the same reason. -/
theorem ofTokens_eq_course (m : Machine) (tokens : List String) :
    ofTokens division m tokens =
      ⟨(m.course division (Code.ofTokens tokens).commands).emitted,
        .ofTrap (m.course division (Code.ofTokens tokens).commands).trap
          (Code.ofTokens tokens).trailingError⟩ := by
  induction tokens generalizing m with
  | nil => rfl
  | cons token tokens ih =>
    cases hc : classify token with
    -- the code ends here, and its trailing error counts since nothing was carried out
    | error e =>
      rw [ofTokens_bad hc, Code.ofTokens_cons_error hc]
      rfl
    | ok command =>
      rw [Code.ofTokens_cons_ok hc]
      simp only [Code.cons]
      cases hp : m.perform division command with
      | mk m' outcome =>
      cases outcome with
      | ok value =>
        rw [ofTokens_ok hc hp, Machine.course_ok hp, ih m']
        rfl
      | error trap =>
        rw [ofTokens_trap hc hp, Machine.course_error hp]
        cases trap <;> rfl

/-! ## Around a bad token -/

/-- A bad token is met only if the tokens in front of it are read to their end, and then nothing
behind it is read. -/
theorem ofTokens_append_bad {e : ProgramError} (h : classify token = .error e) (m : Machine)
    (before after : List String) :
    ofTokens division m (before ++ token :: after) =
      (ofTokens division m before).thenBad token := by
  induction before generalizing m with
  | nil => exact ofTokens_bad h after
  | cons t before ih =>
    rw [List.cons_append]
    cases hc : classify t with
    | error _ => rw [ofTokens_bad hc, ofTokens_bad hc]; rfl
    | ok command =>
      cases hp : m.perform division command with
      | mk m' outcome =>
      cases outcome with
      | ok value => rw [ofTokens_ok hc hp, ofTokens_ok hc hp, ih, thenBad_cons]
      | error trap =>
        rw [ofTokens_trap hc hp, ofTokens_trap hc hp]
        cases trap <;> rfl

end Reading

namespace Interpreter

/-- On a sink that takes everything a run writes what the course of the code of its text emits. -/
theorem writes_course (config : Config) (steps : List Step) (source : String) :
    let code := Code.ofSource source
    let course := Machine.initial.course config.division code.commands
    ((after config steps).run source .unlimited).2.Writes course.emitted
      (.ofTrap course.trap code.trailingError) := by
  obtain ⟨records, -, he⟩ := run_eq_ofCode (sound_after config steps) source .unlimited
  have hw := Execution.ofCode_unlimited config.division .initial (.ofSource source)
  rw [he]
  exact hw

/-- On a sink that takes everything a run writes one line for each word that the reading emits and
one for the program error at which it stops, if it does, and reports its stop. -/
theorem writes_run (config : Config) (steps : List Step) (source : String) :
    ((after config steps).run source .unlimited).2.Writes
      (Reading.ofSource config.division source).emitted
      (Reading.ofSource config.division source).stop := by
  rw [Reading.ofSource, Reading.ofTokens_eq_course]
  exact writes_course config steps source

/-- A run writes and reports what the reading of its text by turns does. A bad token counts if
nothing stopped the reading before it, and what stands behind it never does. -/
theorem run_eq_reading (config : Config) (steps : List Step) (source : String) :
    let e := ((after config steps).run source .unlimited).2
    let r := Reading.ofSource config.division source
    (e.out = (r.emitted.map Word.text ++ r.stop.lines).flatMap outputLine ∧
      e.result = r.stop.result) ∧
    ∀ (before : List String) (bad : String) (behind : List String),
      tokenize source = before ++ bad :: behind → (∀ command, classify bad ≠ .ok command) →
      let f := (Reading.ofTokens config.division .initial before).thenBad bad
      e.out = (f.emitted.map Word.text ++ f.stop.lines).flatMap outputLine ∧
        e.result = f.stop.result := by
  have hw := writes_run config steps source
  refine ⟨hw, fun before bad behind ht hb => ?_⟩
  have hr : Reading.ofSource config.division source =
      (Reading.ofTokens config.division .initial before).thenBad bad := by
    cases hc : classify bad with
    | ok command => exact absurd hc (hb command)
    | error e => rw [Reading.ofSource, ht, Reading.ofTokens_append_bad hc]
  rw [hr] at hw
  exact hw

/-- The empty stack is met before the bad token, also when an earlier run has filled the cache. -/
theorem run_eq_reading_emptyStack :
    let source := "5 PRINT ADD XSUB 1 PRINT"
    let e := ((after ⟨1, .floor⟩ [.run source none]).run source .unlimited).2
    tokenize source = ["5", "PRINT", "ADD"] ++ "XSUB" :: ["1", "PRINT"] ∧
      (∀ command, classify "XSUB" ≠ .ok command) ∧
      e.out = Text.encode "5\nEmpty stack!\n" ∧ e.result = .ok (.error .emptyStack) := by
  intro source e
  have ht : tokenize source = ["5", "PRINT", "ADD"] ++ "XSUB" :: ["1", "PRINT"] := by
    decide +kernel
  have hb : ∀ command, classify "XSUB" ≠ .ok command := by
    intro command h
    cases h
  obtain ⟨ho, hr⟩ := (run_eq_reading ⟨1, .floor⟩ [.run source none] source).2 _ _ _ ht hb
  exact ⟨ht, hb, ho, hr⟩

end Interpreter

end StackScript
