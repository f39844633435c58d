import StackScript.Interpreter.Execution

/-!
# The course of a run

`Course.ofCommands step s commands` carries out commands from the state `s` on, up to the first that
`step` cannot carry out, and keeps what happened: the states, what was emitted and the trap at which
it stopped. `Machine.course` is the course of the machine.

What is written to a sink without limit depends on the course alone (`ofCode_unlimited`): every
emitted word is a line, and the program error at which the run stopped is one more.
-/

set_option autoImplicit false

namespace StackScript

structure Course (σ ν : Type) where
  /-- The states before each command that was carried out. -/
  passed : List σ
  emitted : List ν
  /-- The state after the last command that was carried out. -/
  final : σ
  /-- Why the next command could not be carried out, unless there is no next command. -/
  trap : Option Trap

namespace Course

variable {σ ν τ μ : Type}

/-- The course with one command in front: the state before it and what it emitted. -/
def cons (s : σ) (value : Option ν) (c : Course σ ν) : Course σ ν :=
  { c with passed := s :: c.passed, emitted := value.toList ++ c.emitted }

/-- The course of commands from a state on. A step gives the next state and what was emitted. -/
def ofCommands (step : σ → Command → Except Trap (σ × Option ν)) : σ → List Command → Course σ ν
  | s, [] => ⟨[], [], s, none⟩
  | s, command :: commands =>
    match step s command with
    | .ok (s', value) => (ofCommands step s' commands).cons s value
    | .error trap => ⟨[], [], s, some trap⟩

def map (f : σ → τ) (g : ν → μ) (c : Course σ ν) : Course τ μ :=
  ⟨c.passed.map f, c.emitted.map g, f c.final, c.trap⟩

variable {step : σ → Command → Except Trap (σ × Option ν)} {s s' : σ} {command : Command}

theorem ofCommands_ok {value : Option ν} (h : step s command = .ok (s', value))
    (commands : List Command) :
    ofCommands step s (command :: commands) = (ofCommands step s' commands).cons s value := by
  simp [ofCommands, h]

theorem ofCommands_error {trap : Trap} (h : step s command = .error trap)
    (commands : List Command) :
    ofCommands step s (command :: commands) = ⟨[], [], s, some trap⟩ := by
  simp [ofCommands, h]

theorem map_cons (f : σ → τ) (g : ν → μ) (s : σ) (value : Option ν) (c : Course σ ν) :
    (c.cons s value).map f g = (c.map f g).cons (f s) (value.map g) := by
  cases value <;> simp [map, cons]

end Course

/-! ## The machine -/

def Machine.stepOf : Machine × Outcome → Except Trap (Machine × Option Word)
  | (m, .ok value) => .ok (m, value)
  | (_, .error trap) => .error trap

def Machine.step (division : Division) (m : Machine) (command : Command) :
    Except Trap (Machine × Option Word) :=
  stepOf (m.perform division command)

theorem Machine.step_of_ok {division : Division} {m m' : Machine} {command : Command}
    {value : Option Word} (h : m.perform division command = (m', .ok value)) :
    m.step division command = .ok (m', value) := by
  rw [step, h, stepOf]

theorem Machine.step_of_error {division : Division} {m m' : Machine} {command : Command}
    {trap : Trap} (h : m.perform division command = (m', .error trap)) :
    m.step division command = .error trap := by
  rw [step, h, stepOf]

def Machine.course (division : Division) (m : Machine) (commands : List Command) :
    Course Machine Word :=
  Course.ofCommands (Machine.step division) m commands

theorem Machine.course_ok {division : Division} {m m' : Machine} {command : Command}
    {value : Option Word} (h : m.perform division command = (m', .ok value))
    (commands : List Command) :
    m.course division (command :: commands) = (m'.course division commands).cons m value :=
  Course.ofCommands_ok (step_of_ok h) commands

theorem Machine.course_error {division : Division} {m m' : Machine} {command : Command}
    {trap : Trap} (h : m.perform division command = (m', .error trap)) (commands : List Command) :
    m.course division (command :: commands) = ⟨[], [], m, some trap⟩ :=
  Course.ofCommands_error (step_of_error h) commands

inductive Stop where
  | complete
  /-- The program stops of itself. -/
  | program (cause : ProgramError)
  | fault (cause : Fault)
  deriving DecidableEq

namespace Stop

/-- Why a run stops whose course ended at this trap, or else reached the trailing error. -/
def ofTrap : Option Trap → Option ProgramError → Stop
  | some .emptyStack, _ => .program .emptyStack
  | some (.fault cause), _ => .fault cause
  | none, some cause => .program cause
  | none, none => .complete

def result : Stop → Except EvalError Halt
  | complete => .ok .ok
  | program cause => .ok (.error cause)
  | fault cause => .error (.fault cause)

def lines : Stop → List String
  | program cause => [cause.message]
  | _ => []

end Stop

/-- The lines of output of a run that emits these words and stops. -/
def outputLines (emitted : List Word) (stop : Stop) : List String :=
  emitted.map Word.text ++ stop.lines

theorem outputLines_cons (value : Word) (emitted : List Word) (stop : Stop) :
    outputLines (value :: emitted) stop = value.text :: outputLines emitted stop := rfl

/-! ## Executions on a sink without limit -/

namespace Execution

/-- An execution writes these lines and ends with this stop. -/
def Writes (e : Execution) (emitted : List Word) (stop : Stop) : Prop :=
  e.out = (outputLines emitted stop).flatMap outputLine ∧ e.result = stop.result

theorem Writes.recorded {e : Execution} {emitted : List Word} {stop : Stop}
    (h : e.Writes emitted stop) (r : Record) : (e.recorded r).Writes emitted stop := h

theorem Writes.printed {e : Execution} {emitted : List Word} {stop : Stop}
    (h : e.Writes emitted stop) (value : Word) :
    (e.printed (outputLine value.text)).Writes (value :: emitted) stop := by
  refine ⟨?_, h.2⟩
  rw [outputLines_cons, List.flatMap_cons, ← h.1]
  rfl

theorem writes_halted (m : Machine) (cause : ProgramError) :
    (halted .unlimited m cause).Writes [] (.program cause) := by
  simp [Writes, halted, Execution.recorded, outputLines, Stop.lines, Stop.result]

theorem writes_finished (m : Machine) (trailing : Option ProgramError) :
    (finished .unlimited m trailing).Writes [] (.ofTrap none trailing) := by
  cases trailing with
  | none => exact ⟨rfl, rfl⟩
  | some cause => exact writes_halted m cause

theorem ofCommands_unlimited (division : Division) (trailing : Option ProgramError) (m : Machine)
    (commands : List Command) :
    (ofCommands division trailing .unlimited m commands).Writes
      (m.course division commands).emitted
      (.ofTrap (m.course division commands).trap trailing) := by
  induction commands generalizing m with
  | nil => exact writes_finished m trailing
  | cons command commands ih =>
    cases hp : m.perform division command with
    | mk m' outcome =>
    cases outcome with
    | ok value =>
      rw [Machine.course_ok hp]
      cases value with
      | none =>
        rw [ofCommands_silent hp]
        exact (ih m').recorded _
      | some value =>
        rw [ofCommands_print hp (Sink.write_unlimited _)]
        exact ((ih m').printed value).recorded _
    | error trap =>
      rw [Machine.course_error hp]
      cases trap with
      | emptyStack =>
        rw [ofCommands_emptyStack hp]
        exact (writes_halted m' .emptyStack).recorded _
      | fault cause =>
        rw [ofCommands_fault hp]
        exact ⟨rfl, rfl⟩

theorem ofCode_unlimited (division : Division) (m : Machine) (code : Code) :
    (ofCode division .unlimited m code).Writes (m.course division code.commands).emitted
      (.ofTrap (m.course division code.commands).trap code.trailingError) :=
  ofCommands_unlimited division code.trailingError m code.commands

end Execution

end StackScript
