import StackScript.Code
import StackScript.Machine
import StackScript.Template
import StackScript.Text.Bytes

/-!
# Executions

`Execution.ofCommands` carries out commands one after another on a machine and a sink: a printed
word is a line of output, and the state before each command is recorded. An execution ends

* after its last command, without error or with the error that a bad token left behind;
* at a command that finds no operand: this and the bad token are program errors, written to the
  sink as a last line;
* at an arithmetic fault, or at a write that fails. These are not written.
-/

set_option autoImplicit false

namespace StackScript

/-! ## Sinks -/

/-- Where a run writes. What does not fit any more is cut off. -/
structure Sink where
  /-- How many more bytes it takes; no number means any. -/
  room : Option Nat
  deriving DecidableEq, Repr

namespace Sink

def unlimited : Sink := ⟨none⟩

/-- The bytes that reach the sink, and the sink after them unless the write failed. -/
def write (s : Sink) (bs : List UInt8) : List UInt8 × Option Sink :=
  match s.room with
  | none => (bs, some s)
  | some n => if bs.length ≤ n then (bs, some ⟨some (n - bs.length)⟩) else (bs.take n, none)

@[simp] theorem write_unlimited (bs : List UInt8) :
    unlimited.write bs = (bs, some unlimited) := rfl

theorem write_fits {n : Nat} {bs : List UInt8} (h : bs.length ≤ n) :
    (Sink.mk (some n)).write bs = (bs, some ⟨some (n - bs.length)⟩) := if_pos h

theorem write_full {n : Nat} {bs : List UInt8} (h : n < bs.length) :
    (Sink.mk (some n)).write bs = (bs.take n, none) := if_neg (Nat.not_le.2 h)

end Sink

/-! ## Records -/

inductive Record where
  | cacheClamped (asked granted : Nat)
  | cacheHit
  | cacheMiss
  /-- A command is about to be carried out on this machine. -/
  | state (machine : Machine) (command : Command)
  | halted (cause : ProgramError)
  | final (machine : Machine)
  deriving DecidableEq

def Record.text : Record → String
  | .cacheClamped asked granted =>
    "WARN translation cache capacity " ++ Numeral.text asked ++ " clamped to " ++
      Numeral.text granted
  | .cacheHit => "DEBUG translation found in cache"
  | .cacheMiss => "DEBUG translation not found..."
  | .state machine command => "DEBUG State: " ++ machine.text ++ " | " ++ command.text
  | .halted cause => "WARN program halted: " ++ cause.message
  | .final machine => "INFO " ++ machine.text

/-! ## Executions -/

/-- How a run ended that was not broken off. -/
inductive Halt where
  | ok
  | error (cause : ProgramError)
  deriving DecidableEq, Repr

/-- Why a run was broken off or did not begin. -/
inductive EvalError where
  | template (cause : TemplateError)
  | fault (cause : Fault)
  /-- The sink did not take all the output. -/
  | sinkFull
  deriving DecidableEq, Repr

def EvalError.message : EvalError → String
  | .template cause => cause.message
  | .fault cause => cause.message
  | .sinkFull => "unable to write program output: sink full"

structure Execution where
  log : List Record
  out : List UInt8
  machine : Machine
  result : Except EvalError Halt

namespace Execution

def recorded (r : Record) (e : Execution) : Execution := { e with log := r :: e.log }

def printed (bs : List UInt8) (e : Execution) : Execution := { e with out := bs ++ e.out }

/-- An execution that is broken off, with the bytes that still reached the sink. -/
def broken (m : Machine) (bs : List UInt8) (cause : EvalError) : Execution where
  log := []
  out := bs
  machine := m
  result := .error cause

/-- Ends an execution with a program error, whose message is the last line of output. -/
def halted (sink : Sink) (m : Machine) (cause : ProgramError) : Execution :=
  recorded (.halted cause) <|
    match sink.write (outputLine cause.message) with
    | (bs, some _) => ⟨[.final m], bs, m, .ok (.error cause)⟩
    | (bs, none) => broken m bs .sinkFull

/-- Ends an execution whose commands have all been carried out. -/
def finished (sink : Sink) (m : Machine) : Option ProgramError → Execution
  | none => ⟨[.final m], [], m, .ok .ok⟩
  | some cause => halted sink m cause

/-- Carries out commands from a machine on. `trailing` is the error that follows the last one. -/
def ofCommands (division : Division) (trailing : Option ProgramError) :
    Sink → Machine → List Command → Execution
  | sink, m, [] => finished sink m trailing
  | sink, m, command :: commands =>
    recorded (.state m command) <|
      match m.perform division command with
      | (m, .ok none) => ofCommands division trailing sink m commands
      | (m, .ok (some value)) =>
        match sink.write (outputLine value.text) with
        | (bs, some sink) => printed bs (ofCommands division trailing sink m commands)
        | (bs, none) => broken m bs .sinkFull
      | (m, .error .emptyStack) => halted sink m .emptyStack
      | (m, .error (.fault cause)) => broken m [] (.fault cause)

def ofCode (division : Division) (sink : Sink) (m : Machine) (code : Code) : Execution :=
  ofCommands division code.trailingError sink m code.commands

/-! ## One command at a time -/

variable {division : Division} {trailing : Option ProgramError} {sink : Sink} {m m' : Machine}
  {command : Command}

theorem ofCommands_silent (h : m.perform division command = (m', .ok none))
    (commands : List Command) :
    ofCommands division trailing sink m (command :: commands) =
      recorded (.state m command) (ofCommands division trailing sink m' commands) := by
  simp [ofCommands, h]

theorem ofCommands_print {value : Word} {bs : List UInt8} {sink' : Sink}
    (h : m.perform division command = (m', .ok (some value)))
    (hw : sink.write (outputLine value.text) = (bs, some sink')) (commands : List Command) :
    ofCommands division trailing sink m (command :: commands) =
      recorded (.state m command)
        (printed bs (ofCommands division trailing sink' m' commands)) := by
  simp [ofCommands, h, hw]

theorem ofCommands_print_full {value : Word} {bs : List UInt8}
    (h : m.perform division command = (m', .ok (some value)))
    (hw : sink.write (outputLine value.text) = (bs, none)) (commands : List Command) :
    ofCommands division trailing sink m (command :: commands) =
      recorded (.state m command) (broken m' bs .sinkFull) := by
  simp [ofCommands, h, hw]

theorem ofCommands_emptyStack (h : m.perform division command = (m', .error .emptyStack))
    (commands : List Command) :
    ofCommands division trailing sink m (command :: commands) =
      recorded (.state m command) (halted sink m' .emptyStack) := by
  simp [ofCommands, h]

theorem ofCommands_fault {cause : Fault}
    (h : m.perform division command = (m', .error (.fault cause))) (commands : List Command) :
    ofCommands division trailing sink m (command :: commands) =
      recorded (.state m command) (broken m' [] (.fault cause)) := by
  simp [ofCommands, h]

theorem machine_halted (sink : Sink) (m : Machine) (cause : ProgramError) :
    (halted sink m cause).machine = m := by
  unfold halted
  rcases sink.write (outputLine cause.message) with ⟨bs, _ | sink'⟩ <;> rfl

end Execution

end StackScript
