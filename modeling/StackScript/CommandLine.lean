import StackScript.CommandLine.Directory
import StackScript.CommandLine.Options

/-!
# The command line

`CommandLine.run` is the whole program: it reads the words of the command line, then the program
text, then evaluates the text as often as it was asked to on one interpreter. The first evaluation
that is broken off ends the passes; a program error does not. The output takes all that the passes
write, and is flushed behind them.
-/

set_option autoImplicit false

namespace StackScript.CommandLine

inductive Failure where
  | usage (cause : UsageError)
  | noProgram
  /-- The program text could not be read from its file. -/
  | unreadable (path : String) (cause : ReadError)
  | broken (cause : EvalError)
  /-- The output could not be flushed. -/
  | unflushed (cause : String)
  deriving DecidableEq, Repr

/-- What the program logs of a failure. Of words that are no arguments it logs nothing itself. -/
def Failure.message : Failure → String
  | .usage _ => ""
  | .noProgram => "no program given; pass SOURCE or --file"
  | .unreadable path cause => "Failed to read " ++ path ++ ": " ++ cause.message
  | .broken cause => cause.message
  | .unflushed cause => "unable to write program output: " ++ cause

def Failure.exitCode : Failure → Nat
  | .usage _ => 2
  | _ => 1

structure Outcome where
  out : List UInt8 := []
  failure : Option Failure := none
  deriving DecidableEq

def Outcome.exitCode (o : Outcome) : Nat :=
  match o.failure with
  | none => 0
  | some f => f.exitCode

/-- Evaluates a template `n` times, or up to the first evaluation that is broken off. -/
def passes (template : Template) (bindings : Bindings) : Nat → Interpreter → Outcome
  | 0, _ => {}
  | n + 1, i =>
    let (next, e) := i.eval template bindings .unlimited
    match e.result with
    | .error cause => { out := e.out, failure := some (.broken cause) }
    | .ok _ =>
      let rest := passes template bindings n next
      { rest with out := e.out ++ rest.out }

@[simp] theorem passes_zero (template : Template) (bindings : Bindings) (i : Interpreter) :
    passes template bindings 0 i = {} := rfl

theorem passes_of_error {template : Template} {bindings : Bindings} {i : Interpreter}
    {cause : EvalError} (h : (i.eval template bindings .unlimited).2.result = .error cause)
    (n : Nat) :
    passes template bindings (n + 1) i =
      ⟨(i.eval template bindings .unlimited).2.out, some (.broken cause)⟩ := by
  simp [passes, h]

theorem passes_of_ok {template : Template} {bindings : Bindings} {i : Interpreter} {halt : Halt}
    (h : (i.eval template bindings .unlimited).2.result = .ok halt) (n : Nat) :
    passes template bindings (n + 1) i =
      ⟨(i.eval template bindings .unlimited).2.out
          ++ (passes template bindings n (i.eval template bindings .unlimited).1).out,
        (passes template bindings n (i.eval template bindings .unlimited).1).failure⟩ := by
  simp [passes, h]

/-- Flushes the output. That this fails is reported unless there was a failure before. -/
def Outcome.flushed (flush : Except String Unit) (o : Outcome) : Outcome :=
  match o.failure, flush with
  | none, .error cause => { o with failure := some (.unflushed cause) }
  | _, _ => o

@[simp] theorem Outcome.flushed_ok (o : Outcome) : o.flushed (.ok ()) = o := by
  unfold flushed
  cases o.failure <;> rfl

/-- Evaluates a program text as the options ask for, on an output that flushes with this result. -/
def evaluate (o : Options) (text : String) (flush : Except String Unit) : Outcome :=
  (passes (.parse text) o.values o.passes (Interpreter.new o.config).1).flushed flush

def textOf (content : Except ReadError (List UInt8)) : Except ReadError String :=
  match content with
  | .error cause => .error cause
  | .ok bytes =>
    match Text.decode? bytes with
    | some text => .ok text
    | none => .error .invalidText

def programText (readFile : String → Except ReadError (List UInt8)) :
    Origin → Except Failure String
  | .nowhere => .error .noProgram
  | .source text => .ok text
  | .file path => (textOf (readFile path)).mapError (.unreadable path)

def perform (readFile : String → Except ReadError (List UInt8)) (o : Options)
    (flush : Except String Unit) : Outcome :=
  match programText readFile o.origin with
  | .error f => { failure := some f }
  | .ok text => evaluate o text flush

/-- Reads the words of a command line and does what they ask for. -/
def run (readFile : String → Except ReadError (List UInt8)) (words : List String)
    (flush : Except String Unit := .ok ()) : Outcome :=
  match Options.parse words with
  | .error cause => { failure := some (.usage cause) }
  | .ok o => perform readFile o flush

end StackScript.CommandLine
