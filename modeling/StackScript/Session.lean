import StackScript.Interpreter

/-!
# Sessions

A session puts one interpreter through a list of steps and reports on each.
-/

set_option autoImplicit false

namespace StackScript

/-- One use of an interpreter. A limit is the number of bytes the step's sink takes. -/
inductive Step where
  | run (source : String) (limit : Option Nat)
  | eval (template : Template) (bindings : Bindings) (limit : Option Nat)
  | capture (template : Template) (bindings : Bindings)

inductive Answer where
  /-- The bytes that reached the sink, and how the run ended. -/
  | ran (out : List UInt8) (result : Except EvalError Halt)
  /-- The lines of the output, and why the run was broken off. -/
  | captured (lines : List String) (failure : Option EvalError)

structure Report where
  answer : Answer
  log : List Record
  cached : Nat

namespace Interpreter

def step (i : Interpreter) : Step → Interpreter × Report
  | .run source limit =>
    let (next, e) := i.run source ⟨limit⟩
    (next, ⟨.ran e.out e.result, e.log, next.cachedPrograms⟩)
  | .eval template bindings limit =>
    let (next, e) := i.eval template bindings ⟨limit⟩
    (next, ⟨.ran e.out e.result, e.log, next.cachedPrograms⟩)
  | .capture template bindings =>
    let (next, c) := i.capture template bindings
    (next, ⟨.captured c.lines c.failure, c.log, next.cachedPrograms⟩)

def session (i : Interpreter) : List Step → Interpreter × List Report
  | [] => (i, [])
  | s :: steps =>
    let (next, report) := i.step s
    let (last, reports) := next.session steps
    (last, report :: reports)

theorem session_cons (i : Interpreter) (s : Step) (steps : List Step) :
    i.session (s :: steps) =
      (((i.step s).1.session steps).1, (i.step s).2 :: ((i.step s).1.session steps).2) := rfl

end Interpreter

end StackScript
