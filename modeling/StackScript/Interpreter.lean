import StackScript.Cache
import StackScript.Interpreter.Execution

/-!
# The interpreter

An interpreter runs one program after another, each on a machine of its own. Between runs it keeps
nothing but a cache of the code of their texts.
-/

set_option autoImplicit false

namespace StackScript

structure Config where
  /-- How many programs to cache; zero means no cache. -/
  cacheCapacity : Nat := 32
  division : Division := .truncate
  deriving DecidableEq, Repr

def maxCacheCapacity : Nat := 4096

structure Interpreter where
  division : Division
  /-- The code of sources that were run. -/
  cache : Option (Cache String Code)

structure Evaluation where
  log : List Record
  out : List UInt8
  result : Except EvalError Halt

structure Capture where
  log : List Record
  /-- The lines of the output, also of a run that was broken off. -/
  lines : List String
  failure : Option EvalError

def Execution.evaluation (e : Execution) : Evaluation := ⟨e.log, e.out, e.result⟩

namespace Interpreter

/-- A new interpreter, and the records of its making. A cache with room for a program can always be
made, so there is no record of one that could not. -/
def new (config : Config) : Interpreter × List Record :=
  let capacity := min config.cacheCapacity maxCacheCapacity
  ({ division := config.division
     cache := if capacity = 0 then none else some (.empty capacity) },
   if maxCacheCapacity < config.cacheCapacity then
     [.cacheClamped config.cacheCapacity maxCacheCapacity]
   else [])

def cachedPrograms (i : Interpreter) : Nat :=
  match i.cache with
  | none => 0
  | some cache => cache.size

/-- The code of a source, from the cache if it is there. -/
def codeOf (i : Interpreter) (source : String) : Interpreter × Code × List Record :=
  match i.cache with
  | none => (i, .ofSource source, [])
  | some cache =>
    match cache.get? source with
    | some (code, cache) => ({ i with cache := some cache }, code, [.cacheHit])
    | none =>
      let code := Code.ofSource source
      ({ i with cache := some (cache.put source code) }, code, [.cacheMiss])

def run (i : Interpreter) (source : String) (sink : Sink) : Interpreter × Execution :=
  let (next, code, records) := i.codeOf source
  let e := Execution.ofCode i.division sink .initial code
  (next, { e with log := records ++ e.log })

/-- Fills in a template and runs the text. Nothing is run if the template cannot be filled in. -/
def eval (i : Interpreter) (template : Template) (bindings : Bindings) (sink : Sink) :
    Interpreter × Evaluation :=
  match template.render bindings with
  | .error cause => (i, ⟨[], [], .error (.template cause)⟩)
  | .ok source =>
    let (next, e) := i.run source sink
    (next, e.evaluation)

def capture (i : Interpreter) (template : Template) (bindings : Bindings) : Interpreter × Capture :=
  let (next, e) := i.eval template bindings .unlimited
  (next,
   { log := e.log
     lines := Text.lines (Text.decodeFront e.out)
     failure :=
       match e.result with
       | .ok _ => none
       | .error cause => some cause })

/-! ## Evaluations -/

theorem eval_of_error {template : Template} {bindings : Bindings} {cause : TemplateError}
    (h : template.render bindings = .error cause) (i : Interpreter) (sink : Sink) :
    i.eval template bindings sink = (i, ⟨[], [], .error (.template cause)⟩) := by
  simp [eval, h]

theorem eval_of_ok {template : Template} {bindings : Bindings} {source : String}
    (h : template.render bindings = .ok source) (i : Interpreter) (sink : Sink) :
    i.eval template bindings sink =
      ((i.run source sink).1, (i.run source sink).2.evaluation) := by
  simp [eval, h]

end Interpreter

end StackScript
