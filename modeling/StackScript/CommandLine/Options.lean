import StackScript.Binding
import StackScript.Bindings
import StackScript.CommandLine.Argument
import StackScript.Interpreter

/-!
# Options of a run

A program text, a file, the rounding, the size of the cache and the number of passes are each said
once at most, and not both a program text and a file; bindings may be said any number of times, and
the last one of a name counts.
-/

set_option autoImplicit false

namespace StackScript.CommandLine

inductive Origin where
  | nowhere
  | source (text : String)
  | file (path : String)
  deriving DecidableEq, Repr

structure Options where
  origin : Origin
  /-- The bindings in the order in which they were given. -/
  bindings : List Binding := []
  division : Division := .truncate
  cacheCapacity : Nat := 32
  passes : Nat := 1
  deriving DecidableEq

namespace Options

def atMostOne {α : Type} (what : String) : List α → Except UsageError (Option α)
  | [] => .ok none
  | [a] => .ok (some a)
  | _ => .error (.saidTwice what)

/-- The value of an option that is given at most once. -/
def single (name : ValueOption) (args : List Argument) : Except UsageError (Option String) :=
  atMostOne ("--" ++ name.long) (args.filterMap (Argument.value? name))

/-- Reads a natural number of 64 bits that is at most `most`. -/
def readNumber (name : ValueOption) (most : Nat) (value : String) : Except UsageError Nat :=
  match Numeral.read .unsigned64 value.toList with
  | .ok n => if n.toNat ≤ most then .ok n.toNat else .error (.invalidValue name value)
  | .error _ => .error (.invalidValue name value)

def number (name : ValueOption) (most byDefault : Nat) (args : List Argument) :
    Except UsageError Nat := do
  match ← single name args with
  | none => return byDefault
  | some value => readNumber name most value

def rounding (args : List Argument) : Except UsageError Division := do
  match ← atMostOne "--floor" (args.filter (· = .floor)) with
  | none => return .truncate
  | some _ => return .floor

/-- Where the program text comes from. A file has a name that is not empty. -/
def programOrigin (args : List Argument) : Except UsageError Origin := do
  let source ← atMostOne "SOURCE" (args.filterMap Argument.source?)
  let file ← single .file args
  match source, file with
  | none, none => return .nowhere
  | some text, none => return .source text
  | none, some path => if path = "" then throw (.invalidValue .file path) else return .file path
  | some _, some _ => throw .sourceAndFile

def readBinding (value : String) : Except UsageError Binding :=
  (Binding.parse value).mapError fun _ => .invalidValue .binding value

def ofArguments (args : List Argument) : Except UsageError Options := do
  let origin ← programOrigin args
  let bindings ← (args.filterMap (Argument.value? .binding)).mapM readBinding
  let division ← rounding args
  let cacheCapacity ← number .cache maxCacheCapacity 32 args
  let passes ← number .passes (UInt64.size - 1) 1 args
  return { origin, bindings, division, cacheCapacity, passes }

def parse (words : List String) : Except UsageError Options :=
  Argument.readAll words >>= ofArguments

def config (o : Options) : Config := ⟨o.cacheCapacity, o.division⟩

def values (o : Options) : Bindings := .ofList (o.bindings.map fun b => (b.name, b.value))

end Options

end StackScript.CommandLine
