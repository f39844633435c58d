import StackScript.Text.Space
import StackScript.Word

/-!
# A binding in text

`Binding.parse` reads NAME=VALUE. The name ends at the first equals sign; blanks around the name and
around the value do not count; the value is a decimal numeral in the range of words.
-/

set_option autoImplicit false

namespace StackScript

structure Binding where
  name : String
  value : Word
  deriving DecidableEq

inductive BindingError where
  | noEquals (text : String)
  /-- Only blanks stand before the equals sign. -/
  | emptyName (text : String)
  | invalidValue (name : String) (cause : Numeral.Error)
  deriving DecidableEq, Repr

def BindingError.message : BindingError → String
  | .noEquals text => "expected NAME=VALUE, got `" ++ text ++ "`"
  | .emptyName text => "empty binding name in `" ++ text ++ "`"
  | .invalidValue name cause => "invalid value for `" ++ name ++ "`: " ++ cause.message

namespace Binding

def splitEquals? (cs : List Char) : Option (List Char × List Char) :=
  match cs.dropWhile (· != '=') with
  | [] => none
  | _ :: after => some (cs.takeWhile (· != '='), after)

def parse (text : String) : Except BindingError Binding :=
  match splitEquals? text.toList with
  | none => .error (.noEquals text)
  | some (before, after) =>
    let name := String.ofList (Text.trim before)
    if name = "" then .error (.emptyName text)
    else
      match Word.read (String.ofList (Text.trim after)) with
      | .ok value => .ok ⟨name, value⟩
      | .error cause => .error (.invalidValue name cause)

end Binding

end StackScript
