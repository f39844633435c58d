import StackScript.Machine.Command
import StackScript.Text.Space

/-!
# Code

A program text is read as the commands of its tokens up to the first token that is none.
-/

set_option autoImplicit false

namespace StackScript

/-- Why a program stops of itself. -/
inductive ProgramError where
  /-- A token that is neither a literal nor a keyword. -/
  | badToken (token : String)
  | emptyStack
  deriving DecidableEq, Repr

def ProgramError.message : ProgramError → String
  | .badToken token => "Invalid token: " ++ token
  | .emptyStack => "Empty stack!"

/-! ## Tokens -/

/-- The word that a token is the canonical decimal text of. -/
def literal? (token : String) : Option Word :=
  match Word.read token with
  | .ok value => if value.text = token then some value else none
  | .error _ => none

def classify (token : String) : Except ProgramError Command :=
  match literal? token with
  | some value => .ok (.literal value)
  | none =>
    match Opcode.ofKeyword? token with
    | some opcode => .ok (.op opcode)
    | none => .error (.badToken token)

/-! ## Program text -/

structure Code where
  commands : List Command
  /-- The first bad token, if the text has one. -/
  badToken : Option String
  deriving DecidableEq

namespace Code

def cons (command : Command) (c : Code) : Code :=
  { c with commands := command :: c.commands }

def ofTokens : List String → Code
  | [] => ⟨[], none⟩
  | token :: tokens =>
    match classify token with
    | .ok command => (ofTokens tokens).cons command
    | .error _ => ⟨[], some token⟩

def ofSource (source : String) : Code := ofTokens (tokenize source)

/-- The error that ends a run once every command has been carried out. -/
def trailingError (c : Code) : Option ProgramError := c.badToken.map .badToken

theorem ofTokens_cons_ok {token : String} {command : Command} (h : classify token = .ok command)
    (tokens : List String) : ofTokens (token :: tokens) = (ofTokens tokens).cons command := by
  simp [ofTokens, h]

theorem ofTokens_cons_error {token : String} {e : ProgramError} (h : classify token = .error e)
    (tokens : List String) : ofTokens (token :: tokens) = ⟨[], some token⟩ := by
  simp [ofTokens, h]

end Code

end StackScript
