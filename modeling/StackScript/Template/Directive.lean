import StackScript.Bindings

/-!
# Items and directives

A template is a row of items: plain characters, percent signs written twice, and fields written
`%<name>d`. `Directive.read` reads what follows a percent sign. Where that is no item the reason is
the first of four that holds. A name ends at the first closing bracket; anything else may stand in
it.
-/

set_option autoImplicit false

namespace StackScript

/-! ## Items -/

inductive Item where
  | char (c : Char)
  | percent
  | field (name : String)
  deriving DecidableEq

namespace Item

def written : Item → List Char
  | char c => [c]
  | percent => ['%', '%']
  | field name => '%' :: '<' :: name.toList ++ ['>', 'd']

def writtenRow (is : List Item) : String := String.ofList (is.flatMap written)

/-- How many bytes reading an item goes ahead. -/
def width : Item → Nat
  | char c => c.utf8Size
  | percent => 2
  | field name => name.utf8ByteSize + 4

def name? : Item → Option String
  | field name => some name
  | _ => none

/-- The text that an item stands for. The error is a name that is not bound. -/
def shown? (b : Bindings) : Item → Except String (List Char)
  | char c => .ok [c]
  | percent => .ok ['%']
  | field name =>
    match b.get? name with
    | some value => .ok value.text.toList
    | none => .error name

end Item

/-! ## Directives -/

namespace Directive

inductive Reason where
  | noDirective
  | unterminated
  | emptyName
  /-- No `d` follows the closing bracket. -/
  | noConversion
  deriving DecidableEq, Repr

def Reason.message : Reason → String
  | .noDirective => "expected `%<name>d` or `%%`"
  | .unterminated => "unterminated placeholder name"
  | .emptyName => "empty placeholder name"
  | .noConversion => "placeholder must use the `d` conversion"

/-- Reads a name, its closing bracket and the `d` after it. Gives the field and what follows it. -/
def readField (cs : List Char) : Except Reason (Item × List Char) :=
  match cs.takeWhile (· != '>'), cs.dropWhile (· != '>') with
  | _, [] => .error .unterminated
  | [], _ :: _ => .error .emptyName
  | n :: name, _ :: after =>
    match after with
    | 'd' :: rest => .ok (.field (String.ofList (n :: name)), rest)
    | _ => .error .noConversion

def read : List Char → Except Reason (Item × List Char)
  | '%' :: rest => .ok (.percent, rest)
  | '<' :: body => readField body
  | _ => .error .noDirective

theorem length_of_readField {cs rest : List Char} {i : Item} (h : readField cs = .ok (i, rest)) :
    rest.length < cs.length := by
  have hd : (cs.dropWhile (· != '>')).length ≤ cs.length := (List.dropWhile_sublist _).length_le
  unfold readField at h
  split at h
  · cases h
  · cases h
  · rename_i heq
    split at h
    · rw [heq] at hd
      cases h
      simp only [List.length_cons] at hd
      omega
    · cases h

theorem length_of_read {cs rest : List Char} {i : Item} (h : read cs = .ok (i, rest)) :
    rest.length < cs.length := by
  unfold read at h
  split at h
  · cases h
    simp
  · exact Nat.lt_succ_of_lt (length_of_readField h)
  · cases h

end Directive

end StackScript
