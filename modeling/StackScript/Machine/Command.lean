import StackScript.Word

/-!
# Commands

The eight operations of the machine with their keywords, and the commands made of them. Keywords are
compared character by character, so case matters (`ofKeyword?_eq_some_iff`).
-/

set_option autoImplicit false

namespace StackScript

inductive Opcode where
  | push
  | add
  | sub
  | mult
  | div
  | mod
  | pop
  | print
  deriving DecidableEq, Repr

namespace Opcode

/-- Every opcode, in the order in which they are listed. -/
def all : List Opcode := [push, add, sub, mult, div, mod, pop, print]

def keyword : Opcode → String
  | push => "PUSH"
  | add => "ADD"
  | sub => "SUB"
  | mult => "MULT"
  | div => "DIV"
  | mod => "MOD"
  | pop => "POP"
  | print => "PRINT"

def ofKeyword? (w : String) : Option Opcode := all.find? fun op => op.keyword == w

theorem mem_all (op : Opcode) : op ∈ all := by cases op <;> decide

theorem keyword_injective {a b : Opcode} (h : a.keyword = b.keyword) : a = b := by
  revert h
  cases a <;> cases b <;> decide

theorem ofKeyword?_eq_some_iff {w : String} {op : Opcode} :
    ofKeyword? w = some op ↔ op.keyword = w := by
  constructor
  · intro h
    simpa using List.find?_some h
  · rintro rfl
    cases h : ofKeyword? op.keyword with
    | none => simpa using List.find?_eq_none.1 h op (mem_all op)
    | some found =>
      have hk : found.keyword = op.keyword := by simpa using List.find?_some h
      rw [keyword_injective hk]

end Opcode

/-- What the machine carries out one at a time. -/
inductive Command where
  | literal (value : Word)
  | op (opcode : Opcode)
  deriving DecidableEq

def Command.text : Command → String
  | .literal value => value.text
  | .op opcode => opcode.keyword

end StackScript
