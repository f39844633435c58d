import StackScript.Division
import StackScript.Machine.Command
import StackScript.Machine.Stack

/-!
# The machine

A register and an operand stack. An operation that needs an operand takes it off the stack first, so
a fault leaves the register and loses the operand, while an empty stack leaves all as it was
(`consume_empty`, `consume_fault`).
-/

set_option autoImplicit false

namespace StackScript

structure Machine where
  register : Word := 0
  stack : Stack := .empty
  deriving DecidableEq

/-- Why a command could not be carried out. -/
inductive Trap where
  | emptyStack
  | fault (cause : Fault)
  deriving DecidableEq, Repr

/-- The word that a command prints, if any. -/
abbrev Outcome := Except Trap (Option Word)

namespace Machine

def initial : Machine := {}

def text (m : Machine) : String :=
  "Cpu [ register: " ++ m.register.text ++ ", stack: " ++ m.stack.text ++ " ]"

def load (m : Machine) (value : Word) : Machine := { m with register := value }

/-- Takes the top operand off the stack and lets `f` compute the register from it. -/
def consume (m : Machine) (f : Word → Except Fault Word) : Machine × Outcome :=
  match m.stack.pop? with
  | none => (m, .error .emptyStack)
  | some (operand, rest) =>
    match f operand with
    | .ok result => (⟨result, rest⟩, .ok none)
    | .error cause => ({ m with stack := rest }, .error (.fault cause))

/-- The register is the left operand of arithmetic and the popped word the right one. -/
def execute (division : Division) (m : Machine) : Opcode → Machine × Outcome
  | .push => ({ m with stack := m.stack.push m.register }, .ok none)
  | .add => m.consume m.register.addExact
  | .sub => m.consume m.register.subExact
  | .mult => m.consume m.register.mulExact
  | .div => m.consume (division.quot m.register)
  | .mod => m.consume (division.rem m.register)
  | .pop => m.consume .ok
  | .print => (m, .ok (some m.register))

def perform (division : Division) (m : Machine) : Command → Machine × Outcome
  | .literal value => (m.load value, .ok none)
  | .op opcode => m.execute division opcode

/-! ## Facts -/

theorem consume_empty {m : Machine} (f : Word → Except Fault Word) (h : m.stack.pop? = none) :
    m.consume f = (m, .error .emptyStack) := by
  simp [consume, h]

theorem consume_ok {m : Machine} {f : Word → Except Fault Word} {a r : Word} {s : Stack}
    (h : m.stack.pop? = some (a, s)) (hf : f a = .ok r) :
    m.consume f = (⟨r, s⟩, .ok none) := by
  simp [consume, h, hf]

theorem consume_fault {m : Machine} {f : Word → Except Fault Word} {a : Word} {s : Stack}
    {e : Fault} (h : m.stack.pop? = some (a, s)) (hf : f a = .error e) :
    m.consume f = (⟨m.register, s⟩, .error (.fault e)) := by
  simp [consume, h, hf]

end Machine

end StackScript
