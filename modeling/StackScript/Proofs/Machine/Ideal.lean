import StackScript.Proofs.Arithmetic
import StackScript.Proofs.Execution.Course

/-!
# The machine over the integers

`Ideal` is the machine whose register and stack hold integers of any size. It gets stuck at an
operand that is not there and at a divisor that is zero, and nowhere else. `Ideal.course` follows it
up to the first command at which it is stuck or its result is no word.

The machine goes through the same states, emits the same values and stops at the same command for
the same reason (`course_eq_ideal`): every command does on words what it does on integers, as long
as the result is a word (`bounded_ideal`).
-/

set_option autoImplicit false

namespace StackScript

open Numeral (Bounds)

structure Ideal where
  register : Int := 0
  /-- The integers on the stack, the top one first. -/
  stack : List Int := []
  deriving DecidableEq

namespace Ideal

/-- Takes the top operand off the stack and computes the register from it. -/
def consume (m : Ideal) (f : Int → Except Fault Int) : Except Trap (Ideal × Option Int) :=
  match m.stack with
  | [] => .error .emptyStack
  | operand :: rest =>
    match f operand with
    | .ok result => .ok (⟨result, rest⟩, none)
    | .error cause => .error (.fault cause)

/-- The result of an operation that has none for a divisor that is zero. -/
def unlessZero (f : Int → Int) (divisor : Int) : Except Fault Int :=
  if divisor = 0 then .error .divisionByZero else .ok (f divisor)

def perform (division : Division) (m : Ideal) : Command → Except Trap (Ideal × Option Int)
  | .literal value => .ok ({ m with register := value.toInt }, none)
  | .op .push => .ok ({ m with stack := m.register :: m.stack }, none)
  | .op .add => m.consume fun b => .ok (m.register + b)
  | .op .sub => m.consume fun b => .ok (m.register - b)
  | .op .mult => m.consume fun b => .ok (m.register * b)
  | .op .div => m.consume (unlessZero (division.quotient m.register))
  | .op .mod => m.consume (unlessZero (division.remainder m.register))
  | .op .pop => m.consume .ok
  | .op .print => .ok (m, some m.register)

/-- An overflow where the register is no word. -/
def bounded (x : Except Trap (Ideal × Option Int)) : Except Trap (Ideal × Option Int) :=
  match x with
  | .ok (m, value) =>
    if Bounds.signed64.Contains m.register then .ok (m, value) else .error (.fault .overflow)
  | .error trap => .error trap

/-- The course of commands up to the first that is stuck or whose result is no word. -/
def course (division : Division) (m : Ideal) (commands : List Command) : Course Ideal Int :=
  Course.ofCommands (fun m command => bounded (m.perform division command)) m commands

end Ideal

/-- The machine with its words as integers. -/
def Machine.ideal (m : Machine) : Ideal := ⟨m.register.toInt, m.stack.words.map Int64.toInt⟩

namespace Machine

variable {division : Division} {m m' : Machine} {command : Command}

/-- What a step gives, with words as integers. -/
def idealStep (x : Except Trap (Machine × Option Word)) : Except Trap (Ideal × Option Int) :=
  x.map fun p => (p.1.ideal, p.2.map Int64.toInt)

theorem bounded_ok (m : Machine) (value : Option Int) :
    Ideal.bounded (.ok (m.ideal, value)) = .ok (m.ideal, value) :=
  if_pos (Word.contains_toInt m.register)

/-- An operation on words that gives the word of the result of an operation on integers does to the
machine what the latter does to the ideal one. -/
theorem bounded_consume {f : Word → Except Fault Word} {g : Int → Except Fault Int}
    (hfg : ∀ b : Word, f b = g b.toInt >>= Word.exact) (m : Machine) :
    Ideal.bounded (m.ideal.consume g) = idealStep (stepOf (m.consume f)) := by
  obtain ⟨register, ⟨words⟩⟩ := m
  cases words with
  | nil => rfl
  | cons b rest =>
    have hp : (Machine.mk register ⟨b :: rest⟩).stack.pop? = some (b, ⟨rest⟩) := rfl
    have hf := hfg b
    simp only [Ideal.consume, ideal, List.map_cons]
    cases hg : g b.toInt with
    | error cause =>
      rw [hg] at hf
      rw [consume_fault hp hf]
      rfl
    | ok v =>
      rw [hg] at hf
      by_cases hv : Bounds.signed64.Contains v
      · rw [consume_ok hp (hf.trans (Word.exact_of_contains hv))]
        simp only [Ideal.bounded, if_pos hv, stepOf, idealStep, Except.map, ideal,
          Word.toInt_ofInt hv, Option.map_none]
      · rw [consume_fault hp (hf.trans (Word.exact_overflow hv))]
        simp only [Ideal.bounded, if_neg hv, stepOf, idealStep, Except.map]

/-! ## One command -/

theorem exact_toInt (a : Word) : Word.exact a.toInt = .ok a := by
  rw [Word.exact_of_contains (Word.contains_toInt a), Int64.ofInt_toInt]

theorem eq_unlessZero_bind {f : Word → Except Fault Word} {g : Int → Int}
    (h0 : f 0 = .error .divisionByZero) (hf : ∀ b, b ≠ 0 → f b = Word.exact (g b.toInt))
    (b : Word) : f b = Ideal.unlessZero g b.toInt >>= Word.exact := by
  by_cases hb : b = 0
  · subst hb
    exact h0
  · rw [Ideal.unlessZero, if_neg fun h => hb (Division.toInt_eq_zero_iff.1 h)]
    exact hf b hb

theorem bounded_ideal (division : Division) (m : Machine) (command : Command) :
    Ideal.bounded (m.ideal.perform division command) = idealStep (m.step division command) := by
  cases command with
  | literal value => exact bounded_ok (m.load value) none
  | op opcode =>
    simp only [Ideal.perform, step, perform]
    cases opcode with
    | push => exact bounded_ok ⟨m.register, m.stack.push m.register⟩ none
    | add => exact bounded_consume (fun b => Word.addExact_eq_exact m.register b) m
    | sub => exact bounded_consume (fun b => Word.subExact_eq_exact m.register b) m
    | mult => exact bounded_consume (fun b => Word.mulExact_eq_exact m.register b) m
    | div =>
      have hq : ∀ b, b ≠ 0 → division.quot m.register b =
          Word.exact (division.quotient m.register.toInt b.toInt) :=
        fun b => division.quot_eq_exact m.register
      exact bounded_consume (eq_unlessZero_bind (division.quot_zero _) hq) m
    | mod =>
      have hr : ∀ b, b ≠ 0 → division.rem m.register b =
          Word.exact (division.remainder m.register.toInt b.toInt) :=
        fun b => division.rem_eq_exact m.register
      exact bounded_consume (eq_unlessZero_bind (division.rem_zero _) hr) m
    -- a popped operand is a word, so the bound on the result does nothing
    | pop => exact bounded_consume (f := .ok) (g := .ok) (fun b => (exact_toInt b).symm) m
    | print => exact bounded_ok m (some m.register.toInt)

/-! ## Courses -/

theorem map_course (division : Division) (m : Machine) (commands : List Command) :
    (m.course division commands).map ideal Int64.toInt = m.ideal.course division commands := by
  unfold course Ideal.course
  induction commands generalizing m with
  | nil => rfl
  | cons command commands ih =>
    have hb := bounded_ideal division m command
    cases hs : m.step division command with
    | error trap =>
      rw [hs] at hb
      rw [Course.ofCommands_error hs, Course.ofCommands_error hb]
      rfl
    | ok p =>
      obtain ⟨m', value⟩ := p
      rw [hs] at hb
      rw [Course.ofCommands_ok hs, Course.ofCommands_ok hb, Course.map_cons, ih]

theorem mod_ne_overflow (division : Division) (m : Machine) :
    (m.execute division .mod).2 ≠ .error (.fault .overflow) := by
  show (m.consume (division.rem m.register)).2 ≠ _
  cases hp : m.stack.pop? with
  | none => simp [consume_empty _ hp]
  | some p =>
    obtain ⟨operand, rest⟩ := p
    cases hr : division.rem m.register operand with
    | ok result => simp [consume_ok hp hr]
    | error cause =>
      rw [consume_fault hp hr]
      rintro ⟨⟩
      exact division.rem_ne_overflow m.register operand hr

/-- The machine goes through the states of the ideal one, emits what it emits and stops where it is
stuck or its result is no word. What it writes follows from that. The opcode of remainders never
overflows. -/
theorem course_eq_ideal (division : Division) (commands : List Command) :
    (initial.course division commands).map ideal Int64.toInt =
        Ideal.course division {} commands ∧
      (∀ trailing, let c := Ideal.course division {} commands
        let e := Execution.ofCommands division trailing .unlimited initial commands
        e.out = (c.emitted.map Numeral.text ++ (Stop.ofTrap c.trap trailing).lines).flatMap
            outputLine ∧
          e.result = (Stop.ofTrap c.trap trailing).result) ∧
      ∀ m : Machine, (m.execute division .mod).2 ≠ .error (.fault .overflow) := by
  have hc : (initial.course division commands).map ideal Int64.toInt =
      Ideal.course division {} commands := map_course division initial commands
  refine ⟨hc, fun trailing => ?_, mod_ne_overflow division⟩
  have hw := Execution.ofCommands_unlimited division trailing initial commands
  rw [← hc]
  simp only [Course.map, List.map_map]
  exact hw

end Machine

end StackScript
