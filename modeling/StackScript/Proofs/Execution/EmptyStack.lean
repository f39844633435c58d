import StackScript.Proofs.Execution.Interleaving
import StackScript.Proofs.Machine.Operands

/-!
# Runs that find no operand

A run stops at its first trap (`Machine.trap_course_iff`). Which command is the first to find no
operand can be read off the commands, since a fault takes its operand like any success: it is the
last of the shortest front that overdraws (`Machine.first_emptyStack_iff`). So a run ends with an
empty stack exactly if there is such a front and nothing in it faults
(`Interpreter.stack_discipline`).
-/

set_option autoImplicit false

namespace StackScript

open Command (Overdraws Balanced Unmatched consumes)

namespace Machine

/-- What the `n`-th command gives if the machine goes on after traps. -/
def outcomeAt (division : Division) (m : Machine) (commands : List Command) (n : Nat) :
    Option Outcome :=
  commands[n]?.map fun command =>
    ((m.performAll division (commands.take n)).perform division command).2

variable {division : Division} {m : Machine} {c : Command} {cs : List Command} {i j n : Nat}

theorem outcomeAt_zero : outcomeAt division m (c :: cs) 0 = some (m.perform division c).2 := rfl

theorem outcomeAt_succ : outcomeAt division m (c :: cs) (n + 1) =
    outcomeAt division (m.perform division c).1 cs n := rfl

/-! ## The first trap -/

/-- A course ends at the first command that traps. -/
theorem trap_course_iff {trap : Trap} : (m.course division cs).trap = some trap ↔
    ∃ j, outcomeAt division m cs j = some (.error trap) ∧
      ∀ i < j, ∀ trap', outcomeAt division m cs i ≠ some (.error trap') := by
  induction cs generalizing m with
  | nil => simp [course, Course.ofCommands, outcomeAt]
  | cons c cs ih =>
    rcases hp : m.perform division c with ⟨m', outcome⟩
    have hsucc (n : Nat) : outcomeAt division m (c :: cs) (n + 1) = outcomeAt division m' cs n := by
      rw [outcomeAt_succ, hp]
    have hzero : outcomeAt division m (c :: cs) 0 = some outcome := by rw [outcomeAt_zero, hp]
    cases outcome with
    | ok value =>
      have htrap : (m.course division (c :: cs)).trap = (m'.course division cs).trap := by
        rw [course_ok hp]
        rfl
      rw [htrap, ih]
      constructor
      · rintro ⟨j, hj, hi⟩
        refine ⟨j + 1, (hsucc j).trans hj, ?_⟩
        rintro (_ | i) hlt trap'
        · simp [hzero]
        · rw [hsucc]
          exact hi i (by omega) trap'
      · rintro ⟨_ | j, hj, hi⟩
        · simp [hzero] at hj
        · refine ⟨j, (hsucc j).symm.trans hj, fun i hlt trap' => ?_⟩
          rw [← hsucc]
          exact hi (i + 1) (by omega) trap'
    | error trap' =>
      rw [course_error hp]
      constructor
      · rintro ⟨⟩
        exact ⟨0, hzero, by simp⟩
      · rintro ⟨_ | j, hj, hi⟩
        · simpa [hzero] using hj
        · exact absurd hzero (hi 0 (by omega) trap')

/-! ## The first empty stack -/

theorem outcomeAt_eq_emptyStack_iff : outcomeAt division m cs n = some (.error .emptyStack) ↔
    cs[n]?.any consumes ∧ (m.performAll division (cs.take n)).stack.height = 0 := by
  unfold outcomeAt
  cases cs[n]? with
  | none => simp
  | some c => simp [emptyStack_iff]

/-- Commands of which no front overdraws leave one word for each push that is not used up. -/
theorem height_add_consumes (division : Division) (hf : ∀ n, ¬ Overdraws (cs.take n)) :
    (initial.performAll division cs).stack.height + cs.countP consumes =
      cs.countP Command.pushes := by
  have hfold := Command.foldl_heightAfter 0 cs
  rw [Command.taken_eq_zero_iff.2 hf] at hfold
  rw [height_performAll, show initial.stack.height = 0 from rfl]
  simpa using hfold

theorem emptyStack_of_isLeast (division : Division)
    (h : IsLeast {n | Overdraws (cs.take n)} (j + 1)) :
    outcomeAt division initial cs j = some (.error .emptyStack) := by
  obtain ⟨hb, hc⟩ := Command.isLeast_overdraws_iff.1 h
  have hheight := height_add_consumes division hb.front
  rw [outcomeAt_eq_emptyStack_iff]
  refine ⟨hc, ?_⟩
  rw [hb.even] at hheight
  omega

theorem isLeast_of_emptyStack (h : outcomeAt division initial cs j = some (.error .emptyStack))
    (hf : ∀ n ≤ j, ¬ Overdraws (cs.take n)) : IsLeast {n | Overdraws (cs.take n)} (j + 1) := by
  obtain ⟨hc, hzero⟩ := outcomeAt_eq_emptyStack_iff.1 h
  have hfront := Command.front_take_iff.2 hf
  have hheight := height_add_consumes division hfront
  rw [hzero, Nat.zero_add] at hheight
  exact Command.isLeast_overdraws_iff.2 ⟨⟨hfront, hheight.symm⟩, hc⟩

/-- The first command to find no operand is the last of the shortest front that overdraws. -/
theorem first_emptyStack_iff (division : Division) : IsLeast {n | Overdraws (cs.take n)} (j + 1) ↔
    outcomeAt division initial cs j = some (.error .emptyStack) ∧
      ∀ i < j, outcomeAt division initial cs i ≠ some (.error .emptyStack) := by
  constructor
  · intro h
    refine ⟨emptyStack_of_isLeast division h, fun i hi he => ?_⟩
    have hf : ∀ n ≤ i, ¬ Overdraws (cs.take n) := fun n hn ho => absurd (h.2 ho) (by omega)
    exact absurd (h.2 (isLeast_of_emptyStack he hf).1) (by omega)
  · rintro ⟨hj, hfirst⟩
    refine isLeast_of_emptyStack hj fun n hn ho => ?_
    obtain ⟨i, hi, hleast⟩ := Command.exists_isLeast_overdraws ho
    exact hfirst i (by omega) (emptyStack_of_isLeast division hleast)

/-- A course ends at an empty stack if nothing faults in the shortest front that overdraws. -/
theorem trap_eq_emptyStack_iff : (initial.course division cs).trap = some .emptyStack ↔
    ∃ n, IsLeast {n | Overdraws (cs.take n)} n ∧
      ∀ i < n, ∀ cause, outcomeAt division initial cs i ≠ some (.error (.fault cause)) := by
  rw [trap_course_iff]
  constructor
  · rintro ⟨j, hj, hi⟩
    have hleast := (first_emptyStack_iff division).2 ⟨hj, fun i hlt => hi i hlt _⟩
    refine ⟨j + 1, hleast, fun i hlt cause => ?_⟩
    rcases Nat.lt_succ_iff_lt_or_eq.1 hlt with hlt | rfl
    · exact hi i hlt _
    · simp [hj]
  · rintro ⟨_ | j, hleast, hfault⟩
    · exact absurd hleast.1 Command.not_overdraws_nil
    · obtain ⟨hj, hfirst⟩ := (first_emptyStack_iff division).1 hleast
      refine ⟨j, hj, fun i hlt trap => ?_⟩
      cases trap with
      | emptyStack => exact hfirst i hlt
      | fault cause => exact hfault i (by omega) cause

/-! ## Discipline -/

/-- What can be said of the stack after commands, the machine going on after traps: how high it is,
which words are on it, and what a next command that traps does to it. -/
structure Disciplined (division : Division) (before : List Command) (m : Machine) : Prop where
  height : m.stack.height = before.foldl Command.heightAfter 0
  operands : ∃ positions : List Nat, positions.Pairwise (· < ·) ∧
    (∀ i, i ∈ positions ↔ Unmatched before i) ∧
    m.stack.toList = positions.map fun i => (initial.performAll division (before.take i)).register
  emptyStack : ∀ command, (m.perform division command).2 = .error .emptyStack ↔
    command.consumes ∧ m.stack.height = 0
  unchanged : ∀ command, (m.perform division command).2 = .error .emptyStack →
    (m.perform division command).1 = m
  fault : ∀ command cause, (m.perform division command).2 = .error (.fault cause) →
    ∃ top, m.stack.pop? = some (top, (m.perform division command).1.stack) ∧
      (m.perform division command).1.register = m.register

theorem disciplined_performAll (division : Division) (before : List Command) :
    Disciplined division before (initial.performAll division before) where
  height := height_performAll division initial before
  operands := by
    refine ⟨Command.openPushes before, Command.pairwise_openPushes before,
      fun i => Command.mem_openPushes, ?_⟩
    rw [toList_performAll]
    simp [initial, Stack.empty]
  emptyStack command := emptyStack_iff
  unchanged command := perform_of_emptyStack
  fault command cause := perform_of_fault

end Machine

theorem Stop.result_eq_emptyStack_iff {trap : Option Trap} {code : Code} :
    (ofTrap trap code.trailingError).result = .ok (.error .emptyStack) ↔
      trap = some .emptyStack := by
  unfold Code.trailingError
  rcases trap with _ | (_ | _) <;> cases code.badToken <;> simp [ofTrap, result]

namespace Interpreter

open Machine (outcomeAt Disciplined)

/-- The stack is what the pushes and the commands that take operands make of it, whatever the values
are and whether commands succeed. So a run on a sink that takes everything ends with an empty stack
exactly if some front of its commands overdraws and nothing in the shortest such front faults. -/
theorem stack_discipline (config : Config) (steps : List Step) (source : String) :
    (∀ before, Disciplined config.division before
      (Machine.initial.performAll config.division before)) ∧
    let commands := (Code.ofSource source).commands
    ((after config steps).run source .unlimited).2.result = .ok (.error .emptyStack) ↔
      ∃ n, IsLeast {n | Overdraws (commands.take n)} n ∧ ∀ i < n, ∀ cause,
        outcomeAt config.division .initial commands i ≠ some (.error (.fault cause)) := by
  refine ⟨Machine.disciplined_performAll config.division, ?_⟩
  intro commands
  rw [(writes_course config steps source).2, Stop.result_eq_emptyStack_iff]
  exact Machine.trap_eq_emptyStack_iff

-- the division takes the divisor zero off the stack, so the addition would find no operand if the
-- run went on
example : let commands := [.literal 0, .op .push, .op .div, .op .add]
    Overdraws commands ∧
      outcomeAt .truncate .initial commands 2 = some (.error (.fault .divisionByZero)) ∧
      outcomeAt .truncate .initial commands 3 = some (.error .emptyStack) := by
  decide

end Interpreter

end StackScript
