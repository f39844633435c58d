import StackScript.Interpreter

/-!
# Sinks that fill up

`cutAt` says what a sink of a few bytes makes of an output and of a result: if the output does not
fit, its first bytes reach the sink and the result is a failed write, whatever it was. The command
whose line does not fit ends the execution, so a run on such a sink is the cut of the run on one that
takes everything, and what the interpreter keeps is the same after both (`limited_eq_cutAt`).
-/

set_option autoImplicit false

namespace StackScript

/-- What a sink of `limit` bytes leaves of an output and a result. -/
def cutAt (limit : Nat) (out : List UInt8) (result : Except EvalError Halt) :
    List UInt8 × Except EvalError Halt :=
  if out.length ≤ limit then (out, result) else (out.take limit, .error .sinkFull)

section

variable {limit : Nat} {bs : List UInt8} {result : Except EvalError Halt}

@[simp] theorem cutAt_nil (limit : Nat) (result : Except EvalError Halt) :
    cutAt limit [] result = ([], result) := if_pos (Nat.zero_le limit)

/-- A part that fits leaves less room for what comes behind it. -/
theorem cutAt_append_fits (h : bs.length ≤ limit) (out : List UInt8)
    (result : Except EvalError Halt) :
    cutAt limit (bs ++ out) result =
      (bs ++ (cutAt (limit - bs.length) out result).1,
        (cutAt (limit - bs.length) out result).2) := by
  unfold cutAt
  rw [List.length_append]
  by_cases hout : bs.length + out.length ≤ limit
  · have hout' : out.length ≤ limit - bs.length := by omega
    rw [if_pos hout, if_pos hout']
  · have hout' : ¬ out.length ≤ limit - bs.length := by omega
    rw [if_neg hout, if_neg hout', List.take_append, List.take_of_length_le h]

/-- Behind a part that does not fit nothing counts. -/
theorem cutAt_append_full (h : limit < bs.length) (out : List UInt8)
    (result : Except EvalError Halt) :
    cutAt limit (bs ++ out) result = (bs.take limit, .error .sinkFull) := by
  have hout : ¬ (bs ++ out).length ≤ limit := by
    rw [List.length_append]
    omega
  unfold cutAt
  rw [if_neg hout, List.take_append_of_le_length (Nat.le_of_lt h)]

end

namespace Execution

/-- `cut` is what a sink of `limit` bytes leaves of `full`. -/
def Cut (limit : Nat) (full cut : Execution) : Prop :=
  (cut.out, cut.result) = cutAt limit full.out full.result

variable {limit : Nat} {full cut : Execution} {bs : List UInt8}

theorem Cut.recorded (h : Cut limit full cut) (r : Record) :
    Cut limit (full.recorded r) (cut.recorded r) := h

theorem Cut.printed (hbs : bs.length ≤ limit) (h : Cut (limit - bs.length) full cut) :
    Cut limit (full.printed bs) (cut.printed bs) := by
  unfold Cut at h ⊢
  show _ = cutAt limit (bs ++ full.out) full.result
  rw [cutAt_append_fits hbs, ← h]
  rfl

theorem cut_full (hbs : limit < bs.length) (full : Execution) (m : Machine) :
    Cut limit (full.printed bs) (broken m (bs.take limit) .sinkFull) :=
  (cutAt_append_full hbs full.out full.result).symm

theorem cut_of_fits (h : full.out.length ≤ limit) : Cut limit full full := (if_pos h).symm

theorem cut_of_overflow (h : limit < full.out.length) (m : Machine) :
    Cut limit full (broken m (full.out.take limit) .sinkFull) := (if_neg (Nat.not_le.2 h)).symm

/-- An execution that has written nothing is not cut. -/
theorem cut_of_silent (h : full.out = []) : Cut limit full full :=
  cut_of_fits (by rw [h]; exact Nat.zero_le limit)

/-! ## Executions on a sink of some bytes -/

theorem cut_halted (limit : Nat) (m : Machine) (cause : ProgramError) :
    Cut limit (halted .unlimited m cause) (halted ⟨some limit⟩ m cause) := by
  rcases Nat.lt_or_ge limit (outputLine cause.message).length with h | h
  · have hc : halted ⟨some limit⟩ m cause =
        recorded (.halted cause) (broken m ((outputLine cause.message).take limit) .sinkFull) := by
      simp only [halted, Sink.write_full h]
    have hout : limit < (halted .unlimited m cause).out.length := h
    rw [hc]
    exact cut_of_overflow hout m
  · have hc : halted ⟨some limit⟩ m cause = halted .unlimited m cause := by
      simp only [halted, Sink.write_fits h, Sink.write_unlimited]
    rw [hc]
    exact cut_of_fits h

theorem cut_finished (limit : Nat) (m : Machine) (trailing : Option ProgramError) :
    Cut limit (finished .unlimited m trailing) (finished ⟨some limit⟩ m trailing) := by
  cases trailing with
  | none => exact cut_of_silent rfl
  | some cause => exact cut_halted limit m cause

/-- By induction on the commands, for the room that is left when each is reached. -/
theorem cut_ofCommands (division : Division) (trailing : Option ProgramError) (limit : Nat)
    (m : Machine) (commands : List Command) :
    Cut limit (ofCommands division trailing .unlimited m commands)
      (ofCommands division trailing ⟨some limit⟩ m commands) := by
  induction commands generalizing limit m with
  | nil => exact cut_finished limit m trailing
  | cons command commands ih =>
    cases hp : m.perform division command with
    | mk m' outcome =>
    cases outcome with
    | ok value =>
      cases value with
      | none =>
        rw [ofCommands_silent hp, ofCommands_silent hp]
        exact (ih limit m').recorded _
      | some value =>
        rw [ofCommands_print hp (Sink.write_unlimited _)]
        rcases Nat.lt_or_ge limit (outputLine value.text).length with h | h
        · rw [ofCommands_print_full hp (Sink.write_full h)]
          exact (cut_full h _ m').recorded _
        · rw [ofCommands_print hp (Sink.write_fits h)]
          exact ((ih _ m').printed h).recorded _
    | error trap =>
      cases trap with
      | emptyStack =>
        rw [ofCommands_emptyStack hp, ofCommands_emptyStack hp]
        exact (cut_halted limit m' .emptyStack).recorded _
      | fault cause =>
        rw [ofCommands_fault hp, ofCommands_fault hp]
        exact cut_of_silent rfl

theorem cut_ofCode (division : Division) (limit : Nat) (m : Machine) (code : Code) :
    Cut limit (ofCode division .unlimited m code) (ofCode division ⟨some limit⟩ m code) :=
  cut_ofCommands division code.trailingError limit m code.commands

end Execution

namespace Interpreter

theorem cut_run (i : Interpreter) (source : String) (limit : Nat) :
    (i.run source .unlimited).2.Cut limit (i.run source ⟨some limit⟩).2 :=
  Execution.cut_ofCode i.division limit .initial (i.codeOf source).2.1

/-- Whatever an interpreter was used for, on a sink of `limit` bytes it writes the output and gives
the result that it does without limit, if all of the output fits; else it writes the first bytes of
the output and reports that the sink is full. It is the same interpreter afterwards. -/
theorem limited_eq_cutAt (i : Interpreter) (limit : Nat) :
    (∀ source,
      let full := i.run source .unlimited
      let limited := i.run source ⟨some limit⟩
      (limited.2.out, limited.2.result) = cutAt limit full.2.out full.2.result ∧
        limited.1 = full.1) ∧
    ∀ template bindings,
      let full := i.eval template bindings .unlimited
      let limited := i.eval template bindings ⟨some limit⟩
      (limited.2.out, limited.2.result) = cutAt limit full.2.out full.2.result ∧
        limited.1 = full.1 := by
  refine ⟨fun source => ⟨cut_run i source limit, rfl⟩, fun template bindings => ?_⟩
  cases ht : template.render bindings with
  | error cause =>
    rw [eval_of_error ht, eval_of_error ht]
    exact ⟨(cutAt_nil limit _).symm, rfl⟩
  | ok source =>
    rw [eval_of_ok ht, eval_of_ok ht]
    exact ⟨cut_run i source limit, rfl⟩

end Interpreter

end StackScript
