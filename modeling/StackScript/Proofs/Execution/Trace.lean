import StackScript.Proofs.Execution.Course
import StackScript.Proofs.Session.Caching

/-!
# What a run records

A run records every command that it reaches, with the machine on which it is about to be carried
out. A command is reached (`Reaches`) if those in front of it are carried out and the sink takes all
that they print; the machine is the one that they leave (`stateRecords`). Behind these records
stands the program error at which the run stopped, if it did (`HaltsWith`), and behind that the last
machine, if the run was not broken off.

A command goes on to the next one (`GoesOn`), or its machine traps, or its line does not fit the
sink. What an execution records is `Traced`; this is kept if a command that goes on is put in front
(`Traced.cons`), and holds of the three kinds of ends (`traced_ofCommands`).

Behind a command that is reached and prints nothing the machine that it leaves is the next one to be
seen: in the record of the next command, or as the last one (`ShowsNext`, `showsNext_of_reaches`).
-/

set_option autoImplicit false

namespace StackScript

/-! ## Sinks with enough room -/

namespace Sink

variable {s s' : Sink} {bs bs' : List UInt8}

/-- The sink takes all of these bytes. -/
def Takes (s : Sink) (bs : List UInt8) : Prop := ∀ n, s.room = some n → bs.length ≤ n

theorem takes_nil (s : Sink) : s.Takes [] := fun n _ => Nat.zero_le n

/-- Bytes behind a write are those that the sink after it takes. -/
theorem takes_append_of_write (h : s.write bs = (bs', some s')) (cs : List UInt8) :
    s.Takes (bs ++ cs) ↔ s'.Takes cs := by
  obtain ⟨_ | n⟩ := s
  · cases h
    simp [Takes]
  · by_cases hbs : bs.length ≤ n
    · rw [write_fits hbs] at h
      cases h
      simp only [Takes, Option.some.injEq, forall_eq', List.length_append]
      omega
    · rw [write_full (by omega)] at h
      cases h

theorem not_takes_of_write (h : s.write bs = (bs', none)) (cs : List UInt8) :
    ¬ s.Takes (bs ++ cs) := by
  obtain ⟨_ | n⟩ := s
  · cases h
  · by_cases hbs : bs.length ≤ n
    · rw [write_fits hbs] at h
      cases h
    · simp only [Takes, Option.some.injEq, forall_eq', List.length_append]
      omega

end Sink

/-! ## How far commands get -/

namespace Machine

/-- The machine that commands leave, each carried out as far as it can be. -/
def performAll (division : Division) (m : Machine) (commands : List Command) : Machine :=
  commands.foldl (fun m command => (m.perform division command).1) m

theorem performAll_cons (division : Division) (m : Machine) (c : Command) (cs : List Command) :
    m.performAll division (c :: cs) = (m.perform division c).1.performAll division cs := rfl

/-- The sink takes all the lines that commands print. -/
def PrintsTo (division : Division) (sink : Sink) (m : Machine) (commands : List Command) : Prop :=
  sink.Takes ((m.course division commands).emitted.flatMap fun value => outputLine value.text)

/-- The `n`-th command is reached: those in front of it are all carried out, and the sink takes what
they print. -/
def Reaches (division : Division) (sink : Sink) (m : Machine) (commands : List Command) (n : Nat) :
    Prop :=
  n < commands.length ∧ (m.course division (commands.take n)).trap = none ∧
    PrintsTo division sink m (commands.take n)

/-- The sink takes what commands print, and then they stop at a program error. -/
def HaltsWith (division : Division) (trailing : Option ProgramError) (sink : Sink) (m : Machine)
    (commands : List Command) (cause : ProgramError) : Prop :=
  PrintsTo division sink m commands ∧
    Stop.ofTrap (m.course division commands).trap trailing = .program cause

/-- A command is carried out, and the sink takes its line if it prints one. -/
inductive GoesOn (division : Division) (sink : Sink) (m : Machine) (command : Command) :
    Sink → Machine → Prop
  | silent {m' : Machine} (h : m.perform division command = (m', .ok none)) :
      GoesOn division sink m command sink m'
  | print {m' : Machine} {value : Word} {bs : List UInt8} {sink' : Sink}
      (h : m.perform division command = (m', .ok (some value)))
      (hw : sink.write (outputLine value.text) = (bs, some sink')) :
      GoesOn division sink m command sink' m'

variable {division : Division} {trailing : Option ProgramError} {sink sink' : Sink} {m m' : Machine}
  {command : Command} {n : Nat} {cause : ProgramError}

namespace GoesOn

theorem perform (h : GoesOn division sink m command sink' m') :
    (m.perform division command).1 = m' := by
  cases h with
  | silent h => rw [h]
  | print h hw => rw [h]

theorem trap (h : GoesOn division sink m command sink' m') (commands : List Command) :
    (m.course division (command :: commands)).trap = (m'.course division commands).trap := by
  cases h with
  | silent h => rw [course_ok h]; rfl
  | print h hw => rw [course_ok h]; rfl

theorem printsTo (h : GoesOn division sink m command sink' m') (commands : List Command) :
    PrintsTo division sink m (command :: commands) ↔ PrintsTo division sink' m' commands := by
  unfold PrintsTo
  cases h with
  | silent h => rw [course_ok h]; rfl
  | print h hw =>
    rw [course_ok h]
    exact Sink.takes_append_of_write hw _

theorem reaches (h : GoesOn division sink m command sink' m') (commands : List Command) :
    Reaches division sink m (command :: commands) (n + 1) ↔
      Reaches division sink' m' commands n := by
  unfold Reaches
  rw [List.take_succ_cons, h.trap, h.printsTo, List.length_cons, Nat.add_lt_add_iff_right]

theorem haltsWith (h : GoesOn division sink m command sink' m') (commands : List Command) :
    HaltsWith division trailing sink m (command :: commands) cause ↔
      HaltsWith division trailing sink' m' commands cause := by
  unfold HaltsWith
  rw [h.trap, h.printsTo]

end GoesOn

theorem reaches_zero (commands : List Command) :
    Reaches division sink m (command :: commands) 0 :=
  ⟨Nat.zero_lt_succ _, rfl, Sink.takes_nil sink⟩

/-- Behind a trap nothing is reached. -/
theorem not_reaches_of_error {trap : Trap} (h : m.perform division command = (m', .error trap))
    (commands : List Command) : ¬ Reaches division sink m (command :: commands) (n + 1) := by
  rintro ⟨-, htrap, -⟩
  rw [List.take_succ_cons, course_error h] at htrap
  cases htrap

theorem haltsWith_of_error {trap : Trap} (h : m.perform division command = (m', .error trap))
    (commands : List Command) :
    HaltsWith division trailing sink m (command :: commands) cause ↔
      Stop.ofTrap (some trap) trailing = .program cause := by
  unfold HaltsWith PrintsTo
  rw [course_error h]
  exact and_iff_right (Sink.takes_nil sink)

/-- A line that does not fit is the last that is printed. -/
theorem not_printsTo_of_full {value : Word} {bs : List UInt8}
    (h : m.perform division command = (m', .ok (some value)))
    (hw : sink.write (outputLine value.text) = (bs, none)) (commands : List Command) :
    ¬ PrintsTo division sink m (command :: commands) := by
  unfold PrintsTo
  rw [course_ok h]
  exact Sink.not_takes_of_write hw _

theorem reaches_succ_iff {commands : List Command} :
    Reaches division sink m (command :: commands) (n + 1) ↔
      ∃ sink' m', GoesOn division sink m command sink' m' ∧
        Reaches division sink' m' commands n := by
  constructor
  · intro hr
    rcases hp : m.perform division command with ⟨m', ⟨trap⟩ | ⟨_ | value⟩⟩
    · exact absurd hr (not_reaches_of_error hp commands)
    · have hg : GoesOn division sink m command sink m' := .silent hp
      exact ⟨sink, m', hg, (hg.reaches commands).1 hr⟩
    · rcases hw : sink.write (outputLine value.text) with ⟨bs, _ | sink'⟩
      · rw [Reaches, List.take_succ_cons] at hr
        exact absurd hr.2.2 (not_printsTo_of_full hp hw _)
      · have hg := GoesOn.print hp hw
        exact ⟨sink', m', hg, (hg.reaches commands).1 hr⟩
  · rintro ⟨sink', m', hg, hr⟩
    exact (hg.reaches commands).2 hr

/-- The records of commands, each with the machine that those in front of it leave. -/
def stateRecords (division : Division) (m : Machine) (commands : List Command) : List Record :=
  commands.mapIdx fun n command => .state (m.performAll division (commands.take n)) command

theorem stateRecords_cons (division : Division) (m : Machine) (command : Command)
    (commands : List Command) :
    stateRecords division m (command :: commands) =
      .state m command :: stateRecords division (m.perform division command).1 commands := by
  rw [stateRecords, List.mapIdx_cons]
  rfl

theorem text_stateRecords (division : Division) (m : Machine) (commands : List Command) :
    (stateRecords division m commands).map Record.text =
      commands.mapIdx fun n command =>
        "DEBUG State: " ++ (m.performAll division (commands.take n)).text ++ " | " ++
          command.text := by
  rw [stateRecords, List.mapIdx_eq_zipIdx_map, List.mapIdx_eq_zipIdx_map, List.map_map]
  rfl

end Machine

/-! ## What is recorded -/

namespace Execution

open Machine

/-- The record of the last machine, unless the run was broken off. -/
def finalRecords (result : Except EvalError Halt) (m : Machine) : List Record :=
  match result with
  | .ok _ => [.final m]
  | .error _ => []

/-- What an execution records: the commands that are reached, the program error at which it stopped
and the machine that it leaves. -/
structure Traced (division : Division) (trailing : Option ProgramError) (sink : Sink) (m : Machine)
    (commands : List Command) (e : Execution) (reached : Nat) (cause? : Option ProgramError) :
    Prop where
  reaches : ∀ n, n < reached ↔ Reaches division sink m commands n
  haltsWith : ∀ cause, cause? = some cause ↔ HaltsWith division trailing sink m commands cause
  log : e.log = stateRecords division m (commands.take reached) ++
    (cause?.toList.map .halted ++
      finalRecords e.result (m.performAll division (commands.take reached)))

variable {division : Division} {trailing : Option ProgramError} {sink sink' : Sink} {m m' : Machine}
  {command : Command} {e : Execution} {reached : Nat} {cause? : Option ProgramError}

/-- What is printed is not recorded. -/
theorem Traced.printed {commands : List Command}
    (h : Traced division trailing sink m commands e reached cause?) (bs : List UInt8) :
    Traced division trailing sink m commands (e.printed bs) reached cause? :=
  ⟨h.reaches, h.haltsWith, h.log⟩

theorem Traced.cons {commands : List Command} (h : GoesOn division sink m command sink' m')
    (ht : Traced division trailing sink' m' commands e reached cause?) :
    Traced division trailing sink m (command :: commands) (e.recorded (.state m command))
      (reached + 1) cause? where
  reaches := by
    rintro (_ | n)
    · simp [reaches_zero commands]
    · rw [h.reaches, ← ht.reaches, Nat.add_lt_add_iff_right]
  haltsWith cause := by rw [h.haltsWith, ht.haltsWith]
  log := by
    rw [List.take_succ_cons, stateRecords_cons, performAll_cons, h.perform]
    exact congrArg (Record.state m command :: ·) ht.log

/-- The command at which an execution stops is the last one that it records. -/
theorem traced_stopped (commands : List Command)
    (hnext : ∀ n, ¬ Reaches division sink m (command :: commands) (n + 1))
    (hhalt : ∀ cause, cause? = some cause ↔
      HaltsWith division trailing sink m (command :: commands) cause)
    (hlog : e.log = cause?.toList.map .halted ++
      finalRecords e.result (m.perform division command).1) :
    Traced division trailing sink m (command :: commands) (e.recorded (.state m command)) 1
      cause? where
  reaches := by
    rintro (_ | n)
    · simp [reaches_zero commands]
    · simp [hnext n]
  haltsWith := hhalt
  log := congrArg (Record.state m command :: ·) hlog

theorem log_halted (sink : Sink) (m : Machine) (cause : ProgramError) :
    (halted sink m cause).log = [.halted cause] ++ finalRecords (halted sink m cause).result m := by
  unfold halted
  rcases sink.write (outputLine cause.message) with ⟨bs, _ | sink'⟩ <;> rfl

theorem traced_nil (division : Division) (trailing : Option ProgramError) (sink : Sink)
    (m : Machine) : Traced division trailing sink m [] (finished sink m trailing) 0 trailing where
  reaches n := by simp [Reaches]
  haltsWith cause := by
    cases trailing <;>
      simp [HaltsWith, PrintsTo, Machine.course, Course.ofCommands, Sink.takes_nil, Stop.ofTrap]
  log := by
    cases trailing with
    | none => rfl
    | some cause => exact log_halted sink m cause

theorem traced_ofCommands (division : Division) (trailing : Option ProgramError) (sink : Sink)
    (m : Machine) (commands : List Command) :
    ∃ reached cause?, Traced division trailing sink m commands
      (ofCommands division trailing sink m commands) reached cause? := by
  induction commands generalizing sink m with
  | nil => exact ⟨0, trailing, traced_nil division trailing sink m⟩
  | cons command commands ih =>
    cases hp : m.perform division command with
    | mk m' outcome =>
    cases outcome with
    | ok value =>
      cases value with
      | none =>
        obtain ⟨reached, cause?, h⟩ := ih sink m'
        rw [ofCommands_silent hp]
        exact ⟨reached + 1, cause?, h.cons (.silent hp)⟩
      | some value =>
        cases hw : sink.write (outputLine value.text) with
        | mk bs next =>
        cases next with
        | some sink' =>
          obtain ⟨reached, cause?, h⟩ := ih sink' m'
          rw [ofCommands_print hp hw]
          exact ⟨reached + 1, cause?, (h.printed bs).cons (.print hp hw)⟩
        | none =>
          rw [ofCommands_print_full hp hw]
          refine ⟨1, none, traced_stopped commands (fun n hr => ?_) (fun cause => ?_) ?_⟩
          · rw [Reaches, List.take_succ_cons] at hr
            exact not_printsTo_of_full hp hw _ hr.2.2
          · simp [HaltsWith, not_printsTo_of_full hp hw]
          · rfl
    | error trap =>
      cases trap with
      | emptyStack =>
        rw [ofCommands_emptyStack hp]
        refine ⟨1, some .emptyStack, traced_stopped commands
          (fun n => not_reaches_of_error hp commands) (fun cause => ?_) ?_⟩
        · rw [haltsWith_of_error hp]
          simp [Stop.ofTrap]
        · rw [hp]
          exact log_halted sink m' .emptyStack
      | fault fault =>
        rw [ofCommands_fault hp]
        refine ⟨1, none, traced_stopped commands
          (fun n => not_reaches_of_error hp commands) (fun cause => ?_) rfl⟩
        rw [haltsWith_of_error hp]
        simp [Stop.ofTrap]

/-! ## What is seen behind a command -/

section

variable {commands : List Command} {next? : Option Command} {records : List Record} {n : Nat}

/-- Behind these records an execution shows this machine: it records it with the next command, or
leaves it if there is none. -/
def ShowsNext (e : Execution) (records : List Record) : Option Command → Machine → Prop
  | some command, m => records ++ [.state m command] <+: e.log
  | none, m => records <+: e.log ∧ e.machine = m

theorem ShowsNext.recorded (h : e.ShowsNext records next? m) (r : Record) :
    (e.recorded r).ShowsNext (r :: records) next? m := by
  cases next? with
  | some command => exact List.cons_prefix_cons.2 ⟨rfl, h⟩
  | none => exact ⟨List.cons_prefix_cons.2 ⟨rfl, h.1⟩, h.2⟩

theorem ShowsNext.behind (h : e.ShowsNext records next? m) (front : List Record) :
    Execution.ShowsNext { e with log := front ++ e.log } (front ++ records) next? m := by
  cases next? with
  | some command =>
    show front ++ records ++ [.state m command] <+: front ++ e.log
    rw [List.append_assoc]
    exact (List.prefix_append_right_inj front).2 h
  | none => exact ⟨(List.prefix_append_right_inj front).2 h.1, h.2⟩

theorem ShowsNext.printed (h : e.ShowsNext records next? m) (bs : List UInt8) :
    (e.printed bs).ShowsNext records next? m := by
  cases next? <;> exact h

theorem ofCommands_of_goesOn (trailing : Option ProgramError)
    (hg : GoesOn division sink m command sink' m') (commands : List Command) :
    ∃ bs, ofCommands division trailing sink m (command :: commands) = recorded (.state m command)
      (printed bs (ofCommands division trailing sink' m' commands)) := by
  cases hg with
  | silent hp => exact ⟨[], ofCommands_silent hp commands⟩
  | print hp hw => exact ⟨_, ofCommands_print hp hw commands⟩

theorem showsNext_first (commands : List Command) :
    (ofCommands division trailing sink m commands).ShowsNext [] commands[0]? m := by
  cases commands with
  | cons command commands => exact List.cons_prefix_cons.2 ⟨rfl, List.nil_prefix⟩
  | nil =>
    refine ⟨List.nil_prefix, ?_⟩
    cases trailing with
    | none => rfl
    | some cause => exact machine_halted sink m cause

/-- A command that is reached and prints nothing is recorded behind those in front of it, and the
machine that it leaves is shown next. -/
theorem showsNext_of_reaches (trailing : Option ProgramError)
    (hr : Reaches division sink m commands n) (hc : commands[n]? = some command)
    (hp : (m.performAll division (commands.take n)).perform division command = (m', .ok none)) :
    (ofCommands division trailing sink m commands).ShowsNext
      (stateRecords division m (commands.take (n + 1))) commands[n + 1]? m' := by
  induction n generalizing sink m commands with
  | zero =>
    cases commands with
    | nil => cases hc
    | cons first commands =>
      cases hc
      have hfirst : m.perform division command = (m', .ok none) := hp
      rw [ofCommands_silent hfirst]
      exact (showsNext_first commands).recorded _
  | succ n ih =>
    cases commands with
    | nil => cases hc
    | cons first commands =>
      obtain ⟨sink', m₁, hg, hr⟩ := Machine.reaches_succ_iff.1 hr
      rw [List.take_succ_cons, Machine.performAll_cons, hg.perform] at hp
      obtain ⟨bs, he⟩ := ofCommands_of_goesOn trailing hg commands
      rw [he, List.take_succ_cons, Machine.stateRecords_cons, hg.perform]
      exact ((ih hr hc hp).printed bs).recorded _

end

end Execution

/-! ## Runs -/

namespace Interpreter

open Machine (Reaches HaltsWith stateRecords)
open Execution (finalRecords)

/-- The record of looking a text up, if there is a cache. -/
def lookupRecords (i : Interpreter) (source : String) : List Record :=
  match i.cache with
  | none => []
  | some cache => if source ∈ cache.keys then [.cacheHit] else [.cacheMiss]

theorem records_codeOf (i : Interpreter) (source : String) :
    (i.codeOf source).2.2 = i.lookupRecords source := by
  unfold lookupRecords
  cases h : i.cache with
  | none => simp [codeOf, h]
  | some cache => exact (codeOf_cached h source).2

theorem run_eq_lookup {config : Config} {i : Interpreter} (h : Sound config i) (source : String)
    (sink : Sink) :
    (i.run source sink).2 =
      let e := Execution.ofCode config.division sink .initial (.ofSource source)
      { e with log := i.lookupRecords source ++ e.log } := by
  obtain ⟨-, hcode, -⟩ := sound_codeOf h source
  simp only [run, hcode, h.division, records_codeOf]

/-- After any session and on any sink, a run records whether it found its code in the cache, if
there is one; then, for every command that is reached, the machine that the commands in front of it
leave and the command; then the program error at which it stopped, if it did, also if its line does
not fit the sink any more; and then, if the run was not broken off, the machine that the last
command left. -/
theorem log_run (config : Config) (steps : List Step) (source : String) (limit : Option Nat) :
    let i := after config steps
    let code := Code.ofSource source
    let e := (i.run source ⟨limit⟩).2
    let leaves := Machine.initial.performAll config.division
    (i.cache = none ↔ config.cacheCapacity = 0) ∧
    ∃ reached cause?,
      let front := code.commands.take reached
      (∀ n, n < reached ↔ Reaches config.division ⟨limit⟩ .initial code.commands n) ∧
      (∀ cause, cause? = some cause ↔
        HaltsWith config.division code.trailingError ⟨limit⟩ .initial code.commands cause) ∧
      e.log = i.lookupRecords source ++ (stateRecords config.division .initial front ++
        (cause?.toList.map .halted ++ finalRecords e.result (leaves front))) ∧
      e.log.map Record.text = (i.lookupRecords source).map Record.text ++
        (front.mapIdx (fun n command =>
            "DEBUG State: " ++ (leaves (front.take n)).text ++ " | " ++ command.text) ++
          (cause?.toList.map (fun cause => "WARN program halted: " ++ cause.message) ++
            match e.result with
            | .ok _ => ["INFO " ++ (leaves front).text]
            | .error _ => [])) := by
  intro i code e leaves
  have hsound := sound_after config steps
  have hrun := run_eq_lookup hsound source ⟨limit⟩
  obtain ⟨reached, cause?, ht⟩ := Execution.traced_ofCommands config.division code.trailingError
    ⟨limit⟩ .initial code.commands
  have hlog : e.log = i.lookupRecords source ++ (stateRecords config.division .initial
      (code.commands.take reached) ++ (cause?.toList.map .halted ++
        finalRecords e.result (leaves (code.commands.take reached)))) := by
    show (i.run source ⟨limit⟩).2.log =
      _ ++ (_ ++ (_ ++ finalRecords (i.run source ⟨limit⟩).2.result _))
    rw [hrun]
    exact congrArg (i.lookupRecords source ++ ·) ht.log
  refine ⟨hsound.cached, reached, cause?, ht.reaches, ht.haltsWith, hlog, ?_⟩
  rw [hlog, List.map_append, List.map_append, List.map_append, Machine.text_stateRecords,
    List.map_map]
  unfold finalRecords
  cases e.result <;> rfl

-- the line of the program error does not fit the sink, so the last machine is not recorded
example : ((after ⟨1, .truncate⟩ []).run "1 PRINT ADD 2" ⟨some 3⟩).2.log.map Record.text =
    ["DEBUG translation not found...",
      "DEBUG State: Cpu [ register: 0, stack: [] ] | 1",
      "DEBUG State: Cpu [ register: 1, stack: [] ] | PRINT",
      "DEBUG State: Cpu [ register: 1, stack: [] ] | ADD",
      "WARN program halted: Empty stack!"] := by decide +kernel

end Interpreter

end StackScript
