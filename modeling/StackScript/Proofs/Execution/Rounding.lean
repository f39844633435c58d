import Mathlib.Tactic.IntervalCases
import StackScript.Proofs.Division
import StackScript.Proofs.Machine.Operands

/-!
# Runs under the two roundings

The two ways to round agree on operands unless the division is not exact and its operands differ in
sign (`Division.RoundsAlike`): they give the same words and the same faults then (`quot_floor`,
`rem_floor`), and two different words otherwise (`quot_parts`, `rem_parts`).

So a command that divides no such operands does the same under both (`Machine.perform_floor`). As
long as the commands of a run are of this kind, the other run reaches the same commands on the same
machines (`Machine.reaches_floor`). Either this holds to the end, and the two runs are the same, or
there is a first command at which they part (`Interpreter.rounding_seen`): both record it on the same
machine, and what they show next is not the same (`Execution.showsNext_of_not_alikeAt`).
-/

set_option autoImplicit false

namespace StackScript

/-! ## Operands -/

namespace Division

/-- The two ways to round agree on these operands: there is no quotient, or nothing to round, or the
quotient is positive. -/
def RoundsAlike (a b : Word) : Prop :=
  b = 0 ∨ b.toInt ∣ a.toInt ∨ a.toInt.sign = b.toInt.sign

instance (a b : Word) : Decidable (RoundsAlike a b) := inferInstanceAs (Decidable (_ ∨ _ ∨ _))

section Integers

variable {x y : Int}

theorem sign_eq_iff (hx : x ≠ 0) (hy : y ≠ 0) : x.sign = y.sign ↔ (x < 0 ↔ y < 0) := by
  constructor
  · intro h
    rw [← Int.sign_eq_neg_one_iff_neg, h, Int.sign_eq_neg_one_iff_neg]
  · intro h
    rcases Int.lt_or_gt_of_ne hx with hneg | hpos
    · rw [Int.sign_eq_neg_one_of_neg hneg, Int.sign_eq_neg_one_of_neg (h.1 hneg)]
    · rw [Int.sign_eq_one_of_pos hpos, Int.sign_eq_one_of_pos (by omega)]

/-- Rounding down changes a quotient that is neither exact nor positive. -/
theorem lowered_iff (hy : y ≠ 0) :
    x.tmod y ≠ 0 ∧ ¬ (x < 0 ↔ y < 0) ↔ ¬ (y ∣ x ∨ x.sign = y.sign) := by
  rw [not_or, Int.dvd_iff_tmod_eq_zero]
  refine and_congr_right fun hm => ?_
  have hx : x ≠ 0 := by
    rintro rfl
    exact hm (Int.zero_tmod y)
  rw [sign_eq_iff hx hy]

theorem quotient_floor (hy : y ≠ 0) :
    floor.quotient x y =
      if y ∣ x ∨ x.sign = y.sign then truncate.quotient x y else truncate.quotient x y - 1 := by
  rw [quotient, quotient, fdiv_eq_ite hy]
  simp only [lowered_iff hy]
  rw [ite_not]

theorem remainder_floor (hy : y ≠ 0) :
    floor.remainder x y =
      if y ∣ x ∨ x.sign = y.sign then truncate.remainder x y else truncate.remainder x y + y := by
  have hc : x.tmod y ≠ 0 ∧ ¬ (x.tmod y < 0 ↔ y < 0) ↔ ¬ (y ∣ x ∨ x.sign = y.sign) := by
    rw [← lowered_iff hy]
    exact and_congr_right fun hm => by rw [tmod_lt_zero_iff hm]
  rw [remainder, remainder, fmod_eq_ite hy]
  simp only [hc]
  rw [ite_not]

end Integers

section Words

variable {a b : Word}

theorem quot_floor (h : RoundsAlike a b) : floor.quot a b = truncate.quot a b := by
  by_cases hb : b = 0
  · rw [hb, quot_zero, quot_zero]
  · rw [quot_eq_exact _ _ hb, quot_eq_exact _ _ hb, quotient_floor (toInt_ne_zero hb),
      if_pos (h.resolve_left hb)]

theorem rem_floor (h : RoundsAlike a b) : floor.rem a b = truncate.rem a b := by
  by_cases hb : b = 0
  · rw [hb, rem_zero, rem_zero]
  · rw [rem_eq_exact _ _ hb, rem_eq_exact _ _ hb, remainder_floor (toInt_ne_zero hb),
      if_pos (h.resolve_left hb)]

/-- Results that are words for different integers are different words. -/
theorem parts_of_ne {f : Division → Except Fault Word} {g : Division → Int}
    (hf : ∀ d, ∃ r : Word, f d = .ok r ∧ r.toInt = g d) (hg : g floor ≠ g truncate) :
    ∃ q r, f truncate = .ok q ∧ f floor = .ok r ∧ q ≠ r := by
  obtain ⟨q, hq, hqv⟩ := hf truncate
  obtain ⟨r, hr, hrv⟩ := hf floor
  refine ⟨q, r, hq, hr, fun he => hg ?_⟩
  rw [← hqv, ← hrv, he]

theorem quot_parts (h : ¬ RoundsAlike a b) :
    ∃ q r, truncate.quot a b = .ok q ∧ floor.quot a b = .ok r ∧ q ≠ r := by
  obtain ⟨hb, hlow⟩ := not_or.1 h
  refine parts_of_ne (f := (·.quot a b)) (g := (·.quotient a.toInt b.toInt)) (fun d => ?_) ?_
  · rcases d.quot_cases a b with ⟨hb', -⟩ | ⟨-, ⟨rfl, rfl⟩, -⟩ | ⟨-, -, q, hq, -⟩
    · exact absurd hb' hb
    -- the quotient that overflows is exact
    · exact absurd (.inl (by decide)) hlow
    · exact ⟨q, hq, (quot_eq_ok hb).1 hq⟩
  · rw [quotient_floor (toInt_ne_zero hb), if_neg hlow]
    omega

theorem rem_parts (h : ¬ RoundsAlike a b) :
    ∃ q r, truncate.rem a b = .ok q ∧ floor.rem a b = .ok r ∧ q ≠ r := by
  obtain ⟨hb, hlow⟩ := not_or.1 h
  refine parts_of_ne (f := (·.rem a b)) (g := (·.remainder a.toInt b.toInt)) (fun d => ?_) ?_
  · rcases d.rem_cases a b with ⟨hb', -⟩ | ⟨-, r, hr⟩
    · exact absurd hb' hb
    · exact ⟨r, hr⟩
  · have hb' := toInt_ne_zero hb
    rw [remainder_floor hb', if_neg hlow]
    omega

end Words

end Division

/-! ## One command -/

namespace Machine

/-- The command is no division, or finds no operand, or divides operands on which the two ways to
round agree. -/
def RoundsAlike (m : Machine) (command : Command) : Prop :=
  command = .op .div ∨ command = .op .mod →
    ∀ top ∈ m.stack.pop?, Division.RoundsAlike m.register top.1

instance (m : Machine) (command : Command) : Decidable (m.RoundsAlike command) :=
  inferInstanceAs (Decidable (_ → _))

variable {m : Machine} {command : Command}

theorem consume_congr {f g : Word → Except Fault Word}
    (h : ∀ top ∈ m.stack.pop?, f top.1 = g top.1) : m.consume f = m.consume g := by
  cases hs : m.stack.pop? with
  | none => rw [consume_empty f hs, consume_empty g hs]
  | some top => simp only [consume, hs, h top hs]

theorem perform_floor (h : m.RoundsAlike command) :
    m.perform .floor command = m.perform .truncate command := by
  cases command with
  | literal value => rfl
  | op opcode =>
    cases opcode with
    | div => exact consume_congr fun top hs => Division.quot_floor (h (.inl rfl) top hs)
    | mod => exact consume_congr fun top hs => Division.rem_floor (h (.inr rfl) top hs)
    | _ => rfl

/-- Otherwise the command is carried out under both, with different words in the register. -/
theorem perform_parts (h : ¬ m.RoundsAlike command) : ∃ q r s, q ≠ r ∧
    m.perform .truncate command = (⟨q, s⟩, .ok none) ∧
    m.perform .floor command = (⟨r, s⟩, .ok none) := by
  simp only [RoundsAlike, not_forall] at h
  obtain ⟨rfl | rfl, ⟨a, s⟩, hs, hne⟩ := h
  · obtain ⟨q, r, hq, hr, hqr⟩ := Division.quot_parts hne
    exact ⟨q, r, s, hqr, consume_ok hs hq, consume_ok hs hr⟩
  · obtain ⟨q, r, hq, hr, hqr⟩ := Division.rem_parts hne
    exact ⟨q, r, s, hqr, consume_ok hs hq, consume_ok hs hr⟩

/-! ## Commands one after another -/

section Commands

variable {d d' : Division} {sink sink' : Sink} {m' : Machine} {commands : List Command} {n : Nat}

theorem GoesOn.of_perform_eq (hg : GoesOn d sink m command sink' m')
    (h : m.perform d command = m.perform d' command) : GoesOn d' sink m command sink' m' := by
  cases hg with
  | silent hp => exact .silent (h ▸ hp)
  | print hp hw => exact .print (h ▸ hp) hw

/-- If the truncating run reaches the `n`-th command, the two ways to round agree there. -/
def AlikeAt (sink : Sink) (m : Machine) (commands : List Command) (n : Nat) : Prop :=
  ∀ command, commands[n]? = some command → Reaches .truncate sink m commands n →
    (m.performAll .truncate (commands.take n)).RoundsAlike command

theorem alikeAt_zero : AlikeAt sink m (command :: commands) 0 ↔ m.RoundsAlike command := by
  constructor
  · exact fun h => h command rfl (reaches_zero commands)
  · rintro h _ ⟨⟩ -
    exact h

theorem alikeAt_succ (hg : GoesOn .truncate sink m command sink' m') :
    AlikeAt sink m (command :: commands) (n + 1) ↔ AlikeAt sink' m' commands n := by
  unfold AlikeAt
  rw [hg.reaches, List.take_succ_cons, performAll_cons, hg.perform, List.getElem?_cons_succ]

theorem alikeAt_behind (h : ∀ i < n + 1, AlikeAt sink m (command :: commands) i)
    (hg : GoesOn .truncate sink m command sink' m') : ∀ i < n, AlikeAt sink' m' commands i :=
  fun i hi => (alikeAt_succ hg).1 (h (i + 1) (Nat.succ_lt_succ hi))

/-- While the two ways to round agree, the same commands are reached on the same machines. -/
theorem reaches_floor (h : ∀ i < n, AlikeAt sink m commands i) :
    (Reaches .floor sink m commands n ↔ Reaches .truncate sink m commands n) ∧
      (Reaches .truncate sink m commands n → m.performAll .floor (commands.take n) =
        m.performAll .truncate (commands.take n)) := by
  induction n generalizing sink m commands with
  | zero =>
    cases commands with
    | nil => simp [Reaches]
    | cons command commands =>
      exact ⟨iff_of_true (reaches_zero commands) (reaches_zero commands), fun _ => rfl⟩
  | succ n ih =>
    cases commands with
    | nil => simp [Reaches]
    | cons command commands =>
      have hp := perform_floor (alikeAt_zero.1 (h 0 n.succ_pos))
      have hrest {sink' m'} (hg : GoesOn .truncate sink m command sink' m') :=
        ih (alikeAt_behind h hg)
      rw [reaches_succ_iff, reaches_succ_iff]
      refine ⟨⟨?_, ?_⟩, ?_⟩
      · rintro ⟨sink', m', hg, hr⟩
        have hg' := hg.of_perform_eq hp
        exact ⟨sink', m', hg', (hrest hg').1.1 hr⟩
      · rintro ⟨sink', m', hg, hr⟩
        exact ⟨sink', m', hg.of_perform_eq hp.symm, (hrest hg).1.2 hr⟩
      · rintro ⟨sink', m', hg, hr⟩
        rw [List.take_succ_cons, performAll_cons, performAll_cons, hp, hg.perform]
        exact (hrest hg).2 hr

/-- They are recorded on the same machines as well. -/
theorem stateRecords_floor (h : ∀ i < n, AlikeAt sink m commands i)
    (hr : Reaches .truncate sink m commands n) :
    stateRecords .floor m (commands.take (n + 1)) =
      stateRecords .truncate m (commands.take (n + 1)) := by
  induction n generalizing sink m commands with
  | zero =>
    cases commands with
    | nil => rfl
    | cons command commands => rfl
  | succ n ih =>
    cases commands with
    | nil => rfl
    | cons command commands =>
      have hp := perform_floor (alikeAt_zero.1 (h 0 n.succ_pos))
      obtain ⟨sink', m', hg, hr⟩ := reaches_succ_iff.1 hr
      have hrest := ih (alikeAt_behind h hg) hr
      rw [List.take_succ_cons, stateRecords_cons, stateRecords_cons, hp, hg.perform, hrest]

theorem performAll_take_succ (h : commands[n]? = some command) (d : Division) (m : Machine) :
    m.performAll d (commands.take (n + 1)) =
      ((m.performAll d (commands.take n)).perform d command).1 := by
  rw [Command.take_succ_of_some h, performAll, List.foldl_append]
  rfl

/-- Where the two ways to round first differ, both runs are there on the same machine and go on, but
not on the same machine. -/
theorem parts_of_not_alikeAt (h : ∀ i < n, AlikeAt sink m commands i)
    (hn : ¬ AlikeAt sink m commands n) :
    (∀ d, Reaches d sink m commands n) ∧
      m.performAll .floor (commands.take n) = m.performAll .truncate (commands.take n) ∧
      (∃ command, commands[n]? = some command ∧ ∀ d,
        (m.performAll d (commands.take n)).perform d command =
          (m.performAll d (commands.take (n + 1)), .ok none)) ∧
      (m.performAll .floor (commands.take (n + 1))).register ≠
        (m.performAll .truncate (commands.take (n + 1))).register := by
  simp only [AlikeAt, not_forall] at hn
  obtain ⟨command, hc, hr, hne⟩ := hn
  obtain ⟨hiff, hsame⟩ := reaches_floor h
  obtain ⟨q, r, s, hqr, hq, hr'⟩ := perform_parts hne
  refine ⟨fun d => ?_, hsame hr, ⟨command, hc, fun d => ?_⟩, ?_⟩
  · cases d with
    | truncate => exact hr
    | floor => exact hiff.2 hr
  · rw [performAll_take_succ hc]
    cases d with
    | truncate => rw [hq]
    | floor => rw [hsame hr, hr']
  · rw [performAll_take_succ hc, performAll_take_succ hc, hsame hr, hq, hr']
    exact hqr.symm

end Commands

end Machine

/-! ## Executions -/

namespace Execution

open Machine (GoesOn AlikeAt Reaches stateRecords)

variable {d d' : Division} {trailing : Option ProgramError} {sink : Sink} {m : Machine}
  {command : Command} {commands : List Command} {n : Nat}

theorem ofCommands_congr (h : m.perform d' command = m.perform d command)
    (hrest : ∀ sink' m', GoesOn d sink m command sink' m' →
      ofCommands d' trailing sink' m' commands = ofCommands d trailing sink' m' commands) :
    ofCommands d' trailing sink m (command :: commands) =
      ofCommands d trailing sink m (command :: commands) := by
  rcases hp : m.perform d command with ⟨m', ⟨⟨⟩ | cause⟩ | ⟨_ | value⟩⟩
  · rw [ofCommands_emptyStack hp, ofCommands_emptyStack (h.trans hp)]
  · rw [ofCommands_fault hp, ofCommands_fault (h.trans hp)]
  · rw [ofCommands_silent hp, ofCommands_silent (h.trans hp), hrest _ _ (.silent hp)]
  · rcases hw : sink.write (outputLine value.text) with ⟨bs, _ | sink'⟩
    · rw [ofCommands_print_full hp hw, ofCommands_print_full (h.trans hp) hw]
    · rw [ofCommands_print hp hw, ofCommands_print (h.trans hp) hw, hrest _ _ (.print hp hw)]

theorem ofCommands_floor (h : ∀ n, AlikeAt sink m commands n) :
    ofCommands .floor trailing sink m commands = ofCommands .truncate trailing sink m commands := by
  induction commands generalizing sink m with
  | nil => rfl
  | cons command commands ih =>
    refine ofCommands_congr (Machine.perform_floor (Machine.alikeAt_zero.1 (h 0))) ?_
    exact fun sink' m' hg => ih fun n => (Machine.alikeAt_succ hg).1 (h (n + 1))

/-- Behind the command at which the two ways to round first differ, both runs have recorded the same
and show what their own way gives. -/
theorem showsNext_of_not_alikeAt (h : ∀ i < n, AlikeAt sink m commands i)
    (hn : ¬ AlikeAt sink m commands n) (d : Division) :
    (ofCommands d trailing sink m commands).ShowsNext
      (stateRecords .truncate m (commands.take (n + 1))) commands[n + 1]?
      (m.performAll d (commands.take (n + 1))) := by
  obtain ⟨hr, -, ⟨command, hc, hp⟩, -⟩ := Machine.parts_of_not_alikeAt h hn
  have hshows := showsNext_of_reaches trailing (hr d) hc (hp d)
  cases d with
  | truncate => exact hshows
  | floor =>
    rw [Machine.stateRecords_floor h (hr .truncate)] at hshows
    exact hshows

end Execution

/-! ## Runs -/

namespace Interpreter

open Machine (Reaches AlikeAt stateRecords)

/-- How an interpreter rounds does not matter to what it caches. -/
theorem Sound.withDivision {config : Config} {i : Interpreter} (h : Sound config i)
    (d : Division) : Sound ⟨config.cacheCapacity, d⟩ ⟨d, i.cache⟩ :=
  ⟨rfl, h.cached, h.entries⟩

theorem cache_codeOf_congr {i j : Interpreter} (h : i.cache = j.cache) (source : String) :
    (i.codeOf source).1.cache = (j.codeOf source).1.cache := by
  unfold codeOf
  cases hj : j.cache with
  | none => simp [h.trans hj, hj]
  | some cache => cases hg : cache.get? source <;> simp [h.trans hj, hg]

/-- Two runs of a text from the same cache, one that truncates and one that rounds down. If they
agree at every division that the truncating one reaches, they are the same: they reach the same
commands on the same machines, record and write the same, end alike and leave the same cache. If
they do not, both reach the first division at which they part on the same machine, and leave it with
different words in the register. Up to this division they have recorded the same; what they record
with the next command, or leave if there is none, are these two machines. -/
theorem rounding_seen (config : Config) (steps : List Step) (source : String)
    (limit : Option Nat) :
    let cache := (after config steps).cache
    let truncated := Interpreter.run ⟨.truncate, cache⟩ source ⟨limit⟩
    let floored := Interpreter.run ⟨.floor, cache⟩ source ⟨limit⟩
    let commands := (Code.ofSource source).commands
    let reaches (d : Division) (n : Nat) := Reaches d ⟨limit⟩ .initial commands n
    let before (d : Division) (n : Nat) := Machine.initial.performAll d (commands.take n)
    ((∀ n, AlikeAt ⟨limit⟩ .initial commands n) →
      (∀ n, (reaches .floor n ↔ reaches .truncate n) ∧
        (reaches .truncate n → before .floor n = before .truncate n)) ∧
      floored.2 = truncated.2 ∧ floored.1.cache = truncated.1.cache) ∧
    ((∃ n, ¬ AlikeAt ⟨limit⟩ .initial commands n) →
      ∃ n, IsLeast {n | ¬ AlikeAt ⟨limit⟩ .initial commands n} n ∧
        reaches .truncate n ∧ reaches .floor n ∧ before .floor n = before .truncate n ∧
        (before .floor (n + 1)).register ≠ (before .truncate (n + 1)).register ∧
        let records := lookupRecords ⟨.truncate, cache⟩ source ++
          stateRecords .truncate .initial (commands.take (n + 1))
        truncated.2.ShowsNext records commands[n + 1]? (before .truncate (n + 1)) ∧
          floored.2.ShowsNext records commands[n + 1]? (before .floor (n + 1))) := by
  intro cache truncated floored commands reaches before
  have hrun (d : Division) : (Interpreter.run ⟨d, cache⟩ source ⟨limit⟩).2 =
      let e := Execution.ofCode d ⟨limit⟩ .initial (.ofSource source)
      { e with log := lookupRecords ⟨d, cache⟩ source ++ e.log } :=
    run_eq_lookup ((sound_after config steps).withDivision d) source ⟨limit⟩
  refine ⟨fun h => ⟨fun n => Machine.reaches_floor fun i _ => h i, ?_, ?_⟩, fun h => ?_⟩
  · have he : Execution.ofCode .floor ⟨limit⟩ .initial (.ofSource source) =
        Execution.ofCode .truncate ⟨limit⟩ .initial (.ofSource source) :=
      Execution.ofCommands_floor h
    show (Interpreter.run ⟨.floor, cache⟩ source ⟨limit⟩).2 =
      (Interpreter.run ⟨.truncate, cache⟩ source ⟨limit⟩).2
    rw [hrun, hrun, he]
    rfl
  · have hcache : (Interpreter.mk .floor cache).cache = (Interpreter.mk .truncate cache).cache :=
      rfl
    exact cache_codeOf_congr hcache source
  · classical
    have hleast := Nat.isLeast_find h
    have hfront : ∀ i < Nat.find h, AlikeAt ⟨limit⟩ .initial commands i := fun i hi =>
      not_not.1 (Nat.find_min h hi)
    obtain ⟨hr, hsame, -, hne⟩ := Machine.parts_of_not_alikeAt hfront hleast.1
    have hshows (d : Division) : (Interpreter.run ⟨d, cache⟩ source ⟨limit⟩).2.ShowsNext
        (lookupRecords ⟨.truncate, cache⟩ source ++
          stateRecords .truncate .initial (commands.take (Nat.find h + 1)))
        commands[Nat.find h + 1]? (before d (Nat.find h + 1)) := by
      rw [hrun]
      exact (Execution.showsNext_of_not_alikeAt hfront hleast.1 d).behind _
    exact ⟨Nat.find h, hleast, hr .truncate, hr .floor, hsame, hne, hshows .truncate,
      hshows .floor⟩

/-- The quotient of minus seven and two is rounded. On a sink that is full before it, the rounding
makes no difference; on one that takes everything, the runs part at it. -/
theorem rounding_seen_fullSink :
    let source := "2 PUSH -7 PRINT DIV PRINT"
    let cache := (after ⟨1, .truncate⟩ [.run source none]).cache
    let commands := (Code.ofSource source).commands
    let before (d : Division) (n : Nat) := Machine.initial.performAll d (commands.take n)
    let unlimited (d : Division) := (Interpreter.run ⟨d, cache⟩ source ⟨none⟩).2
    ((∀ n, AlikeAt ⟨some 2⟩ .initial commands n) ∧
      (Interpreter.run ⟨.floor, cache⟩ source ⟨some 2⟩).2 =
        (Interpreter.run ⟨.truncate, cache⟩ source ⟨some 2⟩).2) ∧
    (∃ n, ¬ AlikeAt ⟨none⟩ .initial commands n) ∧
      ∃ n, IsLeast {n | ¬ AlikeAt ⟨none⟩ .initial commands n} n ∧
        before .floor n = before .truncate n ∧
        (before .floor (n + 1)).register ≠ (before .truncate (n + 1)).register ∧
        ∃ records,
          (unlimited .truncate).ShowsNext records commands[n + 1]? (before .truncate (n + 1)) ∧
          (unlimited .floor).ShowsNext records commands[n + 1]? (before .floor (n + 1)) := by
  intro source cache commands before unlimited
  have hc : commands =
      [.literal 2, .op .push, .literal (-7), .op .print, .op .div, .op .print] := by
    decide +kernel
  have halike : ∀ n, AlikeAt ⟨some 2⟩ .initial commands n := by
    rw [hc]
    intro n command hn hr
    have hlt : n < 6 := hr.1
    -- of the commands that are reached, none is a division
    interval_cases n
    · cases hn; decide
    · cases hn; decide
    · cases hn; decide
    · cases hn; decide
    · exact absurd (hr.2.2 2 rfl) (by decide +kernel)
    · exact absurd (hr.2.2 2 rfl) (by decide +kernel)
  have hparts : ∃ n, ¬ AlikeAt ⟨none⟩ .initial commands n := by
    rw [hc]
    refine ⟨4, fun h => absurd (h (.op .div) rfl ⟨by decide, by decide, ?_⟩) (by decide)⟩
    rintro _ ⟨⟩
  have hseen := rounding_seen ⟨1, .truncate⟩ [.run source none] source
  obtain ⟨n, hleast, -, -, hsame, hne, htruncated, hfloored⟩ := (hseen none).2 hparts
  exact ⟨⟨halike, ((hseen (some 2)).1 halike).2.1⟩, hparts, n, hleast, hsame, hne, _, htruncated,
    hfloored⟩

end Interpreter

end StackScript
