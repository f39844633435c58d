import StackScript.Proofs.Execution.Interleaving
import StackScript.Proofs.Text.Layout

/-!
# Programs behind one another

A text with white space and a second text behind it is run like the two texts one after the other:
if the first is run to its end, the second goes on from the machine that it leaves, and else it is
not reached (`run_append`). That holds of the code of the texts (`Code.ofSource_append`), where a bad
token hides what stands behind it, and of the courses of their commands
(`Course.ofCommands_append`), where a trap does.
-/

set_option autoImplicit false

namespace StackScript

/-! ## Courses -/

namespace Course

variable {σ ν : Type}

/-- A course, and if it has no trap the one that begins where it ends. -/
def andThen (c : Course σ ν) (next : σ → Course σ ν) : Course σ ν :=
  match c.trap with
  | some _ => c
  | none =>
    let d := next c.final
    ⟨c.passed ++ d.passed, c.emitted ++ d.emitted, d.final, d.trap⟩

variable {c : Course σ ν} {next : σ → Course σ ν}

theorem andThen_of_trap {trap : Trap} (h : c.trap = some trap) : c.andThen next = c := by
  simp [andThen, h]

theorem andThen_of_none (h : c.trap = none) :
    c.andThen next = ⟨c.passed ++ (next c.final).passed, c.emitted ++ (next c.final).emitted,
      (next c.final).final, (next c.final).trap⟩ := by
  simp [andThen, h]

theorem cons_andThen (s : σ) (value : Option ν) (c : Course σ ν) (next : σ → Course σ ν) :
    (c.cons s value).andThen next = (c.andThen next).cons s value := by
  -- the command in front does not change the trap
  have htrap : (c.cons s value).trap = c.trap := rfl
  cases h : c.trap with
  | some trap => rw [andThen_of_trap h, andThen_of_trap (htrap.trans h)]
  | none =>
    rw [andThen_of_none h, andThen_of_none (htrap.trans h)]
    simp [cons]

theorem ofCommands_append (step : σ → Command → Except Trap (σ × Option ν)) (s : σ)
    (as bs : List Command) :
    ofCommands step s (as ++ bs) = (ofCommands step s as).andThen (ofCommands step · bs) := by
  induction as generalizing s with
  | nil => rfl
  | cons command as ih =>
    rw [List.cons_append]
    cases hs : step s command with
    | error trap =>
      rw [ofCommands_error hs, ofCommands_error hs]
      rfl
    | ok p =>
      obtain ⟨s', value⟩ := p
      rw [ofCommands_ok hs, ofCommands_ok hs, ih, cons_andThen]

end Course

theorem Machine.course_append (division : Division) (m : Machine) (as bs : List Command) :
    m.course division (as ++ bs) = (m.course division as).andThen (·.course division bs) :=
  Course.ofCommands_append (step division) m as bs

/-! ## Code -/

namespace Code

/-- The code of a text with another behind it. A bad token hides what stands behind it. -/
def append (c d : Code) : Code :=
  match c.badToken with
  | some _ => c
  | none => ⟨c.commands ++ d.commands, d.badToken⟩

theorem append_of_bad {c : Code} {t : String} (h : c.badToken = some t) (d : Code) :
    c.append d = c := by
  simp [append, h]

theorem append_of_none {c : Code} (h : c.badToken = none) (d : Code) :
    c.append d = ⟨c.commands ++ d.commands, d.badToken⟩ := by
  simp [append, h]

theorem cons_append (command : Command) (c d : Code) :
    (c.cons command).append d = (c.append d).cons command := by
  have hbad : (c.cons command).badToken = c.badToken := rfl
  cases h : c.badToken with
  | some t => rw [append_of_bad h, append_of_bad (hbad.trans h)]
  | none =>
    rw [append_of_none h, append_of_none (hbad.trans h)]
    rfl

theorem ofTokens_append (ts us : List String) :
    ofTokens (ts ++ us) = (ofTokens ts).append (ofTokens us) := by
  induction ts with
  | nil => rfl
  | cons t ts ih =>
    rw [List.cons_append]
    cases hc : classify t with
    | error e =>
      rw [ofTokens_cons_error hc, ofTokens_cons_error hc]
      rfl
    | ok command => rw [ofTokens_cons_ok hc, ofTokens_cons_ok hc, ih, cons_append]

theorem ofSource_append {w : String} (hb : IsBlank w) (hw : w ≠ "") (s t : String) :
    ofSource (s ++ w ++ t) = (ofSource s).append (ofSource t) := by
  rw [ofSource, tokenize_append_blank hb hw, ofTokens_append]
  rfl

end Code

/-! ## Stops -/

namespace Stop

theorem result_eq_ok_iff {stop : Stop} : stop.result = .ok .ok ↔ stop = complete := by
  cases stop <;> simp [result]

theorem ofTrap_eq_complete_iff {trap : Option Trap} {code : Code} :
    ofTrap trap code.trailingError = complete ↔ trap = none ∧ code.badToken = none := by
  unfold Code.trailingError
  rcases trap with _ | (_ | _) <;> cases code.badToken <;> simp [ofTrap]

end Stop

/-! ## Executions on a sink without limit -/

namespace Execution

variable {division : Division} {m : Machine}

theorem outputLines_append (as bs : List Word) (stop : Stop) :
    outputLines (as ++ bs) stop = as.map Word.text ++ outputLines bs stop := by
  simp [outputLines]

/-- Where the course of commands ends without a trap, the execution leaves its machine. -/
theorem machine_ofCommands (trailing : Option ProgramError) {commands : List Command}
    (h : (m.course division commands).trap = none) :
    (ofCommands division trailing .unlimited m commands).machine =
      (m.course division commands).final := by
  induction commands generalizing m with
  | nil =>
    cases trailing with
    | none => rfl
    | some cause => exact machine_halted .unlimited m cause
  | cons command commands ih =>
    cases hp : m.perform division command with
    | mk m' outcome =>
    cases outcome with
    | error trap =>
      rw [Machine.course_error hp] at h
      cases h
    | ok value =>
      rw [Machine.course_ok hp] at h ⊢
      cases value with
      | none =>
        rw [ofCommands_silent hp]
        exact ih h
      | some value =>
        rw [ofCommands_print hp (Sink.write_unlimited _)]
        exact ih h

/-- A code that is carried out to its end is followed by what stands behind it, from the machine
that it leaves. -/
theorem ofCode_append_of_complete (d : Code) {c : Code}
    (h : (ofCode division .unlimited m c).result = .ok .ok) :
    let e := ofCode division .unlimited m c
    let f := ofCode division .unlimited m (c.append d)
    let g := ofCode division .unlimited e.machine d
    f.out = e.out ++ g.out ∧ f.result = g.result := by
  intro e f g
  obtain ⟨heo, her⟩ : e.Writes _ _ := ofCode_unlimited division m c
  obtain ⟨htrap, hbad⟩ := Stop.ofTrap_eq_complete_iff.1 (Stop.result_eq_ok_iff.1 (her.symm.trans h))
  have hm : e.machine = (m.course division c.commands).final :=
    machine_ofCommands c.trailingError htrap
  obtain ⟨hgo, hgr⟩ : g.Writes _ _ := ofCode_unlimited division e.machine d
  obtain ⟨hfo, hfr⟩ : f.Writes _ _ := ofCode_unlimited division m (c.append d)
  have htrailing : (c.append d).trailingError = d.trailingError := by
    rw [Code.append_of_none hbad]
    rfl
  rw [htrailing, Code.append_of_none hbad, Machine.course_append, Course.andThen_of_none htrap,
    ← hm] at hfo hfr
  refine ⟨?_, hfr.trans hgr.symm⟩
  rw [htrap, Code.trailingError, hbad] at heo
  rw [hfo, hgo, heo, outputLines_append, List.flatMap_append]
  simp [outputLines, Stop.ofTrap, Stop.lines]

/-- A code that stops before its end is carried out as if nothing stood behind it. -/
theorem ofCode_append_of_stopped (d : Code) {c : Code}
    (h : (ofCode division .unlimited m c).result ≠ .ok .ok) :
    let e := ofCode division .unlimited m c
    let f := ofCode division .unlimited m (c.append d)
    f.out = e.out ∧ f.result = e.result := by
  intro e f
  cases hbad : c.badToken with
  | some t =>
    have hf : f = e := congrArg (ofCode division .unlimited m) (Code.append_of_bad hbad d)
    rw [hf]
    exact ⟨rfl, rfl⟩
  | none =>
    obtain ⟨heo, her⟩ : e.Writes _ _ := ofCode_unlimited division m c
    obtain ⟨hfo, hfr⟩ : f.Writes _ _ := ofCode_unlimited division m (c.append d)
    cases htrap : (m.course division c.commands).trap with
    | none =>
      refine absurd ?_ h
      exact her.trans (Stop.result_eq_ok_iff.2 (Stop.ofTrap_eq_complete_iff.2 ⟨htrap, hbad⟩))
    | some trap =>
      have hcourse : m.course division (c.append d).commands = m.course division c.commands := by
        rw [Code.append_of_none hbad, Machine.course_append, Course.andThen_of_trap htrap]
      -- behind a trap the trailing error does not count either
      have hstop : ∀ trailing, Stop.ofTrap (some trap) trailing = .ofTrap (some trap) none := by
        intro trailing
        cases trap <;> rfl
      rw [hcourse, htrap, hstop] at hfo hfr
      rw [htrap, hstop] at heo her
      exact ⟨hfo.trans heo.symm, hfr.trans her.symm⟩

end Execution

/-! ## Runs -/

namespace Interpreter

/-- A run to the end of the first text is followed by the execution of the second, from the machine
that the run leaves; a run that stops before writes and reports the same, whatever stands behind.
What the interpreters were used for before does not count. -/
theorem run_append (config : Config) (steps steps' : List Step) (s w t : String) (hb : IsBlank w)
    (hw : w ≠ "") :
    let e := ((after config steps).run s .unlimited).2
    let f := ((after config steps').run (s ++ w ++ t) .unlimited).2
    (e.result = .ok .ok →
      let g := Execution.ofCode config.division .unlimited e.machine (.ofSource t)
      f.out = e.out ++ g.out ∧ f.result = g.result) ∧
    (e.result ≠ .ok .ok → f.out = e.out ∧ f.result = e.result) := by
  obtain ⟨_, -, he⟩ := run_eq_ofCode (sound_after config steps) s .unlimited
  obtain ⟨_, -, hf⟩ := run_eq_ofCode (sound_after config steps') (s ++ w ++ t) .unlimited
  rw [Code.ofSource_append hb hw] at hf
  simp only [he, hf]
  exact ⟨fun h => Execution.ofCode_append_of_complete (.ofSource t) h,
    fun h => Execution.ofCode_append_of_stopped (.ofSource t) h⟩

/-- The second text finds the register and the stack of the first; and it is not reached behind a
text that stops at an empty stack, before a bad token of its own. -/
theorem run_append_subtraction :
    let i := after ⟨1, .floor⟩ [.run "5 PUSH 7 PRINT" none]
    let e := (i.run "5 PUSH 7 PRINT" .unlimited).2
    let f := (i.run ("5 PUSH 7 PRINT" ++ "\u3000\n" ++ "SUB PRINT ADD") .unlimited).2
    let e' := (i.run "1 PRINT ADD XSUB" .unlimited).2
    let f' := (i.run ("1 PRINT ADD XSUB" ++ "\u3000\n" ++ "9 PRINT") .unlimited).2
    (IsBlank "\u3000\n" ∧ "\u3000\n" ≠ "") ∧
      (e.result = .ok .ok ∧
        f.out = Text.encode "7\n2\nEmpty stack!\n" ∧ f.result = .ok (.error .emptyStack)) ∧
      e'.result ≠ .ok .ok ∧
        f'.out = Text.encode "1\nEmpty stack!\n" ∧ f'.result = .ok (.error .emptyStack) := by
  intro i e f e' f'
  have hb : IsBlank "\u3000\n" := by decide
  have hw : "\u3000\n" ≠ "" := by decide
  have he : e.result = .ok .ok := by decide +kernel
  have he' : e'.result ≠ .ok .ok := by decide +kernel
  have hrun := run_append ⟨1, .floor⟩ [.run "5 PUSH 7 PRINT" none]
    [.run "5 PUSH 7 PRINT" none]
  obtain ⟨ho, hr⟩ := (hrun "5 PUSH 7 PRINT" "\u3000\n" "SUB PRINT ADD" hb hw).1 he
  obtain ⟨ho', hr'⟩ := (hrun "1 PRINT ADD XSUB" "\u3000\n" "9 PRINT" hb hw).2 he'
  refine ⟨⟨hb, hw⟩, ⟨he, ho.trans ?_, hr.trans ?_⟩, he', ho'.trans ?_, hr'.trans ?_⟩
  · decide +kernel
  · decide +kernel
  · decide +kernel
  · decide +kernel

end Interpreter

end StackScript
