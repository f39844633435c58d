import Mathlib.Data.List.Forall2
import StackScript.Proofs.Cache.Entries
import StackScript.Session

/-!
# The cache is not seen

Whatever an interpreter was used for before, a step gives what it gives alone, on a new interpreter
that caches nothing; only the log has one record more, which says whether code was cached
(`session_eq_alone`).

The invariant is `Sound`: the interpreter has the rounding it was built with, it has a cache if one
was asked for, and every cached code is the code of the text it is cached under. A new interpreter
is sound, and since looking up makes up no entry and a missed text is taken in with its own code,
reading a text keeps it (`sound_codeOf`). Every kind of step reads one text at most.
-/

set_option autoImplicit false

namespace StackScript

/-- The text that a step runs, unless its template cannot be filled in. -/
def Step.source? : Step → Option String
  | .run source _ => some source
  | .eval template bindings _ => (template.render bindings).toOption
  | .capture template bindings => (template.render bindings).toOption

def Interpreter.uncached (division : Division) : Interpreter := (new ⟨0, division⟩).1

def Step.alone (division : Division) (s : Step) : Report :=
  ((Interpreter.uncached division).step s).2

/-- The records of looking up what is run: a hit or a miss if there is a cache and anything is run,
else nothing. -/
def Config.LookupRecords (config : Config) (source? : Option String) (records : List Record) :
    Prop :=
  if config.cacheCapacity ≠ 0 ∧ source?.isSome then
    records = [.cacheHit] ∨ records = [.cacheMiss]
  else records = []

/-- A report that is the one of the step alone, but for the records of looking up. -/
structure Report.EqAlone (config : Config) (s : Step) (r : Report) : Prop where
  answer : r.answer = (s.alone config.division).answer
  log : ∃ records, config.LookupRecords s.source? records ∧
    r.log = records ++ (s.alone config.division).log

namespace Interpreter

/-- The interpreter after a session that began with a new one. -/
def after (config : Config) (steps : List Step) : Interpreter := ((new config).1.session steps).1

/-- What every use of an interpreter keeps. -/
structure Sound (config : Config) (i : Interpreter) : Prop where
  division : i.division = config.division
  cached : i.cache = none ↔ config.cacheCapacity = 0
  entries : ∀ cache, i.cache = some cache → ∀ e ∈ cache.entries, e.2 = Code.ofSource e.1

variable {config : Config} {i : Interpreter}

theorem sound_new (config : Config) : Sound config (new config).1 where
  division := rfl
  cached := by
    simp only [new]
    split <;> simp_all [maxCacheCapacity]
  entries := by
    intro cache hc
    simp only [new] at hc
    split at hc
    · cases hc
    · cases hc
      simp [Cache.empty, Cache.entries]

/-! ## Reading a text -/

theorem sound_codeOf (h : Sound config i) (source : String) :
    Sound config (i.codeOf source).1 ∧ (i.codeOf source).2.1 = .ofSource source ∧
      config.LookupRecords (some source) (i.codeOf source).2.2 := by
  unfold codeOf
  split
  · rename_i hi
    exact ⟨h, rfl, by simp [Config.LookupRecords, h.cached.1 hi]⟩
  · rename_i cache hi
    have hn : config.cacheCapacity ≠ 0 := fun h0 => by simp [h.cached.2 h0] at hi
    split
    · rename_i code cache' hg
      -- the entry that was found is one of the invariant, and so is all that is left
      obtain ⟨hk, hs⟩ := Cache.of_get?_eq_some hg
      refine ⟨⟨h.division, by simp [hn], ?_⟩, h.entries cache hi _ hk,
        by simp [Config.LookupRecords, hn]⟩
      rintro _ ⟨⟩ e he
      exact h.entries cache hi e (hs e he)
    · refine ⟨⟨h.division, by simp [hn], ?_⟩, rfl, by simp [Config.LookupRecords, hn]⟩
      rintro _ ⟨⟩ e he
      rcases Cache.mem_entries_put he with rfl | he
      · rfl
      · exact h.entries cache hi e he

/-! ## Uses -/

theorem sound_run (h : Sound config i) (source : String) (sink : Sink) :
    Sound config (i.run source sink).1 := (sound_codeOf h source).1

theorem sound_eval (h : Sound config i) (template : Template) (bindings : Bindings) (sink : Sink) :
    Sound config (i.eval template bindings sink).1 := by
  cases ht : template.render bindings with
  | error cause => rwa [eval_of_error ht]
  | ok source => rw [eval_of_ok ht]; exact sound_run h source sink

/-- A run is the execution of the code of its text, with the records of looking up in front. -/
theorem run_eq_ofCode (h : Sound config i) (source : String) (sink : Sink) :
    ∃ records, config.LookupRecords (some source) records ∧
      (i.run source sink).2 =
        let e := Execution.ofCode config.division sink .initial (.ofSource source)
        { e with log := records ++ e.log } := by
  obtain ⟨-, hc, hr⟩ := sound_codeOf h source
  refine ⟨_, hr, ?_⟩
  simp only [run, hc, h.division]

theorem run_uncached (division : Division) (source : String) (sink : Sink) :
    ((uncached division).run source sink).2 =
      Execution.ofCode division sink .initial (.ofSource source) := rfl

/-- An evaluation is the one without a cache, with the records of looking up in front. -/
theorem eval_eq_uncached (h : Sound config i) (template : Template) (bindings : Bindings)
    (sink : Sink) :
    ∃ records, config.LookupRecords (template.render bindings).toOption records ∧
      (i.eval template bindings sink).2 =
        let e := ((uncached config.division).eval template bindings sink).2
        { e with log := records ++ e.log } := by
  cases ht : template.render bindings with
  | error cause =>
    refine ⟨[], by simp [Config.LookupRecords, Except.toOption], ?_⟩
    simp [eval_of_error ht]
  | ok source =>
    obtain ⟨records, hr, he⟩ := run_eq_ofCode h source sink
    refine ⟨records, hr, ?_⟩
    simp only [eval_of_ok ht, he, run_uncached, Execution.evaluation]

/-! ## Steps -/

theorem sound_step (h : Sound config i) (s : Step) : Sound config (i.step s).1 := by
  cases s with
  | run source limit => exact sound_run h source ⟨limit⟩
  | eval template bindings limit => exact sound_eval h template bindings ⟨limit⟩
  | capture template bindings => exact sound_eval h template bindings .unlimited

/-- A step of a sound interpreter is reported as the step alone. -/
theorem eqAlone_step (h : Sound config i) (s : Step) : (i.step s).2.EqAlone config s := by
  cases s with
  | run source limit =>
    obtain ⟨records, hr, he⟩ := run_eq_ofCode h source ⟨limit⟩
    constructor
    · simp only [step, Step.alone, he, run_uncached]
    · exact ⟨records, hr, by simp only [step, Step.alone, he, run_uncached]⟩
  | eval template bindings limit =>
    obtain ⟨records, hr, he⟩ := eval_eq_uncached h template bindings ⟨limit⟩
    constructor
    · simp only [step, Step.alone, he]
    · exact ⟨records, hr, by simp only [step, Step.alone, he]⟩
  | capture template bindings =>
    obtain ⟨records, hr, he⟩ := eval_eq_uncached h template bindings .unlimited
    constructor
    · simp only [step, capture, Step.alone, he]
    · exact ⟨records, hr, by simp only [step, capture, Step.alone, he]⟩

/-! ## Sessions -/

theorem sound_session (h : Sound config i) (steps : List Step) :
    Sound config (i.session steps).1 := by
  induction steps generalizing i with
  | nil => exact h
  | cons s steps ih => exact ih (sound_step h s)

theorem sound_after (config : Config) (steps : List Step) : Sound config (after config steps) :=
  sound_session (sound_new config) steps

theorem forall_eqAlone_session (h : Sound config i) (steps : List Step) :
    List.Forall₂ (fun s r => r.EqAlone config s) steps (i.session steps).2 := by
  induction steps generalizing i with
  | nil => exact .nil
  | cons s steps ih => exact .cons (eqAlone_step h s) (ih (sound_step h s))

/-- After any session every cached code is that of its text, and each of its steps was reported as
the step alone. -/
theorem session_eq_alone (config : Config) (steps : List Step) :
    Sound config (after config steps) ∧
      List.Forall₂ (fun s r => r.EqAlone config s) steps
        ((new config).1.session steps).2 :=
  ⟨sound_after config steps, forall_eqAlone_session (sound_new config) steps⟩

end Interpreter

end StackScript
