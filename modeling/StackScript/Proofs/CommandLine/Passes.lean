import StackScript.CommandLine
import StackScript.Proofs.Session.Transparency

/-!
# Passes are copies

Every pass of the command line gives what a single evaluation does on a new interpreter without a
cache: the passes before have left nothing but a sound cache behind. So passes are `copies` of that
evaluation (`passes_of_sound`), and neither the output nor the exit code shows how large a cache
was asked for (`run_eq_copies`). The output is flushed behind the passes, and if that fails it costs
the run its success and nothing else (`run_unflushed`).
-/

set_option autoImplicit false

namespace StackScript.CommandLine

open Interpreter (after uncached Sound)

/-- What comes of `n` evaluations that are all the same: their outputs one behind the other, or the
output and the error of the first, if it is broken off. -/
def copies (e : Evaluation) (n : Nat) : Outcome :=
  match e.result with
  | .ok _ => { out := (List.replicate n e.out).flatten }
  | .error cause => if n = 0 then {} else { out := e.out, failure := some (.broken cause) }

section

variable {e : Evaluation} {n : Nat}

theorem copies_of_ok {halt : Halt} (h : e.result = .ok halt) (n : Nat) :
    copies e n = { out := (List.replicate n e.out).flatten } := by
  simp [copies, h]

theorem copies_of_error {cause : EvalError} (h : e.result = .error cause) (hn : n ≠ 0) :
    copies e n = { out := e.out, failure := some (.broken cause) } := by
  simp [copies, h, hn]

theorem copies_zero (e : Evaluation) : copies e 0 = {} := by
  cases h : e.result with
  | ok halt => rw [copies_of_ok h]; rfl
  | error cause => simp [copies, h]

/-- There is a pass, and it is broken off. -/
def Fails (e : Evaluation) (n : Nat) : Prop := 1 ≤ n ∧ ∃ cause, e.result = .error cause

theorem exitCode_copies (e : Evaluation) (n : Nat) :
    ((copies e n).exitCode = 1 ↔ Fails e n) ∧ ((copies e n).exitCode = 0 ↔ ¬ Fails e n) := by
  cases h : e.result with
  | ok halt =>
    have hf : ¬ Fails e n := fun ⟨_, cause, hc⟩ => by rw [h] at hc; cases hc
    simp [copies_of_ok h, Outcome.exitCode, hf]
  | error cause =>
    by_cases hn : n = 0
    · have hf : ¬ Fails e n := fun hf => absurd hn (Nat.one_le_iff_ne_zero.1 hf.1)
      simp [hn, copies_zero, Outcome.exitCode, hn ▸ hf]
    · have hf : Fails e n := ⟨Nat.one_le_iff_ne_zero.2 hn, cause, h⟩
      simp [copies_of_error h hn, Outcome.exitCode, Failure.exitCode, hf]

end

variable {config : Config} {i : Interpreter} {template : Template} {bindings : Bindings}

/-- Every pass leaves a sound interpreter, so the next one gives the same. -/
theorem passes_of_sound (h : Sound config i) (n : Nat) :
    passes template bindings n i =
      copies ((uncached config.division).eval template bindings .unlimited).2 n := by
  induction n generalizing i with
  | zero => rw [passes_zero, copies_zero]
  | succ n ih =>
    obtain ⟨records, -, he⟩ := Interpreter.eval_eq_uncached h template bindings .unlimited
    have hout := congrArg Evaluation.out he
    have hresult := congrArg Evaluation.result he
    cases hr : ((uncached config.division).eval template bindings .unlimited).2.result with
    | error cause =>
      rw [passes_of_error (hresult.trans hr), copies_of_error hr n.succ_ne_zero, hout]
    | ok halt =>
      rw [passes_of_ok (hresult.trans hr), hout,
        ih (Interpreter.sound_eval h template bindings .unlimited), copies_of_ok hr,
        copies_of_ok hr, List.replicate_succ, List.flatten_cons]

/-- Passes on an interpreter, whatever it was used for before, are copies of one evaluation on a new
one without a cache. So a command line whose program text can be read writes these copies, its exit
code is one exactly if there is a pass and that evaluation is broken off, and the size of the cache
makes no difference. -/
theorem run_eq_copies :
    (∀ (config : Config) (steps : List Step) (template : Template) (bindings : Bindings) (n : Nat),
      let e := ((uncached config.division).eval template bindings .unlimited).2
      let o := passes template bindings n (after config steps)
      (n = 0 → o.out = [] ∧ o.failure = none) ∧
      (∀ halt, e.result = .ok halt →
        o.out = (List.replicate n e.out).flatten ∧ o.failure = none) ∧
      ∀ cause, e.result = .error cause → 1 ≤ n →
        o.out = e.out ∧ o.failure = some (.broken cause)) ∧
    ∀ (readFile : String → Except ReadError (List UInt8)) (words : List String) (o : Options)
      (text : String), Options.parse words = .ok o → programText readFile o.origin = .ok text →
      let e := ((uncached o.division).eval (.parse text) o.values .unlimited).2
      run readFile words = copies e o.passes ∧
        ((run readFile words).exitCode = 1 ↔ 1 ≤ o.passes ∧ ∃ cause, e.result = .error cause) ∧
        ((run readFile words).exitCode = 0 ↔ ¬ (1 ≤ o.passes ∧ ∃ cause, e.result = .error cause)) ∧
        ∀ (words' : List String) (capacity : Nat),
          Options.parse words' = .ok { o with cacheCapacity := capacity } →
          run readFile words' = run readFile words := by
  refine ⟨fun config steps template bindings n => ?_, fun readFile words o text ho ht => ?_⟩
  · intro e o
    have hcopies : o = copies e n := passes_of_sound (Interpreter.sound_after config steps) n
    rw [hcopies]
    refine ⟨fun hn => ?_, fun halt hr => ?_, fun cause hr hn => ?_⟩
    · rw [hn, copies_zero]
      exact ⟨rfl, rfl⟩
    · rw [copies_of_ok hr]
      exact ⟨rfl, rfl⟩
    · rw [copies_of_error hr (Nat.one_le_iff_ne_zero.1 hn)]
      exact ⟨rfl, rfl⟩
  · intro e
    -- the capacity is in nothing that the copies are made of
    have hrun (words : List String) (capacity : Nat)
        (h : Options.parse words = .ok { o with cacheCapacity := capacity }) :
        run readFile words = copies e o.passes := by
      unfold run
      rw [h]
      simp only [perform, ht, evaluate, Outcome.flushed_ok]
      exact passes_of_sound (Interpreter.sound_new ⟨capacity, o.division⟩) o.passes
    have hwords := hrun words o.cacheCapacity ho
    obtain ⟨hone, hzero⟩ := exitCode_copies e o.passes
    rw [hwords]
    exact ⟨rfl, hone, hzero, fun words' capacity h => hrun words' capacity h⟩

/-- Three passes with a program error each, on a cache of one program and on no cache; a fault that
ends the passes at the first; and a malformed template that nobody evaluates. -/
theorem run_eq_copies_threePasses :
    let noFile : String → Except ReadError (List UInt8) := fun _ => .error .notFound
    let said := ["%<c>d PRINT ADD", "-s", "c=7", "--repeat=3"]
    let o : Options :=
      { origin := .source "%<c>d PRINT ADD", bindings := [⟨"c", 7⟩], cacheCapacity := 1, passes := 3 }
    let halting := passes (.parse "%<c>d PRINT ADD") o.values 2 (after ⟨1, .truncate⟩ [])
    let faulty := passes (.parse "1 PRINT 0 PUSH DIV") .empty 2 (after ⟨1, .floor⟩ [])
    let malformed := passes (.parse "%") .empty 0 (after ⟨1, .floor⟩ [])
    (Options.parse (said ++ ["--cache=1"]) = .ok o ∧
      programText noFile o.origin = .ok "%<c>d PRINT ADD" ∧
      Options.parse (said ++ ["--cache=0"]) = .ok { o with cacheCapacity := 0 }) ∧
    ((run noFile (said ++ ["--cache=1"])).out =
        Text.encode "7\nEmpty stack!\n7\nEmpty stack!\n7\nEmpty stack!\n" ∧
      (run noFile (said ++ ["--cache=1"])).exitCode = 0 ∧
      run noFile (said ++ ["--cache=0"]) = run noFile (said ++ ["--cache=1"])) ∧
    (halting.out = Text.encode "7\nEmpty stack!\n7\nEmpty stack!\n" ∧ halting.failure = none) ∧
    (faulty.out = Text.encode "1\n" ∧
      faulty.failure = some (.broken (.fault .divisionByZero))) ∧
    malformed.out = [] ∧ malformed.failure = none := by
  intro noFile said o halting faulty malformed
  have ho : Options.parse (said ++ ["--cache=1"]) = .ok o := by decide +kernel
  have ht : programText noFile o.origin = .ok "%<c>d PRINT ADD" := rfl
  have ho' : Options.parse (said ++ ["--cache=0"]) = .ok { o with cacheCapacity := 0 } := by
    decide +kernel
  obtain ⟨hrun, -, hzero, hcache⟩ := run_eq_copies.2 noFile _ o _ ho ht
  have he : ((uncached o.division).eval (.parse "%<c>d PRINT ADD") o.values .unlimited).2.result =
      .ok (.error .emptyStack) := by decide +kernel
  have hfault : ((uncached .floor).eval (.parse "1 PRINT 0 PUSH DIV") .empty
      .unlimited).2.result = .error (.fault .divisionByZero) := by decide +kernel
  obtain ⟨hhout, hhalting⟩ := (run_eq_copies.1 ⟨1, .truncate⟩ [] _ o.values 2).2.1 _ he
  obtain ⟨hfout, hfailure⟩ :=
    (run_eq_copies.1 ⟨1, .floor⟩ [] (.parse "1 PRINT 0 PUSH DIV") .empty 2).2.2 _ hfault (by decide)
  refine ⟨⟨ho, ht, ho'⟩, ⟨?_, hzero.2 fun h => ?_, hcache _ 0 ho'⟩, ⟨hhout.trans ?_, hhalting⟩,
    ⟨hfout.trans ?_, hfailure⟩, (run_eq_copies.1 ⟨1, .floor⟩ [] (.parse "%") .empty 0).1 rfl⟩
  · rw [hrun, copies_of_ok he]
    decide +kernel
  · obtain ⟨-, cause, hc⟩ := h
    rw [he] at hc
    cases hc
  · decide +kernel
  · decide +kernel

/-! ## The flush -/

section

variable (readFile : String → Except ReadError (List UInt8)) (words : List String)

theorem run_flushed (flush : Except String Unit) :
    run readFile words flush = (run readFile words).flushed flush := by
  unfold run
  cases Options.parse words with
  | error cause => rfl
  | ok o =>
    simp only [perform]
    cases programText readFile o.origin with
    | error f => rfl
    | ok text => simp only [evaluate, Outcome.flushed_ok]

/-- If the output cannot be flushed, all of it is written nevertheless, and the run has failed: as it
would have anyway, or for this reason. -/
theorem run_unflushed (cause : String) :
    let o := run readFile words
    let o' := run readFile words (.error cause)
    o'.out = o.out ∧ o'.failure = some (o.failure.getD (.unflushed cause)) ∧ o'.exitCode ≠ 0 := by
  intro o o'
  have ho' : o' = o.flushed (.error cause) := run_flushed readFile words (.error cause)
  rw [ho']
  obtain ⟨out, failure⟩ := o
  cases failure with
  | none => exact ⟨rfl, rfl, Nat.one_ne_zero⟩
  | some f =>
    refine ⟨rfl, rfl, ?_⟩
    cases f <;> simp [Outcome.flushed, Outcome.exitCode, Failure.exitCode]

end

/-- Both passes are written and the run fails. -/
example : run (fun _ => .error .notFound) ["1 PRINT", "--repeat=2"] (.error "closed") =
    ⟨Text.encode "1\n1\n", some (.unflushed "closed")⟩ := by
  decide +kernel

end StackScript.CommandLine
