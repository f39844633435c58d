import Mathlib.Data.Finset.Card
import StackScript.Proofs.Cache.Overrun
import StackScript.Proofs.Session.Transparency

/-!
# What a session caches

A step that runs a text fetches its code from the cache, takes it in if it is missed, and records
which of the two it was; a step without text leaves the interpreter alone (`step_of_source`,
`step_of_no_source`). The cache of every session is therefore a valid one, and holds the text that
was run last (`cache_bounded`). While the texts of a session fit, nothing leaves the cache, so each
text is missed once (`missed_once`). While there are fewer of them than twice the capacity, no ghost
is overrun (`overruns_from_twice`).
-/

set_option autoImplicit false

namespace StackScript

/-! ## Texts -/

theorem toOption_eq_some {ε α : Type} {e : Except ε α} {a : α} (h : e.toOption = some a) :
    e = .ok a := by
  cases e with
  | error => cases h
  | ok => exact congrArg Except.ok (Option.some.inj h)

theorem toOption_eq_none {ε α : Type} {e : Except ε α} (h : e.toOption = none) :
    ∃ cause, e = .error cause := by
  cases e with
  | error cause => exact ⟨cause, rfl⟩
  | ok => cases h

/-- The texts that steps run, one after another. -/
def Step.sources (steps : List Step) : List String := steps.filterMap Step.source?

theorem Step.sources_append (before behind : List Step) :
    Step.sources (before ++ behind) = Step.sources before ++ Step.sources behind :=
  List.filterMap_append

theorem Step.sources_cons (s : Step) (steps : List Step) :
    Step.sources (s :: steps) = s.source?.toList ++ Step.sources steps := by
  cases h : s.source? <;> simp [Step.sources, h]

theorem Step.sources_runs (texts : List String) :
    Step.sources (texts.map (.run · none)) = texts := by
  simp [Step.sources, Step.source?, Function.comp_def]

/-- More steps run no fewer texts. -/
theorem Step.card_sources_le (before behind : List Step) :
    (Step.sources before).toFinset.card ≤ (Step.sources (before ++ behind)).toFinset.card := by
  rw [Step.sources_append, List.toFinset_append]
  exact Finset.card_le_card Finset.subset_union_left

/-! ## What is cached and what is recorded -/

/-- How many programs an interpreter caches as configured. -/
def Config.granted (config : Config) : Nat := min config.cacheCapacity maxCacheCapacity

/-- The report of a step in a session that misses each text once: a text is missed when it has not
been run before. -/
structure Report.MissedOnce (before : List Step) (s : Step) (r : Report) : Prop where
  miss : .cacheMiss ∈ r.log ↔ ∃ source, s.source? = some source ∧ source ∉ Step.sources before
  hit : .cacheHit ∈ r.log ↔ ∃ source, s.source? = some source ∧ source ∈ Step.sources before
  /-- The texts that were run are cached. -/
  cached : r.cached = (Step.sources (before ++ [s])).toFinset.card

/-- A record of looking a text up. -/
def Record.OfLookup (r : Record) : Prop := r = .cacheHit ∨ r = .cacheMiss

namespace Execution

variable {division : Division} {trailing : Option ProgramError} {sink : Sink} {m : Machine}
  {r : Record}

theorem not_mem_log_halted (hr : r.OfLookup) (cause : ProgramError) :
    r ∉ (halted sink m cause).log := by
  rcases hr with rfl | rfl <;> unfold halted <;> split <;> simp [recorded, broken]

theorem not_mem_log_finished (hr : r.OfLookup) : r ∉ (finished sink m trailing).log := by
  cases trailing with
  | none => rcases hr with rfl | rfl <;> simp [finished]
  | some cause => exact not_mem_log_halted hr cause

/-- Carrying out commands looks nothing up. -/
theorem not_mem_log_ofCommands (hr : r.OfLookup) (commands : List Command) :
    r ∉ (ofCommands division trailing sink m commands).log := by
  induction commands generalizing sink m with
  | nil => exact not_mem_log_finished hr
  | cons command commands ih =>
    have hs : ∀ m command, r ≠ .state m command := by
      rcases hr with rfl | rfl <;> simp
    unfold ofCommands
    refine List.not_mem_cons_of_ne_of_not_mem (hs m command) ?_
    split
    · exact ih
    · split
      · exact ih
      · exact List.not_mem_nil
    · exact not_mem_log_halted hr .emptyStack
    · exact List.not_mem_nil

end Execution

namespace Interpreter

variable {config : Config} {i : Interpreter} {s : Step} {source : String}
  {cache : Cache String Code}

/-! ## One step -/

theorem run_lookup (i : Interpreter) (source : String) (sink : Sink) :
    ∃ log, (i.run source sink).2.log = (i.codeOf source).2.2 ++ log ∧
      ∀ r : Record, r.OfLookup → r ∉ log :=
  ⟨_, rfl, fun _ hr => Execution.not_mem_log_ofCommands hr _⟩

/-- A step that runs a text reads it and says in its log how. -/
theorem step_of_source (h : s.source? = some source) (i : Interpreter) :
    (i.step s).1 = (i.codeOf source).1 ∧
      ∃ log, (i.step s).2.log = (i.codeOf source).2.2 ++ log ∧
        ∀ r : Record, r.OfLookup → r ∉ log := by
  cases s with
  | run text limit =>
    cases h
    exact ⟨rfl, run_lookup i source ⟨limit⟩⟩
  | eval template bindings limit =>
    simp only [step, eval_of_ok (toOption_eq_some h)]
    exact ⟨rfl, run_lookup i source ⟨limit⟩⟩
  | capture template bindings =>
    simp only [step, capture, eval_of_ok (toOption_eq_some h)]
    exact ⟨rfl, run_lookup i source .unlimited⟩

/-- A step whose template cannot be filled in does nothing. -/
theorem step_of_no_source (h : s.source? = none) (i : Interpreter) :
    (i.step s).1 = i ∧ (i.step s).2.log = [] := by
  cases s with
  | run text limit => cases h
  | eval template bindings limit =>
    obtain ⟨cause, ht⟩ := toOption_eq_none h
    simp only [step, eval_of_error ht, and_self]
  | capture template bindings =>
    obtain ⟨cause, ht⟩ := toOption_eq_none h
    simp only [step, capture, eval_of_error ht, and_self]

theorem cached_step (i : Interpreter) (s : Step) :
    (i.step s).2.cached = (i.step s).1.cachedPrograms := by
  cases s <;> rfl

/-- Reading a text fetches its code. -/
theorem codeOf_cached (h : i.cache = some cache) (source : String) :
    (i.codeOf source).1.cache = some (cache.fetch source (.ofSource source)) ∧
      (i.codeOf source).2.2 = if source ∈ cache.keys then [.cacheHit] else [.cacheMiss] := by
  cases hg : cache.get? source with
  | none =>
    have hk := Cache.get?_eq_none_iff.1 hg
    simp only [codeOf, h, hg, Cache.fetch_of_missed hg, if_neg hk, and_self]
  | some p =>
    obtain ⟨code, cache'⟩ := p
    have hk : source ∈ cache.keys := by
      by_contra hk
      simp [Cache.get?_eq_none_iff.2 hk] at hg
    simp only [codeOf, h, hg, Cache.fetch_of_get? hg, if_pos hk, and_self]

/-- What a step that runs a text does to a cache and says about it. -/
theorem step_cached (h : i.cache = some cache) (hs : s.source? = some source) :
    (i.step s).1.cache = some (cache.fetch source (.ofSource source)) ∧
      (.cacheHit ∈ (i.step s).2.log ↔ source ∈ cache.keys) ∧
      (.cacheMiss ∈ (i.step s).2.log ↔ source ∉ cache.keys) := by
  obtain ⟨hnext, log, hlog, hrest⟩ := step_of_source hs i
  obtain ⟨hcache, hrecords⟩ := codeOf_cached h source
  have hhit := hrest .cacheHit (.inl rfl)
  have hmiss := hrest .cacheMiss (.inr rfl)
  rw [hnext, hlog, hrecords]
  refine ⟨hcache, ?_⟩
  split <;> simp_all

/-! ## Sessions -/

theorem session_append (i : Interpreter) (before behind : List Step) :
    (i.session (before ++ behind)).1 = ((i.session before).1.session behind).1 := by
  induction before generalizing i with
  | nil => rfl
  | cons s before ih => exact ih (i.step s).1

theorem getElem?_session (i : Interpreter) (before behind : List Step) (s : Step) :
    (i.session (before ++ s :: behind)).2[before.length]? =
      some ((i.session before).1.step s).2 := by
  induction before generalizing i with
  | nil => rfl
  | cons t before ih => exact ih (i.step t).1

theorem after_concat (config : Config) (steps : List Step) (s : Step) :
    after config (steps ++ [s]) = ((after config steps).step s).1 :=
  session_append (new config).1 steps [s]

/-- A session fetches the codes of its texts. -/
theorem cache_session (h : i.cache = some cache) (steps : List Step) :
    (i.session steps).1.cache = some (cache.fetchAll .ofSource (Step.sources steps)) := by
  induction steps generalizing i cache with
  | nil => exact h
  | cons s steps ih =>
    rw [session_cons, Step.sources_cons]
    cases hs : s.source? with
    | none => exact ih (by rw [(step_of_no_source hs i).1, h])
    | some source => exact ih (step_cached h hs).1

theorem cache_new (hc : config.cacheCapacity ≠ 0) :
    (new config).1.cache = some (.empty config.granted) := by
  have hn : config.granted ≠ 0 := by
    unfold Config.granted maxCacheCapacity
    omega
  exact if_neg hn

theorem cache_after (hc : config.cacheCapacity ≠ 0) (steps : List Step) :
    (after config steps).cache =
      some ((Cache.empty config.granted).fetchAll .ofSource (Step.sources steps)) :=
  cache_session (cache_new hc) steps

theorem cachedPrograms_of_cache (h : i.cache = some cache) : i.cachedPrograms = cache.size := by
  rw [cachedPrograms, h]

theorem granted_pos (hc : config.cacheCapacity ≠ 0) : 0 < config.granted :=
  Nat.lt_min.2 ⟨Nat.pos_of_ne_zero hc, by decide⟩

theorem valid_after (hc : config.cacheCapacity ≠ 0) (steps : List Step) :
    ∃ cache, (after config steps).cache = some cache ∧ cache.capacity = config.granted ∧
      cache.Valid := by
  obtain ⟨hvalid, hcap⟩ :=
    Cache.valid_fetchAll Code.ofSource (Cache.valid_empty config.granted) (Step.sources steps)
  exact ⟨_, cache_after hc steps, hcap, hvalid⟩

/-- The cache of every session is valid and so has one program too many at most, and the text that
was run last is in it: run once more, it is found. -/
theorem cache_bounded (config : Config) (hc : config.cacheCapacity ≠ 0) (steps : List Step) :
    let i := after config steps
    (∃ cache, i.cache = some cache ∧ cache.capacity = config.granted ∧ cache.Valid) ∧
      i.cachedPrograms ≤ config.granted + 1 ∧ i.cachedPrograms ≤ maxCacheCapacity + 1 ∧
      ∀ s source, s.source? = some source →
        (∃ cache, (i.step s).1.cache = some cache ∧ source ∈ cache.keys) ∧
          ∀ s' : Step, s'.source? = some source → .cacheHit ∈ ((i.step s).1.step s').2.log := by
  intro i
  obtain ⟨cache, hcache, hcap, hvalid⟩ := valid_after hc steps
  have hsize : i.cachedPrograms ≤ config.granted + 1 := by
    rw [cachedPrograms_of_cache hcache, ← hcap]
    exact hvalid.size_le
  have hmax : config.granted ≤ maxCacheCapacity := Nat.min_le_right _ _
  refine ⟨⟨cache, hcache, hcap, hvalid⟩, hsize, by omega, fun s source hs => ?_⟩
  have hnext := (step_cached hcache hs).1
  have hk := Cache.mem_keys_fetch hvalid (hcap ▸ granted_pos hc) source (.ofSource source)
  exact ⟨⟨_, hnext, hk⟩, fun s' hs' => (step_cached hnext hs').2.1.2 hk⟩

/-- The text that left a cache for one program comes back into a cache for one program that has the
other text, and both are cached. -/
theorem cache_bounded_ghost :
    let steps := [.run "1" none, .run "2" none, .run "1" (some 0)]
    let i := after ⟨1, .truncate⟩ steps
    (1 ≠ 0 ∧ Step.source? (.run "3" none) = some "3" ∧
        Step.source? (.capture (.parse "3") .empty) = some "3") ∧
      (∃ cache, i.cache = some cache ∧ cache.capacity = 1 ∧ cache.Valid) ∧
      i.cachedPrograms = 2 ∧ i.cachedPrograms ≤ Config.granted ⟨1, .truncate⟩ + 1 ∧
      .cacheHit ∈ ((i.step (.run "3" none)).1.step (.capture (.parse "3") .empty)).2.log := by
  intro steps i
  have hn : 1 ≠ 0 := by decide
  have hs : Step.source? (.run "3" none) = some "3" := rfl
  have hs' : Step.source? (.capture (.parse "3") .empty) = some "3" := by decide +kernel
  obtain ⟨hvalid, hsize, -, hfound⟩ := cache_bounded ⟨1, .truncate⟩ hn steps
  exact ⟨⟨hn, hs, hs'⟩, hvalid, by decide +kernel, hsize, (hfound _ "3" hs).2 _ hs'⟩

/-! ## Texts that fit -/

theorem holds_after (hc : config.cacheCapacity ≠ 0) {steps : List Step}
    (hfit : (Step.sources steps).toFinset.card ≤ config.granted) :
    ∃ cache, (after config steps).cache = some cache ∧ cache.Holds (Step.sources steps) :=
  ⟨_, cache_after hc steps, (Cache.holds_empty config.granted).fetchAll Code.ofSource hfit⟩

theorem missedOnce_step (hc : config.cacheCapacity ≠ 0) {before : List Step} {s : Step}
    (hfit : (Step.sources (before ++ [s])).toFinset.card ≤ config.granted) :
    ((after config before).step s).2.MissedOnce before s := by
  have hfit' := Nat.le_trans (Step.card_sources_le before [s]) hfit
  obtain ⟨cache, hcache, hholds⟩ := holds_after hc hfit'
  obtain ⟨next, hnext, hholds'⟩ := holds_after hc hfit
  rw [after_concat] at hnext
  have hcached := cached_step (after config before) s
  rw [cachedPrograms_of_cache hnext, hholds'.size_eq] at hcached
  cases hs : s.source? with
  | none =>
    have hlog := (step_of_no_source hs (after config before)).2
    exact ⟨by simp [hlog, hs], by simp [hlog, hs], hcached⟩
  | some source =>
    obtain ⟨-, hhit, hmiss⟩ := step_cached hcache hs
    rw [hholds.mem_keys] at hhit hmiss
    exact ⟨by simp [hs, hmiss], by simp [hs, hhit], hcached⟩

/-- If a cache is large enough for the texts of a session, it misses each of them once. -/
theorem missed_once (config : Config) (hc : config.cacheCapacity ≠ 0) (before behind : List Step)
    (s : Step) (hfit : (Step.sources (before ++ s :: behind)).toFinset.card ≤ config.granted) :
    ∃ r, ((new config).1.session (before ++ s :: behind)).2[before.length]? = some r ∧
      r.MissedOnce before s := by
  refine ⟨_, getElem?_session (new config).1 before behind s, missedOnce_step hc ?_⟩
  rw [List.append_cons] at hfit
  exact Nat.le_trans (Step.card_sources_le (before ++ [s]) behind) hfit

/-- A cache for two programs and a session with two texts: the second one is missed although a
template failed in between, and the first one is then found. -/
theorem missed_once_twoTexts :
    let before := [.run "1 PRINT" none, .eval (.parse "%") .empty none]
    let steps := before ++ .run "2 PRINT" (some 0) :: [.capture (.parse "1 PRINT") .empty]
    let reports := ((new ⟨2, .floor⟩).1.session steps).2
    (2 ≠ 0 ∧ (Step.sources steps).toFinset.card ≤ Config.granted ⟨2, .floor⟩) ∧
      (∃ r, reports[2]? = some r ∧ .cacheMiss ∈ r.log ∧ r.cached = 2) ∧
      ∃ r, reports[3]? = some r ∧ .cacheHit ∈ r.log ∧ .cacheMiss ∉ r.log ∧ r.cached = 2 := by
  intro before steps reports
  have hn : 2 ≠ 0 := by decide
  have hfit : (Step.sources steps).toFinset.card ≤ Config.granted ⟨2, .floor⟩ := by
    decide +kernel
  have hs : Step.source? (.capture (.parse "1 PRINT") .empty) = some "1 PRINT" := by decide +kernel
  have hseen : "1 PRINT" ∈ Step.sources (before ++ [.run "2 PRINT" (some 0)]) := by decide +kernel
  obtain ⟨r, hr, h⟩ := missed_once ⟨2, .floor⟩ hn before _ _ hfit
  obtain ⟨r', hr', h'⟩ :=
    missed_once ⟨2, .floor⟩ hn (before ++ [.run "2 PRINT" (some 0)]) [] _ hfit
  refine ⟨⟨hn, hfit⟩, ⟨r, hr, h.miss.2 ⟨_, rfl, by decide +kernel⟩, h.cached.trans ?_⟩,
    r', hr', h'.hit.2 ⟨_, hs, hseen⟩, fun hm => ?_, h'.cached.trans ?_⟩
  · decide +kernel
  · obtain ⟨source, hs', hnew⟩ := h'.miss.1 hm
    cases hs.symm.trans hs'
    exact hnew hseen
  · decide +kernel

/-! ## Texts that overrun a ghost -/

/-- As long as a session has fewer texts than twice the capacity of its cache, no text that is
looked up overruns a ghost. From there on it happens: of as many texts, run one after another, the
first one does so when it is run again. -/
theorem overruns_from_twice (config : Config) :
    (∀ (before behind : List Step) (s : Step),
      (Step.sources (before ++ s :: behind)).toFinset.card < 2 * config.granted →
      ∃ cache, (after config before).cache = some cache ∧
        ∀ source, s.source? = some source → ¬ cache.Overruns source) ∧
    ∀ (first : String) (texts : List String), 2 ≤ config.granted → (first :: texts).Nodup →
      (first :: texts).length = 2 * config.granted →
      ∃ cache, (after config ((first :: texts).map (.run · none))).cache = some cache ∧
        cache.Overruns first := by
  constructor
  · intro before behind s hfew
    have hc : config.cacheCapacity ≠ 0 := fun h => by simp [Config.granted, h] at hfew
    have hbefore := Nat.lt_of_le_of_lt (Step.card_sources_le before (s :: behind)) hfew
    exact ⟨_, cache_after hc before, fun source _ => Cache.not_overruns_fetchAll _ hbefore source⟩
  · intro first texts hn hnodup hlen
    have hc : config.cacheCapacity ≠ 0 := fun h => by simp [Config.granted, h] at hn
    refine ⟨_, cache_after hc _, ?_⟩
    rw [Step.sources_runs]
    exact Cache.overruns_of_nodup _ hn hnodup hlen

/-- A cache for two programs. The first of three texts comes back as a ghost and makes another text
a ghost of the same list, which has room for both. With a fourth text before that it has not. -/
theorem overruns_from_twice_fourTexts :
    let before := ["0", "1", "2"].map (Step.run · none)
    let s := Step.eval (.parse "0") .empty (some 0)
    (Step.sources (before ++ [s])).toFinset.card < 2 * Config.granted ⟨2, .floor⟩ ∧
      s.source? = some "0" ∧
      (∃ cache, (after ⟨2, .floor⟩ before).cache = some cache ∧
        cache.recentGhosts = ["0"] ∧ ¬ cache.Overruns "0") ∧
      (2 ≤ Config.granted ⟨2, .floor⟩ ∧ ["0", "1", "2", "3"].Nodup ∧
        ["0", "1", "2", "3"].length = 2 * Config.granted ⟨2, .floor⟩) ∧
      ∃ cache, (after ⟨2, .floor⟩ (["0", "1", "2", "3"].map (.run · none))).cache = some cache ∧
        cache.Overruns "0" := by
  intro before s
  have hfew : (Step.sources (before ++ [s])).toFinset.card < 2 * Config.granted ⟨2, .floor⟩ := by
    decide +kernel
  have hs : s.source? = some "0" := by decide +kernel
  have hn : 2 ≤ Config.granted ⟨2, .floor⟩ := by decide
  have hnodup : ["0", "1", "2", "3"].Nodup := by decide
  have hlen : ["0", "1", "2", "3"].length = 2 * Config.granted ⟨2, .floor⟩ := by decide
  obtain ⟨cache, hcache, hnone⟩ := (overruns_from_twice ⟨2, .floor⟩).1 before [] s hfew
  have hghosts : (after ⟨2, .floor⟩ before).cache.map (·.recentGhosts) = some ["0"] := by
    decide +kernel
  rw [hcache] at hghosts
  exact ⟨hfew, hs, ⟨cache, hcache, Option.some.inj hghosts, hnone "0" hs⟩, ⟨hn, hnodup, hlen⟩,
    (overruns_from_twice ⟨2, .floor⟩).2 "0" ["1", "2", "3"] hn hnodup hlen⟩

end Interpreter

end StackScript
