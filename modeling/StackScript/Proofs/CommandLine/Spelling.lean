import StackScript.CommandLine
import StackScript.Proofs.CommandLine.Options
import StackScript.Proofs.Text.Split

/-!
# Every spelling of the arguments, in every order

An argument may be `Spelled` by one word or by two: an option has up to two names, and its value is
the next word or stands in the same word. Whatever the spelling, the words are read as the arguments
(`readAll_flatten`). So a run depends on what the arguments are, and neither on how they are spelled
nor, but for the bindings, on the order in which they stand (`run_spelled`).
-/

set_option autoImplicit false

namespace StackScript.CommandLine

/-- The words that name an option and leave its value to the next word. -/
def ValueOption.names : ValueOption → List String
  | .file => ["-f", "--file"]
  | .binding => ["-s", "--set"]
  | .cache => ["--cache"]
  | .passes => ["--repeat"]

/-- What may stand in front of the value of an option in one word. -/
def ValueOption.fronts : ValueOption → List String
  | .file => ["-f", "-f=", "--file="]
  | .binding => ["-s", "-s=", "--set="]
  | .cache => ["--cache="]
  | .passes => ["--repeat="]

/-- A value that is taken for one in every spelling. -/
structure IsPlainValue (v : String) : Prop where
  ne_empty : v ≠ ""
  no_hyphen : v.toList.head? ≠ some '-'
  no_equals : v.toList.head? ≠ some '='

/-- The words by which an argument may be given. -/
inductive Spelled : Argument → List String → Prop
  | source {text : String} (h : text.toList.head? ≠ some '-') : Spelled (.source text) [text]
  | floor : Spelled .floor ["--floor"]
  | apart {o : ValueOption} {name v : String} (h : name ∈ o.names) (hv : IsPlainValue v) :
      Spelled (.setting o v) [name, v]
  | attached {o : ValueOption} {front v : String} (h : front ∈ o.fronts) (hv : IsPlainValue v) :
      Spelled (.setting o v) [front ++ v]

/-! ## The look of a word -/

namespace Look

variable {word v : String} {o : ValueOption} {c : Char} {cs : List Char}

theorem ofWord_plain (h : word.toList.head? ≠ some '-') : ofWord word = .ok (.source word) := by
  unfold ofWord
  split
  · simp_all
  · simp_all
  · simp_all
  · rfl

theorem ofWord_name {name : String} (h : name ∈ o.names) :
    ofWord name = .ok (.setting o none) := by
  have hnames : ∀ name ∈ o.names, ofWord name = .ok (.setting o none) := by
    cases o <;> simp only [ValueOption.names, List.forall_mem_cons]
    · exact ⟨rfl, rfl, List.forall_mem_nil _⟩
    · exact ⟨rfl, rfl, List.forall_mem_nil _⟩
    · exact ⟨rfl, List.forall_mem_nil _⟩
    · exact ⟨rfl, List.forall_mem_nil _⟩
  exact hnames name h

theorem ofWord_short (hc : shortOption? c = some o) (hw : word.toList = '-' :: c :: cs) :
    ofWord word = .ok (.setting o (shortAttached cs)) := by
  have hne : c ≠ '-' := by
    intro he
    subst he
    cases hc
  simp [ofWord, hw, hne, ofShort, hc]

theorem shortAttached_toList (hv : IsPlainValue v) : shortAttached v.toList = some v := by
  have hne : v.toList ≠ [] := fun h => hv.ne_empty (String.toList_eq_nil_iff.1 h)
  have hequals := hv.no_equals
  unfold shortAttached
  split
  · contradiction
  · simp_all
  · rw [String.ofList_toList]

theorem longOption?_long (o : ValueOption) : longOption? o.long = some o := by
  cases o <;> rfl

theorem ofWord_long (hw : word.toList = '-' :: '-' :: (o.long.toList ++ '=' :: v.toList)) :
    ofWord word = .ok (.setting o (some v)) := by
  have hequals : '=' ∉ o.long.toList := by cases o <;> decide
  obtain ⟨htake, hdrop⟩ := Text.span_ne_append hequals v.toList
  obtain ⟨d, ds, hd⟩ := List.exists_cons_of_ne_nil
    (List.append_ne_nil_of_right_ne_nil o.long.toList (List.cons_ne_nil '=' v.toList))
  have hlook : ofWord word = ofLong (o.long.toList ++ '=' :: v.toList) := by
    simp only [ofWord, hw, hd]
  rw [hlook]
  simp only [ofLong, longAttached, htake, hdrop, String.ofList_toList, longOption?_long]

/-- The words in which a short name and a value stand. -/
theorem ofWord_shortFronts (hc : shortOption? c = some o) (hv : IsPlainValue v) :
    ofWord (.ofList ['-', c] ++ v) = .ok (.setting o (some v)) ∧
      ofWord (.ofList ['-', c, '='] ++ v) = .ok (.setting o (some v)) := by
  have hattached : (String.ofList ['-', c] ++ v).toList = '-' :: c :: v.toList := by simp
  have hequals : (String.ofList ['-', c, '='] ++ v).toList = '-' :: c :: '=' :: v.toList := by simp
  rw [ofWord_short hc hattached, ofWord_short hc hequals, shortAttached_toList hv, shortAttached,
    String.ofList_toList]
  exact ⟨rfl, rfl⟩

theorem ofWord_front {front : String} (h : front ∈ o.fronts) (hv : IsPlainValue v) :
    ofWord (front ++ v) = .ok (.setting o (some v)) := by
  have hfronts : ∀ front ∈ o.fronts, ofWord (front ++ v) = .ok (.setting o (some v)) := by
    cases o <;> simp only [ValueOption.fronts, List.forall_mem_cons]
    · have hc : shortOption? 'f' = some .file := rfl
      obtain ⟨hattached, hequals⟩ := ofWord_shortFronts hc hv
      exact ⟨hattached, hequals, ofWord_long (by simp [ValueOption.long]), List.forall_mem_nil _⟩
    · have hc : shortOption? 's' = some .binding := rfl
      obtain ⟨hattached, hequals⟩ := ofWord_shortFronts hc hv
      exact ⟨hattached, hequals, ofWord_long (by simp [ValueOption.long]), List.forall_mem_nil _⟩
    · exact ⟨ofWord_long (by simp [ValueOption.long]), List.forall_mem_nil _⟩
    · exact ⟨ofWord_long (by simp [ValueOption.long]), List.forall_mem_nil _⟩
  exact hfronts front h

end Look

/-! ## Words that are read as arguments -/

variable {a : Argument} {units : List Argument} {said : List (List String)}

theorem readAll_spelled {words : List String} (h : Spelled a words) (rest : List String) :
    Argument.readAll (words ++ rest) = (Argument.readAll rest).map (a :: ·) := by
  cases h with
  | source h => simp only [List.cons_append, List.nil_append, Argument.readAll, Look.ofWord_plain h]
  | floor =>
    have hlook : Look.ofWord "--floor" = .ok .floor := by rfl
    simp only [List.cons_append, List.nil_append, Argument.readAll, hlook]
  | apart h hv =>
    have hvalue := Argument.isValue_of_no_hyphen hv.no_hyphen
    simp only [List.cons_append, List.nil_append, Argument.readAll, Look.ofWord_name h,
      if_pos hvalue]
  | attached h hv =>
    simp only [List.cons_append, List.nil_append, Argument.readAll, Look.ofWord_front h hv]

/-- Words that spell arguments are read as these. -/
theorem readAll_flatten (h : List.Forall₂ Spelled units said) :
    Argument.readAll said.flatten = .ok units := by
  induction h with
  | nil => rfl
  | cons hspelled _ ih =>
    rw [List.flatten_cons, readAll_spelled hspelled, ih]
    rfl

theorem isPlainValue_of_mem {o : ValueOption} {v : String}
    (h : List.Forall₂ Spelled units said) (hv : .setting o v ∈ units) : IsPlainValue v := by
  induction h with
  | nil => cases hv
  | cons hspelled _ ih =>
    obtain _ | ⟨_, hv⟩ := hv
    · cases hspelled with
      | apart _ hplain => exact hplain
      | attached _ hplain => exact hplain
    · exact ih hv

theorem parse_flatten (h : List.Forall₂ Spelled units said) :
    Options.parse said.flatten = Options.ofArguments units := by
  rw [Options.parse, readAll_flatten h]
  rfl

/-- Arguments in any spelling make options exactly if they are admissible; the options are those that
fit them, and for other arguments the exit code is two and nothing is written. Other spellings, and
another order that keeps the bindings in theirs, change nothing in what a run does. -/
theorem run_spelled (units : List Argument) (said : List (List String))
    (h : List.Forall₂ Spelled units said) :
    (Admissible units → ∃ o, Options.parse said.flatten = .ok o ∧ Fits units o) ∧
    (¬ Admissible units → ∀ readFile : String → Except ReadError (List UInt8),
      (run readFile said.flatten).exitCode = 2 ∧ (run readFile said.flatten).out = []) ∧
    ∀ (units' : List Argument) (said' : List (List String)), List.Forall₂ Spelled units' said' →
      units'.Perm units →
      units'.filterMap (Argument.value? .binding) = units.filterMap (Argument.value? .binding) →
      ∀ readFile : String → Except ReadError (List UInt8),
        run readFile said'.flatten = run readFile said.flatten := by
  refine ⟨fun hunits => ?_, fun hunits readFile => ?_, fun units' said' h' hperm hb readFile => ?_⟩
  · have hpath : .setting .file "" ∉ units := fun hm => (isPlainValue_of_mem h hm).ne_empty rfl
    obtain ⟨o, ho⟩ := Options.exists_ofArguments hpath hunits
    exact ⟨o, (parse_flatten h).trans ho, (Options.ofArguments_fits ho).2⟩
  · cases ho : Options.ofArguments units with
    | ok o => exact absurd (Options.ofArguments_fits ho).1 hunits
    | error cause =>
      rw [run, parse_flatten h, ho]
      exact ⟨rfl, rfl⟩
  · rw [run, run, parse_flatten h, parse_flatten h', Options.ofArguments_perm hperm hb]

/-- A name that is bound twice between other arguments, in two orders and in other spellings; and the
same with a rounding that is said twice. -/
theorem run_spelled_twoBindings :
    let noFile : String → Except ReadError (List UInt8) := fun _ => .error .notFound
    let units : List Argument := [.setting .binding "x=1", .floor, .setting .cache "+08",
      .source "%<x>d PRINT", .setting .binding "x = 2", .setting .passes "3"]
    let said := [["-sx=1"], ["--floor"], ["--cache=+08"], ["%<x>d PRINT"], ["-s=x = 2"],
      ["--repeat", "3"]]
    let units' : List Argument := [.source "%<x>d PRINT", .setting .binding "x=1",
      .setting .passes "3", .setting .binding "x = 2", .floor, .setting .cache "+08"]
    let said' := [["%<x>d PRINT"], ["--set", "x=1"], ["--repeat=3"], ["-s", "x = 2"], ["--floor"],
      ["--cache", "+08"]]
    (List.Forall₂ Spelled units said ∧ Admissible units ∧ List.Forall₂ Spelled units' said' ∧
      units'.Perm units ∧ units'.filterMap (Argument.value? .binding) =
        units.filterMap (Argument.value? .binding)) ∧
    (List.Forall₂ Spelled (.floor :: units) (["--floor"] :: said) ∧
      ¬ Admissible (.floor :: units)) ∧
    (∃ o, Options.parse said.flatten = .ok o ∧ Fits units o) ∧
    run noFile said'.flatten = run noFile said.flatten ∧
    (run noFile ("--floor" :: said.flatten)).exitCode = 2 ∧
    (run noFile ("--floor" :: said.flatten)).out = [] := by
  intro noFile units said units' said'
  have hx1 : IsPlainValue "x=1" := ⟨by decide, by decide, by decide⟩
  have hx2 : IsPlainValue "x = 2" := ⟨by decide, by decide, by decide⟩
  have h8 : IsPlainValue "+08" := ⟨by decide, by decide, by decide⟩
  have h3 : IsPlainValue "3" := ⟨by decide, by decide, by decide⟩
  have hsaid : List.Forall₂ Spelled units said := by
    refine .cons ?_ <| .cons .floor <| .cons ?_ <| .cons (.source (by decide)) <| .cons ?_ <|
      .cons ?_ .nil
    · exact .attached (by decide : "-s" ∈ ValueOption.binding.fronts) hx1
    · exact .attached (by decide : "--cache=" ∈ ValueOption.cache.fronts) h8
    · exact .attached (by decide : "-s=" ∈ ValueOption.binding.fronts) hx2
    · exact .apart (by decide) h3
  have hsaid' : List.Forall₂ Spelled units' said' := by
    refine .cons (.source (by decide)) <| .cons ?_ <| .cons ?_ <| .cons ?_ <| .cons .floor <|
      .cons ?_ .nil
    · exact .apart (by decide) hx1
    · exact .attached (by decide : "--repeat=" ∈ ValueOption.passes.fronts) h3
    · exact .apart (by decide) hx2
    · exact .apart (by decide) h8
  have hunits : Admissible units := by
    refine ⟨by decide, fun o ho => ?_, by decide, fun text path _ h => ?_, fun v hv => ?_,
      fun v hv => ?_, fun v hv => ?_⟩
    · cases o with
      | file => decide
      | binding => exact absurd rfl ho
      | cache => decide
      | passes => decide
    · simp [units] at h
    · obtain rfl | rfl : v = "x=1" ∨ v = "x = 2" := by simpa [units] using hv
      · exact ⟨⟨"x", 1⟩, by rfl⟩
      · exact ⟨⟨"x", 2⟩, by rfl⟩
    · obtain rfl : v = "+08" := by simpa [units] using hv
      exact ⟨8, by decide, .plus (by decide)⟩
    · obtain rfl : v = "3" := by simpa [units] using hv
      exact ⟨3, by decide, .unsigned (by decide)⟩
  have hperm : units'.Perm units := by decide
  have htwice : List.Forall₂ Spelled (.floor :: units) (["--floor"] :: said) := .cons .floor hsaid
  have hnot : ¬ Admissible (.floor :: units) := fun h => absurd h.floor_once (by decide)
  obtain ⟨hparse, -, hrun⟩ := run_spelled units said hsaid
  obtain ⟨hexit, hout⟩ := (run_spelled _ _ htwice).2.1 hnot noFile
  exact ⟨⟨hsaid, hunits, hsaid', hperm, rfl⟩, ⟨htwice, hnot⟩, hparse hunits,
    hrun units' said' hsaid' hperm rfl noFile, hexit, hout⟩

end StackScript.CommandLine
