import StackScript.CommandLine.Options

/-!
# Words, arguments and options

Words that are read as arguments are read in the same way in front of any others, as long as none of
them makes all that follow program text (`readAll_append`). The arguments that say where the
program text comes from decide nothing else about a run (`ofArguments_of_origin`).
-/

set_option autoImplicit false

namespace StackScript.CommandLine

namespace Look

theorem ofLong_ne_terminator (cs : List Char) : ofLong cs ≠ .ok .terminator := by
  simp only [ofLong]
  cases longOption? (String.ofList (cs.takeWhile (· != '='))) with
  | some option => simp
  | none => cases longAttached cs <;> dsimp only <;> split <;> simp

theorem ofShort_ne_terminator (c : Char) (cs : List Char) : ofShort c cs ≠ .ok .terminator := by
  unfold ofShort
  split <;> simp

theorem of_ofWord_eq_terminator {word : String} (h : ofWord word = .ok .terminator) :
    word = "--" := by
  unfold ofWord at h
  split at h
  · rename_i hw
    rw [← String.toList_inj, hw]
    rfl
  · exact absurd h (ofLong_ne_terminator _)
  · exact absurd h (ofShort_ne_terminator _ _)
  · cases h

end Look

namespace Argument

variable {as : List Argument} {words : List String}

@[simp] theorem source?_source (text : String) : source? (.source text) = some text := rfl

@[simp] theorem source?_setting (option : ValueOption) (value : String) :
    source? (.setting option value) = none := rfl

@[simp] theorem value?_source (option : ValueOption) (text : String) :
    value? option (.source text) = none := rfl

@[simp] theorem value?_setting (option o : ValueOption) (value : String) :
    value? option (.setting o value) = if o = option then some value else none := rfl

theorem readAll_append (hterm : "--" ∉ words) (h : readAll words = .ok as) (rest : List String) :
    readAll (words ++ rest) = (readAll rest).map (as ++ ·) := by
  have step (a : Argument) {ws : List String} {as : List Argument}
      (ih : ∀ {as}, readAll ws = .ok as → readAll (ws ++ rest) = (readAll rest).map (as ++ ·))
      (h : (readAll ws).map (a :: ·) = .ok as) :
      (readAll (ws ++ rest)).map (a :: ·) = (readAll rest).map (as ++ ·) := by
    cases hws : readAll ws with
    | error e =>
      rw [hws] at h
      cases h
    | ok tail =>
      rw [hws] at h
      cases h
      rw [ih hws]
      cases readAll rest <;> rfl
  induction words using readAll.induct generalizing as with
  | case1 =>
    cases h
    rw [List.nil_append]
    cases readAll rest <;> rfl
  | case2 word words e he => simp [readAll, he] at h
  | case3 word words he => exact absurd (Look.of_ofWord_eq_terminator he ▸ List.mem_cons_self) hterm
  | case4 word words text he ih =>
    simp only [readAll, he, List.cons_append] at h ⊢
    exact step _ (ih fun hm => hterm (List.mem_cons_of_mem _ hm)) h
  | case5 word words he ih =>
    simp only [readAll, he, List.cons_append] at h ⊢
    exact step _ (ih fun hm => hterm (List.mem_cons_of_mem _ hm)) h
  | case6 word words option value he ih =>
    simp only [readAll, he, List.cons_append] at h ⊢
    exact step _ (ih fun hm => hterm (List.mem_cons_of_mem _ hm)) h
  | case7 word option he => simp [readAll, he] at h
  | case8 word option he value words hv ih =>
    simp only [readAll, he, List.cons_append, if_pos hv] at h ⊢
    exact step _ (ih fun hm => hterm (by simp [hm])) h
  | case9 word option he value words hv => simp [readAll, he, hv] at h

theorem isValue_of_no_hyphen {word : String} (h : word.toList.head? ≠ some '-') :
    isValue word = true := by
  unfold isValue
  split
  · rename_i hword
    simp [hword] at h
  · rfl

theorem readAll_file {name : String} (h : name.toList.head? ≠ some '-') (rest : List String) :
    readAll ("--file" :: name :: rest) = (readAll rest).map (.setting .file name :: ·) := by
  have hlook : Look.ofWord "--file" = .ok (.setting .file none) := by rfl
  simp only [readAll, hlook, if_pos (isValue_of_no_hyphen h)]

theorem readAll_source (text : String) : readAll ["--", text] = .ok [.source text] := by
  have hlook : Look.ofWord "--" = .ok .terminator := by rfl
  simp [readAll, hlook]

end Argument

namespace Options

variable {args args' : List Argument} {o : Options} {origin : Origin}

/-- The arguments say the same but for where the program text comes from. -/
structure SameSettings (args args' : List Argument) : Prop where
  bindings : args'.filterMap (Argument.value? .binding) = args.filterMap (Argument.value? .binding)
  floor : args'.filter (· = .floor) = args.filter (· = .floor)
  cache : args'.filterMap (Argument.value? .cache) = args.filterMap (Argument.value? .cache)
  passes : args'.filterMap (Argument.value? .passes) = args.filterMap (Argument.value? .passes)

theorem exists_of_bind_eq_ok {α β : Type} {x : Except UsageError α} {f : α → Except UsageError β}
    {b : β} (h : (x >>= f) = .ok b) : ∃ a, x = .ok a ∧ f a = .ok b := by
  cases x with
  | error e => cases h
  | ok a => exact ⟨a, rfl, h⟩

theorem ofArguments_eq_ok_iff : ofArguments args = .ok o ↔
    programOrigin args = .ok o.origin ∧
    (args.filterMap (Argument.value? .binding)).mapM readBinding = .ok o.bindings ∧
    rounding args = .ok o.division ∧
    number .cache maxCacheCapacity 32 args = .ok o.cacheCapacity ∧
    number .passes (UInt64.size - 1) 1 args = .ok o.passes := by
  constructor
  · intro h
    obtain ⟨origin, horigin, h⟩ := exists_of_bind_eq_ok h
    obtain ⟨bindings, hbindings, h⟩ := exists_of_bind_eq_ok h
    obtain ⟨division, hdivision, h⟩ := exists_of_bind_eq_ok h
    obtain ⟨cacheCapacity, hcache, h⟩ := exists_of_bind_eq_ok h
    obtain ⟨passes, hpasses, h⟩ := exists_of_bind_eq_ok h
    cases h
    exact ⟨horigin, hbindings, hdivision, hcache, hpasses⟩
  · rintro ⟨horigin, hbindings, hdivision, hcache, hpasses⟩
    rw [ofArguments, horigin, hbindings, hdivision, hcache, hpasses]
    rfl

theorem ofArguments_of_origin (hsame : SameSettings args args') (h : ofArguments args = .ok o)
    (horigin : programOrigin args' = .ok origin) : ofArguments args' = .ok { o with origin } := by
  obtain ⟨-, hbindings, hdivision, hcache, hpasses⟩ := ofArguments_eq_ok_iff.1 h
  refine ofArguments_eq_ok_iff.2 ⟨horigin, ?_, ?_, ?_, ?_⟩
  · rwa [hsame.bindings]
  · rwa [rounding, hsame.floor]
  · rwa [number, single, hsame.cache]
  · rwa [number, single, hsame.passes]

theorem atMostOne_eq_ok_iff {α : Type} {what : String} {l : List α} {r : Option α} :
    atMostOne what l = .ok r ↔ l = r.toList := by
  match l with
  | [] => cases r <;> simp [atMostOne]
  | [a] => cases r <;> simp [atMostOne]
  | a :: b :: l => cases r <;> simp [atMostOne]

theorem of_programOrigin_eq_nowhere (h : programOrigin args = .ok .nowhere) :
    args.filterMap Argument.source? = [] ∧ args.filterMap (Argument.value? .file) = [] := by
  obtain ⟨source, hs, h⟩ := exists_of_bind_eq_ok h
  obtain ⟨file, hf, h⟩ := exists_of_bind_eq_ok h
  match source, file with
  | none, none => exact ⟨atMostOne_eq_ok_iff.1 hs, atMostOne_eq_ok_iff.1 hf⟩
  | some _, none => cases h
  | some _, some _ => cases h
  | none, some path =>
    simp only at h
    split at h <;> cases h

end Options

end StackScript.CommandLine
