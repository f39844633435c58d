import StackScript.CommandLine
import StackScript.Proofs.CommandLine.Arguments
import StackScript.Proofs.Text.Utf8

/-!
# Where the program text comes from

A command line without a program text gets one from a file or behind the word `--`. The file gives
exactly the texts: what a run does is the same for the bytes of a text in a file and for the text on
the command line, and a file whose bytes are not well formed is refused before anything is run
(`run_file_eq_source`).
-/

set_option autoImplicit false

namespace StackScript.CommandLine

/-! ## Plain file names -/

/-- The name leads to a file of the directory itself. -/
structure IsPlainName (name : String) : Prop where
  ne_empty : name ≠ ""
  no_slash : '/' ∉ name.toList
  ne_dot : name ≠ "."
  ne_dots : name ≠ ".."

namespace Directory

variable {d : Directory} {name : String} {content : List UInt8}

theorem parts_of_not_mem {cs : List Char} (h : '/' ∉ cs) : parts cs = [cs] := by
  induction cs with
  | nil => rfl
  | cons c cs ih =>
    rw [List.mem_cons, not_or] at h
    rw [parts, if_neg (Ne.symm h.1), ih h.2]

theorem follow_here (h : IsPlainName name) (hd : d.lookup name = some content) :
    d.follow .here name.toList = .ok (.file content) := by
  unfold follow
  split
  · contradiction
  · rename_i hn _
    exact absurd (String.toList_inj.1 hn) h.ne_empty
  · rename_i hn _
    exact absurd (String.toList_inj.1 hn) h.ne_dot
  · rename_i hn _
    exact absurd (String.toList_inj.1 hn) h.ne_dots
  · rw [String.ofList_toList, hd]
  · contradiction

theorem read_of_lookup (h : IsPlainName name) (hd : d.lookup name = some content) :
    d.read name = .ok content := by
  have hslash : name.toList.head? ≠ some '/' := fun hh => h.no_slash (List.mem_of_mem_head? hh)
  simp only [read, if_neg hslash, parts_of_not_mem h.no_slash, List.foldlM_cons, follow_here h hd]
  rfl

end Directory

/-! ## Options with a program text -/

section

variable {args : List Argument} {words first second : List String} {o : Options} {name : String}

theorem Options.parse_eq_ok_iff : Options.parse words = .ok o ↔
    ∃ args, Argument.readAll words = .ok args ∧ Options.ofArguments args = .ok o := by
  refine ⟨Options.exists_of_bind_eq_ok, ?_⟩
  rintro ⟨args, hread, ho⟩
  rw [Options.parse, hread]
  exact ho

theorem Options.programOrigin_source {text : String}
    (hs : args.filterMap Argument.source? = [text])
    (hf : args.filterMap (Argument.value? .file) = []) :
    Options.programOrigin args = .ok (.source text) := by
  rw [Options.programOrigin, Options.single, hs, hf]
  rfl

theorem Options.programOrigin_file (hname : name ≠ "")
    (hs : args.filterMap Argument.source? = [])
    (hf : args.filterMap (Argument.value? .file) = [name]) :
    Options.programOrigin args = .ok (.file name) := by
  rw [Options.programOrigin, Options.single, hs, hf]
  exact if_neg hname

theorem Options.parse_append_source (hterm : "--" ∉ words) (ho : Options.parse words = .ok o)
    (horigin : o.origin = .nowhere) (text : String) :
    Options.parse (words ++ ["--", text]) = .ok { o with origin := .source text } := by
  obtain ⟨args, hread, ho⟩ := Options.parse_eq_ok_iff.1 ho
  obtain ⟨hs, hf⟩ := Options.of_programOrigin_eq_nowhere
    (horigin ▸ (Options.ofArguments_eq_ok_iff.1 ho).1)
  refine Options.parse_eq_ok_iff.2 ⟨args ++ [.source text], ?_, ?_⟩
  · rw [Argument.readAll_append hterm hread, Argument.readAll_source]
    rfl
  · refine Options.ofArguments_of_origin ⟨?_, ?_, ?_, ?_⟩ ho (Options.programOrigin_source ?_ ?_)
    all_goals simp [hs, hf]

theorem Options.parse_insert_file (hname : name ≠ "") (hhyphen : name.toList.head? ≠ some '-')
    (hterm : "--" ∉ first) (hfirst : Argument.readAll first = .ok args)
    (ho : Options.parse (first ++ second) = .ok o) (horigin : o.origin = .nowhere) :
    Options.parse (first ++ "--file" :: name :: second) =
      .ok { o with origin := .file name } := by
  obtain ⟨all, hread, ho⟩ := Options.parse_eq_ok_iff.1 ho
  obtain ⟨hs, hf⟩ := Options.of_programOrigin_eq_nowhere
    (horigin ▸ (Options.ofArguments_eq_ok_iff.1 ho).1)
  rw [Argument.readAll_append hterm hfirst] at hread
  cases hsecond : Argument.readAll second with
  | error e =>
    rw [hsecond] at hread
    cases hread
  | ok rest =>
    rw [hsecond] at hread
    cases hread
    refine Options.parse_eq_ok_iff.2 ⟨args ++ .setting .file name :: rest, ?_, ?_⟩
    · rw [Argument.readAll_append hterm hfirst, Argument.readAll_file hhyphen, hsecond]
      rfl
    · rw [List.filterMap_append, List.append_eq_nil_iff] at hs hf
      refine Options.ofArguments_of_origin ⟨?_, ?_, ?_, ?_⟩ ho
        (Options.programOrigin_file hname ?_ ?_)
      all_goals simp [List.filterMap_cons, hs, hf]

end

/-! ## Files and texts -/

section

variable {readFile : String → Except ReadError (List UInt8)} {words : List String} {o : Options}
  {path : String} {bytes : List UInt8}

theorem run_of_source {text : String}
    (h : Options.parse words = .ok { o with origin := .source text }) :
    run readFile words = evaluate o text (.ok ()) := by
  rw [run, h]
  rfl

theorem run_of_file (h : Options.parse words = .ok { o with origin := .file path })
    (hread : readFile path = .ok bytes) : run readFile words =
      match Text.decode? bytes with
      | some text => evaluate o text (.ok ())
      | none => { failure := some (.unreadable path .invalidText) } := by
  rw [run, h]
  simp only [perform, programText, textOf, hread]
  cases Text.decode? bytes <;> rfl

end

/-- Options that are valid without a program text get one from a file of the directory, named in
front of them, between them or behind them. If its bytes are those of a text, all is as with this
text behind `--`. If they are not well formed, nothing is run, whatever the options are. -/
theorem run_file_eq_source (d : Directory) (first second : List String) (o : Options)
    (name : String) (hname : IsPlainName name) (hhyphen : name.toList.head? ≠ some '-')
    (hfirst : ∃ args, Argument.readAll first = .ok args) (hterm : "--" ∉ first ++ second)
    (ho : Options.parse (first ++ second) = .ok o) (horigin : o.origin = .nowhere) :
    (∀ text, d.lookup name = some (Text.encode text) →
      run d.read (first ++ "--file" :: name :: second) =
        run d.read (first ++ second ++ ["--", text])) ∧
    ∀ bytes, d.lookup name = some bytes → ¬ Text.WellFormed bytes →
      let outcome := run d.read (first ++ "--file" :: name :: second)
      outcome.exitCode = 1 ∧ outcome.out = [] ∧ outcome.failure.map Failure.message =
        some ("Failed to read " ++ name ++ ": stream did not contain valid UTF-8") := by
  obtain ⟨args, hfirst⟩ := hfirst
  have hfile := Options.parse_insert_file hname.ne_empty hhyphen
    (fun hm => hterm (List.mem_append_left _ hm)) hfirst ho horigin
  constructor
  · intro text hd
    have hsource := Options.parse_append_source hterm ho horigin text
    rw [run_of_file hfile (Directory.read_of_lookup hname hd), Text.decode?_encode,
      run_of_source hsource]
  · intro bytes hd hbytes
    have hrun := run_of_file hfile (Directory.read_of_lookup hname hd)
    rw [Text.decode?_eq_none_iff.2 hbytes] at hrun
    rw [hrun]
    refine ⟨rfl, rfl, congrArg some ?_⟩
    show "Failed to read " ++ name ++ ": " ++ "stream did not contain valid UTF-8" = _
    rw [String.append_assoc]
    rfl

/-- A text that begins with a hyphen, run twice, and a surrogate behind a letter, with no pass asked
for. -/
theorem run_file_eq_source_surrogate :
    let bytes : List UInt8 := [0x61, 0xED, 0xA0, 0x80]
    let text := "-3 PRINT %<x>d PRINT\n"
    let d : Directory := [("minus", Text.encode text), ("surrogate", bytes)]
    let first := ["--floor", "-s", "x = 1"]
    let second (passes : String) := ["--cache=8", "--repeat", passes]
    let o (passes : Nat) : Options := ⟨.nowhere, [⟨"x", 1⟩], .floor, 8, passes⟩
    let refused := run d.read (first ++ "--file" :: "surrogate" :: second "0")
    (IsPlainName "minus" ∧ "minus".toList.head? ≠ some '-' ∧
      IsPlainName "surrogate" ∧ "surrogate".toList.head? ≠ some '-' ∧
      (∃ args, Argument.readAll first = .ok args) ∧
      "--" ∉ first ++ second "2" ∧ "--" ∉ first ++ second "0" ∧
      Options.parse (first ++ second "2") = .ok (o 2) ∧
      Options.parse (first ++ second "0") = .ok (o 0) ∧
      d.lookup "minus" = some (Text.encode text) ∧
      d.lookup "surrogate" = some bytes ∧ ¬ Text.WellFormed bytes) ∧
    run d.read (first ++ "--file" :: "minus" :: second "2") =
      run d.read (first ++ second "2" ++ ["--", text]) ∧
    run d.read (first ++ second "2" ++ ["--", text]) = ⟨Text.encode "-3\n1\n-3\n1\n", none⟩ ∧
    refused.exitCode = 1 ∧ refused.out = [] ∧ refused.failure.map Failure.message =
      some "Failed to read surrogate: stream did not contain valid UTF-8" := by
  intro bytes text d first second o refused
  have hminus : IsPlainName "minus" := ⟨by decide, by decide, by decide, by decide⟩
  have hsurrogate : IsPlainName "surrogate" := ⟨by decide, by decide, by decide, by decide⟩
  have hfirst : ∃ args, Argument.readAll first = .ok args :=
    ⟨[.floor, .setting .binding "x = 1"], by rfl⟩
  have hterm : "--" ∉ first ++ second "2" := by decide
  have hterm' : "--" ∉ first ++ second "0" := by decide
  have ho : Options.parse (first ++ second "2") = .ok (o 2) := by rfl
  have ho' : Options.parse (first ++ second "0") = .ok (o 0) := by rfl
  have hbytes : ¬ Text.WellFormed bytes := Text.decode?_eq_none_iff.1 (by decide +kernel)
  have hrun := run_file_eq_source d first (second "2") (o 2) "minus" hminus (by decide) hfirst
    hterm ho rfl
  have hrefused := run_file_eq_source d first (second "0") (o 0) "surrogate" hsurrogate (by decide)
    hfirst hterm' ho' rfl
  have hprinted : run d.read (first ++ second "2" ++ ["--", text]) =
      ⟨Text.encode "-3\n1\n-3\n1\n", none⟩ := by
    decide +kernel
  exact ⟨⟨hminus, by decide, hsurrogate, by decide, hfirst, hterm, hterm', ho, ho', rfl, rfl,
      hbytes⟩, hrun.1 text rfl, hprinted, hrefused.2 bytes rfl hbytes⟩

end StackScript.CommandLine
