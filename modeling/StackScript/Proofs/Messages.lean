import StackScript.Binding
import StackScript.Interpreter.Execution
import StackScript.Proofs.Numeral

/-!
# What a message tells

Different errors have different messages: that of a program (`ProgramError.message_injective`), of a
template (`TemplateError.message_injective`), of a whole evaluation (`EvalError.message_injective`)
and of a binding (`BindingError.message_injective`).

A message begins with fixed characters that say which kind of error it is. The offset of a malformed
directive is told from what stands behind it because a colon is in no numeral. The name in the
message of a binding can be any text; there the cause behind the name is told first, for none is the
end of another one.
-/

set_option autoImplicit false

namespace StackScript

/-- Texts differ if neither of their beginnings is the beginning of the other one. -/
theorem append_ne_append {as bs : List Char} (h : ¬ (as <+: bs ∨ bs <+: as)) (xs ys : List Char) :
    as ++ xs ≠ bs ++ ys := by
  intro hxs
  apply h
  refine List.prefix_or_prefix_of_prefix (List.prefix_append as xs) ?_
  rw [hxs]
  exact List.prefix_append bs ys

/-! ## Messages with nothing put in -/

theorem Fault.message_injective {a b : Fault} (h : a.message = b.message) : a = b := by
  revert h
  cases a <;> cases b <;> decide

theorem Directive.Reason.message_injective {a b : Directive.Reason} (h : a.message = b.message) :
    a = b := by
  revert h
  cases a <;> cases b <;> decide

/-! ## Programs -/

namespace ProgramError

theorem toList_message_badToken (t : String) :
    (badToken t).message.toList = "Invalid token: ".toList ++ t.toList := String.toList_append

theorem message_badToken_ne (t : String) : (badToken t).message ≠ emptyStack.message := by
  intro h
  have ht : 'I' ∈ emptyStack.message.toList := by
    rw [← h, toList_message_badToken]
    exact List.mem_append_left _ (by decide)
  exact absurd ht (by decide)

/-- A message tells its error, the bad token included. -/
theorem message_injective {a b : ProgramError} (h : a.message = b.message) : a = b := by
  cases a with
  | badToken t =>
    cases b with
    | badToken u => rw [(String.append_right_inj _).1 h]
    | emptyStack => exact absurd h (message_badToken_ne t)
  | emptyStack =>
    cases b with
    | badToken u => exact absurd h.symm (message_badToken_ne u)
    | emptyStack => rfl

end ProgramError

/-! ## Templates -/

theorem Malformed.toList_message (m : Malformed) : m.message.toList =
    "malformed template at byte ".toList ++
      (Numeral.decimal m.offset ++ (": ".toList ++ m.reason.message.toList)) := by
  unfold Malformed.message Numeral.text
  simp only [String.toList_append, String.toList_ofList, List.append_assoc]

/-- A message tells where the directive begins and what is wrong with it. -/
theorem Malformed.message_injective {m n : Malformed} (h : m.message = n.message) : m = n := by
  have hends (cs : List Char) : Numeral.Ends (": ".toList ++ cs) :=
    Numeral.ends_append (c := ':') rfl rfl cs
  have hl := congrArg String.toList h
  simp only [toList_message] at hl
  obtain ⟨hoffset, hrest⟩ :=
    Numeral.decimal_append_inj (hends _) (hends _) ((List.append_right_inj _).1 hl)
  have hreason := String.toList_inj.1 ((List.append_right_inj _).1 hrest)
  cases m
  cases n
  rw [Malformed.mk.injEq]
  exact ⟨Int.ofNat_inj.1 hoffset, Directive.Reason.message_injective hreason⟩

namespace TemplateError

theorem toList_message_missing (name : String) :
    (missing name).message.toList = "missing template binding: ".toList ++ name.toList :=
  String.toList_append

theorem toList_message_malformed (m : Malformed) :
    ∃ cs, (malformed m).message.toList = "malformed template at byte ".toList ++ cs :=
  ⟨_, m.toList_message⟩

/-- The second letters differ. -/
theorem message_missing_ne (name : String) (m : Malformed) :
    (missing name).message ≠ (malformed m).message := by
  intro h
  obtain ⟨cs, hcs⟩ := toList_message_malformed m
  have hl := (toList_message_missing name).symm.trans ((congrArg String.toList h).trans hcs)
  exact append_ne_append (by decide) _ _ hl

theorem message_injective {a b : TemplateError} (h : a.message = b.message) : a = b := by
  cases a with
  | missing s =>
    cases b with
    | missing t => rw [(String.append_right_inj _).1 h]
    | malformed n => exact absurd h (message_missing_ne s n)
  | malformed m =>
    cases b with
    | missing t => exact absurd h.symm (message_missing_ne t m)
    | malformed n => rw [Malformed.message_injective h]

theorem message_ne {s : String} (h : s.toList.head? ≠ some 'm') (cause : TemplateError) :
    cause.message ≠ s := by
  intro hs
  apply h
  rw [← hs]
  cases cause with
  | missing name => rw [toList_message_missing]; rfl
  | malformed m =>
    obtain ⟨cs, hcs⟩ := toList_message_malformed m
    rw [hcs]
    rfl

end TemplateError

/-! ## Evaluations -/

theorem Fault.head?_message_ne (cause : Fault) : cause.message.toList.head? ≠ some 'm' := by
  cases cause <;> decide

/-- A message tells why an evaluation was broken off. Its first letter says whether the template,
the arithmetic or the sink is to blame. -/
theorem EvalError.message_injective {a b : EvalError} (h : a.message = b.message) : a = b := by
  have hsink : EvalError.sinkFull.message.toList.head? ≠ some 'm' := by decide
  cases a with
  | template cause =>
    cases b with
    | template other => rw [TemplateError.message_injective h]
    | fault other => exact absurd h (cause.message_ne other.head?_message_ne)
    | sinkFull => exact absurd h (cause.message_ne hsink)
  | fault cause =>
    cases b with
    | template other => exact absurd h.symm (other.message_ne cause.head?_message_ne)
    | fault other => rw [Fault.message_injective h]
    | sinkFull =>
      revert h
      cases cause <;> decide
  | sinkFull =>
    cases b with
    | template other => exact absurd h.symm (other.message_ne hsink)
    | fault other =>
      revert h
      cases other <;> decide
    | sinkFull => rfl

/-! ## Bindings -/

namespace BindingError

theorem toList_message_noEquals (text : String) : (noEquals text).message.toList =
    "expected NAME=VALUE, got `".toList ++ (text.toList ++ "`".toList) := by
  unfold message
  simp only [String.toList_append, List.append_assoc]

theorem toList_message_emptyName (text : String) : (emptyName text).message.toList =
    "empty binding name in `".toList ++ (text.toList ++ "`".toList) := by
  unfold message
  simp only [String.toList_append, List.append_assoc]

theorem toList_message_invalidValue (name : String) (cause : Numeral.Error) :
    (invalidValue name cause).message.toList =
      "invalid value for `".toList ++ (name.toList ++ ("`: ".toList ++ cause.message.toList)) := by
  unfold message
  simp only [String.toList_append, List.append_assoc]

theorem message_noEquals_ne_emptyName (s t : String) :
    (noEquals s).message ≠ (emptyName t).message := by
  intro h
  have hl := congrArg String.toList h
  rw [toList_message_noEquals, toList_message_emptyName] at hl
  exact append_ne_append (by decide) _ _ hl

theorem message_noEquals_ne_invalidValue (s t : String) (cause : Numeral.Error) :
    (noEquals s).message ≠ (invalidValue t cause).message := by
  intro h
  have hl := congrArg String.toList h
  rw [toList_message_noEquals, toList_message_invalidValue] at hl
  exact append_ne_append (by decide) _ _ hl

theorem message_emptyName_ne_invalidValue (s t : String) (cause : Numeral.Error) :
    (emptyName s).message ≠ (invalidValue t cause).message := by
  intro h
  have hl := congrArg String.toList h
  rw [toList_message_emptyName, toList_message_invalidValue] at hl
  exact append_ne_append (by decide) _ _ hl

theorem cause_eq_of_suffix {a b : Numeral.Error}
    (h : "`: ".toList ++ a.message.toList <:+ "`: ".toList ++ b.message.toList) : a = b := by
  revert h
  cases a <;> cases b <;> decide

/-- The causes are compared first, for the name can be any text. -/
theorem invalidValue_inj {s t : String} {a b : Numeral.Error}
    (h : (invalidValue s a).message = (invalidValue t b).message) : s = t ∧ a = b := by
  have hl := congrArg String.toList h
  simp only [toList_message_invalidValue] at hl
  have hrest := (List.append_right_inj _).1 hl
  have hcause : a = b := by
    have hsuffix := List.suffix_append s.toList ("`: ".toList ++ a.message.toList)
    rw [hrest] at hsuffix
    rcases List.suffix_or_suffix_of_suffix hsuffix (List.suffix_append _ _) with h | h
    · exact cause_eq_of_suffix h
    · exact (cause_eq_of_suffix h).symm
  subst hcause
  exact ⟨String.toList_inj.1 ((List.append_left_inj _).1 hrest), rfl⟩

/-- A message tells why the text is no binding, and the text or the name in it. -/
theorem message_injective {a b : BindingError} (h : a.message = b.message) : a = b := by
  cases a with
  | noEquals s =>
    cases b with
    | noEquals t => rw [(String.append_right_inj _).1 ((String.append_left_inj _).1 h)]
    | emptyName t => exact absurd h (message_noEquals_ne_emptyName s t)
    | invalidValue t cause => exact absurd h (message_noEquals_ne_invalidValue s t cause)
  | emptyName s =>
    cases b with
    | noEquals t => exact absurd h.symm (message_noEquals_ne_emptyName t s)
    | emptyName t => rw [(String.append_right_inj _).1 ((String.append_left_inj _).1 h)]
    | invalidValue t cause => exact absurd h (message_emptyName_ne_invalidValue s t cause)
  | invalidValue s cause =>
    cases b with
    | noEquals t => exact absurd h.symm (message_noEquals_ne_invalidValue t s cause)
    | emptyName t => exact absurd h.symm (message_emptyName_ne_invalidValue t s cause)
    | invalidValue t other =>
      obtain ⟨rfl, rfl⟩ := invalidValue_inj h
      rfl

end BindingError

end StackScript
