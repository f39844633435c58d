import StackScript.Interpreter.Execution
import StackScript.Proofs.Code.Printing

/-!
# The text of a machine

A numeral can be told from the text behind it if that text does not continue it
(`Word.text_append_inj`). The brackets and commas of a stack and the labels of a machine are in no
numeral. So the text of a stack, and that of a machine, can be told from whatever is written behind
it, and shows all that is in it (`Record.state_exact`).
-/

set_option autoImplicit false

namespace StackScript

variable {xs ys : List Char}

/-! ## Stacks -/

namespace Stack

/-- The words of a row behind its first one, as they stand in the text of a stack. -/
def behind (as : List Word) : List Char := as.flatMap fun a => ',' :: ' ' :: a.text.toList

theorem ends_behind (as : List Word) : Numeral.Ends (behind as ++ ']' :: xs) := by
  cases as with
  | nil => exact Numeral.ends_cons rfl _
  | cons a as => exact Numeral.ends_cons rfl _

theorem behind_inj {as bs : List Word}
    (h : behind as ++ ']' :: xs = behind bs ++ ']' :: ys) : as = bs ∧ xs = ys := by
  induction as generalizing bs with
  | nil =>
    cases bs with
    | nil => exact ⟨rfl, by simpa [behind] using h⟩
    | cons b bs => simp [behind] at h
  | cons a as ih =>
    cases bs with
    | nil => simp [behind] at h
    | cons b bs =>
      have htail : a.text.toList ++ (behind as ++ ']' :: xs) =
          b.text.toList ++ (behind bs ++ ']' :: ys) := by
        simpa [behind] using h
      obtain ⟨rfl, hrest⟩ :=
        Word.text_append_inj (ends_behind as) (ends_behind bs) htail
      obtain ⟨rfl, rfl⟩ := ih hrest
      exact ⟨rfl, rfl⟩

/-- The words of a row, as they stand between the brackets. -/
def listed (as : List Word) : List Char := (String.intercalate ", " (as.map Word.text)).toList

theorem behind_cons (a : Word) (as : List Word) :
    behind (a :: as) = ',' :: ' ' :: listed (a :: as) := by
  induction as generalizing a with
  | nil => simp [behind, listed]
  | cons b as ih =>
    have hlisted : listed (a :: b :: as) = a.text.toList ++ ',' :: ' ' :: listed (b :: as) := by
      simp only [listed]
      rw [List.map_cons, String.intercalate_cons_of_ne_nil (by simp)]
      simp
    rw [hlisted, ← ih b]
    rfl

theorem listed_cons (a : Word) (as : List Word) :
    listed (a :: as) = a.text.toList ++ behind as := by
  have h := behind_cons a as
  simpa [behind] using h.symm

theorem listed_inj {as bs : List Word}
    (h : listed as ++ ']' :: xs = listed bs ++ ']' :: ys) : as = bs ∧ xs = ys := by
  cases as with
  | nil =>
    cases bs with
    | nil => exact ⟨rfl, by simpa [listed] using h⟩
    | cons b bs =>
      rw [listed_cons, List.append_assoc, Word.toList_text] at h
      exact absurd h (Numeral.ne_decimal_append (Numeral.ends_cons rfl _) b.toInt)
  | cons a as =>
    cases bs with
    | nil =>
      rw [listed_cons, List.append_assoc, Word.toList_text] at h
      exact absurd h.symm (Numeral.ne_decimal_append (Numeral.ends_cons rfl _) a.toInt)
    | cons b bs =>
      -- with a comma in front of it the first word is like the others
      apply behind_inj
      rw [behind_cons, behind_cons, List.cons_append, List.cons_append, h]
      rfl

theorem text_append_inj {s t : Stack} (h : s.text.toList ++ xs = t.text.toList ++ ys) :
    s = t ∧ xs = ys := by
  have hlisted : listed s.toList ++ ']' :: xs = listed t.toList ++ ']' :: ys := by
    simpa [text, listed] using h
  obtain ⟨hlist, rfl⟩ := listed_inj hlisted
  refine ⟨?_, rfl⟩
  cases s
  cases t
  simpa [toList] using hlist

end Stack

/-! ## Machines -/

theorem Machine.toList_text (m : Machine) : m.text.toList =
    "Cpu [ register: ".toList ++ (m.register.text.toList ++
      (", stack: ".toList ++ (m.stack.text.toList ++ " ]".toList))) := by
  unfold Machine.text
  simp only [String.toList_append, List.append_assoc]

theorem Machine.text_append_inj {m n : Machine}
    (h : m.text.toList ++ xs = n.text.toList ++ ys) : m = n ∧ xs = ys := by
  have hcomma : ", stack: ".toList.head? = some ',' := by rfl
  have hends (cs : List Char) : Numeral.Ends (", stack: ".toList ++ cs) :=
    Numeral.ends_append hcomma rfl cs
  simp only [toList_text, List.append_assoc] at h
  obtain ⟨hregister, hrest⟩ :=
    Word.text_append_inj (hends _) (hends _) ((List.append_right_inj _).1 h)
  obtain ⟨hstack, hend⟩ := Stack.text_append_inj ((List.append_right_inj _).1 hrest)
  refine ⟨?_, (List.append_right_inj _).1 hend⟩
  cases m
  cases n
  rw [Machine.mk.injEq]
  exact ⟨hregister, hstack⟩

theorem Machine.text_injective {m n : Machine} (h : m.text = n.text) : m = n := by
  have hnil : m.text.toList ++ [] = n.text.toList ++ [] := by rw [h]
  exact (Machine.text_append_inj hnil).1

theorem Record.toList_text_state (m : Machine) (c : Command) : (Record.state m c).text.toList =
    "DEBUG State: ".toList ++ (m.text.toList ++ (" | ".toList ++ c.text.toList)) := by
  unfold Record.text
  simp only [String.toList_append, List.append_assoc]

theorem Record.text_state_inj {m n : Machine} {c d : Command}
    (h : (Record.state m c).text = (Record.state n d).text) : m = n ∧ c = d := by
  have hlist := congrArg String.toList h
  simp only [toList_text_state] at hlist
  obtain ⟨hmachine, hrest⟩ := Machine.text_append_inj ((List.append_right_inj _).1 hlist)
  have hcommand := (List.append_right_inj _).1 hrest
  exact ⟨hmachine, Command.text_injective (String.toList_inj.1 hcommand)⟩

/-- The register and the stack of a machine are known from its text, and a machine and a command are
known from the record that the command is about to be carried out on the machine. -/
theorem Record.state_exact :
    (∀ m n : Machine, m.text = n.text ↔
      m.register = n.register ∧ m.stack.toList = n.stack.toList) ∧
    ∀ (m n : Machine) (c d : Command),
      (Record.state m c).text = (Record.state n d).text ↔ m = n ∧ c = d := by
  refine ⟨fun m n => ⟨fun h => ?_, fun h => ?_⟩, fun m n c d => ⟨Record.text_state_inj, ?_⟩⟩
  · obtain rfl := Machine.text_injective h
    exact ⟨rfl, rfl⟩
  · unfold Machine.text Stack.text
    rw [h.1, h.2]
  · intro h
    rw [h.1, h.2]

end StackScript
