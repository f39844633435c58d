import StackScript.Word

/-!
# The operand stack

A last-in, first-out store of words.
-/

set_option autoImplicit false

namespace StackScript

structure Stack where
  /-- The words on the stack, the top one first. -/
  words : List Word := []
  deriving DecidableEq

namespace Stack

def empty : Stack := {}

def push (s : Stack) (a : Word) : Stack := ⟨a :: s.words⟩

def pop? (s : Stack) : Option (Word × Stack) :=
  match s.words with
  | [] => none
  | a :: rest => some (a, ⟨rest⟩)

def ofList (as : List Word) : Stack := as.foldl push empty

/-- The words on the stack from the bottom to the top. -/
def toList (s : Stack) : List Word := s.words.reverse

def height (s : Stack) : Nat := s.words.length

def text (s : Stack) : String := "[" ++ String.intercalate ", " (s.toList.map Word.text) ++ "]"

@[simp] theorem toList_push (s : Stack) (a : Word) : (s.push a).toList = s.toList ++ [a] := by
  simp [toList, push]

@[simp] theorem height_push (s : Stack) (a : Word) : (s.push a).height = s.height + 1 := rfl

@[simp] theorem toList_ofList (as : List Word) : (ofList as).toList = as := by
  have h (s : Stack) : (as.foldl push s).toList = s.toList ++ as := by
    induction as generalizing s with
    | nil => simp
    | cons a as ih => simp [ih]
  exact h empty

end Stack

end StackScript
