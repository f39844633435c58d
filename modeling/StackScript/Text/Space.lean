/-!
# White space and words

White space is the Unicode property White_Space. `words` cuts a text at every run of it and `trim`
takes it off both ends.
-/

set_option autoImplicit false

namespace StackScript.Text

/-! ## White space -/

/-- Inclusive ranges of code points, in ascending order. -/
def whiteSpace : List (Nat × Nat) :=
  [(0x0009, 0x000D), (0x0020, 0x0020), (0x0085, 0x0085), (0x00A0, 0x00A0), (0x1680, 0x1680),
   (0x2000, 0x200A), (0x2028, 0x2029), (0x202F, 0x202F), (0x205F, 0x205F), (0x3000, 0x3000)]

def isSpace (c : Char) : Bool :=
  whiteSpace.any fun r => r.1 ≤ c.toNat && c.toNat ≤ r.2

/-! ## Words -/

def firstWord (cs : List Char) : List Char := cs.takeWhile fun c => !isSpace c

def afterWord (cs : List Char) : List Char := cs.dropWhile fun c => !isSpace c

theorem firstWord_append_afterWord (cs : List Char) : firstWord cs ++ afterWord cs = cs :=
  List.takeWhile_append_dropWhile

theorem length_afterWord_le (cs : List Char) : (afterWord cs).length ≤ cs.length :=
  (List.dropWhile_sublist _).length_le

def words : List Char → List (List Char)
  | [] => []
  | c :: cs => if isSpace c then words cs else (c :: firstWord cs) :: words (afterWord cs)
termination_by cs => cs.length
decreasing_by
  · simp
  · simpa [Nat.lt_succ_iff] using length_afterWord_le cs

@[simp] theorem words_nil : words [] = [] := by rw [words]

theorem words_space {c : Char} (h : isSpace c = true) (cs : List Char) :
    words (c :: cs) = words cs := by rw [words, if_pos h]

theorem words_cons {c : Char} (h : isSpace c = false) (cs : List Char) :
    words (c :: cs) = (c :: firstWord cs) :: words (afterWord cs) := by
  rw [words, if_neg (by simp [h])]

/-! ## Trimming -/

def trimLeft (cs : List Char) : List Char := cs.dropWhile isSpace

def trimRight (cs : List Char) : List Char := (cs.reverse.dropWhile isSpace).reverse

def trim (cs : List Char) : List Char := trimRight (trimLeft cs)

end StackScript.Text

namespace StackScript

/-- The tokens of a program text: its maximal runs of characters that are not white space. -/
def tokenize (source : String) : List String := (Text.words source.toList).map String.ofList

end StackScript
