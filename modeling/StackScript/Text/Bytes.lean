/-!
# Bytes and lines of text

`decode?` reads UTF-8 and accepts exactly the bytes of texts (`decode?_eq_some_iff`). `decodeFront`
shows bytes that may stop in the middle of a character.
-/

set_option autoImplicit false

namespace StackScript.Text

/-! ## UTF-8 -/

def encode (s : String) : List UInt8 := s.toList.flatMap String.utf8EncodeChar

def decode? (bs : List UInt8) : Option String := String.fromUTF8? bs.toByteArray

@[simp] theorem encode_empty : encode "" = [] := rfl

@[simp] theorem encode_append (s t : String) : encode (s ++ t) = encode s ++ encode t := by
  simp [encode]

theorem toByteArray_encode (s : String) : (encode s).toByteArray = s.toByteArray := by
  rw [encode, ← String.utf8Encode_toList]
  rfl

theorem toByteArray_injective {as bs : List UInt8} (h : as.toByteArray = bs.toByteArray) :
    as = bs := by
  have := congrArg (fun a => a.data.toList) h
  simpa using this

theorem decode?_eq_some_iff {bs : List UInt8} {s : String} :
    decode? bs = some s ↔ bs = encode s := by
  constructor
  · intro h
    unfold decode? String.fromUTF8? at h
    split at h
    · rw [Option.some.injEq] at h
      apply toByteArray_injective
      rw [toByteArray_encode, ← h]
      rfl
    · cases h
  · rintro rfl
    unfold decode?
    rw [toByteArray_encode]
    unfold String.fromUTF8?
    rw [dif_pos s.isValidUTF8]
    rfl

@[simp] theorem decode?_encode (s : String) : decode? (encode s) = some s :=
  decode?_eq_some_iff.2 rfl

theorem encode_injective {s t : String} (h : encode s = encode t) : s = t := by
  have := decode?_encode s
  rw [h, decode?_encode] at this
  exact (Option.some.inj this).symm

/-! ## Bytes cut off inside a character -/

def replacement : String := "\uFFFD"

/-- The longest text that is spelt by at most the first `n` bytes, and how many bytes spell it. -/
def longestText (bs : List UInt8) : Nat → String × Nat
  | 0 => ("", 0)
  | n + 1 =>
    match decode? (bs.take (n + 1)) with
    | some s => (s, n + 1)
    | none => longestText bs n

/-- The longest text at the front of bytes, and a replacement character for what is left over. -/
def decodeFront (bs : List UInt8) : String :=
  let (s, n) := longestText bs bs.length
  if n < bs.length then s ++ replacement else s

@[simp] theorem decodeFront_encode (s : String) : decodeFront (encode s) = s := by
  unfold decodeFront
  cases h : (encode s).length with
  | zero =>
    have : encode s = encode "" := by simpa using h
    simp [longestText, encode_injective this]
  | succ n => simp [longestText, ← h, List.take_length, decode?_encode]

/-! ## Lines -/

/-- The pieces of a text that line breaks end, and the last piece unless it is empty. -/
def splitLines : List Char → List (List Char)
  | [] => []
  | '\n' :: cs => [] :: splitLines cs
  | '\r' :: '\n' :: cs => [] :: splitLines cs
  | c :: cs =>
    match splitLines cs with
    | [] => [[c]]
    | l :: ls => (c :: l) :: ls

def lines (s : String) : List String := (splitLines s.toList).map String.ofList

end StackScript.Text

namespace StackScript

def outputLine (s : String) : List UInt8 := Text.encode (s ++ "\n")

end StackScript
