/-!
# Arguments of the command line

An argument is a program text, a flag, or an option with its value. The value is attached to the
option or is the next word:

* `-f V`, `-fV`, `-f=V`, `--file V`, `--file=V`, and the same for `-s` and `--set`;
* `--cache V`, `--cache=V`, `--repeat V`, `--repeat=V`.

A word that begins with a hyphen is an option, and so is neither program text nor the value of the
option before it; a hyphen alone is an ordinary word. After the word `--` all is program text.
-/

set_option autoImplicit false

namespace StackScript.CommandLine

inductive ValueOption where
  | file
  | binding
  | cache
  | passes
  deriving DecidableEq, Repr

inductive UsageError where
  | unknownOption (word : String)
  | missingValue (option : ValueOption)
  | flagWithValue (word : String)
  | saidTwice (what : String)
  | sourceAndFile
  | invalidValue (option : ValueOption) (value : String)
  deriving DecidableEq, Repr

def ValueOption.long : ValueOption → String
  | .file => "file"
  | .binding => "set"
  | .cache => "cache"
  | .passes => "repeat"

inductive Argument where
  | source (text : String)
  | floor
  | setting (option : ValueOption) (value : String)
  deriving DecidableEq, Repr

/-- What a word of the command line is by its look. -/
inductive Look where
  | source (text : String)
  | floor
  /-- An option with the value attached to it, if there is one. -/
  | setting (option : ValueOption) (attached : Option String)
  | terminator
  deriving DecidableEq, Repr

namespace Look

def longOption? (name : String) : Option ValueOption :=
  [.file, .binding, .cache, .passes].find? fun (o : ValueOption) => o.long == name

def shortOption? : Char → Option ValueOption
  | 'f' => some .file
  | 's' => some .binding
  | _ => none

/-- The value attached to a long name, behind an equals sign. -/
def longAttached (cs : List Char) : Option String :=
  match cs.dropWhile (· != '=') with
  | [] => none
  | _ :: value => some (String.ofList value)

/-- The value attached to a short name, behind an equals sign or at once. -/
def shortAttached : List Char → Option String
  | [] => none
  | '=' :: value => some (String.ofList value)
  | value => some (String.ofList value)

def ofLong (cs : List Char) : Except UsageError Look :=
  let name := String.ofList (cs.takeWhile (· != '='))
  match longOption? name with
  | some option => .ok (.setting option (longAttached cs))
  | none =>
    if name = "floor" then
      match longAttached cs with
      | none => .ok .floor
      | some _ => .error (.flagWithValue (String.ofList ('-' :: '-' :: cs)))
    else .error (.unknownOption (String.ofList ('-' :: '-' :: cs)))

def ofShort (c : Char) (cs : List Char) : Except UsageError Look :=
  match shortOption? c with
  | some option => .ok (.setting option (shortAttached cs))
  | none => .error (.unknownOption (String.ofList ('-' :: c :: cs)))

def ofWord (word : String) : Except UsageError Look :=
  match word.toList with
  | ['-', '-'] => .ok .terminator
  | '-' :: '-' :: cs => ofLong cs
  | '-' :: c :: cs => ofShort c cs
  | _ => .ok (.source word)

end Look

/-- Whether a word may be the value of the option before it. -/
def isValue (word : String) : Bool :=
  match word.toList with
  | '-' :: _ :: _ => false
  | _ => true

namespace Argument

def readAll : List String → Except UsageError (List Argument)
  | [] => .ok []
  | word :: words =>
    match Look.ofWord word with
    | .error e => .error e
    | .ok .terminator => .ok (words.map .source)
    | .ok (.source text) => (readAll words).map (.source text :: ·)
    | .ok .floor => (readAll words).map (.floor :: ·)
    | .ok (.setting option (some value)) => (readAll words).map (.setting option value :: ·)
    | .ok (.setting option none) =>
      match words with
      | [] => .error (.missingValue option)
      | value :: rest =>
        if isValue value then (readAll rest).map (.setting option value :: ·)
        else .error (.missingValue option)

def source? : Argument → Option String
  | .source text => some text
  | _ => none

def value? (option : ValueOption) : Argument → Option String
  | .setting o value => if o = option then some value else none
  | _ => none

end Argument

end StackScript.CommandLine
