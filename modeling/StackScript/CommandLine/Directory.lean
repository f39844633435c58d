/-!
# Files in one directory

Reading a path in a directory that holds plain files only. A path is walked part by part; nothing is
known of the world outside the directory except that it is made of directories.
-/

set_option autoImplicit false

namespace StackScript.CommandLine

inductive ReadError where
  | notFound
  | notDirectory
  | isDirectory
  | invalidText
  | other (description : String)
  deriving DecidableEq, Repr

def ReadError.message : ReadError → String
  | .notFound => "No such file or directory (os error 2)"
  | .notDirectory => "Not a directory (os error 20)"
  | .isDirectory => "Is a directory (os error 21)"
  | .invalidText => "stream did not contain valid UTF-8"
  | .other description => description

abbrev Directory := List (String × List UInt8)

/-- Where a path has led so far. -/
inductive Place where
  /-- The directory itself. -/
  | here
  | elsewhere
  | file (content : List UInt8)

namespace Directory

def parts : List Char → List (List Char)
  | [] => [[]]
  | c :: cs =>
    if c = '/' then [] :: parts cs
    else
      match parts cs with
      | [] => [[c]]
      | p :: ps => (c :: p) :: ps

def follow (d : Directory) (place : Place) (part : List Char) : Except ReadError Place :=
  match place, part with
  | .file _, _ => .error .notDirectory
  | _, [] => .ok place
  | _, ['.'] => .ok place
  | _, ['.', '.'] => .ok .elsewhere
  | .here, name =>
    match d.lookup (String.ofList name) with
    | some content => .ok (.file content)
    | none => .error .notFound
  | .elsewhere, _ => .error .notFound

def read (d : Directory) (path : String) : Except ReadError (List UInt8) := do
  let start := if path.toList.head? = some '/' then Place.elsewhere else Place.here
  match ← (parts path.toList).foldlM (follow d) start with
  | .file content => return content
  | _ => throw .isDirectory

end Directory

end StackScript.CommandLine
