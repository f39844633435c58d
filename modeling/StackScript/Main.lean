import StackScript.CommandLine

/-!
# The program

Standard output, files and the exit code around `CommandLine.run`.
-/

set_option autoImplicit false

open StackScript CommandLine

/-- A directory where a file was expected, or the reverse, is told apart by the system's error code,
which may be negated. -/
def readErrorOf : IO.Error → ReadError
  | .noFileOrDirectory .. => .notFound
  | .inappropriateType _ code _ =>
    if code = 21 ∨ 0 - code = 21 then .isDirectory else .notDirectory
  | e => .other e.toString

def readBytes (path : String) : IO (Except ReadError (List UInt8)) := do
  try
    let bytes ← IO.FS.readBinFile path
    return .ok bytes.data.toList
  catch e => return .error (readErrorOf e)

def writeOutput (out : List UInt8) : IO (Except String Unit) := do
  let stdout ← IO.getStdout
  try
    stdout.write out.toByteArray
    stdout.flush
    return .ok ()
  catch e => return .error e.toString

def usage : String :=
  "usage: [SOURCE] [-f FILE] [-s NAME=VALUE]... [--floor] [--cache N] [--repeat N]"

def main (words : List String) : IO UInt32 := do
  let content ←
    match Options.parse words with
    | .ok { origin := .file path, .. } => readBytes path
    | _ => pure (.error .notFound)
  let outcome := CommandLine.run (fun _ => content) words
  let outcome := outcome.flushed (← writeOutput outcome.out)
  match outcome.failure with
  | none => pure ()
  | some (.usage _) => IO.eprintln usage
  | some f => IO.eprintln ("ERROR " ++ f.message)
  return outcome.exitCode.toUInt32
