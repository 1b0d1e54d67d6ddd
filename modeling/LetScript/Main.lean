import LetScript.Command

/-!
# The program

Reads the source file, compiles it and carries out the outcome.
-/

namespace LetScript.Command

/-- The fault behind an error of the file system. Error codes come with either sign. -/
def fileFault : IO.Error → FileFault
  | .noFileOrDirectory _ _ _ => .missing
  | .permissionDenied _ 13 _ => .denied
  | .inappropriateType _ code _ =>
    if code == 21 || code == 0 - 21 then .isDirectory else .notDirectory
  | .invalidArgument file code details =>
    if code == 36 || code == 0 - 36 then .nameTooLong
    else .other (IO.Error.invalidArgument file code details).toString
  | error => .other error.toString

/-- Compile a source text and measure each stage. -/
def compileTimed (source : String) (options : Options) : IO (Compilation × Timings) := do
  let start ← IO.monoNanosNow
  let tokens ← IO.lazyPure fun _ => Token.read source options.fileName
  let tokenized ← IO.monoNanosNow
  let tree ← IO.lazyPure fun _ => Tree.parse tokens
  let parsed ← IO.monoNanosNow
  let bindings ← IO.lazyPure fun _ => tree.resolve options.globals
  let bound ← IO.monoNanosNow
  let program ← IO.lazyPure fun _ => tree.generateProgram bindings options
  let generated ← IO.monoNanosNow
  let text (nanos : Nat) : String := (nanos / 1000).repr ++ "µs"
  let diagnostics := tree.diagnostics bindings
  return ({ tokens, tree, bindings, diagnostics, program },
    { tokenized := text (tokenized - start)
      parsed := text (parsed - tokenized)
      bound := text (bound - parsed)
      generated := text (generated - bound)
      total := text (generated - start) })

/-- Carry out an outcome. -/
def perform (outcome : Outcome) : IO UInt32 := do
  let outcome ← match outcome.file with
    | none => pure outcome
    | some (path, contents) =>
      try
        IO.FS.writeFile path contents
        pure outcome
      catch error => pure (outcome.unwritable (fileFault error))
  IO.eprint outcome.stderr
  IO.print outcome.stdout
  return outcome.exitCode.toUInt32

/-- The contents of a source file. -/
def readSource (path : String) : IO (Except FileFault String) := do
  try
    return decode (← IO.FS.readBinFile path)
  catch error => return .error (fileFault error)

/-- Run the command line. -/
def run (arguments : List String) : IO UInt32 := do
  match Invocation.ofArguments arguments with
  | none =>
    IO.eprint usage
    return 2
  | some invocation =>
    match ← readSource invocation.input with
    | .error fault => perform (unreadable invocation fault)
    | .ok source =>
      let (compilation, timings) ← compileTimed source invocation.options
      perform (outcome invocation source compilation timings)

end LetScript.Command

def main (arguments : List String) : IO UInt32 := LetScript.Command.run arguments
