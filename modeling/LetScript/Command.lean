import LetScript.Command.Directory
import LetScript.Compile
import LetScript.Diagnostic.Report
import LetScript.Tree.Node

/-!
# The command line

An invocation names a source file and says what to print. Its outcome is decided here from the
contents of the file: the exit code, the texts for both output channels and the file to write.
`runIn` carries an invocation out in a directory that is given as a value.
-/

namespace LetScript.Command

/-- What the command line asks for. -/
structure Invocation where
  /-- The source file. -/
  input : String
  /-- The file to write the program to. It is printed if there is none. -/
  output : Option String := none
  curry : Bool := true
  indentWidth : Nat := 2
  globals : List String := []
  /-- Print the tokens. -/
  tokens : Bool := false
  /-- Print the syntax tree. -/
  tree : Bool := false
  /-- Print the time that each stage took. -/
  timings : Bool := false

/-- The settings of the compilation. -/
def Invocation.options (invocation : Invocation) : Options where
  curry := invocation.curry
  indentWidth := invocation.indentWidth
  globals := invocation.globals
  fileName := invocation.input

/-- The time that each stage took, as a text. -/
structure Timings where
  tokenized : String
  parsed : String
  bound : String
  generated : String
  total : String

/-- The text in the bytes of a file. -/
def decode (bytes : ByteArray) : Except FileFault String :=
  match String.fromUTF8? bytes with
  | some text => .ok text
  | none => .error .notText

/-- What the command leaves behind. -/
structure Outcome where
  exitCode : Nat
  stdout : String := ""
  stderr : String := ""
  /-- The file to write and its contents. -/
  file : Option (String × String) := none

/-- The report on a file that could not be read or written. -/
def fileReport (action path : String) (fault : FileFault) : String :=
  "Error: failed to " ++ action ++ " `" ++ path ++ "`\n\nCaused by:\n    " ++ fault.message ++ "\n"

/-- The outcome if the source file cannot be read. -/
def unreadable (invocation : Invocation) (fault : FileFault) : Outcome where
  exitCode := 1
  stderr := fileReport "read" invocation.input fault

/-- The outcome if the file cannot be written. -/
def Outcome.unwritable (outcome : Outcome) (fault : FileFault) : Outcome :=
  match outcome.file with
  | none => outcome
  | some (path, _) =>
    { outcome with
      exitCode := 1
      stderr := outcome.stderr ++ fileReport "write" path fault
      file := none }

/-- The outcome of a compilation. The tokens, the tree and the timings are printed in the order
of the stages, and the diagnostics after them. -/
def outcome (invocation : Invocation) (source : String) (compilation : Compilation)
    (timings : Timings) : Outcome :=
  let timing (label time : String) : String :=
    if invocation.timings then label ++ time ++ "\n" else ""
  let tokens :=
    if invocation.tokens then
      compilation.tokens.foldl (fun text token => text ++ token.summary ++ "\n") ""
    else ""
  let tree := if invocation.tree then compilation.tree.outline else ""
  let reports :=
    (Diagnostic.reports compilation.diagnostics source invocation.input).map (· ++ "\n")
  let stderr :=
    timing "Tokenized in " timings.tokenized ++ tokens ++
      timing "Parsed in " timings.parsed ++ tree ++
      timing "Bound in " timings.bound ++
      timing "Generated in " timings.generated ++
      timing "Total time: " timings.total ++ String.join reports
  { exitCode := if compilation.diagnostics.isEmpty then 0 else 1
    stdout := if invocation.output.isNone then compilation.program else ""
    stderr
    file := invocation.output.map fun path => (path, compilation.program) }

/-- Carry out an invocation in a directory, with the given times for the stages. -/
def runIn (directory : Directory) (invocation : Invocation) (timings : Timings) :
    Outcome × Directory :=
  match directory.read invocation.input >>= decode with
  | .error fault => (unreadable invocation fault, directory)
  | .ok source =>
    let outcome := outcome invocation source (compile source invocation.options) timings
    match outcome.file with
    | none => (outcome, directory)
    | some (path, contents) =>
      match directory.write path contents.toUTF8 with
      | .ok directory => (outcome, directory)
      | .error fault => (outcome.unwritable fault, directory)

/-- How the command is called. -/
def usage : String :=
  "Usage: letscript [OPTIONS] <INPUT>\n\n" ++
    "Options:\n" ++
    "  -o, --output <OUTPUT>  Write the program here instead of stdout\n" ++
    "      --no-curry         Do not wrap functions for automatic currying\n" ++
    "      --indent <INDENT>  Spaces per indentation level\n" ++
    "      --global <NAME>    Name supplied by the host through the `$globals` object\n" ++
    "      --tokens           Print the token stream to stderr\n" ++
    "      --tree             Print the syntax tree to stderr\n" ++
    "      --timings          Print per-phase timings to stderr\n"

/-- Read the arguments of the command line into an invocation whose source file may still be
missing. -/
def readArguments (invocation : Invocation) : List String → Option Invocation
  | [] => if invocation.input.isEmpty then none else some invocation
  | "--no-curry" :: rest => readArguments { invocation with curry := false } rest
  | "--tokens" :: rest => readArguments { invocation with tokens := true } rest
  | "--tree" :: rest => readArguments { invocation with tree := true } rest
  | "--timings" :: rest => readArguments { invocation with timings := true } rest
  | "--indent" :: width :: rest =>
    width.toNat?.bind fun indentWidth => readArguments { invocation with indentWidth } rest
  | "--global" :: name :: rest =>
    readArguments { invocation with globals := invocation.globals ++ [name] } rest
  | "--output" :: path :: rest => readArguments { invocation with output := some path } rest
  | "-o" :: path :: rest => readArguments { invocation with output := some path } rest
  | path :: rest =>
    if path.startsWith "-" || !invocation.input.isEmpty then none
    else readArguments { invocation with input := path } rest

/-- Read the arguments of the command line. -/
def Invocation.ofArguments (arguments : List String) : Option Invocation :=
  readArguments { input := "" } arguments

end LetScript.Command
