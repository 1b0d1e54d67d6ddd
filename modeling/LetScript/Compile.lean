import LetScript.Diagnostic.Collect
import LetScript.Parser.Expression
import LetScript.Script.Lower
import LetScript.Script.Print
import LetScript.Token.Lexer

/-!
# Compiling programs

`compile` reads the tokens of a source text, parses them, resolves the names and generates the
program. It always succeeds: what is wrong with the source is reported by the diagnostics, and the
code generated for it throws an error when it runs.
-/

namespace LetScript

/-- The settings of a compilation. -/
structure Options where
  /-- Functions may be called with fewer arguments than they have parameters. -/
  curry : Bool := true
  /-- The number of blanks of one level of indentation. -/
  indentWidth : Nat := 2
  /-- The names that the host supplies. -/
  globals : List String := []
  /-- The file named in positions. -/
  fileName : String := "<input>"

/-- Code under construction. -/
structure Generator where
  writer : Writer
  /-- The number of names given to parameters that are never used. -/
  unused : Nat := 0

namespace Generator

/-- The generator that has written nothing yet. -/
def initial (options : Options) : Generator := { writer := { width := options.indentWidth } }

/-- Take a name for a parameter that is never used. -/
def takeUnused (generator : Generator) : String × Generator :=
  let (name, unused) := Script.freshUnused.run generator.unused
  (name, { generator with unused })

/-- The script of a node, in a document, appended to the code. -/
def append (generator : Generator) (bindings : Bindings) (options : Options) (node : Node)
    (document : Script.Expr → Doc) : Generator :=
  let (expr, unused) := (node.lower bindings options.curry).run generator.unused
  { writer := generator.writer.put (document expr), unused }

end Generator

/-- The code of a node as a single expression. -/
def Node.generate (node : Node) (bindings : Bindings) (options : Options) : String :=
  ((Generator.initial options).append bindings options node Script.Expr.doc).writer.output

/-- The code of a node as a whole program. -/
def Node.generateProgram (node : Node) (bindings : Bindings) (options : Options) : String :=
  ((Generator.initial options).append bindings options node Script.programDoc).writer.output

/-- The code of a tree as a single expression, which uses the support library and the object with
the host's names. -/
def Tree.generate (tree : Tree) (bindings : Bindings) (options : Options) : String :=
  (Node.tree tree).generate bindings options

/-- The code of a tree as a whole program. -/
def Tree.generateProgram (tree : Tree) (bindings : Bindings) (options : Options) : String :=
  (Node.tree tree).generateProgram bindings options

/-- Everything that a compilation produces. -/
structure Compilation where
  tokens : Array Token
  tree : Tree
  bindings : Bindings
  /-- The diagnostics, in the order of the tree. -/
  diagnostics : List Diagnostic
  /-- The generated program. -/
  program : String

/-- Compile a source text. -/
def compile (source : String) (options : Options) : Compilation :=
  let tokens := Token.read source options.fileName
  let tree := Tree.parse tokens
  let bindings := tree.resolve options.globals
  { tokens
    tree
    bindings
    diagnostics := tree.diagnostics bindings
    program := tree.generateProgram bindings options }

end LetScript
