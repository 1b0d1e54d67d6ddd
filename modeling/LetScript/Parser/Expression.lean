import LetScript.Grammar.Basic
import LetScript.Parser.State

/-!
# Parsing expressions

`expression` parses an expression by the rules of a grammar: the rule of the first token gives the
left operand, which is then continued for as long as the next token has a greater power than the
one asked for. The number of expressions that may be nested inside one another is bounded, and so
is the height of a tree that grows by continuations.
-/

namespace LetScript

/-- The greatest number of expressions nested inside one another. -/
def maxNesting : Nat := 128

/-- The greatest height of a tree that is continued. -/
def maxHeight : Nat := 1024

/-- What continues an expression: an operator with its right operand, or an argument. -/
inductive Continuation where
  | binary (id : NodeId) (operator : Token) (right : Tree)
  | apply (id : NodeId) (argument : Tree)

namespace Continuation

/-- The expression that continues `left`. -/
def attach (left : Tree) : Continuation → Tree
  | binary id operator right => .binary id left operator right
  | apply id argument => .apply id left argument

/-- The height of the operand that the continuation adds. -/
def height : Continuation → Nat
  | binary _ _ right => right.height
  | apply _ argument => argument.height

/-- Attaching a continuation adds one node above both operands. -/
theorem height_attach (left : Tree) (continuation : Continuation) :
    (continuation.attach left).height = max left.height continuation.height + 1 := by
  cases continuation <;> simp [attach, height, Tree.height]

end Continuation

namespace Parser

variable (stream : TokenStream)

/-- Parse `name = value`, where the value is continued by the tokens above a power. -/
def definition (operand : Power → Parse Tree) (power : Power) : Parse Item := do
  let name ← expect stream .identifier
  let equals ← expect stream .equals
  let value ← operand power
  return .definition (← freshId) name equals value

/-- Parse a definition in a let with the semicolon after it, which may be left out before the
keyword `in`. -/
def letItem (operand : Power → Parse Tree) : Parse Item := do
  let item ← recovering stream .semicolon .fault (definition stream operand .letIn)
  if (← currentKind stream) ≠ .inWord then
    let _ ← expect stream .semicolon
  return item

/-- Parse a definition in a record with the semicolon after it. -/
def recordItem (operand : Power → Parse Tree) : Parse Item := do
  let item ← recovering stream .semicolon .fault (definition stream operand .record)
  let _ ← expect stream .semicolon
  return item

/-- Parse a parameter of a function. -/
def param : Parse Param := do
  let token ← expect stream .identifier
  return .name (← freshId) token

/-- Parse an expression by the rule of its first token. Expressions inside it are parsed by
`operand`, which takes the power above which they are continued. -/
def parsePrefix (operand : Power → Parse Tree) : PrefixRule → Parse Tree
  | .identifier => do
    let token ← advance stream
    return .identifier (← freshId) token
  | .literal => do
    let token ← current stream
    match Binary64.read? token.value with
    | none => raise stream (.numberParseError token.value) token
    | some value =>
      let token ← advance stream
      return .literal (← freshId) token value
  | .invalid => do
    let token ← advance stream
    let diagnostic := token.diagnostic.getD ⟨.unrecognisedSymbol, token.span.start⟩
    return .fault { id := ← freshId, diagnostic, token, skipped := [token] }
  | .placeholder => do
    let token ← advance stream
    return .placeholder (← freshId) token
  | .function => do
    let fnToken ← advance stream
    let params ← itemsUntil stream .arrow .fault (param stream) []
    let arrow ← expect stream .arrow
    let body ← operand .function
    return .function (← freshId) fnToken params arrow body
  | .letIn => do
    let letToken ← advance stream
    let items ← itemsUntil stream .inWord .fault (letItem stream operand) []
    let inToken ← expect stream .inWord
    let body ← operand .letIn
    return .letIn (← freshId) letToken items inToken body
  | .record => do
    let opener ← advance stream
    let items ← itemsUntil stream .closeCurly .fault (recordItem stream operand) []
    let closer ← expect stream .closeCurly
    return .record (← freshId) opener items closer
  | .group => do
    let opener ← advance stream
    let inner ← recovering stream .closeParen .fault (operand .lowest)
    let closer ← expect stream .closeParen
    return .paren (← freshId) opener inner closer
  | .sign => do
    let operator ← advance stream
    let operand ← operand .additive
    return .unary (← freshId) operator operand

/-- Parse what continues an expression by the rule of the next token, which has some power. -/
def parseInfix (operand : Power → Parse Tree) (power : Power) : InfixRule → Parse Continuation
  | .binary => do
    let operator ← advance stream
    let right ← operand power
    return .binary (← freshId) operator right
  | .apply => do
    let argument ← operand .apply
    return .apply (← freshId) argument

variable (grammar : Grammar)

/-- Continue an expression of known height for as long as the next token has a greater power
than `floor`. -/
def continueFrom (operand : Power → Parse Tree) (floor : Power) (left : Tree) (height : Nat) :
    Parse Tree := do
  match grammar.infixRule (← currentKind stream) with
  | none => return left
  | some (power, rule) =>
    if floor < power then
      let continuation ← parseInfix stream operand power rule
      let newHeight := max height continuation.height + 1
      if _ : newHeight ≤ maxHeight then
        continueFrom operand floor (continuation.attach left) newHeight
      else raiseHere stream (.nestingTooDeep maxHeight)
    else return left
termination_by maxHeight - height
decreasing_by
  have := Nat.le_max_left height continuation.height
  omega

/-- Parse an expression that is continued by the tokens above a power. At most `room` expressions
may be nested inside one another. -/
def expression : (room : Nat) → (floor : Power) → Parse Tree
  | 0, _ => raiseHere stream (.nestingTooDeep maxNesting)
  | room + 1, floor => nested do
    let token ← current stream
    match grammar.prefixRule token.kind with
    | none => raise stream (.cannotParseExpression token.value) token
    | some rule =>
      let left ← parsePrefix stream (expression room) rule
      continueFrom stream grammar (expression room) floor left left.height

/-- Parse a whole program: one expression and the end of input. -/
def program : Parse Tree := do
  let tree ← expression stream grammar maxNesting .lowest
  let _ ← expect stream .endOfInput
  return tree

end Parser

/-- Parse a token stream by the rules of a grammar. A fault that no construct takes is the whole
result. -/
def Tree.parseWith (grammar : Grammar) (stream : TokenStream) : Tree :=
  match Parser.program stream grammar {} with
  | .ok tree _ => tree
  | .error f _ => .fault f

/-- Parse a token sequence. -/
def Tree.parse (tokens : Array Token) : Tree :=
  Tree.parseWith .standard (.ofTokens tokens)

end LetScript
