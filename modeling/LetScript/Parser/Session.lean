import LetScript.Parser.Expression

/-!
# Parsing step by step

A session is a parser whose steps are taken one at a time: it keeps the state of the parser and its
grammar. A step that raises a fault leaves the session in the state in which the fault was raised.
How many expressions may still be nested is told by the number of those that are being parsed.
-/

namespace LetScript

/-- A parser between two steps. -/
structure Session where
  stream : TokenStream
  grammar : Grammar
  state : Parser.State := {}

namespace Session

/-- Take a step. -/
def run {α : Type} (session : Session) (step : Parser.Parse α) : Except Fault α × Session :=
  match step session.state with
  | .ok result state => (.ok result, { session with state })
  | .error fault state => (.error fault, { session with state })

/-- Begin to parse an expression inside those that are being parsed, if there is room for one. -/
def enter (session : Session) : Except Fault Unit × Session :=
  if session.state.nesting < maxNesting then
    (.ok (), { session with state := { session.state with nesting := session.state.nesting + 1 } })
  else session.run (Parser.raiseHere session.stream (.nestingTooDeep maxNesting))

/-- End the parsing of an expression. -/
def leave (session : Session) : Session :=
  { session with state := { session.state with nesting := session.state.nesting - 1 } }

/-- Parse an expression that is continued by the tokens above a power. -/
def expression (session : Session) (floor : Power) : Parser.Parse Tree := fun s =>
  Parser.expression session.stream session.grammar (maxNesting - s.nesting) floor s

/-- Parse an expression by a rule for its first token. -/
def byPrefixRule (session : Session) (rule : PrefixRule) : Parser.Parse Tree :=
  Parser.parsePrefix session.stream session.expression rule

/-- Continue an expression by a rule for the next token. -/
def byInfixRule (session : Session) (rule : InfixRule) (power : Power) (left : Tree) :
    Parser.Parse Tree :=
  Continuation.attach left <$> Parser.parseInfix session.stream session.expression power rule

/-- Continue an expression for as long as the next token has a greater power. -/
def continueFrom (session : Session) (floor : Power) (left : Tree) : Parser.Parse Tree :=
  Parser.continueFrom session.stream session.grammar session.expression floor left left.height

/-- Raise a fault if a tree is too tall to be continued. -/
def checkHeight (session : Session) (tree : Tree) : Parser.Parse Unit :=
  if maxHeight < tree.height then
    Parser.raiseHere session.stream (.nestingTooDeep maxHeight)
  else pure ()

/-- The power with which the current token continues an expression. -/
def currentPower (session : Session) : Parser.Parse Power :=
  session.grammar.power <$> Parser.currentKind session.stream

end Session

end LetScript
