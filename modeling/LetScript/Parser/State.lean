import LetScript.Token.Stream
import LetScript.Tree.Basic

/-!
# The state of a parser

A parser moves over a token stream and gives out node identities. While a construct with a
terminator is being parsed, the kind of its terminator is on the stack of awaited kinds, together
with the position at which the construct began to wait. A fault is raised with `raise`: it skips
to the next token of an awaited kind and gives up every construct above the innermost one that
awaits it. That construct takes the fault as a part of the tree in `recovering`.
-/

namespace LetScript.Parser

/-- A kind of token that a construct waits for, and the position where it began to wait. -/
structure Awaited where
  kind : Kind
  start : Nat
  deriving DecidableEq

/-- The state of a parser: its position in the stream, the awaited kinds with the innermost
first, the next node identity, and the number of expressions that are being parsed. -/
structure State where
  pos : Nat := 0
  awaited : List Awaited := [⟨.endOfInput, 0⟩]
  nextId : NodeId := 0
  nesting : Nat := 0

/-- A step of a parser, which may raise a fault. The state is kept when it does. -/
abbrev Parse (α : Type) := EStateM Fault State α

/-- A new node identity. -/
def freshId : Parse NodeId := fun s => .ok s.nextId { s with nextId := s.nextId + 1 }

/-- The start of the innermost construct that waits for a kind, and the constructs around it. If
there is none, all are given up and the start is `here`. -/
def unwind (kind : Kind) (here : Nat) : List Awaited → Nat × List Awaited
  | [] => (here, [])
  | entry :: awaited =>
    if entry.kind = kind then (entry.start, awaited) else unwind kind here awaited

variable (stream : TokenStream)

/-- Skip blank tokens and give the token that follows, without passing it. -/
def current : Parse Token := fun s =>
  let pos := stream.significant s.pos
  .ok (stream.get pos) { s with pos }

/-- The kind of the current token. -/
def currentKind : Parse Kind := Token.kind <$> current stream

/-- Give the current token and pass it, unless it is the end of input. -/
def advance : Parse Token := fun s =>
  let pos := stream.significant s.pos
  let token := stream.get pos
  .ok token { s with pos := if token.kind = .endOfInput then pos else pos + 1 }

/-- Raise a fault that was found at a token. The stream skips to a token of an awaited kind, and
the fault covers the tokens from the start of the construct that awaits it. -/
def raise {α : Type} (cause : Cause) (token : Token) : Parse α := fun s =>
  let pos := stream.skipTo (s.awaited.map Awaited.kind) s.pos
  let (start, awaited) := unwind (stream.kindAt pos) pos s.awaited
  let fault : Fault :=
    { id := s.nextId
      diagnostic := ⟨cause, token.span.start⟩
      token
      skipped := stream.slice (min start pos) pos }
  .error fault { s with pos, awaited, nextId := s.nextId + 1 }

/-- Raise a fault at the current token. -/
def raiseHere {α : Type} (cause : Cause) : Parse α := do
  raise stream cause (← current stream)

/-- Pass a token of the given kind, or raise a fault without passing anything. -/
def expect (kind : Kind) : Parse Token := do
  let token ← current stream
  if token.kind = kind then advance stream
  else raise stream (.unexpectedToken kind.name token.value) token

/-- Run a parser while waiting for a kind of token. If a fault was raised and the stream is at a
token of this kind, the fault is the result, turned into a part of the tree by `ofFault`. Any
other fault is raised further. -/
def recovering {α : Type} (kind : Kind) (ofFault : Fault → α) (body : Parse α) : Parse α :=
  fun s =>
    match body { s with awaited := ⟨kind, s.pos⟩ :: s.awaited } with
    | .ok result s => .ok result { s with awaited := s.awaited.tail }
    | .error fault s =>
      let pos := stream.significant s.pos
      if stream.kindAt pos = kind then .ok (ofFault fault) { s with pos }
      else .error fault { s with pos }

/-- Run a parser inside one more expression, which is left with its result or with its fault. -/
def nested {α : Type} (body : Parse α) : Parse α := fun s =>
  match body { s with nesting := s.nesting + 1 } with
  | .ok result s => .ok result { s with nesting := s.nesting - 1 }
  | .error fault s => .error fault { s with nesting := s.nesting - 1 }

/-- What holds of the outcome inside one more expression holds after it, if it does not depend on
the number of expressions that are being parsed. -/
theorem outcome_nested {α : Type} {body : Parse α} {P : EStateM.Result Fault State α → Prop}
    {s : State} (hok : ∀ result s nesting, P (.ok result s) → P (.ok result { s with nesting }))
    (herror : ∀ fault s nesting, P (.error fault s) → P (.error fault { s with nesting }))
    (h : P (body { s with nesting := s.nesting + 1 })) : P (nested body s) := by
  unfold nested
  revert h
  cases body { s with nesting := s.nesting + 1 } with
  | ok result s' => exact hok result s' _
  | error fault s' => exact herror fault s' _

/-- Parse items until the current token is the terminator, each waiting for the terminator. An
item that passes no token has ended at the terminator, so no other item is tried after it. -/
def itemsUntil {α : Type} (terminator : Kind) (ofFault : Fault → α) (item : Parse α)
    (items : List α) (s : State) : EStateM.Result Fault State (List α) :=
  let pos := stream.significant s.pos
  if stream.kindAt pos = terminator then .ok items.reverse { s with pos }
  else
    match recovering stream terminator ofFault item { s with pos } with
    | .error fault s' => .error fault s'
    | .ok found s' =>
      if stream.remaining s'.pos < stream.remaining s.pos then
        itemsUntil terminator ofFault item (found :: items) s'
      else .ok (found :: items).reverse s'
termination_by stream.remaining s.pos

end LetScript.Parser
