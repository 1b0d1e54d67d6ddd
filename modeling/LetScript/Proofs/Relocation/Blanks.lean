import LetScript.Proofs.Parser.Completeness
import LetScript.Proofs.Parser.Origins
import LetScript.Proofs.Relocation.Compilation
import LetScript.Proofs.Relocation.Simulation

/-!
# Blank tokens do not matter

The parser takes the same steps whether or not blank tokens stand between the significant ones, so
leaving them out changes nothing in the tree but the blank tokens that faults have skipped
(`Tree.parse_significant`). For sources the positions differ as well. Numbering the significant
tokens of a source is a relocation, by the rank of a position among the starts of the tokens, and
the numbered tokens depend on nothing but their contents. As compiling is not changed by relocation,
sources with the same contents are compiled alike (`compile_numbered`).
-/

namespace LetScript

variable {f : Position → Position}

/-! ## Streams without blank tokens -/

namespace TokenStream

variable {stream : TokenStream} {stop : Nat}

/-- The first position at an end of input holds the first end of input of the stream. -/
theorem find_end (h : stream.Passes 0 stop) (hend : stream.kindAt stop = .endOfInput) :
    stream.tokens.find? (fun token => token.kind = .endOfInput) = some (stream.get stop) := by
  have hle : stop ≤ stream.body.size := by
    rcases Nat.eq_zero_or_pos stop with rfl | hpos
    · exact Nat.zero_le _
    · exact h.le_size hpos
  have hget (pos : Nat) (hpos : pos ≤ stop) := get_elem_tokens (Nat.le_trans hpos hle)
  obtain ⟨hlt, hstop⟩ := List.getElem?_eq_some_iff.1 (hget stop (Nat.le_refl stop))
  refine List.find?_eq_some_iff_getElem.2 ⟨decide_eq_true hend, stop, hlt, hstop, ?_⟩
  intro pos hpos
  obtain ⟨hlt', hpos'⟩ := List.getElem?_eq_some_iff.1 (hget pos (Nat.le_of_lt hpos))
  have hne := h.kind_ne pos (Nat.zero_le pos) hpos
  simpa [hpos', kindAt] using hne

end TokenStream

namespace Token

/-- The first end of input is relocated with the other tokens. -/
theorem find_end_relocate (tokens : List Token) :
    (relocateAll f tokens).find? (fun token => token.kind = .endOfInput) =
      (tokens.find? fun token => token.kind = .endOfInput).map (relocate f) := by
  have hfilter : (fun token : Token => decide (decide (token.kind ≠ .blank) = true ∧
      decide (token.kind = .endOfInput) = true)) =
        fun token => decide (token.kind = .endOfInput) := by
    funext token
    by_cases hend : token.kind = .endOfInput <;> simp [hend]
  unfold relocateAll significant
  rw [List.find?_map, List.find?_filter]
  exact congrArg (fun p => (List.find? p tokens).map (relocate f)) hfilter

/-- The tokens of the program are relocated with the other tokens. -/
theorem program_relocate (tokens : Array Token) :
    program (relocateAll f tokens.toList).toArray = (program tokens).map (relocate f) := by
  have hlist (tokens : List Token) :
      significant ((relocateAll f tokens).takeWhile fun token => token.kind ≠ .endOfInput) =
        (significant (tokens.takeWhile fun token => token.kind ≠ .endOfInput)).map
          (relocate f) := by
    induction tokens with
    | nil => rfl
    | cons token tokens ih =>
        simp only [relocateAll, significant] at ih ⊢
        by_cases hblank : token.kind = .blank
        · simpa [hblank] using ih
        · by_cases hend : token.kind = .endOfInput
          · simp [hend]
          · simpa [hblank, hend] using ih
  exact hlist tokens.toList

end Token

/-- The stream of a token sequence, and the stream of its significant tokens at other places. -/
theorem Parser.Mirror.of_tokens (f : Position → Position) {tokens : Array Token}
    {front : List Token} {last : Token} (htokens : tokens.toList = front ++ [last])
    (hlast : last.kind = .endOfInput) :
    ∃ m : Parser.Mirror f, m.first = .ofTokens tokens ∧
      m.second = .ofTokens (Token.relocateAll f tokens.toList).toArray ∧ m.At 0 0 := by
  obtain ⟨stop, hfirst⟩ := TokenStream.ahead_of_tokens tokens
  obtain ⟨stop', hsecond⟩ :=
    TokenStream.ahead_of_tokens (Token.relocateAll f tokens.toList).toArray
  have htokens' : (Token.relocateAll f tokens.toList).toArray.toList =
      Token.relocateAll f front ++ [last.relocate f] := by
    simp [htokens, Token.relocateAll, Token.significant, hlast]
  have hall := TokenStream.tokens_of_tokens htokens hlast
  have hall' := TokenStream.tokens_of_tokens htokens' hlast
  refine ⟨⟨.ofTokens tokens, .ofTokens (Token.relocateAll f tokens.toList).toArray, stop, stop',
    ?_, fun pos hblank => ?_⟩, rfl, rfl, _, hfirst, ?_⟩
  · have hfind := TokenStream.find_end hfirst.passes hfirst.ends
    have hfind' := TokenStream.find_end hsecond.passes hsecond.ends
    rw [hall] at hfind
    rw [hall', Token.find_end_relocate, hfind] at hfind'
    exact (Option.some.inj hfind').symm
  · have hmem := (TokenStream.ofTokens (Token.relocateAll f tokens.toList).toArray).get_mem pos
    rw [hall'] at hmem
    obtain ⟨token, htoken, heq⟩ := List.mem_map.1 hmem
    have hne := of_decide_eq_true (List.mem_filter.1 htoken).2
    rw [TokenStream.kindAt, ← heq] at hblank
    exact hne hblank
  · exact Token.program_relocate tokens ▸ hsecond

/-- Leaving out the blank tokens of a sequence and changing the positions of the others changes
its tree in the same way. -/
theorem Tree.parse_relocate (f : Position → Position) {tokens : Array Token}
    {front : List Token} {last : Token} (htokens : tokens.toList = front ++ [last])
    (hlast : last.kind = .endOfInput) :
    Tree.parse (Token.relocateAll f tokens.toList).toArray = (Tree.parse tokens).relocate f := by
  obtain ⟨m, hfirst, hsecond, hat⟩ := Parser.Mirror.of_tokens f htokens hlast
  have hrelated := ((m.program_commutes .standard).step {} {} Parser.State.ready_initial
    Parser.State.ready_initial ⟨hat, .cons ⟨rfl, hat⟩ .nil, rfl⟩).2
  unfold Tree.parse Tree.parseWith
  rw [← hfirst, ← hsecond]
  cases hcase : Parser.program m.first .standard {} with
  | ok tree s =>
      rw [hcase] at hrelated
      obtain ⟨tree', s', hcase', htree, -⟩ := hrelated.of_ok
      rw [hcase']
      exact htree
  | error fault s =>
      rw [hcase] at hrelated
      obtain ⟨fault', s', hcase', hfault, -⟩ := hrelated.of_error
      rw [hcase', hfault]
      rfl

/-! ## Sequences without blank tokens -/

/-- Every position as it is. -/
def Position.same (position : Position) : Position := position

/-- A tree without the blank tokens that its faults have skipped. -/
def Tree.withoutBlanks (tree : Tree) : Tree := tree.relocate .same

/-- A node without the blank tokens that its faults have skipped. -/
def Node.withoutBlanks (node : Node) : Node := node.relocate .same

/-- A token that stays where it is does not change. -/
theorem Token.relocate_same (token : Token) : token.relocate .same = token := by
  obtain ⟨kind, value, span, quoted, diagnostic⟩ := token
  have hdiagnostic : diagnostic.map (Diagnostic.relocate .same) = diagnostic := by
    cases diagnostic <;> rfl
  simp only [Token.relocate, hdiagnostic]
  rfl

/-- Only the blank tokens of a list are left out if the others stay where they are. -/
theorem Token.relocate_all_same (tokens : List Token) :
    Token.relocateAll .same tokens = Token.significant tokens := by
  have hid : Token.relocate Position.same = id := funext Token.relocate_same
  rw [Token.relocateAll, hid, List.map_id]

/-- A fault without blank tokens has skipped the significant ones, and is the same fault
otherwise. -/
theorem Fault.relocate_same (fault : Fault) :
    fault.relocate .same = { fault with skipped := Token.significant fault.skipped } := by
  simp only [Fault.relocate, Token.relocate_same, Token.relocate_all_same]
  rfl

/-- The diagnostics of a fault do not change if it skips no blank token with a diagnostic. -/
theorem Fault.kept_same {fault : Fault}
    (h : ∀ token ∈ fault.skipped, token.kind = .blank → token.diagnostic = none) :
    fault.Kept .same where
  blank := h
  apart token _ _ heq := by rwa [Token.relocate_same, Token.relocate_same] at heq

mutual

/-- The nodes of a relocated tree are those of the tree, relocated. -/
theorem Tree.nodes_at_relocate (depth : Nat) (tree : Tree) :
    (tree.relocate f).nodesAt depth =
      (tree.nodesAt depth).map fun entry => (entry.1, entry.2.relocate f) := by
  cases tree with
  | identifier | literal | placeholder | fault => rfl
  | paren id opener inner closer =>
      exact congrArg (List.cons _) (inner.nodes_at_relocate (depth + 1))
  | letIn id letToken items inToken body =>
      simp only [Tree.relocate, Tree.nodesAt, List.map_cons, List.map_append, Node.relocate,
        Item.list_nodes_at_relocate Node.of_binding_relocate (depth + 1) items,
        body.nodes_at_relocate (depth + 1)]
  | function id fnToken params arrow body =>
      exact congrArg (List.cons _) (body.nodes_at_relocate (depth + 1))
  | record id opener items closer =>
      exact congrArg (List.cons _)
        (Item.list_nodes_at_relocate Node.of_field_relocate (depth + 1) items)
  | unary id operator operand =>
      exact congrArg (List.cons _) (operand.nodes_at_relocate (depth + 1))
  | binary id left operator right =>
      simp only [Tree.relocate, Tree.nodesAt, List.map_cons, List.map_append, Node.relocate,
        left.nodes_at_relocate (depth + 1), right.nodes_at_relocate (depth + 1)]
  | apply id callee argument =>
      simp only [Tree.relocate, Tree.nodesAt, List.map_cons, List.map_append, Node.relocate,
        callee.nodes_at_relocate (depth + 1), argument.nodes_at_relocate (depth + 1)]

/-- The nodes of relocated items are those of the items, relocated. -/
theorem Item.list_nodes_at_relocate {toNode : Item → Node}
    (hnode : ∀ item : Item, toNode (item.relocate f) = (toNode item).relocate f) (depth : Nat)
    (items : List Item) :
    Item.listNodesAt toNode depth (Item.relocateList f items) =
      (Item.listNodesAt toNode depth items).map fun entry => (entry.1, entry.2.relocate f) := by
  cases items with
  | nil => rfl
  | cons item items =>
      have hitem : (item.relocate f).nodesAt toNode depth =
          (item.nodesAt toNode depth).map fun entry => (entry.1, entry.2.relocate f) := by
        have hfirst := hnode item
        cases item with
        | definition id name equals value =>
            simp only [Item.relocate] at hfirst
            simp only [Item.relocate, Item.nodesAt, List.map_cons, hfirst,
              value.nodes_at_relocate (depth + 1)]
        | fault fault =>
            simp only [Item.relocate] at hfirst
            simp only [Item.relocate, Item.nodesAt, List.map_cons, List.map_nil, hfirst]
      simp only [Item.relocateList, Item.listNodesAt, List.map_append, hitem,
        Item.list_nodes_at_relocate hnode depth items]

end

/-- The span of a tree starts with that of a fault. -/
def Tree.opensWithFault : Tree → Bool
  | .fault _ => true
  | .binary _ left _ _ => left.opensWithFault
  | .apply _ callee _ => callee.opensWithFault
  | _ => false

/-- The span of a tree ends with that of a fault. -/
def Tree.closesWithFault : Tree → Bool
  | .fault _ => true
  | .letIn _ _ _ _ body => body.closesWithFault
  | .function _ _ _ _ body => body.closesWithFault
  | .unary _ _ operand => operand.closesWithFault
  | .binary _ _ _ right => right.closesWithFault
  | .apply _ _ argument => argument.closesWithFault
  | _ => false

/-- The span of a node starts with that of a fault. -/
def Node.opensWithFault : Node → Bool
  | .tree t => t.opensWithFault
  | _ => false

/-- The span of a node ends with that of a fault. -/
def Node.closesWithFault : Node → Bool
  | .tree t => t.closesWithFault
  | .binding _ _ _ value => value.closesWithFault
  | .field _ _ _ value => value.closesWithFault

/-- The start of a span is relocated with the tree, unless it is that of a fault. -/
theorem Tree.start_relocate {tree : Tree} (h : tree.opensWithFault = false) :
    (tree.relocate f).span.start = f tree.span.start := by
  cases tree with
  | fault fault => cases h
  | binary id left operator right => exact left.start_relocate h
  | apply id callee argument => exact callee.start_relocate h
  | identifier | literal | placeholder | paren | letIn | function | record | unary => rfl

/-- The end of a span is relocated with the tree, unless it is that of a fault. -/
theorem Tree.stop_relocate {tree : Tree} (h : tree.closesWithFault = false) :
    (tree.relocate f).span.stop = f tree.span.stop := by
  cases tree with
  | fault fault => cases h
  | letIn id letToken items inToken body => exact body.stop_relocate h
  | function id fnToken params arrow body => exact body.stop_relocate h
  | unary id operator operand => exact operand.stop_relocate h
  | binary id left operator right => exact right.stop_relocate h
  | apply id callee argument => exact argument.stop_relocate h
  | identifier | literal | placeholder | paren | record => rfl

/-- The start of a span is relocated with the node, unless it is that of a fault. -/
theorem Node.start_relocate {node : Node} (h : node.opensWithFault = false) :
    (node.relocate f).span.start = f node.span.start := by
  cases node with
  | tree tree => exact Tree.start_relocate h
  | binding | field => rfl

/-- The end of a span is relocated with the node, unless it is that of a fault. -/
theorem Node.stop_relocate {node : Node} (h : node.closesWithFault = false) :
    (node.relocate f).span.stop = f node.span.stop := by
  cases node with
  | tree tree => exact Tree.stop_relocate h
  | binding id name equals value =>
      exact Tree.stop_relocate (show value.closesWithFault = false from h)
  | field id name equals value =>
      exact Tree.stop_relocate (show value.closesWithFault = false from h)

/-- A tree and the tree without blank tokens: they have the same nodes with the same identities,
tokens and faults, apart from the blank tokens that faults have skipped. The spans of nodes have the
same bounds, apart from those that are bounds of faults, and the diagnostics are the same. -/
structure Tree.EqualButBlanks (tree stripped : Tree) : Prop where
  tree_eq : stripped = tree.withoutBlanks
  nodes_eq : stripped.nodes = tree.nodes.map fun entry => (entry.1, entry.2.withoutBlanks)
  start_eq : ∀ entry ∈ tree.nodes, entry.2.opensWithFault = false →
    entry.2.withoutBlanks.span.start = entry.2.span.start
  stop_eq : ∀ entry ∈ tree.nodes, entry.2.closesWithFault = false →
    entry.2.withoutBlanks.span.stop = entry.2.span.stop
  diagnostics_eq : ∀ globals, stripped.diagnostics (stripped.resolve globals) =
    tree.diagnostics (tree.resolve globals)

/-- The tree of a sequence is the tree of its significant tokens but for blank tokens. -/
theorem Tree.parse_significant {tokens : Array Token} {front : List Token} {last : Token}
    (htokens : tokens.toList = front ++ [last]) (hlast : last.kind = .endOfInput)
    (hblank : ∀ token ∈ tokens.toList, token.kind = .blank → token.diagnostic = none) :
    (Tree.parse tokens).EqualButBlanks
      (Tree.parse (Token.significant tokens.toList).toArray) := by
  have htree : Tree.parse (Token.significant tokens.toList).toArray =
      (Tree.parse tokens).withoutBlanks := by
    rw [← Token.relocate_all_same]
    exact Tree.parse_relocate Position.same htokens hlast
  rw [htree]
  refine ⟨rfl, Tree.nodes_at_relocate 0 _, fun _ _ => Node.start_relocate,
    fun _ _ => Node.stop_relocate, fun globals => ?_⟩
  have hdiagnostics := Tree.diagnostics_relocate ((Tree.parse tokens).resolve_relocate globals)
    (Tree.parse tokens) fun fault hfault => Fault.kept_same fun token htoken => hblank token
      ((Tree.parse_found_of_closed htokens hlast fault hfault).subset htoken)
  have hsame : Diagnostic.relocate Position.same = fun diagnostic => diagnostic := rfl
  rwa [hsame, List.map_id'] at hdiagnostics

/-! ## Sources with the same significant tokens -/

namespace Token

/-- What a token is apart from where it stands. -/
structure Content where
  kind : Kind
  value : String
  quoted : Bool
  cause : Option Cause
  deriving DecidableEq

/-- What a token is apart from where it stands. -/
def content (token : Token) : Content :=
  ⟨token.kind, token.value, token.quoted, token.diagnostic.map Diagnostic.cause⟩

/-- The token of a given number in a list in which every token but the end of input has the
width one. -/
def Content.numbered (number : Nat) (content : Content) : Token where
  kind := content.kind
  value := content.value
  span := ⟨⟨"", number⟩, ⟨"", if content.kind = .endOfInput then number else number + 1⟩⟩
  quoted := content.quoted
  diagnostic := content.cause.map fun cause => ⟨cause, ⟨"", number⟩⟩

/-- The number of tokens that start before a position. -/
def rank (tokens : List Token) (position : Position) : Position :=
  ⟨"", tokens.countP fun token => token.span.start.offset < position.offset⟩

variable {tokens : List Token}

/-- The tokens that start before a position are the first ones of the list. -/
theorem rank_eq {position : Position} {number : Nat} (hnumber : number ≤ tokens.length)
    (hbefore : ∀ i, ∀ h : i < tokens.length, i < number →
      tokens[i].span.start.offset < position.offset)
    (hafter : ∀ i, ∀ h : i < tokens.length, number ≤ i →
      position.offset ≤ tokens[i].span.start.offset) :
    rank tokens position = ⟨"", number⟩ := by
  have hfirst : (tokens.take number).countP
      (fun token => token.span.start.offset < position.offset) = number := by
    rw [List.countP_eq_length.2, List.length_take_of_le hnumber]
    intro token htoken
    obtain ⟨i, hi, rfl⟩ := List.mem_take_iff_getElem.1 htoken
    exact decide_eq_true (hbefore i (by omega) (by omega))
  have hrest : (tokens.drop number).countP
      (fun token => token.span.start.offset < position.offset) = 0 := by
    refine List.countP_eq_zero.2 fun token htoken => ?_
    obtain ⟨i, hi, rfl⟩ := List.mem_drop_iff_getElem.1 htoken
    have hle := hafter (number + i) (by omega) (Nat.le_add_right ..)
    simpa using hle
  rw [rank, ← List.take_append_drop number tokens, List.countP_append, hfirst, hrest,
    Nat.add_zero]

/-- Tokens that stand one after the other, all but an end of input with some width, and with
their diagnostics at their start. -/
structure Spread (tokens : List Token) : Prop where
  ordered : tokens.Pairwise Before
  width : ∀ token ∈ tokens, if token.kind = .endOfInput then token.span.stop = token.span.start
    else token.span.start.offset < token.span.stop.offset
  located : ∀ token ∈ tokens, ∀ diagnostic ∈ token.diagnostic,
    diagnostic.position = token.span.start

namespace Spread

/-- The number of a token is the rank of its start. -/
theorem rank_start (h : Spread tokens) {number : Nat} (hnumber : number < tokens.length) :
    rank tokens tokens[number].span.start = ⟨"", number⟩ := by
  have hordered := List.pairwise_iff_getElem.1 h.ordered
  refine rank_eq (Nat.le_of_lt hnumber) (fun i hi hlt => ?_) fun i hi hle => ?_
  · exact (hordered i number hi hnumber hlt).start_lt
  · rcases Nat.eq_or_lt_of_le hle with rfl | hlt
    · exact Nat.le_refl _
    · exact Nat.le_of_lt (hordered number i hnumber hi hlt).start_lt

/-- Every token is given its number, if positions are replaced by their ranks. -/
theorem relocate_rank (h : Spread tokens) :
    tokens.map (relocate (rank tokens)) = (tokens.map content).mapIdx Content.numbered := by
  have hordered := List.pairwise_iff_getElem.1 h.ordered
  refine List.ext_getElem (by simp) fun number hnumber _ => ?_
  rw [List.length_map] at hnumber
  rw [List.getElem_map, List.getElem_mapIdx, List.getElem_map]
  have hmem : tokens[number] ∈ tokens := List.getElem_mem hnumber
  have hstart := h.rank_start hnumber
  have hstop : rank tokens tokens[number].span.stop =
      ⟨"", if tokens[number].kind = .endOfInput then number else number + 1⟩ := by
    have hwidth := h.width _ hmem
    split at hwidth
    next hend => rw [if_pos hend, hwidth, hstart]
    next hend =>
      rw [if_neg hend]
      refine rank_eq hnumber (fun i hi hlt => ?_) fun i hi hle => ?_
      · rcases Nat.eq_or_lt_of_le (Nat.le_of_lt_succ hlt) with rfl | hlt
        · exact hwidth
        · exact Nat.lt_trans (hordered i number hi hnumber hlt).start_lt hwidth
      · exact (hordered number i hnumber hi hle).2
  have hdiagnostic : tokens[number].diagnostic.map (Diagnostic.relocate (rank tokens)) =
      (tokens[number].diagnostic.map Diagnostic.cause).map fun cause => ⟨cause, ⟨"", number⟩⟩ := by
    have hlocated := h.located _ hmem
    cases hcase : tokens[number].diagnostic with
    | none => rfl
    | some diagnostic =>
        have hposition := hlocated diagnostic hcase
        simp only [Option.map_some, Diagnostic.relocate, hposition, hstart]
  simp only [relocate, Content.numbered, content, Span.relocate, hstart, hstop, hdiagnostic]
  rfl

/-- Tokens whose starts have the same rank are the same. -/
theorem eq_of_rank_eq (h : Spread tokens) {first second : Token} (hfirst : first ∈ tokens)
    (hsecond : second ∈ tokens)
    (hrank : rank tokens first.span.start = rank tokens second.span.start) : first = second := by
  obtain ⟨i, hi, rfl⟩ := List.getElem_of_mem hfirst
  obtain ⟨j, hj, rfl⟩ := List.getElem_of_mem hsecond
  rw [h.rank_start hi, h.rank_start hj] at hrank
  obtain rfl : i = j := congrArg Position.offset hrank
  rfl

end Spread

/-- The significant tokens of a source are spread in this way. -/
theorem read_spread (source file : String) : Spread (significant (read source file).toList) := by
  have harranged := read_arranged source file
  obtain ⟨front, htokens, -⟩ := read_placed source file
  have hwidth : ∀ token ∈ (read source file).toList,
      if token.kind = .endOfInput then token.span.stop = token.span.start
      else token.span.start.offset < token.span.stop.offset := by
    have hordered := harranged.ordered
    rw [htokens] at hordered ⊢
    refine List.forall_mem_append.2 ⟨fun token htoken => ?_, List.forall_mem_singleton.2 rfl⟩
    have hbefore := (List.pairwise_append.1 hordered).2.2 token htoken _ (List.mem_singleton.2 rfl)
    split
    next hend =>
      obtain ⟨front', last, htokens', -, hfront⟩ := harranged.closed
      rw [htokens] at htokens'
      obtain ⟨rfl, -⟩ := List.append_inj' htokens' rfl
      exact absurd hend (hfront token htoken)
    next => exact hbefore.1
  exact ⟨harranged.ordered.filter _, fun token htoken => hwidth token (List.mem_filter.1 htoken).1,
    fun token htoken => harranged.located token (List.mem_filter.1 htoken).1⟩

end Token

/-- Replacing positions by ranks keeps what the faults of a source report. -/
theorem Fault.kept_rank {source file : String} {fault : Fault}
    (h : fault ∈ (Tree.parse (Token.read source file)).faults) :
    fault.Kept (Token.rank (Token.significant (Token.read source file).toList)) := by
  have harranged := Token.read_arranged source file
  have hfound := Tree.parse_found harranged fault h
  refine ⟨fun token htoken hblank => ?_, fun token htoken hsome heq => ?_⟩
  · have hdiagnosed := harranged.diagnosed token (hfound.subset htoken)
    cases hdiagnostic : token.diagnostic with
    | none => rfl
    | some diagnostic =>
        have hinvalid := hdiagnosed.1 (by simp [hdiagnostic])
        rw [hblank] at hinvalid
        cases hinvalid
  · have hkind : token.kind = .invalid :=
      (harranged.diagnosed token (hfound.subset htoken)).1 hsome
    have hkind' : fault.token.kind = .invalid :=
      (congrArg Token.kind heq).symm.trans hkind
    -- both tokens are significant, and their starts have the same rank
    refine (Token.read_spread source file).eq_of_rank_eq
      (List.mem_filter.2 ⟨hfound.subset htoken, by simp [hkind]⟩)
      (List.mem_filter.2 ⟨hfound.token_mem, by simp [hkind']⟩) ?_
    exact congrArg (fun token : Token => token.span.start) heq

/-- What a compilation gives depends on the contents of the significant tokens only: it is what the
tree of the numbered tokens gives, apart from positions. -/
theorem compile_numbered (source : String) (options : Options) :
    let tree := Tree.parse (((Token.significant
      (Token.read source options.fileName).toList).map Token.content).mapIdx
        Token.Content.numbered).toArray
    (compile source options).program =
        tree.generateProgram (tree.resolve options.globals) options ∧
      (compile source options).diagnostics.map Diagnostic.cause =
        (tree.diagnostics (tree.resolve options.globals)).map Diagnostic.cause := by
  obtain ⟨front, last, htokens, hlast, -⟩ :=
    (Token.read_arranged source options.fileName).closed
  intro tree
  have htree : tree = (Tree.parse (Token.read source options.fileName)).relocate
      (Token.rank (Token.significant (Token.read source options.fileName).toList)) := by
    rw [← Tree.parse_relocate _ htokens hlast, Token.relocateAll,
      (Token.read_spread source options.fileName).relocate_rank]
  rw [htree]
  refine ⟨(Tree.generate_program_relocate _ options).symm, ?_⟩
  rw [Tree.diagnostics_relocate (Tree.resolve_relocate _ options.globals) _
    fun _ => Fault.kept_rank, List.map_map]
  rfl

/-- Blank tokens do not change the meaning of a program. Leaving them out of a token sequence that
ends with an end of input changes nothing in its tree but the blank tokens that faults have skipped.
So sources whose significant tokens have the same contents are compiled to the same program, with
the same diagnostics in the same order, apart from their positions. -/
theorem blank_tokens_immaterial :
    (∀ tokens : Array Token, tokens.toList.getLast?.map Token.kind = some .endOfInput →
      (∀ token ∈ tokens.toList, token.kind = .blank → token.diagnostic = none) →
      (Tree.parse tokens).EqualButBlanks
        (Tree.parse (Token.significant tokens.toList).toArray)) ∧
    ∀ (source source' file : String) (options : Options),
      (Token.significant (Token.read source' file).toList).map Token.content =
        (Token.significant (Token.read source options.fileName).toList).map Token.content →
      (compile source' { options with fileName := file }).program =
          (compile source options).program ∧
        (compile source' { options with fileName := file }).diagnostics.map Diagnostic.cause =
          (compile source options).diagnostics.map Diagnostic.cause := by
  refine ⟨fun tokens hend hblank => ?_, fun source source' file options hcontents => ?_⟩
  · obtain ⟨last, hlast, hkind⟩ := Option.map_eq_some_iff.1 hend
    obtain ⟨front, htokens⟩ := List.getLast?_eq_some_iff.1 hlast
    exact Tree.parse_significant htokens hkind hblank
  · obtain ⟨hprogram, hdiagnostics⟩ := compile_numbered source options
    obtain ⟨hprogram', hdiagnostics'⟩ :=
      compile_numbered source' { options with fileName := file }
    rw [hprogram, hdiagnostics, hprogram', hdiagnostics', hcontents]
    exact ⟨rfl, rfl⟩

/-- The blank token in `1 )` is skipped with the others by the fault that stands for them, and
`( 1 )` is compiled like `(1)`. -/
theorem blank_tokens_immaterial_at_parenthesis :
    (Tree.parse #[⟨.number, "1", .empty .nowhere, false, none⟩,
        ⟨.blank, " ", .empty .nowhere, false, none⟩,
        ⟨.closeParen, ")", .empty .nowhere, false, none⟩, .endOfInput .nowhere]).EqualButBlanks
      (Tree.parse #[⟨.number, "1", .empty .nowhere, false, none⟩,
        ⟨.closeParen, ")", .empty .nowhere, false, none⟩, .endOfInput .nowhere]) ∧
    (compile "(1)" { fileName := "" }).program = (compile " ( 1 )" {}).program ∧
    (compile "(1)" { fileName := "" }).diagnostics.map Diagnostic.cause =
      (compile " ( 1 )" {}).diagnostics.map Diagnostic.cause :=
  ⟨blank_tokens_immaterial.1 _ rfl (by decide),
    blank_tokens_immaterial.2 " ( 1 )" "(1)" "" {} (by decide +kernel)⟩

end LetScript
