import LetScript.Proofs.Parser.Extents
import LetScript.Proofs.Parser.Origins

/-!
# The layout of nodes

The parts of a node, its parameters included, stand inside the node, one after the other. The parser
goes forward only, so the tokens of a part lie between the position where the parser began to read
it and the one where it stopped (`Parser.Lays`). This holds as well of a part that was given up: its
fault covers the tokens between these positions, or, if there are none, the terminator at which it
was found. Such a fault stands before a semicolon that is passed with it, or before the closing
bracket of its parent, so that it still does not reach into what follows (`Tree.parse_layout`).
-/

namespace LetScript

/-! ## Spans -/

/-- A position is not after another one in the same source text. -/
instance : LE Position :=
  ⟨fun first second => first.file = second.file ∧ first.offset ≤ second.offset⟩

/-- The order of positions is transitive. -/
theorem Position.le_trans {first second third : Position} (h : first ≤ second)
    (h' : second ≤ third) : first ≤ third :=
  ⟨h.1.trans h'.1, Nat.le_trans h.2 h'.2⟩

/-- A span lies inside another one. -/
structure Span.Within (inner outer : Span) : Prop where
  start_le : outer.start ≤ inner.start
  stop_le : inner.stop ≤ outer.stop

/-- A span ends before another one starts, or where it starts. -/
def Span.Before (first second : Span) : Prop := first.stop ≤ second.start

/-- The spans of the parts of a node: of its parameters and of the nodes below it. -/
def Node.parts (node : Node) : List Span :=
  node.params.map Param.span ++ node.children.map Node.span

/-- The parts of a let are its items and its body. -/
theorem Node.parts_let_in (id : NodeId) (letToken inToken : Token) (items : List Item)
    (body : Tree) : (Node.tree (.letIn id letToken items inToken body)).parts =
      items.map Item.span ++ [body.span] := by
  have hitem : Node.span ∘ Node.ofBinding = Item.span := by
    funext item
    cases item <;> rfl
  simp only [Node.parts, Node.params, Node.children, List.map_nil, List.nil_append,
    List.map_append, List.map_map, hitem, List.map_cons]
  rfl

/-- The parts of a record are its items. -/
theorem Node.parts_record (id : NodeId) (opener closer : Token) (items : List Item) :
    (Node.tree (.record id opener items closer)).parts = items.map Item.span := by
  have hitem : Node.span ∘ Node.ofField = Item.span := by
    funext item
    cases item <;> rfl
  simp only [Node.parts, Node.params, Node.children, List.map_nil, List.nil_append,
    List.map_map, hitem]

/-- The span of a fault is that of the tokens that it has skipped, blank ones included, and these
stand together among the given tokens. If it has skipped none, its span is that of the token at
which it was found. -/
structure Fault.Placed (tokens : List Token) (fault : Fault) : Prop where
  among : fault.skipped <:+: tokens
  skipped : fault.skipped ≠ [] → Token.Spans fault.skipped fault.span
  found : fault.skipped = [] → fault.span = fault.token.span

/-- A fault has the span of the tokens that it has skipped. -/
theorem Fault.Placed.of_among {tokens : List Token} {fault : Fault}
    (h : fault.skipped <:+: tokens) : fault.Placed tokens := by
  refine ⟨h, fun hne => ?_, fun hnil => ?_⟩
  · unfold Fault.span
    cases hskipped : fault.skipped with
    | nil => exact absurd hskipped hne
    | cons first rest =>
        refine ⟨first, rest.getLast?.getD first, rfl, ?_, rfl⟩
        rw [List.getLast?_cons]
  · unfold Fault.span
    rw [hnil]

/-- The parts of a node stand inside it, one after the other, and a fault that the node or one of
its parameters is has its place. -/
structure Node.Laid (tokens : List Token) (node : Node) : Prop where
  fault : ∀ fault ∈ node.fault?, fault.Placed tokens
  params : ∀ param ∈ node.params, ∀ fault ∈ param.fault?, fault.Placed tokens
  within : ∀ part ∈ node.parts, part.Within node.span
  ordered : node.parts.Pairwise Span.Before

/-- A node that is not a fault. -/
theorem Node.placed_of_fault_none {tokens : List Token} {node : Node} (h : node.fault? = none) :
    ∀ fault ∈ node.fault?, fault.Placed tokens := by
  rw [h]
  exact fun _ hmem => absurd hmem (Option.not_mem_none _)

/-- A node without parameters. -/
theorem Node.placed_of_params_nil {tokens : List Token} {node : Node} (h : node.params = []) :
    ∀ param ∈ node.params, ∀ fault ∈ param.fault?, fault.Placed tokens := by
  rw [h]
  exact fun _ hmem => absurd hmem List.not_mem_nil

/-- A fault has no parts. -/
theorem Node.Laid.of_fault {tokens : List Token} {fault : Fault} (h : fault.Placed tokens) :
    Node.Laid tokens (.tree (.fault fault)) where
  fault := by
    intro other hother
    rw [← Option.some.inj hother]
    exact h
  params _ hmem := absurd hmem List.not_mem_nil
  within _ hmem := absurd hmem List.not_mem_nil
  ordered := .nil

/-- A node with one part, which is not a parameter. -/
theorem Node.Laid.of_part {tokens : List Token} {node : Node} {part : Span}
    (hparts : node.parts = [part]) (hwithin : part.Within node.span)
    (hfault : node.fault? = none) (hparams : node.params = []) : node.Laid tokens where
  fault := Node.placed_of_fault_none hfault
  params := Node.placed_of_params_nil hparams
  within := by
    rw [hparts]
    exact List.forall_mem_singleton.2 hwithin
  ordered := by
    rw [hparts]
    exact List.pairwise_singleton ..

namespace TokenStream

variable {stream : TokenStream}

/-- The tokens of a stream stand one after the other. -/
structure Ordered (stream : TokenStream) : Prop where
  width : ∀ pos < stream.body.size, (stream.get pos).span.start ≤ (stream.get pos).span.stop
  apart : ∀ first second, first < second → second < stream.body.size →
    (stream.get first).span.Before (stream.get second).span

/-- A span goes from one token to another, both of them between two positions of a stream. -/
def Lies (stream : TokenStream) (lo : Nat) (span : Span) (hi : Nat) : Prop :=
  ∃ first last, lo ≤ first ∧ first ≤ last ∧ last < hi ∧ last < stream.body.size ∧
    span = (stream.get first).span.through (stream.get last).span

/-- Spans lie between two positions, one after the other. -/
structure Spread (stream : TokenStream) (lo : Nat) (spans : List Span) (hi : Nat) : Prop where
  le : lo ≤ hi
  lies : ∀ span ∈ spans, stream.Lies lo span hi
  ordered : spans.Pairwise Span.Before

/-- The positions may be further apart. -/
theorem Lies.mono {lo lo' hi hi' : Nat} {span : Span} (h : stream.Lies lo span hi)
    (hlo : lo' ≤ lo) (hhi : hi ≤ hi') : stream.Lies lo' span hi' := by
  obtain ⟨first, last, hfirst, hle, hlast, hsize, hspan⟩ := h
  exact ⟨first, last, Nat.le_trans hlo hfirst, hle, Nat.lt_of_lt_of_le hlast hhi, hsize, hspan⟩

/-- Something lies only between different positions. -/
theorem Lies.lt {lo hi : Nat} {span : Span} (h : stream.Lies lo span hi) : lo < hi := by
  obtain ⟨first, last, hfirst, hle, hlast, -⟩ := h
  omega

/-- A token lies at its position. -/
theorem lies_get {pos : Nat} (h : pos < stream.body.size) :
    stream.Lies pos (stream.get pos).span (pos + 1) :=
  ⟨pos, pos, Nat.le_refl pos, Nat.le_refl pos, Nat.lt_succ_self pos, h, rfl⟩

/-- The span from one part to another. -/
theorem Lies.through {lo mid mid' hi : Nat} {span span' : Span} (h : stream.Lies lo span mid)
    (h' : stream.Lies mid' span' hi) (hle : mid ≤ mid') :
    stream.Lies lo (span.through span') hi := by
  obtain ⟨first, last, hfirst, hle₁, hlast, -, rfl⟩ := h
  obtain ⟨first', last', hfirst', hle₂, hlast', hsize, rfl⟩ := h'
  exact ⟨first, last', hfirst, by omega, hlast', hsize, rfl⟩

/-- A part that lies between two positions has a place of its own there. -/
theorem Lies.narrow {lo hi : Nat} {span : Span} (h : stream.Lies lo span hi) :
    ∃ first last, lo ≤ first ∧ last < hi ∧ last < stream.body.size ∧
      span = (stream.get first).span.through (stream.get last).span ∧
      stream.Lies first span (last + 1) := by
  obtain ⟨first, last, hfirst, hle, hlast, hsize, rfl⟩ := h
  exact ⟨first, last, hfirst, hlast, hsize, rfl, first, last, Nat.le_refl _, hle,
    Nat.lt_succ_self _, hsize, rfl⟩

/-- Nothing lies anywhere. -/
theorem Spread.nil {lo hi : Nat} (h : lo ≤ hi) : stream.Spread lo [] hi :=
  ⟨h, fun _ hmem => absurd hmem List.not_mem_nil, .nil⟩

/-- A single part. -/
theorem Spread.singleton {lo hi : Nat} {span : Span} (h : stream.Lies lo span hi) :
    stream.Spread lo [span] hi :=
  ⟨Nat.le_of_lt h.lt, List.forall_mem_singleton.2 h, List.pairwise_singleton ..⟩

/-- The positions may be further apart. -/
theorem Spread.mono {lo lo' hi hi' : Nat} {spans : List Span} (h : stream.Spread lo spans hi)
    (hlo : lo' ≤ lo) (hhi : hi ≤ hi') : stream.Spread lo' spans hi' :=
  ⟨Nat.le_trans hlo (Nat.le_trans h.le hhi), fun span hmem => (h.lies span hmem).mono hlo hhi,
    h.ordered⟩

namespace Ordered

variable (h : stream.Ordered)

include h

/-- What lies between earlier positions is before what lies between later ones. -/
theorem before {lo mid hi : Nat} {span span' : Span} (hspan : stream.Lies lo span mid)
    (hspan' : stream.Lies mid span' hi) : span.Before span' := by
  obtain ⟨first, last, -, -, hlast, -, rfl⟩ := hspan
  obtain ⟨first', last', hfirst', hle, -, hsize, rfl⟩ := hspan'
  exact h.apart last first' (by omega) (by omega)

/-- What lies between two tokens is inside the span from one to the other. -/
theorem within {first last : Nat} {span : Span} (hspan : stream.Lies first span (last + 1))
    (hsize : last < stream.body.size) :
    span.Within ((stream.get first).span.through (stream.get last).span) := by
  obtain ⟨first', last', hfirst, hle, hlast, hsize', rfl⟩ := hspan
  constructor
  · show (stream.get first).span.start ≤ (stream.get first').span.start
    rcases Nat.eq_or_lt_of_le hfirst with rfl | hlt
    · exact ⟨rfl, Nat.le_refl _⟩
    · exact Position.le_trans (h.width first (by omega)) (h.apart first first' hlt (by omega))
  · show (stream.get last').span.stop ≤ (stream.get last).span.stop
    rcases Nat.eq_or_lt_of_le (Nat.le_of_lt_succ hlast) with rfl | hlt
    · exact ⟨rfl, Nat.le_refl _⟩
    · exact Position.le_trans (h.apart last' last hlt hsize) (h.width last hsize)

/-- A part is inside the span from a token before it to its own end. -/
theorem within_through {first lo hi : Nat} {span : Span} (hspan : stream.Lies lo span hi)
    (hle : first ≤ lo) : span.Within ((stream.get first).span.through span) := by
  obtain ⟨start, last, hstart, hlast, hsize, heq, hlies⟩ := hspan.narrow
  have hwithin := h.within (hlies.mono (Nat.le_trans hle hstart) (Nat.le_refl _)) hsize
  rw [heq] at hwithin ⊢
  exact hwithin

/-- Parts after others. -/
theorem append {lo mid hi : Nat} {spans spans' : List Span} (hspans : stream.Spread lo spans mid)
    (hspans' : stream.Spread mid spans' hi) : stream.Spread lo (spans ++ spans') hi := by
  refine ⟨Nat.le_trans hspans.le hspans'.le, List.forall_mem_append.2 ⟨?_, ?_⟩, ?_⟩
  · exact fun span hmem => (hspans.lies span hmem).mono (Nat.le_refl _) hspans'.le
  · exact fun span hmem => (hspans'.lies span hmem).mono hspans.le (Nat.le_refl _)
  · refine List.pairwise_append.2 ⟨hspans.ordered, hspans'.ordered, ?_⟩
    exact fun span hmem span' hmem' => h.before (hspans.lies span hmem) (hspans'.lies span' hmem')

/-- A node whose parts are spread between its first and its last token. -/
theorem laid {node : Node} {first last : Nat}
    (hparts : stream.Spread first node.parts (last + 1)) (hsize : last < stream.body.size)
    (hspan : node.span = (stream.get first).span.through (stream.get last).span)
    (hfault : node.fault? = none)
    (hparams : ∀ param ∈ node.params, ∀ fault ∈ param.fault?, fault.Placed stream.tokens) :
    node.Laid stream.tokens where
  fault := Node.placed_of_fault_none hfault
  params := hparams
  within := by
    intro part hpart
    rw [hspan]
    exact h.within (hparts.lies part hpart) hsize
  ordered := hparts.ordered

end Ordered

/-- The tokens of a slice stand together in the stream. -/
theorem slice_among (stream : TokenStream) (start stop : Nat) :
    stream.slice start stop <:+: stream.tokens := by
  rw [slice, Array.toList_extract]
  exact ((List.take_prefix ..).isInfix.trans (List.drop_suffix ..).isInfix).trans
    (List.prefix_append ..).isInfix

/-- A slice that is not empty starts and ends with the tokens at its positions. -/
theorem spans_slice {start stop : Nat} {span : Span} (hlt : start < stop)
    (hsize : stop ≤ stream.body.size) (h : Token.Spans (stream.slice start stop) span) :
    span = (stream.get start).span.through (stream.get (stop - 1)).span := by
  obtain ⟨first, last, hfirst, hlast, rfl⟩ := h
  obtain ⟨before, rfl⟩ : ∃ before, stop = before + 1 := ⟨stop - 1, by omega⟩
  rw [← slice_append (Nat.le_succ start) hlt, slice_succ (Nat.lt_of_lt_of_le hlt hsize),
    List.singleton_append, List.head?_cons] at hfirst
  rw [← slice_append (Nat.le_of_lt_succ hlt) (Nat.le_succ before), slice_succ hsize,
    List.getLast?_concat] at hlast
  rw [Nat.add_sub_cancel, Option.some.inj hfirst, Option.some.inj hlast]

end TokenStream

/-! ## Faults -/

/-- A fault has skipped the tokens between two positions, or it was found at the second one. -/
structure Fault.Skips (stream : TokenStream) (fault : Fault) (lo hi : Nat) : Prop where
  le : lo ≤ hi
  lt_size : hi < stream.body.size
  skipped_eq : fault.skipped = stream.slice lo hi
  token_eq : fault.skipped = [] → fault.token = stream.get hi

namespace Fault.Skips

variable {stream : TokenStream} {fault : Fault} {lo hi : Nat}

/-- The skipped tokens stand together in the stream. -/
theorem placed (h : fault.Skips stream lo hi) : fault.Placed stream.tokens := by
  refine .of_among ?_
  rw [h.skipped_eq]
  exact stream.slice_among lo hi

/-- A fault that has skipped tokens lies between the two positions. -/
theorem lies (h : fault.Skips stream lo hi) (hlt : lo < hi) : stream.Lies lo fault.span hi := by
  have hne : fault.skipped ≠ [] := by
    rw [h.skipped_eq]
    exact List.ne_nil_of_mem
      (TokenStream.get_mem_slice (Nat.le_refl lo) hlt (Nat.lt_trans hlt h.lt_size))
  have hspans := h.placed.skipped hne
  rw [h.skipped_eq] at hspans
  have hspan := TokenStream.spans_slice hlt (Nat.le_of_lt h.lt_size) hspans
  exact ⟨lo, hi - 1, Nat.le_refl lo, by omega, by omega, Nat.lt_of_le_of_lt (Nat.sub_le ..)
    h.lt_size, hspan⟩

/-- A fault lies before or at the second position. -/
theorem lies_succ (h : fault.Skips stream lo hi) : stream.Lies lo fault.span (hi + 1) := by
  rcases Nat.eq_or_lt_of_le h.le with rfl | hlt
  · have hnil : fault.skipped = [] := by
      rw [h.skipped_eq]
      simp [TokenStream.slice]
    rw [h.placed.found hnil, h.token_eq hnil]
    exact TokenStream.lies_get h.lt_size
  · exact (h.lies hlt).mono (Nat.le_refl lo) (Nat.le_succ hi)

end Fault.Skips

/-- No construct waits for the end of input, apart from the whole program. -/
theorem Kind.ne_end_of_mem_terminators : ∀ kind ∈ Kind.terminators, kind ≠ .endOfInput := by
  decide

namespace Parser

variable {α β : Type} {stream : TokenStream}

/-! ## Where a parser leaves its results -/

/-- An outcome whose result is as required at the position that was reached. A fault without skipped
tokens was found there. -/
def Settled (stream : TokenStream) (post : α → Nat → Prop) (s : State) :
    EStateM.Result Fault State α → Prop
  | .ok result s' => Follows stream s s' ∧ post result s'.pos
  | .error fault s' =>
    Unwound stream s fault s' ∧ (fault.skipped = [] → fault.token = stream.get s'.pos)

/-- A parser that starts at a position gives results that are as required. -/
def Lays (stream : TokenStream) (pos : Nat) (p : Parse α) (post : α → Nat → Prop) : Prop :=
  ∀ s : State, s.Ready → s.pos = pos → Settled stream post s (p s)

variable {post : α → Nat → Prop} {pos : Nat}

/-- An outcome after a result, seen from the state before it. -/
theorem Settled.of_follows {s s' : State} (h : Follows stream s s')
    {outcome : EStateM.Result Fault State α} (houtcome : Settled stream post s' outcome) :
    Settled stream post s outcome := by
  cases outcome with
  | ok result s'' => exact ⟨h.trans houtcome.1, houtcome.2⟩
  | error fault s'' => exact ⟨.of_follows h houtcome.1, houtcome.2⟩

/-- A fault that has skipped nothing was raised where the stream still is. -/
theorem Unwound.pos_of_nil {s s' : State} {fault : Fault} (h : Unwound stream s fault s')
    (hs : s.Ready) (hnil : fault.skipped = []) : s'.pos = s.pos := by
  obtain ⟨entry, hentry, hskipped⟩ := h.innermost
  refine Nat.le_antisymm (Nat.le_of_not_lt fun hlt => ?_) h.passes.le
  have hsize := TokenStream.lt_size_of_kind_at_ne (h.passes.kind_ne s.pos (Nat.le_refl _) hlt)
  have hmem := TokenStream.get_mem_slice (hs.started entry hentry.mem) hlt hsize
  rw [← hskipped, hnil] at hmem
  exact List.not_mem_nil hmem

namespace Lays

/-- A parser after another one. -/
theorem bind {p : Parse α} {f : α → Parse β} {post' : β → Nat → Prop} (hp : Lays stream pos p post)
    (hf : ∀ value pos', post value pos' → Lays stream pos' (f value) post') :
    Lays stream pos (p >>= f) post' := by
  intro s hs hpos
  have hfirst := hp s hs hpos
  change Settled stream post' s (EStateM.bind p f s)
  unfold EStateM.bind
  cases hcase : p s with
  | ok value s' =>
      rw [hcase] at hfirst
      exact .of_follows hfirst.1 (hf value s'.pos hfirst.2 s' (hfirst.1.ready hs) rfl)
  | error fault s' =>
      rw [hcase] at hfirst
      exact hfirst

/-- Less may be required. -/
theorem mono {p : Parse α} {post' : α → Nat → Prop} (hp : Lays stream pos p post)
    (hpost : ∀ value pos', post value pos' → post' value pos') : Lays stream pos p post' := by
  intro s hs hpos
  have houtcome := hp s hs hpos
  revert houtcome
  cases p s with
  | ok result s' => exact fun houtcome => ⟨houtcome.1, hpost _ _ houtcome.2⟩
  | error fault s' => exact id

/-- A result without a step. -/
theorem pure {value : α} (h : post value pos) : Lays stream pos (Pure.pure value) post := by
  rintro s - rfl
  exact ⟨.refl stream s, h⟩

/-- A node takes a new identity. -/
theorem node {node : NodeId → α} (h : ∀ id, post (node id) pos) :
    Lays stream pos (freshId >>= fun id => Pure.pure (node id)) post := by
  rintro s - rfl
  exact ⟨⟨rfl, .refl stream s.pos⟩, h _⟩

/-- What is inside one more expression is laid out there. -/
theorem nested {p : Parse α} (hp : Lays stream pos p post) : Lays stream pos (nested p) post := by
  intro s hs hpos
  have hfollows := Follows.nesting stream s (s.nesting + 1)
  refine outcome_nested (fun _ s' nesting ⟨houtcome, hrest⟩ => ?_)
    (fun _ _ nesting ⟨houtcome, hrest⟩ => ⟨houtcome.nesting nesting, hrest⟩)
    (.of_follows hfollows (hp _ (hfollows.ready hs) hpos))
  exact ⟨houtcome.trans (.nesting stream s' nesting), hrest⟩

/-- The current token is looked at before the rest. -/
theorem current_bind {f : Token → Parse α}
    (hf : Lays stream (stream.significant pos) (f (stream.next pos)) post) :
    Lays stream pos (current stream >>= f) post := by
  rintro s hs rfl
  have hfollows := Follows.significant stream s
  exact .of_follows hfollows (hf _ (hfollows.ready hs) rfl)

/-- The kind of the current token is looked at before the rest. -/
theorem current_kind_bind {f : Kind → Parse α}
    (hf : Lays stream (stream.significant pos) (f (stream.next pos).kind) post) :
    Lays stream pos (currentKind stream >>= f) post := by
  rintro s hs rfl
  have hfollows := Follows.significant stream s
  exact .of_follows hfollows (hf _ (hfollows.ready hs) rfl)

/-- The current token is passed before the rest. -/
theorem advance_bind {f : Token → Parse α} (hend : (stream.next pos).kind ≠ .endOfInput)
    (hf : Lays stream (stream.significant pos + 1) (f (stream.next pos)) post) :
    Lays stream pos (advance stream >>= f) post := by
  rintro s hs rfl
  have hfollows : Follows stream s { s with pos := stream.significant s.pos + 1 } :=
    ⟨rfl, (stream.passes_significant s.pos).trans (.succ hend)⟩
  change Settled stream post s (EStateM.bind (advance stream) f s)
  rw [EStateM.bind, advance_of_ne hend]
  exact .of_follows hfollows (hf _ (hfollows.ready hs) rfl)

/-- A fault raised at the current token. -/
theorem raise {cause : Cause} {token : Token} (htoken : token = stream.get pos) :
    Lays stream pos (Parser.raise stream cause token) post := by
  rintro s hs rfl
  have hunwound : Unwound stream s _ _ :=
    raise_parses cause token (fun _ (_ : α) _ _ => False) s hs
  refine ⟨hunwound, fun hnil => htoken.trans ?_⟩
  rw [hunwound.pos_of_nil hs hnil]

/-- A fault raised after looking at the current token. -/
theorem raise_here {cause : Cause} : Lays stream pos (raiseHere stream cause) post :=
  current_bind (raise rfl)

/-- A token of a given kind is passed before the rest. -/
theorem expect_bind {kind : Kind} (hend : kind ≠ .endOfInput) {f : Token → Parse α}
    (hf : (stream.next pos).kind = kind →
      Lays stream (stream.significant pos + 1) (f (stream.next pos)) post) :
    Lays stream pos (expect stream kind >>= f) post := by
  have hexpect : Lays stream pos (expect stream kind) fun token pos' =>
      (stream.next pos).kind = kind ∧ token = stream.next pos ∧
        pos' = stream.significant pos + 1 := by
    refine current_bind ?_
    split
    next hkind =>
      rw [← stream.next_significant] at hkind
      have hadvance : Lays stream (stream.significant pos) (advance stream >>= Pure.pure)
          fun token pos' => (stream.next pos).kind = kind ∧ token = stream.next pos ∧
            pos' = stream.significant pos + 1 := by
        refine advance_bind (hkind ▸ hend) (pure ?_)
        rw [stream.next_significant] at hkind ⊢
        rw [stream.significant_significant]
        exact ⟨hkind, rfl, rfl⟩
      exact hadvance
    next => exact raise rfl
  refine hexpect.bind ?_
  rintro _ _ ⟨hkind, rfl, rfl⟩
  exact hf hkind

/-- The end of input is found, or a fault is raised. -/
theorem expect_end : Lays stream pos (expect stream .endOfInput) fun _ _ => True := by
  refine current_bind ?_
  split
  next hkind =>
    rintro s - hpos
    have hnext : (stream.get (stream.significant s.pos)).kind = .endOfInput := by
      rw [hpos, stream.significant_significant]
      exact hkind
    simp only [advance, if_pos hnext]
    exact ⟨.significant stream s, trivial⟩
  next => exact raise rfl

/-- A part that a fault may stand for. -/
theorem recovering {kind : Kind} (hkind : kind ∈ Kind.terminators) {body : Parse α}
    {ofFault : Fault → α} (hbody : Lays stream pos body post)
    (hfault : ∀ fault pos', stream.kindAt pos' = kind → fault.Skips stream pos pos' →
      post (ofFault fault) pos') :
    Lays stream pos (recovering stream kind ofFault body) post := by
  rintro s hs rfl
  have hblank := Kind.ne_blank_of_mem_terminators kind hkind
  have houtcome := hbody { s with awaited := ⟨kind, s.pos⟩ :: s.awaited } (hs.await hblank) rfl
  cases hcase : body { s with awaited := ⟨kind, s.pos⟩ :: s.awaited } with
  | ok result s' =>
      rw [hcase] at houtcome
      obtain ⟨hresult, hfollows⟩ := recovering_of_ok ofFault hcase houtcome.1
      rw [hresult]
      exact ⟨hfollows, houtcome.2⟩
  | error fault s' =>
      rw [hcase] at houtcome
      obtain ⟨hunwound, htoken⟩ := houtcome
      obtain ⟨htaken, hraised⟩ := recovering_of_error hblank ofFault hs hcase hunwound
      by_cases hstop : stream.kindAt s'.pos = kind
      · obtain ⟨hresult, hfollows, hskipped⟩ := htaken hstop
        have hsize : s'.pos < stream.body.size := by
          refine TokenStream.lt_size_of_kind_at_ne ?_
          rw [hstop]
          exact Kind.ne_end_of_mem_terminators kind hkind
        rw [hresult]
        exact ⟨hfollows, hfault fault s'.pos hstop ⟨hfollows.passes.le, hsize, hskipped, htoken⟩⟩
      · obtain ⟨hresult, hunwound⟩ := hraised hstop
        rw [hresult]
        exact ⟨hunwound, htoken⟩

/-- Items up to a terminator. Each lies after those before it, and has a property. -/
theorem items_until (hordered : stream.Ordered) {terminator : Kind}
    (hterminator : terminator ∈ Kind.terminators) {item : Parse α} (ofFault : Fault → α)
    (span : α → Span) (Q : α → Prop)
    (hitem : ∀ pos, Lays stream pos item fun found pos' =>
      stream.Lies pos (span found) pos' ∧ Q found)
    (hfault : ∀ fault, span (ofFault fault) = fault.span)
    (hQ : ∀ fault, fault.Placed stream.tokens → Q (ofFault fault)) {start : Nat}
    {items : List α} (hitems : stream.Spread start (items.reverse.map span) pos)
    (hall : ∀ found ∈ items, Q found) :
    Lays stream pos (itemsUntil stream terminator ofFault item items) fun all pos' =>
      stream.Spread start (all.map span) pos' ∧ ∀ found ∈ all, Q found := by
  have hstep (s : State) (hs : s.Ready)
      (hkind : stream.kindAt (stream.significant s.pos) ≠ terminator) :
      Settled stream (fun found pos' => stream.Lies s.pos (span found) pos' ∧ Q found) s
        (Parser.recovering stream terminator ofFault item
          { s with pos := stream.significant s.pos }) := by
    have hfollows := Follows.significant stream s
    refine .of_follows hfollows (recovering hterminator ((hitem _).mono ?_) ?_ _
      (hfollows.ready hs) rfl)
    · rintro found pos' ⟨hlies, hfound⟩
      exact ⟨hlies.mono (stream.le_significant s.pos) (Nat.le_refl pos'), hfound⟩
    · intro fault pos' hstop hskips
      have hlt : stream.significant s.pos < pos' := by
        refine Nat.lt_of_le_of_ne hskips.le ?_
        rintro rfl
        exact hkind hstop
      rw [hfault]
      exact ⟨(hskips.lies hlt).mono (stream.le_significant s.pos) (Nat.le_refl pos'),
        hQ fault hskips.placed⟩
  -- the items found so far are kept in reverse
  have hfound {found : α} {items : List α} {pos pos' : Nat}
      (hitems : stream.Spread start (items.reverse.map span) pos)
      (hlies : stream.Lies pos (span found) pos') :
      stream.Spread start ((found :: items).reverse.map span) pos' := by
    rw [List.reverse_cons, List.map_append]
    exact hordered.append hitems (.singleton hlies)
  rintro s hs rfl
  fun_induction itemsUntil stream terminator ofFault item items s with
  | case1 items s pos hkind =>
      refine ⟨.significant stream s, hitems.mono (Nat.le_refl _) (stream.le_significant s.pos), ?_⟩
      exact fun found hmem => hall found (List.mem_reverse.1 hmem)
  | case2 items s pos hkind fault s' hcase =>
      have houtcome := hstep s hs hkind
      rw [hcase] at houtcome
      exact houtcome
  | case3 items s pos hkind found s' hcase _ ih =>
      have houtcome := hstep s hs hkind
      rw [hcase] at houtcome
      obtain ⟨hfollows, hlies, hprop⟩ := houtcome
      exact .of_follows hfollows (ih (List.forall_mem_cons.2 ⟨hprop, hall⟩) (hfollows.ready hs)
        (hfound hitems hlies))
  | case4 items s pos hkind found s' hcase _ =>
      have houtcome := hstep s hs hkind
      rw [hcase] at houtcome
      obtain ⟨hfollows, hlies, hprop⟩ := houtcome
      refine ⟨hfollows, hfound hitems hlies, fun other hmem => ?_⟩
      exact List.forall_mem_cons.2 ⟨hprop, hall⟩ other (List.mem_reverse.1 hmem)

end Lays

/-! ## The layout of an expression -/

/-- A tree lies between two positions, and its nodes are laid out as they should be. -/
def Fits (stream : TokenStream) (lo : Nat) (tree : Tree) (hi : Nat) : Prop :=
  stream.Lies lo tree.span hi ∧ tree.Every (Node.Laid stream.tokens)

/-- An item lies between two positions, and its nodes are laid out as they should be. -/
def ItemFits (stream : TokenStream) (toNode : Item → Node) (lo : Nat) (item : Item) (hi : Nat) :
    Prop :=
  stream.Lies lo item.span hi ∧ item.Every toNode (Node.Laid stream.tokens)

/-- An item may be followed by more. -/
theorem ItemFits.mono {toNode : Item → Node} {lo hi hi' : Nat} {item : Item}
    (h : ItemFits stream toNode lo item hi) (hle : hi ≤ hi') :
    ItemFits stream toNode lo item hi' :=
  ⟨h.1.mono (Nat.le_refl lo) hle, h.2⟩

/-- The place of the token that comes next. -/
theorem next_lies {pos : Nat} (h : (stream.next pos).kind ≠ .endOfInput) :
    stream.Lies pos (stream.next pos).span (stream.significant pos + 1) :=
  (TokenStream.lies_get (TokenStream.lt_size_of_kind_at_ne h)).mono (stream.le_significant pos)
    (Nat.le_refl _)

section Layers

variable {operand : Power → Parse Tree} {toNode : Item → Node} (hordered : stream.Ordered)

include hordered

/-- A node without parts. -/
theorem leaf_fits (tree : Tree) {pos : Nat} (hend : (stream.next pos).kind ≠ .endOfInput)
    (hspan : tree.span = (stream.next pos).span) (hfault : (Node.tree tree).fault? = none)
    (hparts : (Node.tree tree).parts = []) (hparams : (Node.tree tree).params = []) :
    stream.Lies pos tree.span (stream.significant pos + 1) ∧
      Node.Laid stream.tokens (.tree tree) := by
  have hspread : stream.Spread (stream.significant pos) (Node.tree tree).parts
      (stream.significant pos + 1) := by
    rw [hparts]
    exact .nil (Nat.le_succ _)
  rw [hspan]
  exact ⟨next_lies hend, hordered.laid hspread (TokenStream.lt_size_of_kind_at_ne hend) hspan hfault
    (Node.placed_of_params_nil hparams)⟩

/-- A node from its first token to a part at its end, with the other parts between them. -/
theorem body_fits (tree : Tree) {body : Tree} {before : List Span} {pos mid lo hi : Nat}
    (hend : (stream.next pos).kind ≠ .endOfInput)
    (hbefore : stream.Spread (stream.significant pos + 1) before mid) (hle : mid ≤ lo)
    (hbody : stream.Lies lo body.span hi)
    (hspan : tree.span = (stream.next pos).span.through body.span)
    (hparts : (Node.tree tree).parts = before ++ [body.span])
    (hfault : (Node.tree tree).fault? = none)
    (hparams : ∀ param ∈ (Node.tree tree).params, ∀ fault ∈ param.fault?,
      fault.Placed stream.tokens) :
    stream.Lies pos tree.span hi ∧ Node.Laid stream.tokens (.tree tree) := by
  obtain ⟨first, last, hfirst, hlast, hsize, heq, hlies⟩ := hbody.narrow
  have hspread : stream.Spread (stream.significant pos) (Node.tree tree).parts (last + 1) := by
    rw [hparts]
    exact hordered.append (hbefore.mono (Nat.le_succ _) (Nat.le_trans hle hfirst))
      (.singleton hlies)
  refine ⟨?_, hordered.laid hspread hsize ?_ hfault hparams⟩
  · rw [hspan]
    exact (next_lies hend).through hbody (Nat.le_trans hbefore.le hle)
  · show tree.span = _
    rw [hspan, heq]
    rfl

/-- A node from its first token to its last one, with its parts between them. -/
theorem closed_fits (tree : Tree) {pos mid : Nat} (hend : (stream.next pos).kind ≠ .endOfInput)
    (hclose : (stream.next mid).kind ≠ .endOfInput)
    (hparts : stream.Spread (stream.significant pos + 1) (Node.tree tree).parts
      (stream.significant mid + 1))
    (hlt : stream.significant pos < stream.significant mid)
    (hspan : tree.span = (stream.next pos).span.through (stream.next mid).span)
    (hfault : (Node.tree tree).fault? = none) (hparams : (Node.tree tree).params = []) :
    stream.Lies pos tree.span (stream.significant mid + 1) ∧
      Node.Laid stream.tokens (.tree tree) := by
  have hsize : stream.significant mid < stream.body.size := TokenStream.lt_size_of_kind_at_ne hclose
  refine ⟨?_, hordered.laid (hparts.mono (Nat.le_succ _) (Nat.le_refl _)) hsize hspan hfault
    (Node.placed_of_params_nil hparams)⟩
  rw [hspan]
  exact (next_lies hend).through (TokenStream.lies_get hsize) hlt

/-- A node from one part to another. -/
theorem pair_fits (tree : Tree) {left right : Tree} {lo mid mid' hi : Nat}
    (hleft : stream.Lies lo left.span mid) (hright : stream.Lies mid' right.span hi)
    (hle : mid ≤ mid') (hspan : tree.span = left.span.through right.span)
    (hparts : (Node.tree tree).parts = [left.span, right.span])
    (hfault : (Node.tree tree).fault? = none) (hparams : (Node.tree tree).params = []) :
    stream.Lies lo tree.span hi ∧ Node.Laid stream.tokens (.tree tree) := by
  obtain ⟨first, middle, -, hmiddle, -, heq, hlies⟩ := hleft.narrow
  obtain ⟨middle', last, hmiddle', -, hsize, heq', hlies'⟩ := hright.narrow
  have hspread : stream.Spread first (Node.tree tree).parts (last + 1) := by
    rw [hparts]
    exact hordered.append (.singleton hlies)
      (.singleton (hlies'.mono (show middle + 1 ≤ middle' by omega) (Nat.le_refl _)))
  refine ⟨?_, hordered.laid hspread hsize ?_ hfault (Node.placed_of_params_nil hparams)⟩
  · rw [hspan]
    exact hleft.through hright hle
  · show tree.span = _
    rw [hspan, heq, heq']
    rfl

variable (hoperand : ∀ power pos, Lays stream pos (operand power) (Fits stream pos))

include hoperand

section Items

variable (hnode : ∀ id name equals value, value.span.Within (name.span.through value.span) →
    (toNode (.definition id name equals value)).Laid stream.tokens)
  (hfault : ∀ fault, fault.Placed stream.tokens → (toNode (.fault fault)).Laid stream.tokens)

include hnode

/-- A definition lies after the position where it starts. -/
theorem definition_lays (power : Power) (pos : Nat) :
    Lays stream pos (definition stream operand power) (ItemFits stream toNode pos) := by
  refine .expect_bind (by decide) fun hname => .expect_bind (by decide) fun _ =>
    (hoperand power _).bind fun value pos' hvalue => .node fun id => ?_
  obtain ⟨hlies, hnodes⟩ := hvalue
  have hle := stream.le_significant (stream.significant pos + 1)
  refine ⟨(next_lies (by rw [hname]; decide)).through hlies (Nat.le_succ_of_le hle), ?_, hnodes⟩
  exact hnode id _ _ value (hordered.within_through hlies (by omega))

include hfault

/-- A definition, or a fault that stands for it, lies after the position where it starts. It lies
before the position that is reached, unless a semicolon is there. -/
theorem recovered_definition_lays (power : Power) (pos : Nat) :
    Lays stream pos (recovering stream .semicolon .fault (definition stream operand power))
      fun item pos' => ItemFits stream toNode pos item (pos' + 1) ∧
        (stream.kindAt pos' ≠ .semicolon → ItemFits stream toNode pos item pos') := by
  refine .recovering (by decide) ?_ fun fault pos' hkind hskips => ⟨?_, absurd hkind⟩
  · exact (definition_lays hordered hoperand hnode power pos).mono fun _ pos' hitem =>
      ⟨hitem.mono (Nat.le_succ pos'), fun _ => hitem⟩
  · exact ⟨hskips.lies_succ, hfault fault hskips.placed⟩

/-- An item of a let lies before what follows its semicolon. Without a semicolon it lies before
`in`. -/
theorem let_item_lays (pos : Nat) :
    Lays stream pos (letItem stream operand) (ItemFits stream toNode pos) := by
  refine (recovered_definition_lays hordered hoperand hnode hfault .letIn pos).bind
    fun item pos' hitem => .current_kind_bind ?_
  have hle := stream.le_significant pos'
  split
  next =>
    have hle' := stream.le_significant (stream.significant pos')
    exact .expect_bind (by decide) fun _ => .pure (hitem.1.mono (by omega))
  next hin =>
    refine .pure ((hitem.2 fun hkind => ?_).mono hle)
    have hblank : stream.kindAt pos' ≠ .blank := by rw [hkind]; decide
    rw [TokenStream.next_of_ne hblank] at hin
    exact absurd (hkind.symm.trans (Decidable.not_not.1 hin)) (by decide)

/-- An item of a record lies before what follows its semicolon. -/
theorem record_item_lays (pos : Nat) :
    Lays stream pos (recordItem stream operand) (ItemFits stream toNode pos) :=
  (recovered_definition_lays hordered hoperand hnode hfault .record pos).bind
    fun _ pos' hitem => .expect_bind (by decide) fun _ =>
      .pure (hitem.1.mono (Nat.succ_le_succ (stream.le_significant pos')))

omit hoperand hnode in
/-- Items up to a terminator lie one after the other. -/
theorem items_lay {terminator : Kind} (hterminator : terminator ∈ Kind.terminators)
    {item : Parse Item} (hitem : ∀ pos, Lays stream pos item (ItemFits stream toNode pos))
    (pos : Nat) :
    Lays stream pos (itemsUntil stream terminator .fault item [])
      fun items pos' => stream.Spread pos (items.map Item.span) pos' ∧
        ∀ item ∈ items, item.Every toNode (Node.Laid stream.tokens) :=
  .items_until hordered hterminator Item.fault Item.span _ hitem (fun _ => rfl) hfault
    (.nil (Nat.le_refl pos)) fun _ hmem => absurd hmem List.not_mem_nil

end Items

/-- The items of a let lie one after the other. -/
theorem let_items_lay (pos : Nat) :
    Lays stream pos (itemsUntil stream .inWord .fault (letItem stream operand) [])
      fun items pos' => stream.Spread pos (items.map Item.span) pos' ∧
        ∀ item ∈ items, item.Every Node.ofBinding (Node.Laid stream.tokens) :=
  items_lay hordered (fun _ => .of_fault) (by decide) (let_item_lays hordered hoperand
    (fun _ _ _ _ hwithin => .of_part rfl hwithin rfl rfl) fun _ => .of_fault) pos

/-- The items of a record lie one after the other. -/
theorem record_items_lay (pos : Nat) :
    Lays stream pos (itemsUntil stream .closeCurly .fault (recordItem stream operand) [])
      fun items pos' => stream.Spread pos (items.map Item.span) pos' ∧
        ∀ item ∈ items, item.Every Node.ofField (Node.Laid stream.tokens) :=
  items_lay hordered (fun _ => .of_fault) (by decide) (record_item_lays hordered hoperand
    (fun _ _ _ _ hwithin => .of_part rfl hwithin rfl rfl) fun _ => .of_fault) pos

omit hoperand in
/-- The parameters of a function lie one after the other. -/
theorem params_lay (pos : Nat) :
    Lays stream pos (itemsUntil stream .arrow .fault (param stream) [])
      fun params pos' => stream.Spread pos (params.map Param.span) pos' ∧
        ∀ param ∈ params, ∀ fault ∈ param.fault?, fault.Placed stream.tokens := by
  refine .items_until hordered (by decide) Param.fault Param.span _ (fun pos => ?_) (fun _ => rfl)
    (fun fault hplaced other hother => ?_) (.nil (Nat.le_refl pos))
    fun _ hmem => absurd hmem List.not_mem_nil
  · exact .expect_bind (by decide) fun hkind => .node fun id =>
      ⟨next_lies (by rw [hkind]; decide), fun _ hmem => absurd hmem (Option.not_mem_none _)⟩
  · rw [← Option.some.inj hother]
    exact hplaced

/-- An expression that starts with a token lies after the position where it starts. -/
theorem parse_prefix_lays {rule : PrefixRule} {pos : Nat}
    (hrule : Grammar.standard.prefixRule (stream.next pos).kind = some rule) :
    Lays stream pos (parsePrefix stream operand rule) (Fits stream pos) := by
  have hend := Grammar.kind_ne_end hrule
  have hfirst := next_lies hend
  have hsize : stream.significant pos < stream.body.size := TokenStream.lt_size_of_kind_at_ne hend
  cases rule with
  | identifier =>
      exact .advance_bind hend <| .node fun id =>
        (leaf_fits hordered _ hend rfl rfl rfl rfl).imp_right Tree.every_identifier.2
  | literal =>
      refine .current_bind ?_
      split
      · exact .raise rfl
      · next value _ =>
          rw [← stream.next_significant] at hend
          refine .advance_bind hend <| .node fun id => ?_
          obtain ⟨hlies, hlaid⟩ := leaf_fits hordered
            (.literal id (stream.next (stream.significant pos)) value) hend rfl rfl rfl rfl
          exact ⟨hlies.mono (stream.le_significant pos) (Nat.le_refl _), Tree.every_literal.2 hlaid⟩
  | invalid =>
      refine .advance_bind hend <| .node fun id =>
        ⟨hfirst, Tree.every_fault.2 (.of_fault (.of_among ?_))⟩
      have hamong := stream.slice_among (stream.significant pos) (stream.significant pos + 1)
      rw [TokenStream.slice_succ hsize] at hamong
      exact hamong
  | placeholder =>
      exact .advance_bind hend <| .node fun id =>
        (leaf_fits hordered _ hend rfl rfl rfl rfl).imp_right Tree.every_placeholder.2
  | function =>
      refine .advance_bind hend <| (params_lay hordered _).bind fun params pos₁ hparams =>
        .expect_bind (by decide) fun _ => (hoperand .function _).bind fun body pos₂ hbody =>
        .node fun id => ?_
      obtain ⟨hspread, hfaults⟩ := hparams
      have hle := stream.le_significant pos₁
      obtain ⟨hlies, hlaid⟩ := body_fits hordered
        (.function id (stream.next pos) params (stream.next pos₁) body) hend hspread
        (Nat.le_succ_of_le hle) hbody.1 rfl rfl rfl hfaults
      exact ⟨hlies, Tree.every_function.2 ⟨hlaid, hbody.2⟩⟩
  | letIn =>
      refine .advance_bind hend <| (let_items_lay hordered hoperand _).bind fun items pos₁ hitems =>
        .expect_bind (by decide) fun _ => (hoperand .letIn _).bind fun body pos₂ hbody =>
        .node fun id => ?_
      obtain ⟨hspread, hnodes⟩ := hitems
      have hle := stream.le_significant pos₁
      obtain ⟨hlies, hlaid⟩ := body_fits hordered
        (.letIn id (stream.next pos) items (stream.next pos₁) body) hend hspread
        (Nat.le_succ_of_le hle) hbody.1 rfl (Node.parts_let_in ..) rfl
        (Node.placed_of_params_nil rfl)
      exact ⟨hlies, Tree.every_let_in.2 ⟨hlaid, hnodes, hbody.2⟩⟩
  | record =>
      refine .advance_bind hend <| (record_items_lay hordered hoperand _).bind
        fun items pos₁ hitems => .expect_bind (by decide) fun hclose => .node fun id => ?_
      obtain ⟨hspread, hnodes⟩ := hitems
      have hle := stream.le_significant pos₁
      rw [← Node.parts_record id (stream.next pos) (stream.next pos₁)] at hspread
      obtain ⟨hlies, hlaid⟩ := closed_fits hordered
        (.record id (stream.next pos) items (stream.next pos₁)) hend (by rw [hclose]; decide)
        (hspread.mono (Nat.le_refl _) (Nat.le_succ_of_le hle)) (Nat.le_trans hspread.le hle)
        rfl rfl rfl
      exact ⟨hlies, Tree.every_record.2 ⟨hlaid, hnodes⟩⟩
  | group =>
      -- a fault that has skipped nothing lies at the closing parenthesis
      have hinner : Lays stream (stream.significant pos + 1)
          (recovering stream .closeParen .fault (operand .lowest)) fun inner pos₁ =>
            stream.Lies (stream.significant pos + 1) inner.span (pos₁ + 1) ∧
              inner.Every (Node.Laid stream.tokens) := by
        refine .recovering (by decide) ((hoperand .lowest _).mono fun inner pos₁ hinner => ?_)
          fun fault pos₁ _ hskips => ?_
        · exact ⟨hinner.1.mono (Nat.le_refl _) (Nat.le_succ pos₁), hinner.2⟩
        · exact ⟨hskips.lies_succ, Tree.every_fault.2 (.of_fault hskips.placed)⟩
      refine .advance_bind hend <| hinner.bind fun inner pos₁ hinner =>
        .expect_bind (by decide) fun hclose => .node fun id => ?_
      have hle := stream.le_significant pos₁
      have hlt := hinner.1.lt
      obtain ⟨hlies, hlaid⟩ := closed_fits hordered
        (.paren id (stream.next pos) inner (stream.next pos₁)) hend (by rw [hclose]; decide)
        (.singleton (hinner.1.mono (Nat.le_refl _) (Nat.succ_le_succ hle))) (by omega) rfl rfl rfl
      exact ⟨hlies, Tree.every_paren.2 ⟨hlaid, hinner.2⟩⟩
  | sign =>
      refine .advance_bind hend <| (hoperand .additive _).bind fun inner pos₁ hinner =>
        .node fun id => ?_
      obtain ⟨hlies, hlaid⟩ := body_fits hordered (.unary id (stream.next pos) inner) hend
        (.nil (Nat.le_refl _)) (Nat.le_refl _) hinner.1 rfl rfl rfl
        (Node.placed_of_params_nil rfl)
      exact ⟨hlies, Tree.every_unary.2 ⟨hlaid, hinner.2⟩⟩

/-- What continues an expression lies after it. -/
theorem parse_infix_lays {power : Power} {rule : InfixRule} {pos : Nat}
    (hrule : Grammar.standard.infixRule (stream.next pos).kind = some (power, rule)) :
    Lays stream pos (parseInfix stream operand power rule) fun continuation pos' =>
      ∀ lo left, Fits stream lo left pos → Fits stream lo (continuation.attach left) pos' := by
  cases rule with
  | binary =>
      refine .advance_bind (Grammar.infix_kind_ne_end hrule) <| (hoperand power _).bind
        fun right pos₁ hright => .node fun id lo left hleft => ?_
      obtain ⟨hlies, hlaid⟩ := pair_fits hordered (.binary id left (stream.next pos) right) hleft.1
        hright.1 (Nat.le_succ_of_le (stream.le_significant pos)) rfl rfl rfl rfl
      exact ⟨hlies, Tree.every_binary.2 ⟨hlaid, hleft.2, hright.2⟩⟩
  | apply =>
      refine (hoperand .apply _).bind fun argument pos₁ hargument =>
        .node fun id lo left hleft => ?_
      obtain ⟨hlies, hlaid⟩ := pair_fits hordered (.apply id left argument) hleft.1 hargument.1
        (Nat.le_refl pos) rfl rfl rfl rfl
      exact ⟨hlies, Tree.every_apply.2 ⟨hlaid, hleft.2, hargument.2⟩⟩

/-- A continued expression lies after the position where its left operand starts. -/
theorem continue_from_lays (floor : Power) (left : Tree) (height lo : Nat) {pos : Nat}
    (hleft : Fits stream lo left pos) :
    Lays stream pos (continueFrom stream .standard operand floor left height) (Fits stream lo) := by
  induction left, height using continueFrom.induct generalizing pos with
  | case1 left height ih =>
      have hleft' : Fits stream lo left (stream.significant pos) :=
        ⟨hleft.1.mono (Nat.le_refl lo) (stream.le_significant pos), hleft.2⟩
      rw [continueFrom]
      refine .current_kind_bind ?_
      split
      · exact .pure hleft'
      · next power rule hrule =>
          split
          · rw [← stream.next_significant] at hrule
            refine (parse_infix_lays hordered hoperand hrule).bind
              fun continuation pos' hattach => ?_
            by_cases hle : max height continuation.height + 1 ≤ maxHeight
            · simp only [dif_pos hle]
              exact ih continuation hle (hattach lo left hleft')
            · simp only [dif_neg hle]
              exact .raise_here
          · exact .pure hleft'

end Layers

/-- Every expression that is parsed lies after the position where it starts. -/
theorem expression_lays (hordered : stream.Ordered) (room : Nat) (floor : Power) (pos : Nat) :
    Lays stream pos (expression stream .standard room floor) (Fits stream pos) := by
  -- operands are parsed with less room, whatever power they are parsed above
  induction room generalizing floor pos with
  | zero => exact .raise_here
  | succ room ih =>
      refine .nested (.current_bind ?_)
      split
      · exact .raise rfl
      · next rule hrule =>
          rw [← stream.next_significant] at hrule
          refine (parse_prefix_lays hordered ih hrule).bind fun left pos' hleft =>
            continue_from_lays hordered ih floor left left.height pos ?_
          exact ⟨hleft.1.mono (stream.le_significant pos) (Nat.le_refl pos'), hleft.2⟩

/-- The nodes of a whole program are laid out as they should be. -/
theorem program_lays (hordered : stream.Ordered) :
    Lays stream 0 (program stream .standard) fun tree _ =>
      tree.Every (Node.Laid stream.tokens) :=
  (expression_lays hordered maxNesting .lowest 0).bind fun _ _ htree =>
    Lays.expect_end.bind fun _ _ _ => .pure htree.2

end Parser

/-- The nodes of a parsed tree are laid out as they should be, if the tokens stand one after the
other. -/
theorem Tree.laid_parse {tokens : Array Token} (hordered : (TokenStream.ofTokens tokens).Ordered) :
    (Tree.parse tokens).Every (Node.Laid (TokenStream.ofTokens tokens).tokens) := by
  have houtcome := Parser.program_lays hordered {} Parser.State.ready_initial rfl
  unfold Tree.parse Tree.parseWith
  split
  next tree s' hcase =>
    rw [hcase] at houtcome
    exact houtcome.2
  next fault s' hcase =>
    rw [hcase] at houtcome
    refine Tree.every_fault.2 (.of_fault (.of_among ?_))
    rw [houtcome.1.of_initial.2]
    exact TokenStream.slice_among ..

/-! ## The tokens of a source -/

/-- All tokens of a text name the file of its start. -/
theorem Token.Cut.file_eq {start : Position} {text : List Char} {tokens : List Token}
    (h : Cut start text tokens) :
    ∀ token ∈ tokens, token.span.start.file = start.file ∧ token.span.stop.file = start.file := by
  induction h with
  | done start => exact List.forall_mem_singleton.2 ⟨rfl, rfl⟩
  | @token start c text token tokens htoken _ ih =>
      have hstop : token.span.stop.file = start.file := by rw [htoken]; rfl
      rw [hstop] at ih
      exact List.forall_mem_cons.2 ⟨⟨by rw [htoken]; rfl, hstop⟩, ih⟩

/-- The stream of a source has just its tokens. -/
theorem TokenStream.tokens_read (source file : String) :
    (ofTokens (Token.read source file)).tokens = (Token.read source file).toList := by
  obtain ⟨front, last, htokens, hlast, -⟩ := (Token.read_arranged source file).closed
  exact tokens_of_tokens htokens hlast

/-- The tokens of a source stand one after the other. -/
theorem TokenStream.ordered_read (source file : String) :
    (ofTokens (Token.read source file)).Ordered := by
  have hcut := Token.read_cut source file
  rw [← tokens_read] at hcut
  generalize ofTokens (Token.read source file) = stream at hcut
  have hfile (pos : Nat) := hcut.file_eq _ (stream.get_mem pos)
  have hbefore {first second : Nat} (hlt : first < second) (hsize : second ≤ stream.body.size) :
      Token.Before (stream.get first) (stream.get second) := by
    obtain ⟨hfirst, heq⟩ := List.getElem?_eq_some_iff.1
      (get_elem_tokens (Nat.le_trans (Nat.le_of_lt hlt) hsize))
    obtain ⟨hsecond, heq'⟩ := List.getElem?_eq_some_iff.1 (get_elem_tokens hsize)
    have hpair := List.pairwise_iff_getElem.1 hcut.ordered.2 first second hfirst hsecond hlt
    rwa [heq, heq'] at hpair
  refine ⟨fun pos hpos => ?_, fun first second hlt hsize => ?_⟩
  · exact ⟨(hfile pos).1.trans (hfile pos).2.symm,
      Nat.le_of_lt (hbefore (Nat.lt_succ_self pos) hpos).1⟩
  · exact ⟨(hfile first).2.trans (hfile second).1.symm,
      (hbefore hlt (Nat.le_of_lt hsize)).2⟩

/-- The spans of a parsed source form a tree over it. A node and a parameter that are not faults
span the tokens that they derive, and a fault spans the tokens that it has skipped or the one at
which it was found. The spans of the parts of a node lie inside its own span, one after the
other. -/
theorem Tree.parse_layout (source file : String) :
    (Tree.parse (Token.read source file)).Every fun node =>
      node.Spanned (Token.program (Token.read source file)) ∧
        node.Laid (Token.read source file).toList := by
  have hlaid := Tree.laid_parse (TokenStream.ordered_read source file)
  rw [TokenStream.tokens_read] at hlaid
  exact fun entry hentry => ⟨Tree.spanned_parse _ entry hentry, hlaid entry hentry⟩

end LetScript
