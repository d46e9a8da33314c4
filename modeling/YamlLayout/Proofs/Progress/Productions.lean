import YamlLayout.Grammar.Stream
import YamlLayout.Proofs.TokenPlaces

/-!
# Productions

The loops of the reader and the readers that call each other, written so that the calls
are open: one round of a production is told what to do in place of the rounds and the
productions inside it. With calls on less fuel it is the reader that runs. `run` needs
no fuel, but makes a call only if the cursor has moved on since the round started, or has
not moved and the call is of a lower rank, and gives up otherwise.
-/
namespace YamlLayout

namespace Lexeme

variable {parent : Int} {flow : Bool} {text : List Char} {n : Nat}

/-- The length of the next line of a plain scalar, from the end of the line before it, if
the scalar goes on. -/
def continuation? (parent : Int) (flow : Bool) (text : List Char) : Option Nat :=
  if lineEnds (text.dropWhile isBlank) then
    (nextLine text 0 text).bind fun next =>
      let width := plainLine flow next.content
      if continuesPlain parent flow next && 0 < width then
        some (text.length - (next.content.drop width).length)
      else none
  else none

theorem content_nextLine_suffix {start : List Char} {indent : Nat} {next : NextLine}
    (h : nextLine start indent text = some next) : next.content <:+ text := by
  induction text generalizing start indent with
  | nil => cases h
  | cons c cs ih =>
    simp only [nextLine] at h
    split at h
    · exact (ih h).trans (List.suffix_cons ..)
    · split at h
      · exact (ih h).trans (List.suffix_cons ..)
      · cases h
        exact List.suffix_refl _

/-- A line that continues a scalar is not empty. -/
theorem continuation?_bounds (h : continuation? parent flow text = some n) :
    0 < n ∧ n ≤ text.length := by
  unfold continuation? at h
  split at h
  swap
  · cases h
  obtain ⟨next, hnext, h⟩ := Option.bind_eq_some_iff.mp h
  have hcontent := (content_nextLine_suffix hnext).length_le
  dsimp only at h
  split at h
  · rename_i hgoes
    simp only [Bool.and_eq_true, decide_eq_true_eq] at hgoes
    have hwidth := plainLine_le flow next.content
    rw [← Option.some.inj h, List.length_drop]
    omega
  · cases h

/-- A plain scalar goes on line by line. -/
theorem plainTail_eq (parent : Int) (flow : Bool) (text : List Char) :
    plainTail parent flow text =
      match continuation? parent flow text with
      | none => 0
      | some n => n + plainTail parent flow (text.drop n) := by
  rw [plainTail, continuation?]
  split
  swap
  · rfl
  split
  · rename_i hnone
    rw [hnone]
    rfl
  · rename_i next hnext
    rw [hnext, Option.bind_some]
    dsimp only
    split
    · have hsuffix : next.content.drop (plainLine flow next.content) <:+ text :=
        (List.drop_suffix ..).trans (content_nextLine_suffix hnext)
      dsimp only
      rw [← List.suffix_iff_eq_drop.mp hsuffix]
    · rfl

end Lexeme

/-- A loop of the reader, or a reader that takes part in a recursion, with its arguments. -/
inductive Production where
  | documents (done : List Document)
  | directives
  | blockNode (parent : Int) (dashes : Bool)
  | nodeStart (parent : Int) (dashes : Bool) (p : Properties)
  | blockEntries (floor : Int)
  | blockPairs (parent column : Int) (p : Properties)
  | implicitKey (p : Properties) (first : TokenId)
  | flowCollection
  | flowItems (isMapping : Bool)
  | flowItem (isMapping : Bool)
  | flowNode
  | properties (flow : Bool) (p : Properties)
  | plainTail (parent : Int) (flow : Bool)

namespace Production

/-- What a production answers with. -/
abbrev Answer : Production → Type
  | documents _ => List Document
  | directives => List TokenId
  | blockNode .. => Node
  | nodeStart .. => NodeStart
  | blockEntries _ => List Node
  | blockPairs .. => List Node
  | implicitKey .. => Node
  | flowCollection => Node
  | flowItems _ => FlowItems
  | flowItem _ => Node
  | flowNode => Node
  | properties .. => Properties
  | plainTail .. => Nat

/-- A production that does not move the cursor only calls productions of a lower rank. -/
def rank : Production → Nat
  | documents _ => 4
  | directives => 1
  | blockNode .. => 3
  | nodeStart .. => 1
  | blockEntries _ => 1
  | blockPairs .. => 2
  | implicitKey .. => 1
  | flowCollection => 0
  | flowItems _ => 3
  | flowItem _ => 2
  | flowNode => 1
  | properties .. => 0
  | plainTail .. => 0

/-- A way to make the calls of a production. -/
abbrev Calls := (q : Production) → Parse q.Answer

section Body

variable (call : Calls)

open Parse

/-- What ends a flow collection. -/
def closing (isMapping : Bool) : Char := if isMapping then '\x7d' else ']'

/-- A plain scalar, with the lines that continue it. -/
def plain (parent : Int) (flow : Bool) (cause : ParseCause) : Parse Node := do
  let s ← get
  let width := Lexeme.plainLine flow s.cursor.rest
  set (s.skip width)
  let more ← call (.plainTail parent flow)
  set s
  match width + more with
  | 0 => fail cause
  | n => scalar .plain n

/-- A node that starts and ends on its own line, unless its marks let it go on. -/
def inlineNode (parent : Int) : Parse Node := do
  match (← get).cursor.peek? with
  | none => fail .unexpectedCharacter
  | some c =>
    if c == '*' then reference false
    else if Lexeme.isQuote c then quoted
    else if c == '[' || c == '\x7b' then call .flowCollection
    else if c == '@' || c == '\x60' then fail .reservedIndicator
    else plain call parent false .unexpectedCharacter

/-- The content on the line of a start marker. -/
def markedContent : Parse Node := do
  skipBlanks
  let s ← get
  if s.cursor.atBreak || s.cursor.peek? == some '#' then return .empty
  call (.blockNode (-1) false)

/-- The content below a start marker, or of a document without one. -/
def laterContent : Parse Node := do
  unless ← advance do
    return .empty
  if (← get).atBoundary then return .empty
  call (.blockNode (-1) false)

/-- A document, its directives and markers. -/
def document (first : TokenId) : Parse Document := do
  let directives ← call .directives
  let startMarker ←
    if (← get).atStartMarker then some <$> emit .marker 3
    else if directives.isEmpty then pure none
    else fail .expectedStartMarker
  let inline ← if startMarker.isSome then markedContent call else pure .empty
  let content ← if inline.isEmpty then laterContent call else pure inline
  let endMarker ← documentEnd
  return { span := (← get).fullSpanSince first, directives, startMarker, endMarker, content }

/-- One round of a production, with `call` for the rounds and productions inside it. -/
def body : (p : Production) → Parse p.Answer
  | documents done => do
    let first := (← get).next
    unless (← get).cursor.atContentStart do
      modify ParseState.skipLines
    let s ← get
    if s.cursor.rest.isEmpty then
      match s.emitted.head?, done with
      | some last, d :: ds =>
        if first < s.next then
          let span := ⟨d.span.start, max d.span.stop last.range.stop⟩
          return ({ d with span } :: ds).reverse
        return done.reverse
      | some _, [] => return [⟨s.fullSpanSince first, [], none, none, .empty⟩]
      | none, _ => return done.reverse
    let d ← document call first
    call (.documents (d :: done))
  | directives => do
    let s ← get
    if s.cursor.column == 0 && s.cursor.peek? == some '%' then
      let token ← emit .directive (Lexeme.directive s.cursor.rest)
      unless ← advance do
        fail .directiveAlone
      return token :: (← call .directives)
    return []
  | blockNode parent dashes => do
    let first := (← get).next
    skipBlanks
    let ⟨p, found⟩ ← call (.nodeStart parent dashes .none)
    if !found then return ← decorate p first .empty
    let s ← get
    let column : Int := s.cursor.column
    if s.atIndicator '-' then
      let entries ← call (.blockEntries (min parent (column - 1)))
      decorate p first (.sequence ((← get).spanSince s.next) none entries)
    else if s.atIndicator '?' || s.atIndicator ':' then
      let pairs ← call (.blockPairs parent column .none)
      decorate p first (.mapping ((← get).spanSince s.next) none pairs)
    else if s.cursor.peek? == some '|' || s.cursor.peek? == some '>' then
      decorate p first (← blockScalar parent)
    else if Lexeme.isKey s.cursor.rest && s.mayStartMapping then
      match p.first with
      | some mark =>
        if p.line == s.cursor.line then
          let pairs ← call (.blockPairs parent mark.column p)
          return .mapping ((← get).spanSince mark.token) none pairs
        let pairs ← call (.blockPairs parent column .none)
        decorate p first (.mapping ((← get).spanSince s.next) none pairs)
      | none =>
        let pairs ← call (.blockPairs parent column .none)
        return .mapping ((← get).spanSince s.next) none pairs
    else
      decorate p first (← inlineNode call parent)
  | nodeStart parent dashes p => do
    let s ← get
    if s.cursor.atBreak || s.cursor.peek? == some '#' then
      unless ← advance do
        return ⟨p, false⟩
      let s ← get
      if s.atBoundary then return ⟨p, false⟩
      let column : Int := s.cursor.column
      unless parent < column || (dashes && column == parent && s.atIndicator '-') do
        return ⟨p, false⟩
    match (← get).cursor.peek? with
    | some '&' | some '!' =>
      let p ← call (.properties false p)
      call (.nodeStart parent dashes p)
    | _ => return ⟨p, true⟩
  | blockEntries floor => do
    let column : Int := (← get).cursor.column
    let dash ← emit .punctuator 1
    let value ← call (.blockNode column false)
    let entry := .entry dash value
    unless ← advance do
      return [entry]
    let s ← get
    if !s.atBoundary && s.atIndicator '-' && floor < s.cursor.column then
      return entry :: (← call (.blockEntries floor))
    return [entry]
  | blockPairs parent column p => do
    let s ← get
    let first := (p.first.map (·.token)).getD s.next
    let pairColumn : Int := if p.first.isSome then column else s.cursor.column
    let pair ←
      if s.atIndicator '?' then
        let question ← emit .punctuator 1
        let key ← call (.blockNode pairColumn false)
        let more ← advance
        let s ← get
        if more && !s.atBoundary && s.atIndicator ':' && parent < s.cursor.column then
          let colon ← emit .punctuator 1
          let value ← call (.blockNode pairColumn true)
          pure (.pair ((← get).spanSince first) (some question) key (some colon) value)
        else pure (.pair (s.spanSince first) (some question) key none .empty)
      else
        let key ←
          if s.atIndicator ':' then pure .empty
          else
            let key ← call (.implicitKey p first)
            skipBlanks
            pure key
        let s ← get
        unless s.atIndicator ':' || s.atAdjacentColon do
          fail .expectedColon
        let colon ← emit .punctuator 1
        let value ← call (.blockNode pairColumn true)
        pure (.pair ((← get).spanSince first) none key (some colon) value)
    unless ← advance do
      return [pair]
    let s ← get
    if s.atBoundary || s.atIndicator '-' then return [pair]
    let next : Int := s.cursor.column
    if next == column || (parent < next && Lexeme.isEntry s.cursor.rest) then
      return pair :: (← call (.blockPairs parent column .none))
    return [pair]
  | implicitKey p first => do
    let p ← call (.properties false p)
    let s ← get
    let node ←
      match s.cursor.peek? with
      | none => fail .expectedKey
      | some c =>
        if c == ':' then pure .empty
        else if c == '*' then reference false
        else if Lexeme.isQuote c then quoted
        else if c == '[' || c == '\x7b' then call .flowCollection
        else
          match Lexeme.plainLine false s.cursor.rest with
          | 0 => fail .expectedKey
          | n => scalar .plain n
    decorate p first node
  | flowCollection => do
    let s ← get
    let isMapping := s.cursor.peek? == some '\x7b'
    let opening ← emit .punctuator 1
    let inside ← call (.flowItems isMapping)
    let span := (← get).spanSince s.next
    let brackets := some ⟨opening, inside.closing, inside.commas⟩
    if isMapping then return .mapping span brackets inside.items
    else return .sequence span brackets inside.items
  | flowItems isMapping => do
    skipFlowSpace
    match (← get).cursor.peek? with
    | none => fail .unterminatedFlow
    | some c =>
      if c == closing isMapping then return ⟨[], [], ← emit .punctuator 1⟩
      if c == ',' then fail .unexpectedComma
      let item ← call (.flowItem isMapping)
      skipFlowSpace
      match (← get).cursor.peek? with
      | none => fail .unterminatedFlow
      | some c =>
        if c == ',' then
          let comma ← emit .punctuator 1
          let more ← call (.flowItems isMapping)
          return { more with items := item :: more.items, commas := comma :: more.commas }
        if c == closing isMapping then return ⟨[item], [], ← emit .punctuator 1⟩
        fail .expectedSeparator
  | flowItem isMapping => do
    let first := (← get).next
    let question ←
      if (← get).atFlowMark '?' then
        let token ← emit .punctuator 1
        skipFlowSpace
        pure (some token)
      else pure none
    let key ← if (← get).atFlowMark ':' then pure .empty else call .flowNode
    skipFlowSpace
    let s ← get
    if s.atFlowMark ':' || s.atAdjacentColon then
      let colon ← emit .punctuator 1
      skipFlowSpace
      let value ←
        match (← get).cursor.peek? with
        | some ',' | some ']' | some '\x7d' => pure .empty
        | _ => call .flowNode
      return .pair ((← get).spanSince first) question key (some colon) value
    if question.isNone && !isMapping then
      if key.isEmpty then fail .expectedItem
      return key
    return .pair (s.spanSince first) question key none .empty
  | flowNode => do
    let first := (← get).next
    let p ← call (.properties true .none)
    unless p.isEmpty do
      skipFlowSpace
    let s ← get
    let node ←
      match s.cursor.peek? with
      | none => pure .empty
      | some c =>
        if c == ',' || c == ']' || c == '\x7d' || s.atFlowMark ':' then pure .empty
        else if c == '*' then reference true
        else if Lexeme.isQuote c then quoted
        else if c == '[' || c == '\x7b' then call .flowCollection
        else plain call (-1) true .unexpectedFlowCharacter
    decorate p first node
  | properties flow p => do
    let s ← get
    match s.cursor.peek? with
    | some '&' =>
      if p.anchor.isSome then fail .duplicateProperty
      else
        let mark ← property .anchor flow
        skipBlanks
        call (.properties flow (p.withAnchor mark s.cursor.line))
    | some '!' =>
      if p.tag.isSome then fail .duplicateProperty
      else
        let mark ← property .tag flow
        skipBlanks
        call (.properties flow (p.withTag mark s.cursor.line))
    | _ => return p
  | plainTail parent flow => do
    let s ← get
    match Lexeme.continuation? parent flow s.cursor.rest with
    | none => return 0
    | some n =>
      set (s.skip n)
      return n + (← call (.plainTail parent flow))

end Body

/-- The production given some fuel. -/
def fuelled (fuel : Nat) : (p : Production) → Parse p.Answer
  | documents done => Parse.documents fuel done
  | directives => Parse.directives fuel
  | blockNode parent dashes => Parse.blockNode fuel parent dashes
  | nodeStart parent dashes p => Parse.nodeStart fuel parent dashes p
  | blockEntries floor => Parse.blockEntries fuel floor
  | blockPairs parent column p => Parse.blockPairs fuel parent column p
  | implicitKey p first => Parse.implicitKey fuel p first
  | flowCollection => Parse.flowCollection fuel
  | flowItems isMapping => Parse.flowItems fuel isMapping
  | flowItem isMapping => Parse.flowItem fuel isMapping
  | flowNode => Parse.flowNode fuel
  | properties flow p => Parse.properties flow p
  | plainTail parent flow => fun s =>
    .ok (Lexeme.plainTail parent flow s.cursor.rest,
      s.skip (Lexeme.plainTail parent flow s.cursor.rest))

/-- Fuel that one round of a production takes up. -/
def cost : Production → Nat
  | implicitKey .. => 0
  | properties .. => 0
  | plainTail .. => 0
  | _ => 1

theorem fuelled_add_cost (fuel : Nat) (p : Production) :
    p.fuelled (fuel + p.cost) = p.body (fuelled fuel) := by
  cases p with
  | documents => rfl
  | directives => rfl
  | blockNode => rfl
  | nodeStart => rfl
  | blockEntries => rfl
  | blockPairs => rfl
  | implicitKey => rfl
  | flowCollection => rfl
  | flowItems => rfl
  | flowItem => rfl
  | flowNode => rfl
  | properties flow p =>
    rw [fuelled, Parse.properties]
    rfl
  | plainTail parent flow =>
    funext s
    have hlength := Lexeme.plainTail_eq parent flow s.cursor.rest
    change Except.ok (Lexeme.plainTail parent flow s.cursor.rest, s.skip _) =
      (match Lexeme.continuation? parent flow s.cursor.rest with
        | none => pure 0
        | some n => do
          set (s.skip n)
          return n + (← (fuelled fuel (.plainTail parent flow) : Parse Nat)) : Parse Nat) s
    split at hlength
    · rename_i hnone
      have hstay : s.skip 0 = s := by simp [ParseState.skip]
      rw [hlength, hnone, hstay]
      rfl
    · rename_i n hsome
      have hskip : ∀ m, s.skip (n + m) = (s.skip n).skip m := by
        simp [ParseState.skip, Cursor.move_move]
      rw [hlength, hsome, hskip]
      rfl

end Production

namespace Cursor

variable {c d : Cursor}

theorem rest_eq_of_offset_eq (htext : d.text = c.text) (h : d.offset = c.offset) :
    d.rest = c.rest := by
  have hc : Text.splitAt? c.text c.offset = some (c.before.reverse, c.rest) :=
    Text.splitAt?_eq_some_iff.mpr ⟨rfl, Text.byteLength_reverse _⟩
  have hd : Text.splitAt? c.text c.offset = some (d.before.reverse, d.rest) :=
    Text.splitAt?_eq_some_iff.mpr ⟨htext, h ▸ Text.byteLength_reverse _⟩
  rw [hc, Option.some.injEq, Prod.mk.injEq] at hd
  exact hd.2.symm

/-- The further a cursor is, the less is left to read. -/
theorem length_rest_lt_of_offset_lt (htext : d.text = c.text) (h : c.offset < d.offset) :
    d.rest.length < c.rest.length := by
  by_contra hle
  have hlength := congrArg List.length htext
  simp only [text, List.length_append, List.length_reverse] at hlength
  have hprefix : d.before.reverse <+: c.before.reverse := by
    have hleft : c.before.reverse <+: c.text := List.prefix_append ..
    have hright : d.before.reverse <+: c.text := htext ▸ List.prefix_append ..
    refine List.prefix_of_prefix_length_le hright hleft ?_
    simp only [List.length_reverse]
    omega
  obtain ⟨more, hmore⟩ := hprefix
  have hbytes := congrArg Text.byteLength hmore
  simp only [Text.byteLength_append, Text.byteLength_reverse] at hbytes
  simp only [offset] at h
  omega

end Cursor

namespace Production

/-- A production that has started in `s` may go on with `q` in `t`: the cursor has moved
on within the text, or it has not moved and `q` is of a lower rank. -/
def MayCall (p : Production) (s : ParseState) (q : Production) (t : ParseState) : Prop :=
  t.cursor.text = s.cursor.text ∧ (s.cursor.offset < t.cursor.offset ∨
    t.cursor.offset = s.cursor.offset ∧ q.rank < p.rank)

instance (p : Production) (s : ParseState) (q : Production) (t : ParseState) :
    Decidable (p.MayCall s q t) :=
  inferInstanceAs (Decidable (_ ∧ _))

/-- Runs a production without fuel. A call that does not go on fails. -/
def run (p : Production) (s : ParseState) : Except ParseError (p.Answer × ParseState) :=
  p.body (fun q t =>
    if _ : p.MayCall s q t then run q t
    else .error ⟨.exhausted, t.cursor.offset, t.cursor.position⟩) s
termination_by (s.cursor.rest.length, p.rank)
decreasing_by
  rename_i hcall
  obtain ⟨htext, hlater | ⟨hsame, hrank⟩⟩ := hcall
  · exact .left _ _ (Cursor.length_rest_lt_of_offset_lt htext hlater)
  · rw [Cursor.rest_eq_of_offset_eq htext hsame]
    exact .right _ hrank

end Production

end YamlLayout
