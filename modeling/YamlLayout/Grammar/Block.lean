import YamlLayout.Grammar.Flow

/-!
# Block nodes

Nodes whose extent follows from their columns. A column is only a lower bound: an
entry that lies deeper than its siblings, or less deep than the first of them, still
joins them as long as it lies deeper than the node around them.
-/
namespace YamlLayout

/-- A mapping may start at the cursor: first on its line, or right after a dash, a
question mark, a colon that is itself first on its line, or a document marker.
Properties in between do not count. -/
def ParseState.mayStartMapping (s : ParseState) : Bool :=
  let line := s.cursor.line
  let previous := s.emitted.find? fun t =>
    !t.isComment && !((t.kind == .anchor || t.kind == .tag) && t.startLine == line)
  s.cursor.atContentStart ||
    match previous with
    | none => true
    | some t =>
      if t.endLine < line || t.isPunctuator "-" || t.isPunctuator "?" then true
      else if t.isPunctuator ":" then
        ((s.cursor.before.takeWhile (· != '\n')).reverse.take t.first.column).all isBlank
      else t.kind == .marker

/-- What stands in front of a node. -/
structure NodeStart where
  properties : Properties
  /-- A node follows; otherwise it is empty. -/
  found : Bool

namespace Parse

/-- Moves to the first character of a node and collects its properties, also from
lines of their own. On a later line the node must lie deeper than `parent`; with
`dashes` a sequence may start at that column too. -/
def nodeStart : Nat → Int → Bool → Properties → Parse NodeStart
  | 0, _, _, _ => fail .exhausted
  | fuel + 1, parent, dashes, p => do
    let s ← get
    if s.cursor.atBreak || s.cursor.peek? == some '#' then
      unless ← advance do
        return ⟨p, false⟩
      let s ← get
      if s.atBoundary then return ⟨p, false⟩
      let column : Int := s.cursor.column
      unless parent < column || (dashes && column == parent && s.atIndicator '-') do
        return ⟨p, false⟩
    match (← get).cursor.peek? with
    | some '&' | some '!' =>
      let p ← properties false p
      nodeStart fuel parent dashes p
    | _ => return ⟨p, true⟩

/-- Reads the key of a pair without a question mark. -/
def implicitKey (fuel : Nat) (p : Properties) (first : TokenId) : Parse Node := do
  let p ← properties false p
  let s ← get
  let node ←
    match s.cursor.peek? with
    | none => fail .expectedKey
    | some c =>
      if c == ':' then pure .empty
      else if c == '*' then reference false
      else if Lexeme.isQuote c then quoted
      else if c == '[' || c == '\x7b' then flowCollection fuel
      else
        match Lexeme.plainLine false s.cursor.rest with
        | 0 => fail .expectedKey
        | n => scalar .plain n
  decorate p first node

/-- Reads a scalar, a reference or a flow collection. -/
def inlineNode (fuel : Nat) (parent : Int) : Parse Node := do
  match (← get).cursor.peek? with
  | none => fail .unexpectedCharacter
  | some c =>
    if c == '*' then reference false
    else if Lexeme.isQuote c then quoted
    else if c == '[' || c == '\x7b' then flowCollection fuel
    else if c == '@' || c == '\x60' then fail .reservedIndicator
    else plain parent false .unexpectedCharacter

mutual

/-- Reads the node that follows an indicator, a key or the start of a document. -/
def blockNode : Nat → Int → Bool → Parse Node
  | 0, _, _ => fail .exhausted
  | fuel + 1, parent, dashes => do
    let first := (← get).next
    skipBlanks
    let ⟨p, found⟩ ← nodeStart fuel parent dashes .none
    if !found then return ← decorate p first .empty
    let s ← get
    let column : Int := s.cursor.column
    if s.atIndicator '-' then
      let entries ← blockEntries fuel (min parent (column - 1))
      decorate p first (.sequence ((← get).spanSince s.next) none entries)
    else if s.atIndicator '?' || s.atIndicator ':' then
      let pairs ← blockPairs fuel parent column .none
      decorate p first (.mapping ((← get).spanSince s.next) none pairs)
    else if s.cursor.peek? == some '|' || s.cursor.peek? == some '>' then
      decorate p first (← blockScalar parent)
    else if Lexeme.isKey s.cursor.rest && s.mayStartMapping then
      match p.first with
      | some mark =>
        if p.line == s.cursor.line then
          -- Properties on the line of the key belong to the key.
          let pairs ← blockPairs fuel parent mark.column p
          return .mapping ((← get).spanSince mark.token) none pairs
        let pairs ← blockPairs fuel parent column .none
        decorate p first (.mapping ((← get).spanSince s.next) none pairs)
      | none =>
        let pairs ← blockPairs fuel parent column .none
        return .mapping ((← get).spanSince s.next) none pairs
    else
      decorate p first (← inlineNode fuel parent)

/-- Reads the entries of a sequence, as long as they lie deeper than `floor`. -/
def blockEntries : Nat → Int → Parse (List Node)
  | 0, _ => fail .exhausted
  | fuel + 1, floor => do
    let column : Int := (← get).cursor.column
    let dash ← emit .punctuator 1
    let value ← blockNode fuel column false
    let entry := .entry dash value
    unless ← advance do
      return [entry]
    let s ← get
    if !s.atBoundary && s.atIndicator '-' && floor < s.cursor.column then
      return entry :: (← blockEntries fuel floor)
    return [entry]

/-- Reads the pairs of a mapping inside a node at column `parent`. The first pair is
at `column`; properties already read belong to its key. -/
def blockPairs : Nat → Int → Int → Properties → Parse (List Node)
  | 0, _, _, _ => fail .exhausted
  | fuel + 1, parent, column, p => do
    let s ← get
    let first := (p.first.map (·.token)).getD s.next
    let pairColumn : Int := if p.first.isSome then column else s.cursor.column
    let pair ←
      if s.atIndicator '?' then
        let question ← emit .punctuator 1
        let key ← blockNode fuel pairColumn false
        let more ← advance
        let s ← get
        if more && !s.atBoundary && s.atIndicator ':' && parent < s.cursor.column then
          let colon ← emit .punctuator 1
          let value ← blockNode fuel pairColumn true
          pure (.pair ((← get).spanSince first) (some question) key (some colon) value)
        else pure (.pair (s.spanSince first) (some question) key none .empty)
      else
        let key ←
          if s.atIndicator ':' then pure .empty
          else
            let key ← implicitKey fuel p first
            skipBlanks
            pure key
        let s ← get
        unless s.atIndicator ':' || s.atAdjacentColon do
          fail .expectedColon
        let colon ← emit .punctuator 1
        let value ← blockNode fuel pairColumn true
        pure (.pair ((← get).spanSince first) none key (some colon) value)
    unless ← advance do
      return [pair]
    let s ← get
    if s.atBoundary || s.atIndicator '-' then return [pair]
    let next : Int := s.cursor.column
    if next == column || (parent < next && Lexeme.isEntry s.cursor.rest) then
      return pair :: (← blockPairs fuel parent column .none)
    return [pair]

end

end Parse

end YamlLayout
