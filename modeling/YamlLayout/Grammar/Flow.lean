import YamlLayout.Grammar.Scalar

/-!
# Flow collections

Collections in brackets. Reading them recurses on fuel, of which every step takes
one unit; four units for each character left are always enough.
-/
namespace YamlLayout

/-- What stands between an opening bracket and the closing one, which is included. -/
structure FlowItems where
  items : List Node
  commas : List TokenId
  closing : TokenId

namespace Parse

mutual

/-- Reads the collection that opens at the cursor. -/
def flowCollection : Nat → Parse Node
  | 0 => fail .exhausted
  | fuel + 1 => do
    let s ← get
    let isMapping := s.cursor.peek? == some '\x7b'
    let opening ← emit .punctuator 1
    let inside ← flowItems fuel isMapping
    let span := (← get).spanSince s.next
    let brackets := some ⟨opening, inside.closing, inside.commas⟩
    if isMapping then return .mapping span brackets inside.items
    else return .sequence span brackets inside.items

/-- Reads items up to the closing bracket. A comma may follow the last of them. -/
def flowItems : Nat → Bool → Parse FlowItems
  | 0, _ => fail .exhausted
  | fuel + 1, isMapping => do
    let closing := if isMapping then '\x7d' else ']'
    skipFlowSpace
    match (← get).cursor.peek? with
    | none => fail .unterminatedFlow
    | some c =>
      if c == closing then return ⟨[], [], ← emit .punctuator 1⟩
      if c == ',' then fail .unexpectedComma
      let item ← flowItem fuel isMapping
      skipFlowSpace
      match (← get).cursor.peek? with
      | none => fail .unterminatedFlow
      | some c =>
        if c == ',' then
          let comma ← emit .punctuator 1
          let more ← flowItems fuel isMapping
          return { more with items := item :: more.items, commas := comma :: more.commas }
        if c == closing then return ⟨[item], [], ← emit .punctuator 1⟩
        fail .expectedSeparator

/-- Reads one item: a pair, or in a sequence also a lone node. -/
def flowItem : Nat → Bool → Parse Node
  | 0, _ => fail .exhausted
  | fuel + 1, isMapping => do
    let first := (← get).next
    let question ←
      if (← get).atFlowMark '?' then
        let token ← emit .punctuator 1
        skipFlowSpace
        pure (some token)
      else pure none
    let key ← if (← get).atFlowMark ':' then pure .empty else flowNode fuel
    skipFlowSpace
    let s ← get
    if s.atFlowMark ':' || s.atAdjacentColon then
      let colon ← emit .punctuator 1
      skipFlowSpace
      let value ←
        match (← get).cursor.peek? with
        | some ',' | some ']' | some '\x7d' => pure .empty
        | _ => flowNode fuel
      return .pair ((← get).spanSince first) question key (some colon) value
    if question.isNone && !isMapping then
      if key.isEmpty then fail .expectedItem
      return key
    return .pair (s.spanSince first) question key none .empty

/-- Reads a node inside a flow collection, with its properties. -/
def flowNode : Nat → Parse Node
  | 0 => fail .exhausted
  | fuel + 1 => do
    let first := (← get).next
    let p ← properties true .none
    unless p.isEmpty do
      skipFlowSpace
    let s ← get
    let node ←
      match s.cursor.peek? with
      | none => pure .empty
      | some c =>
        if c == ',' || c == ']' || c == '\x7d' || s.atFlowMark ':' then pure .empty
        else if c == '*' then reference true
        else if Lexeme.isQuote c then quoted
        else if c == '[' || c == '\x7b' then flowCollection fuel
        else plain (-1) true .unexpectedFlowCharacter
    decorate p first node

end

end Parse

end YamlLayout
