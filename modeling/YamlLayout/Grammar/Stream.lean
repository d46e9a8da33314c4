import YamlLayout.Grammar.Block

/-!
# Documents and streams

`parse` reads a whole text. Its fuel is a fixed multiple of the length of the text.
-/
namespace YamlLayout

namespace Parse

/-- Reads the directives in front of a document. -/
def directives : Nat → Parse (List TokenId)
  | 0 => fail .exhausted
  | fuel + 1 => do
    let s ← get
    if s.cursor.column == 0 && s.cursor.peek? == some '%' then
      let token ← emit .directive (Lexeme.directive s.cursor.rest)
      unless ← advance do
        fail .directiveAlone
      return token :: (← directives fuel)
    return []

/-- Reads the node on the line of a start marker, if there is one. -/
def markedContent (fuel : Nat) : Parse Node := do
  skipBlanks
  let s ← get
  if s.cursor.atBreak || s.cursor.peek? == some '#' then return .empty
  blockNode fuel (-1) false

/-- Reads the node of a document on the lines to come, if there is one. -/
def laterContent (fuel : Nat) : Parse Node := do
  unless ← advance do
    return .empty
  if (← get).atBoundary then return .empty
  blockNode fuel (-1) false

/-- Reads what ends a document: an end marker, the start marker of the next document,
or the end of the text. -/
def documentEnd : Parse (Option TokenId) := do
  unless ← advance do
    return none
  let s ← get
  if s.atEndMarker then
    let marker ← emit .marker 3
    skipBlanks
    if (← get).cursor.peek? == some '#' then
      modify ParseState.readComment
    unless (← get).cursor.atBreak do
      fail .contentAfterEndMarker
    return some marker
  unless s.atStartMarker do
    fail .unexpectedContent
  return none

/-- Reads a document whose tokens start at `first`. -/
def document (fuel : Nat) (first : TokenId) : Parse Document := do
  let directives ← directives fuel
  let startMarker ←
    if (← get).atStartMarker then some <$> emit .marker 3
    else if directives.isEmpty then pure none
    else fail .expectedStartMarker
  let inline ← if startMarker.isSome then markedContent fuel else pure .empty
  let content ← if inline.isEmpty then laterContent fuel else pure inline
  let endMarker ← documentEnd
  return { span := (← get).fullSpanSince first, directives, startMarker, endMarker, content }

/-- Reads documents up to the end of the text, with those already read in `done`,
latest first. Comments after the last document belong to it; a text with nothing but
comments holds one document without content. -/
def documents : Nat → List Document → Parse (List Document)
  | 0, _ => fail .exhausted
  | fuel + 1, done => do
    let first := (← get).next
    unless (← get).cursor.atContentStart do
      modify ParseState.skipLines
    let s ← get
    if s.cursor.rest.isEmpty then
      match s.emitted.head?, done with
      | some last, d :: ds =>
        if first < s.next then
          let span := ⟨d.span.start, max d.span.stop last.range.stop⟩
          return ({ d with span } :: ds).reverse
        return done.reverse
      | some _, [] => return [⟨s.fullSpanSince first, [], none, none, .empty⟩]
      | none, _ => return done.reverse
    let d ← document fuel first
    documents fuel (d :: done)

/-- Fuel that suffices for a text of `n` characters. -/
def fuelFor (n : Nat) : Nat := 4 * n + 8

end Parse

/-- Reads a text into tokens and documents. -/
def parse (text : List Char) : Except ParseError Stream := do
  let (documents, s) ← (Parse.documents (Parse.fuelFor text.length) []).run (.ofText text)
  return { text, tokens := s.emitted.reverse.toArray, documents }

end YamlLayout
