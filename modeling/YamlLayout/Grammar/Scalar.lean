import YamlLayout.Grammar.Property
import YamlLayout.Lexeme.Body

/-!
# Scalars and references
-/
namespace YamlLayout.Parse

/-- Reads `n` characters as a scalar. -/
def scalar (style : ScalarStyle) (n : Nat) : Parse Node := do
  let s ← get
  let token ← emit .scalar n
  return .scalar ⟨s.cursor.offset, (← get).cursor.offset⟩ style token

/-- Reads a quoted scalar. No line of it may start with a document marker. -/
def quoted : Parse Node := do
  match (← get).cursor.rest with
  | [] => fail .unterminatedQuote
  | quote :: rest =>
    match Lexeme.quoted false quote rest with
    | none => fail .unterminatedQuote
    | some n =>
      if Lexeme.crossesMarker n rest then fail .markerInQuote
      scalar (if quote == '"' then .doubleQuoted else .singleQuoted) (n + 1)

/-- Reads a plain scalar, or fails with `cause` where none can start. Inside a block
its later lines must lie deeper than `parent`. -/
def plain (parent : Int) (flow : Bool) (cause : ParseCause) : Parse Node := do
  match Lexeme.plain parent flow (← get).cursor.rest with
  | 0 => fail cause
  | n => scalar .plain n

def reference (flow : Bool) : Parse Node := do
  let s ← get
  let token ← emit .reference (Lexeme.reference flow s.cursor.rest)
  return .reference ⟨s.cursor.offset, (← get).cursor.offset⟩ token

/-- Reads a block scalar, header and body, inside a node at column `parent`. -/
def blockScalar (parent : Int) : Parse Node := do
  let s ← get
  let header := Lexeme.blockIndicators 2 none .clip (s.cursor.rest.drop 1)
  if header.zero then
    set (s.skip (header.length + 1))
    fail .zeroIndentation
  let token ← emit .punctuator (header.length + 1)
  let blank := (← get).cursor.rest.head?.any isBlank
  skipBlanks
  if blank && (← get).cursor.peek? == some '#' then
    modify ParseState.readComment
  unless (← get).cursor.atBreak do
    fail .textAfterHeader
  let body ← match Lexeme.body? parent header.digit (← get).cursor.rest with
    | none => pure none
    | some body =>
      modify (·.skip body.skipped)
      some <$> emit .scalar body.length
  return .block ((← get).spanSince s.next) {
    folded := s.cursor.peek? == some '>'
    header := token
    body
    digit := header.digit
    chomping := header.chomping }

end YamlLayout.Parse
