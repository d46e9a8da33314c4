import YamlLayout.Cursor
import YamlLayout.Lexeme
import YamlLayout.Token

/-!
# Reading state

Reading a stream moves a cursor over the text and leaves tokens behind, latest
first. A step either succeeds or fails with a cause and the place of the cursor.
-/
namespace YamlLayout

inductive ParseCause where
  | directiveAlone
  | expectedStartMarker
  | contentAfterEndMarker
  | unexpectedContent
  | expectedColon
  | expectedKey
  | reservedIndicator
  | unexpectedCharacter
  | zeroIndentation
  | textAfterHeader
  | unterminatedFlow
  | unexpectedComma
  | expectedSeparator
  | expectedItem
  | unexpectedFlowCharacter
  | markerInFlow
  | duplicateProperty
  | unterminatedQuote
  | markerInQuote
  | attachedComment
  /-- The fuel of the reader ran out. -/
  | exhausted
deriving Repr, DecidableEq, Inhabited

def ParseCause.message : ParseCause → String
  | directiveAlone => "directive without a document"
  | expectedStartMarker => "expected '---' after directives"
  | contentAfterEndMarker => "unexpected content after document end marker"
  | unexpectedContent => "unexpected content"
  | expectedColon => "expected ':' after mapping key"
  | expectedKey => "expected a mapping key"
  | reservedIndicator => "reserved indicator cannot start a plain scalar"
  | unexpectedCharacter => "unexpected character"
  | zeroIndentation => "indentation indicator must be 1-9"
  | textAfterHeader => "unexpected text after block scalar header"
  | unterminatedFlow => "unterminated flow collection"
  | unexpectedComma => "unexpected ',' in flow collection"
  | expectedSeparator => "expected ',' or end of flow collection"
  | expectedItem => "expected a flow entry"
  | unexpectedFlowCharacter => "unexpected character in flow collection"
  | markerInFlow => "document marker inside flow collection"
  | duplicateProperty => "duplicate node property"
  | unterminatedQuote => "unterminated quoted scalar"
  | markerInQuote => "document marker inside quoted scalar"
  | attachedComment => "comment must be separated from content by whitespace"
  | exhausted => "nesting too deep"

structure ParseError where
  cause : ParseCause
  offset : Nat
  position : Position
deriving Repr, DecidableEq, Inhabited

def ParseError.message (e : ParseError) : String := e.cause.message

/-- The message with its place. -/
def ParseError.display (e : ParseError) : String :=
  s!"{e.cause.message} at line {e.position.line}, column {e.position.column}"

structure ParseState where
  cursor : Cursor
  /-- The tokens read so far, latest first. -/
  emitted : List Token
deriving Repr, DecidableEq

namespace ParseState

def ofText (text : List Char) : ParseState := ⟨Cursor.ofText text, []⟩

/-- The number the next token will get. -/
def next (s : ParseState) : TokenId := s.emitted.length

/-- Reads the next `n` characters as one token. -/
def push (s : ParseState) (kind : TokenKind) (n : Nat) : ParseState :=
  let past := s.cursor.move n
  let token : Token := {
    kind
    value := String.ofList (s.cursor.rest.take n)
    range := ⟨s.cursor.offset, past.offset⟩
    first := s.cursor.position
    past := past.position }
  ⟨past, token :: s.emitted⟩

@[simp] theorem rest_push (s : ParseState) (kind : TokenKind) (n : Nat) :
    (s.push kind n).cursor.rest = s.cursor.rest.drop n := rfl

@[simp] theorem text_push (s : ParseState) (kind : TokenKind) (n : Nat) :
    (s.push kind n).cursor.text = s.cursor.text := Cursor.text_move ..

@[simp] theorem next_push (s : ParseState) (kind : TokenKind) (n : Nat) :
    (s.push kind n).next = s.next + 1 := rfl

/-- Moves on without a token. -/
def skip (s : ParseState) (n : Nat) : ParseState := { s with cursor := s.cursor.move n }

def skipBlanks (s : ParseState) : ParseState := { s with cursor := s.cursor.skipBlanks }

def skipBreak (s : ParseState) : ParseState := { s with cursor := s.cursor.skipBreak }

/-- The cursor is at the start of a line that holds a document marker. -/
def atBoundary (s : ParseState) : Bool :=
  s.cursor.atLineStart && Lexeme.isMarker s.cursor.rest

def atStartMarker (s : ParseState) : Bool :=
  s.cursor.atLineStart && Lexeme.isStartMarker s.cursor.rest

def atEndMarker (s : ParseState) : Bool :=
  s.cursor.atLineStart && Lexeme.isEndMarker s.cursor.rest

def atIndicator (s : ParseState) (mark : Char) : Bool := Lexeme.isIndicator mark s.cursor.rest

def atFlowMark (s : ParseState) (mark : Char) : Bool := Lexeme.isFlowMark mark s.cursor.rest

/-- A colon that follows a quoted or bracketed key without a blank. -/
def atAdjacentColon (s : ParseState) : Bool :=
  s.cursor.peek? == some ':' &&
    s.emitted.head?.any (fun t => t.range.stop == s.cursor.offset) &&
    s.cursor.before.head?.any fun c => Lexeme.isQuote c || c == ']' || c == '\x7d'

/-- The span of the tokens numbered `first` and up, comments apart. -/
def spanSince (s : ParseState) (first : TokenId) : Span :=
  let tokens := (s.emitted.take (s.next - first)).filter fun t => !t.isComment
  match tokens.getLast?, tokens.head? with
  | some a, some b => ⟨a.range.start, b.range.stop⟩
  | _, _ => ⟨s.cursor.offset, s.cursor.offset⟩

/-- The span of all tokens numbered `first` and up. -/
def fullSpanSince (s : ParseState) (first : TokenId) : Span :=
  let tokens := s.emitted.take (s.next - first)
  match tokens.getLast?, tokens.head? with
  | some a, some b => ⟨a.range.start, b.range.stop⟩
  | _, _ => ⟨s.cursor.offset, s.cursor.offset⟩

end ParseState

abbrev Parse := StateT ParseState (Except ParseError)

namespace Parse

/-- Fails at the cursor. -/
def fail {α : Type} (cause : ParseCause) : Parse α := do
  let s ← get
  throw ⟨cause, s.cursor.offset, s.cursor.position⟩

/-- Reads a token of `n` characters and answers with its number. -/
def emit (kind : TokenKind) (n : Nat) : Parse TokenId := do
  let s ← get
  set (s.push kind n)
  return s.next

def skipBlanks : Parse Unit := modify ParseState.skipBlanks

end Parse

end YamlLayout
