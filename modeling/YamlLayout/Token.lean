import YamlLayout.LineTable

/-!
# Tokens

Tokens are numbered in the order of the text, comments included.
-/
namespace YamlLayout

/-- The place of a token among all tokens of a text, counted from zero. -/
abbrev TokenId := Nat

inductive TokenKind where
  | marker
  | directive
  | punctuator
  | anchor
  | tag
  | reference
  | scalar
  | comment
deriving Repr, DecidableEq, Inhabited

structure Token where
  kind : TokenKind
  value : String
  range : Span
  /-- The position of the first character. -/
  first : Position
  /-- The position just past the last character. -/
  past : Position
deriving Repr, DecidableEq, Inhabited

namespace Token

def isComment (t : Token) : Bool := t.kind == .comment

def isPunctuator (t : Token) (value : String) : Bool := t.kind == .punctuator && t.value == value

/-- The `|` or `>` that opens a block scalar, with its indicators. -/
def isBlockHeader (t : Token) : Bool :=
  t.kind == .punctuator && t.value.toList.head?.any fun c => c == '|' || c == '>'

/-- A `-`, `?` or `:`, in a block or in a flow collection. -/
def isMark (t : Token) : Bool :=
  t.isPunctuator "-" || t.isPunctuator "?" || t.isPunctuator ":"

def startLine (t : Token) : Nat := t.first.line

def endLine (t : Token) : Nat := t.past.line

def isMultiline (t : Token) : Bool := t.startLine < t.endLine

end Token

/-- The token `id` is the first of its line: the one before it ends on an earlier
line. -/
def isFirstOnLine (tokens : Array Token) (id : TokenId) : Bool :=
  match id with
  | 0 => true
  | before + 1 =>
    match tokens[before]?, tokens[before + 1]? with
    | some a, some b => a.endLine < b.startLine
    | _, _ => false

end YamlLayout
