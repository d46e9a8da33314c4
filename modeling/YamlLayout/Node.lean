import YamlLayout.Lexeme
import YamlLayout.Token

/-!
# Nodes

The shape of a document as a tree. Nodes name their tokens by number and carry the
span from their first token to the end of their last one; scalar values are not
interpreted. Where a construct leaves a place unfilled stands the empty node.
-/
namespace YamlLayout

inductive ScalarStyle where
  | plain
  | singleQuoted
  | doubleQuoted
deriving Repr, DecidableEq, Inhabited

/-- A scalar written with a `|` or `>` header and indented lines. -/
structure BlockScalar where
  /-- Line breaks become spaces, as `>` asks. -/
  folded : Bool
  header : TokenId
  body : Option TokenId
  /-- The indentation written into the header. -/
  digit : Option Nat
  chomping : Chomping
deriving Repr, DecidableEq, Inhabited

/-- The punctuation of a flow collection. -/
structure Brackets where
  opening : TokenId
  closing : TokenId
  /-- The commas between the items, in order. -/
  commas : List TokenId
deriving Repr, DecidableEq, Inhabited

inductive Node where
  /-- The node that is not written. -/
  | empty
  | scalar (span : Span) (style : ScalarStyle) (token : TokenId)
  | block (span : Span) (content : BlockScalar)
  /-- A `*name` standing for the node with that anchor. -/
  | reference (span : Span) (token : TokenId)
  /-- A node with an anchor, a tag, or both. -/
  | decorated (span : Span) (anchor tag : Option TokenId) (inner : Node)
  | pair (span : Span) (question : Option TokenId) (key : Node) (colon : Option TokenId)
      (value : Node)
  /-- A dash and the node it introduces. -/
  | entry (dash : TokenId) (value : Node)
  /-- A mapping, in brackets or as a block of pairs. -/
  | mapping (span : Span) (brackets : Option Brackets) (pairs : List Node)
  /-- A sequence, in brackets or as a block of entries. -/
  | sequence (span : Span) (brackets : Option Brackets) (items : List Node)
deriving Repr, Inhabited

namespace Node

def isEmpty : Node → Bool
  | empty => true
  | _ => false

def isBlockSequence : Node → Bool
  | sequence _ none _ => true
  | _ => false

/-- The smaller of two token numbers that may be missing. -/
def earlier : Option TokenId → Option TokenId → Option TokenId
  | some a, some b => some (min a b)
  | some a, none => some a
  | none, b => b

mutual

/-- The first token of a node. -/
def first? : Node → Option TokenId
  | empty => none
  | scalar _ _ token => some token
  | block _ content => some content.header
  | reference _ token => some token
  | decorated _ anchor tag inner => (earlier anchor tag).or inner.first?
  | pair _ question key colon value => question.or (key.first?.or (colon.or value.first?))
  | entry dash _ => some dash
  | mapping _ brackets pairs => (brackets.map (·.opening)).or (firstOf? pairs)
  | sequence _ brackets items => (brackets.map (·.opening)).or (firstOf? items)

/-- The first token of the nodes in a list. -/
def firstOf? : List Node → Option TokenId
  | [] => none
  | node :: nodes => node.first?.or (firstOf? nodes)

end

end Node

/-- One document of a stream. Its span reaches from its first to its last token,
comments included. -/
structure Document where
  span : Span
  directives : List TokenId
  startMarker : Option TokenId
  endMarker : Option TokenId
  content : Node
deriving Repr, Inhabited

namespace Document

/-- The first token of a document that is not a comment. -/
def first? (d : Document) : Option TokenId :=
  d.directives.head?.or (d.startMarker.or (d.content.first?.or d.endMarker))

end Document

/-- A text with its tokens and documents. -/
structure Stream where
  text : List Char
  tokens : Array Token
  documents : List Document
deriving Repr, Inhabited

namespace Stream

def lines (s : Stream) : LineTable := LineTable.ofText s.text

end Stream

end YamlLayout
