import YamlLayout.Node
import YamlLayout.Style

/-!
# Layouts

A layout says for every token with a place in the structure where its column comes
from: the first token of a document has a column of its own, every other one is set
off from an earlier token.
-/
namespace YamlLayout

structure ColumnRule where
  /-- The token to count from; without one the offset is the column. -/
  base : Option TokenId
  offset : Int
  /-- Replaces the offset where the base is not the first token of its line. -/
  inlineOffset : Option Int
deriving Repr, DecidableEq, Inhabited

namespace ColumnRule

/-- The offset that counts, given whether the base is first on its line. -/
def step (r : ColumnRule) (first : Bool) : Int :=
  if first then r.offset else r.inlineOffset.getD r.offset

end ColumnRule

structure Assignment where
  token : TokenId
  rule : ColumnRule
deriving Repr, DecidableEq, Inhabited

namespace Assignment

/-- Sets a token off from a base. Both must exist, and the base must come first. -/
def setOff (token base : Option TokenId) (offset : Int) (inlineOffset : Option Int) :
    List Assignment :=
  match token, base with
  | some t, some b => if b < t then [⟨t, ⟨some b, offset, inlineOffset⟩⟩] else []
  | _, _ => []

end Assignment

/-- What the rules of a text depend on besides its nodes. -/
structure LayoutContext where
  tokens : Array Token
  unit : Int
  valueIndent : Int
  indentSequences : Bool

namespace LayoutContext

def ofStyle (tokens : Array Token) (style : Style) : LayoutContext where
  tokens
  unit := Style.columns style.unit
  valueIndent := Style.columns style.valueIndent
  indentSequences := style.indentSequences

/-- Columns from one token to another on the same line. -/
def gap? (ctx : LayoutContext) (a b : TokenId) : Option Int := do
  let x ← ctx.tokens[a]?
  let y ← ctx.tokens[b]?
  if x.startLine = y.startLine then some (y.first.column - x.first.column) else none

/-- The offset of an entry's value from its dash. A dash within a line keeps the gap
it was written with. -/
def entryOffset (ctx : LayoutContext) (dash : TokenId) (value : Option TokenId) : Int :=
  match value with
  | none => ctx.valueIndent
  | some v =>
    if isFirstOnLine ctx.tokens dash then ctx.valueIndent
    else (ctx.gap? dash v).getD ctx.valueIndent

/-- The first token on a line, `head` if there is none among the `n` before it. Marks
and comments do not count. -/
def lineHeadFrom (tokens : Array Token) (line : Nat) (head : TokenId) : Nat → TokenId
  | 0 => head
  | n + 1 =>
    match tokens[n]? with
    | none => head
    | some t =>
      if t.startLine = line then
        lineHeadFrom tokens line (if t.isMark || t.isComment then head else n) n
      else head

/-- The token that the items of a flow collection are set off from: the first one on
the line of its opening bracket that is neither a mark nor a comment. -/
def lineHead (ctx : LayoutContext) (opening : TokenId) : TokenId :=
  match ctx.tokens[opening]? with
  | none => opening
  | some t => lineHeadFrom ctx.tokens t.startLine opening opening

end LayoutContext

namespace Node

/-- The second of two properties, if there are two. -/
def later : Option TokenId → Option TokenId → Option TokenId
  | some a, some b => some (max a b)
  | _, _ => none

/-- The rules for the tokens of a pair, its key and value apart. -/
def pairRules (ctx : LayoutContext) (flow : Bool) (question : Option TokenId) (key : Node)
    (colon : Option TokenId) (value : Node) : List Assignment :=
  let marks :=
    if question.isSome then
      Assignment.setOff key.first? question ctx.unit none ++ Assignment.setOff colon question 0 none
    else Assignment.setOff colon key.first? ctx.unit none
  let valueRule :=
    if !flow && !ctx.indentSequences && value.isBlockSequence then
      Assignment.setOff value.first? (question.or (key.first?.or colon)) 0 none
    else Assignment.setOff value.first? colon ctx.unit (some 0)
  marks ++ valueRule

/-- The rules for the dash and the value of an entry. -/
def entryRules (ctx : LayoutContext) (firstDash : Option TokenId) : Node → List Assignment
  | entry dash value =>
    Assignment.setOff (some dash) firstDash 0 none ++
      Assignment.setOff value.first? (some dash) (ctx.entryOffset dash value.first?) none
  | _ => []

/-- The rules for the items and the punctuation of a flow collection. -/
def flowRules (ctx : LayoutContext) (brackets : Brackets) (items : List Node) :
    List Assignment :=
  let base := some (ctx.lineHead brackets.opening)
  items.flatMap (fun item => Assignment.setOff item.first? base ctx.unit none) ++
    brackets.commas.flatMap (fun comma => Assignment.setOff (some comma) base ctx.unit none) ++
    Assignment.setOff (some brackets.closing) base 0 none

mutual

/-- The rules that a node gives to its tokens and children, outer ones first. The
column of its own first token is for the node around it to say. -/
def rules (ctx : LayoutContext) (flow : Bool) : Node → List Assignment
  | empty => []
  | scalar .. => []
  | reference .. => []
  | block _ content => Assignment.setOff content.body (some content.header) ctx.unit (some 0)
  | decorated _ anchor tag inner =>
    let outer := earlier anchor tag
    Assignment.setOff (later anchor tag) outer 0 none ++
      Assignment.setOff inner.first? outer ctx.unit (some 0) ++ inner.rules ctx flow
  | pair _ question key colon value =>
    pairRules ctx flow question key colon value ++ key.rules ctx flow ++ value.rules ctx flow
  | entry _ value => value.rules ctx flow
  | mapping _ none pairs =>
    pairs.flatMap (fun pair => Assignment.setOff pair.first? (firstOf? pairs) 0 none) ++
      rulesOf ctx flow pairs
  | mapping _ (some brackets) pairs => flowRules ctx brackets pairs ++ rulesOf ctx true pairs
  | sequence _ none items =>
    items.flatMap (entryRules ctx (firstOf? items)) ++ rulesOf ctx flow items
  | sequence _ (some brackets) items => flowRules ctx brackets items ++ rulesOf ctx true items

def rulesOf (ctx : LayoutContext) (flow : Bool) : List Node → List Assignment
  | [] => []
  | node :: nodes => node.rules ctx flow ++ rulesOf ctx flow nodes

end

mutual

/-- The dashes, question marks and colons of block collections. -/
def indicators (flow : Bool) : Node → List TokenId
  | empty => []
  | scalar .. => []
  | reference .. => []
  | block .. => []
  | decorated _ _ _ inner => inner.indicators flow
  | pair _ question key colon value =>
    (if flow then [] else question.toList ++ colon.toList) ++
      key.indicators flow ++ value.indicators flow
  | entry dash value => dash :: value.indicators flow
  | mapping _ brackets pairs => indicatorsOf (flow || brackets.isSome) pairs
  | sequence _ brackets items => indicatorsOf (flow || brackets.isSome) items

def indicatorsOf (flow : Bool) : List Node → List TokenId
  | [] => []
  | node :: nodes => node.indicators flow ++ indicatorsOf flow nodes

end

mutual

/-- The block scalars inside a node, in the order of the text. -/
def blockScalars : Node → List BlockScalar
  | empty => []
  | scalar .. => []
  | reference .. => []
  | block _ content => [content]
  | decorated _ _ _ inner => inner.blockScalars
  | pair _ _ key _ value => key.blockScalars ++ value.blockScalars
  | entry _ value => value.blockScalars
  | mapping _ _ pairs => blockScalarsOf pairs
  | sequence _ _ items => blockScalarsOf items

def blockScalarsOf : List Node → List BlockScalar
  | [] => []
  | node :: nodes => node.blockScalars ++ blockScalarsOf nodes

end

end Node

/-- The rules of a document. Its first token is at column zero, and so are its
directives, its markers and its content. -/
def Document.rules (ctx : LayoutContext) (d : Document) : List Assignment :=
  match d.first? with
  | none => []
  | some first =>
    let level := fun token => Assignment.setOff token (some first) 0 none
    ⟨first, ⟨none, 0, none⟩⟩ :: d.directives.flatMap (fun t => level (some t)) ++
      level d.startMarker ++ level d.endMarker ++ level d.content.first? ++
      d.content.rules ctx false

structure Layout where
  /-- The rule of each token. -/
  rules : Array (Option ColumnRule)
  /-- Which tokens are indicators of block collections. -/
  indicators : Array Bool
  /-- The block scalars in the order of the text. -/
  blocks : List BlockScalar
deriving Repr, DecidableEq

namespace Layout

/-- The layout in which no token has a place. -/
def empty : Layout := ⟨#[], #[], []⟩

/-- Of several rules for a token the last one counts. -/
def ruleTable (size : Nat) (assignments : List Assignment) : Array (Option ColumnRule) :=
  assignments.foldl (fun table a => table.setIfInBounds a.token (some a.rule))
    (Array.replicate size none)

def markTable (size : Nat) (tokens : List TokenId) : Array Bool :=
  tokens.foldl (fun table t => table.setIfInBounds t true) (Array.replicate size false)

def ofStream (s : Stream) (style : Style) : Layout where
  rules :=
    ruleTable s.tokens.size (s.documents.flatMap (·.rules (.ofStyle s.tokens style)))
  indicators := markTable s.tokens.size (s.documents.flatMap (·.content.indicators false))
  blocks := s.documents.flatMap (·.content.blockScalars)

def rule? (l : Layout) (t : TokenId) : Option ColumnRule := l.rules[t]?.join

def isIndicator (l : Layout) (t : TokenId) : Bool := l.indicators[t]?.getD false

def blockOfHeader? (l : Layout) (t : TokenId) : Option BlockScalar :=
  l.blocks.find? (·.header == t)

def blockOfBody? (l : Layout) (t : TokenId) : Option BlockScalar :=
  l.blocks.find? (·.body == some t)

def isBlockMark (l : Layout) (t : TokenId) : Bool := (l.blockOfHeader? t).isSome

end Layout

end YamlLayout
