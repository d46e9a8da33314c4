import YamlLayout.Layout.Columns

/-!
# Measured lines

Every line that holds more than blanks is measured: what it is, the column at which
it belongs and the one at which it stands, and the gaps after its indicators.
Interiors of scalars and comments get their column from `Measure.Placement`.
-/
namespace YamlLayout

/-- The blanks between an indicator and the token after it on the same line. -/
structure Gap where
  indicator : TokenId
  next : TokenId
  expected : Int
  actual : Int
deriving Repr, DecidableEq, Inhabited

def Gap.isOff (g : Gap) : Bool := g.expected != g.actual

inductive LineRole where
  /-- Starts with a token of the structure. -/
  | structural
  /-- Holds nothing but a comment. -/
  | comment
  /-- Inside the body of a block scalar. -/
  | blockBody (header body : TokenId)
  /-- A later line of a plain or quoted scalar. -/
  | continuation (token : TokenId)
deriving Repr, DecidableEq, Inhabited

namespace LineRole

def isBlockBody : LineRole → Bool
  | blockBody .. => true
  | _ => false

end LineRole

structure LineMeasure where
  line : Nat
  role : LineRole
  expected : Option Int
  /-- The column that is compared with the expected one. -/
  actual : Int
  /-- The spaces the line starts with. -/
  leading : Nat
  gaps : List Gap
  /-- Body of a block scalar whose digit must be kept. -/
  pinned : Bool
deriving Repr, DecidableEq, Inhabited

namespace LineMeasure

/-- A line with nothing known but its leading spaces. -/
def bare (line : Nat) (role : LineRole) (leading : Nat) : LineMeasure :=
  ⟨line, role, none, leading, leading, [], false⟩

def hasGapOff (m : LineMeasure) : Bool := m.gaps.any Gap.isOff

/-- The line belongs to the left of `column`. -/
def belongsLeftOf (m : LineMeasure) (column : Int) : Bool := m.expected.any (· < column)

end LineMeasure

/-- A scalar that takes up lines of its own. -/
structure Interior where
  role : LineRole
  first : Nat
  last : Nat
deriving Repr, DecidableEq

namespace Measure

/-- A token with its number. -/
abbrev Numbered := TokenId × Token

def numbered (tokens : Array Token) : List Numbered :=
  tokens.toList.zipIdx.map fun (t, id) => (id, t)

/-- The lines that a scalar takes up: all of a block scalar's body, and of any other
scalar those after its first line. -/
def interior? (layout : Layout) : Numbered → Option Interior
  | (id, t) =>
    if t.kind == .scalar && t.isMultiline then
      match layout.blockOfBody? id with
      | some block => some ⟨.blockBody block.header id, t.startLine, t.endLine⟩
      | none => some ⟨.continuation id, t.startLine + 1, t.endLine⟩
    else none

/-- The block scalar whose body starts on a line. -/
def bodyOn? (tokens : Array Token) (layout : Layout) (line : Nat) : Option LineRole :=
  layout.blocks.findSome? fun block => do
    let body ← block.body
    let t ← tokens[body]?
    if t.startLine = line then some (.blockBody block.header body) else none

/-- The gaps after the indicators a line starts with, as far as each token belongs to
the right of the one before it. -/
def gaps (layout : Layout) (column : TokenId → Option Int) : List Numbered → List Gap
  | (a, t) :: (b, u) :: rest =>
    if layout.isIndicator a then
      match column a, column b with
      | some x, some y =>
        if x < y then
          ⟨a, b, y - x - 1, (u.first.column : Int) - t.past.column⟩ ::
            gaps layout column ((b, u) :: rest)
        else []
      | _, _ => []
    else []
  | _ => []

/-- The measure of a line from the tokens that start on it. -/
def ofTokens (layout : Layout) (column : TokenId → Option Int) (line leading : Nat)
    (tokens : List Numbered) : LineMeasure :=
  let content := tokens.filter fun (_, t) => !t.isComment
  match content with
  | [] => .bare line .comment leading
  | (_, t) :: _ =>
    { LineMeasure.bare line .structural leading with
      expected := content.findSome? fun (id, _) => column id
      actual := t.first.column
      gaps := gaps layout column content }

/-- The measure of a line, if it has one. -/
def line? (lines : LineTable) (tokens : Array Token) (layout : Layout)
    (column : TokenId → Option Int) (interiors : List Interior) (line : Nat) :
    Option LineMeasure :=
  let leading := lines.leading line
  let covering := interiors.filter fun i =>
    decide (i.first ≤ line) && decide (line ≤ i.last) && !lines.isBlankLine line
  match covering.getLast?.map (·.role), bodyOn? tokens layout line with
  | some role, _ => some (.bare line role leading)
  | none, some role => some (.bare line role leading)
  | none, none =>
    match (numbered tokens).filter fun (_, t) => t.startLine == line with
    | [] => none
    | on => some (ofTokens layout column line leading on)

end Measure

namespace Stream

/-- The lines of a stream with their measures, in order; interiors of scalars and
comments are not placed yet. -/
def measures (s : Stream) (layout : Layout) : List LineMeasure :=
  let columns := layout.columns s.tokens
  let lines := s.lines
  let interiors := (Measure.numbered s.tokens).filterMap (Measure.interior? layout)
  (List.range lines.count).filterMap fun i =>
    Measure.line? lines s.tokens layout (fun t => columns[t]?.join) interiors (i + 1)

end Stream

end YamlLayout
