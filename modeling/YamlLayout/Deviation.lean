import YamlLayout.Deviation.Shift
import YamlLayout.Edit
import YamlLayout.Measure.Placement

/-!
# Deviations

A line off its column and a gap of the wrong width deviate. A line is repaired
together with the lines around it that belong at least as deep, so that they keep
their place towards each other; where that cannot be done safely there is no repair.
-/
namespace YamlLayout

inductive DeviationKind where
  | indentation
  | gap
deriving Repr, DecidableEq, Inhabited

/-- The name of the rule that is broken. -/
def DeviationKind.rule : DeviationKind → String
  | indentation => "indent"
  | gap => "indicator-offset"

structure Deviation where
  kind : DeviationKind
  line : Nat
  column : Nat
  expected : Nat
  actual : Nat
  span : Span
  repair : Option Repair
deriving Repr, DecidableEq, Inhabited

def Deviation.message (d : Deviation) : String :=
  match d.kind with
  | .indentation => s!"expected indentation of {d.expected} spaces but found {d.actual}"
  | .gap => s!"expected {d.expected} space(s) after indicator but found {d.actual}"

/-- The first and the last line of a document. -/
structure LineRange where
  first : Nat
  last : Nat
deriving Repr, DecidableEq

def LineRange.contains (r : LineRange) (line : Nat) : Bool := r.first ≤ line && line ≤ r.last

/-- What repairs depend on besides the measured lines. -/
structure RepairContext where
  tokens : Array Token
  /-- The offsets at which the lines start. -/
  lineStarts : Array Nat
  blocks : List BlockScalar
  documents : List LineRange

namespace RepairContext

def ofStream (s : Stream) (layout : Layout) : RepairContext where
  tokens := s.tokens
  lineStarts := s.lines.starts.toArray
  blocks := layout.blocks
  documents := s.documents.map fun d =>
    ⟨s.lines.lineOf d.span.start, s.lines.lineOf (max (d.span.stop - 1) d.span.start)⟩

/-- The offset at which a line starts. -/
def lineStart (ctx : RepairContext) (line : Nat) : Nat := ctx.lineStarts[line - 1]?.getD 0

/-- The measures that lie in the same document as a line. -/
def sameDocument (ctx : RepairContext) (line : Nat) (measures : List LineMeasure) :
    List LineMeasure :=
  match ctx.documents.find? (·.contains line) with
  | some range => measures.filter fun m => range.contains m.line
  | none => measures

def spaces (n : Nat) : String := String.ofList (List.replicate n ' ')

/-- Gives a gap its width. -/
def gapEdit? (ctx : RepairContext) (g : Gap) : Option Edit := do
  let a ← ctx.tokens[g.indicator]?
  let b ← ctx.tokens[g.next]?
  if 0 ≤ g.expected && a.range.stop ≤ b.range.start then
    some ⟨⟨a.range.stop, b.range.start⟩, spaces g.expected.toNat⟩
  else none

/-- No later line hangs on the columns right of the indicator: the next line that is
no comment starts at or left of it. -/
def isIsolated (ctx : RepairContext) (g : Gap) (later : List LineMeasure) : Bool :=
  match ctx.tokens[g.indicator]?, later.find? (!Placement.isCommentLine ·) with
  | some indicator, some m => m.leading ≤ indicator.first.column
  | _, _ => true

/-- Moves a line. -/
def lineEdit (ctx : RepairContext) (m : LineMeasure) (delta : Int) : Edit :=
  let start := ctx.lineStart m.line
  ⟨⟨start, start + m.leading⟩, spaces ((m.leading : Int) + delta).toNat⟩

/-- The edits to one line of a window: its indentation and its gaps. -/
def lineEdits (ctx : RepairContext) (m : LineMeasure) (delta : Int) : List Edit :=
  (if delta = 0 then [] else [ctx.lineEdit m delta]) ++
    (m.gaps.filter Gap.isOff).filterMap ctx.gapEdit?

/-- Writes a new digit into the header of a block scalar. -/
def digitEdit? (ctx : RepairContext) (header : TokenId) (digit : Nat) : Option Edit := do
  let t ← ctx.tokens[header]?
  let place ← t.value.toList.findIdx? Char.isDigit
  some ⟨⟨t.range.start + place, t.range.start + place + 1⟩, toString digit⟩

/-- The delta of the line on which a token starts, zero outside the window. -/
def deltaAt (ctx : RepairContext) (window : List (LineMeasure × Int)) (t : TokenId) : Int :=
  let line := ctx.tokens[t]?.map (·.startLine)
  ((window.find? fun (m, _) => some m.line == line).map (·.2)).getD 0

/-- Keeps the body of a block scalar in its place towards a header with a digit, when
the two move by different amounts. Fails if no digit does. -/
def digitEditOf? (ctx : RepairContext) (window : List (LineMeasure × Int))
    (block : BlockScalar) : Option (List Edit) :=
  match block.digit, block.body with
  | some digit, some body =>
    let opening := ctx.deltaAt window block.header
    let shifted := ctx.deltaAt window body
    if opening = shifted then some []
    else
      let next := (digit : Int) + shifted - opening
      if 1 ≤ next && next ≤ 9 then
        (ctx.digitEdit? block.header next.toNat).map ([·])
      else none
  | _, _ => some []

/-- All edits to the digits of block scalars. -/
def digitEdits? (ctx : RepairContext) (window : List (LineMeasure × Int)) :
    Option (List Edit) :=
  (ctx.blocks.mapM (ctx.digitEditOf? window)).map List.flatten

/-- The lines that move with a line that belongs at `expected`: those before and after
it up to one that belongs further left. The line before them must not stand in the
way: it has to end up left of `expected` as it stands, with its gaps in order. -/
def window? (expected : Int) (earlier : List LineMeasure) (m : LineMeasure)
    (later : List LineMeasure) : Option (List LineMeasure) :=
  let before := earlier.takeWhile (!·.belongsLeftOf expected)
  let blocked := (earlier.find? (·.belongsLeftOf expected)).any fun boundary =>
    decide (expected ≤ boundary.actual) || boundary.hasGapOff
  if blocked then none
  else some (before.reverse ++ m :: later.takeWhile (!·.belongsLeftOf expected))

/-- The repair of a line that belongs at `expected`, with the earlier lines of its
document latest first. -/
def lineRepair? (ctx : RepairContext) (expected : Int) (earlier : List LineMeasure)
    (m : LineMeasure) (later : List LineMeasure) : Option Repair := do
  let window ← window? expected earlier m later
  let deltas ← Shift.deltas window
  let moves := window.zip deltas
  let digits ← ctx.digitEdits? moves
  Repair.ofEdits? (moves.flatMap (fun (m, delta) => ctx.lineEdits m delta) ++ digits)

/-- The deviation of a line from its column. -/
def lineDeviation (ctx : RepairContext) (expected : Int) (earlier : List LineMeasure)
    (m : LineMeasure) (later : List LineMeasure) : Deviation :=
  let start := ctx.lineStart m.line
  { kind := .indentation
    line := m.line
    column := 0
    expected := expected.toNat
    actual := m.actual.toNat
    span := ⟨start, start + m.leading⟩
    repair := ctx.lineRepair? expected earlier m later }

/-- The deviation of a gap from its width. -/
def gapDeviation? (ctx : RepairContext) (m : LineMeasure) (later : List LineMeasure)
    (g : Gap) : Option Deviation := do
  let edit ← ctx.gapEdit? g
  let indicator ← ctx.tokens[g.indicator]?
  some {
    kind := .gap
    line := m.line
    column := indicator.past.column
    expected := g.expected.toNat
    actual := g.actual.toNat
    span := edit.range
    repair := if ctx.isIsolated g later then some ⟨[edit]⟩ else none }

/-- The deviations of a line, with the lines before it latest first. Gaps are looked
at only in a line that stands where it belongs. -/
def deviationsOf (ctx : RepairContext) (before : List LineMeasure) (m : LineMeasure)
    (after : List LineMeasure) : List Deviation :=
  match m.expected with
  | none => []
  | some expected =>
    let later := ctx.sameDocument m.line after
    if expected < 0 then []
    else if expected = m.actual then
      (m.gaps.filter Gap.isOff).filterMap (ctx.gapDeviation? m later)
    else [ctx.lineDeviation expected (ctx.sameDocument m.line before) m later]

/-- The deviations of the lines in `rest`, with the lines before them latest first. -/
def deviationsFrom (ctx : RepairContext) (before : List LineMeasure) :
    List LineMeasure → List Deviation
  | [] => []
  | m :: rest => ctx.deviationsOf before m rest ++ ctx.deviationsFrom (m :: before) rest

end RepairContext

/-- All deviations of a stream whose lines are measured and placed. -/
def Stream.deviations (s : Stream) (layout : Layout) (measures : List LineMeasure) :
    List Deviation :=
  (RepairContext.ofStream s layout).deviationsFrom [] measures

end YamlLayout
