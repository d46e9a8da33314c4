import YamlLayout.Measure

/-!
# Placing interiors and comments

Lines inside a scalar follow the column of the scalar. A comment goes to the nearest
of the columns that its neighbours allow.
-/
namespace YamlLayout

namespace Placement

/-- `s`, `s - step` and so on, as long as they are above `low`. -/
def descending (step : Nat) (low s : Int) : List Int :=
  if 0 < step ∧ low < s then s :: descending step low (s - step) else []
termination_by (s - low).toNat
decreasing_by omega

/-- The columns open to a comment between two lines. Below a line that lies deeper
than the next one every level between the two is open. -/
def steps (before after : Option Int) (unit : Int) : List Int :=
  let step := (max unit 1).toNat
  match before, after with
  | some b, some a => if a < b then descending step a b ++ [a] else [a]
  | some n, none => descending step (-1) n
  | none, some n => descending step (-1) n
  | none, none => []

/-- The nearer of two columns, the larger one where they are equally near. -/
def nearer (actual a b : Int) : Int :=
  let x := (a - actual).natAbs
  let y := (b - actual).natAbs
  if y < x || (y == x && decide (a < b)) then b else a

/-- The step nearest to a column. -/
def snap (steps : List Int) (actual : Int) : Option Int :=
  match steps with
  | [] => none
  | s :: rest => some (rest.foldl (nearer actual) s)

/-- Places a later line of a plain or quoted scalar. -/
def continuation (tokens : Array Token) (column : TokenId → Option Int) (align : Bool)
    (m : LineMeasure) : LineMeasure :=
  match m.role with
  | .continuation token =>
    let expected :=
      if align && !isFirstOnLine tokens token then
        tokens[token]?.map fun t => (t.first.column : Int)
      else column token
    { m with expected }
  | _ => m

/-- The digit of a block scalar must be kept when the line of its header has to move
to the left: the body cannot follow it. -/
def isPinned (layout : Layout) (headerLine : Nat) (header : TokenId)
    (measures : List LineMeasure) : Bool :=
  ((layout.blockOfHeader? header).bind (·.digit)).isSome &&
    (measures.find? (·.line == headerLine)).any fun m => m.expected.any (· < m.actual)

/-- Places a line inside the body of a block scalar. Lines deeper than the first one
count as standing at its column. -/
def bodyLine (tokens : Array Token) (layout : Layout) (column : TokenId → Option Int)
    (measures : List LineMeasure) (m : LineMeasure) : LineMeasure :=
  match m.role with
  | .blockBody header body =>
    let lineOf := fun t => (tokens[t]?.map (·.startLine)).getD 0
    if isPinned layout (lineOf header) header (measures.takeWhile (·.line < m.line)) then
      { m with pinned := true, expected := none }
    else
      let first := measures.find? fun r => r.role == m.role && r.line == lineOf body
      let own : Int := m.leading
      { m with
        actual := (first.map fun r => min (r.leading : Int) own).getD own
        expected := column body }
  | _ => m

/-- The column above a run of comments, with the lines before it latest first. The
body of a block scalar says nothing about what follows it. -/
def above (before : List LineMeasure) : Option Int :=
  match before.find? fun m => m.expected.isSome || m.role.isBlockBody with
  | none => none
  | some m => if m.role.isBlockBody then none else m.expected

def isCommentLine (m : LineMeasure) : Bool := m.role == .comment

/-- Places the comments among `rest`, run by run, with the lines before them latest
first. -/
def comments (unit : Int) (before : List LineMeasure) (rest : List LineMeasure) :
    List LineMeasure :=
  match rest with
  | [] => before.reverse
  | m :: ms =>
    if isCommentLine m then
      let after := ms.dropWhile isCommentLine
      let allowed := steps (above before) (after.findSome? (·.expected)) unit
      let placed := (m :: ms.takeWhile isCommentLine).map fun c =>
        if allowed.isEmpty then c else { c with expected := snap allowed c.actual }
      comments unit (placed.reverse ++ before) after
    else comments unit (m :: before) ms
termination_by rest.length
decreasing_by
  · have := (List.dropWhile_sublist (l := ms) isCommentLine).length_le
    simp only [List.length_cons]
    omega
  · simp

end Placement

/-- Places the lines that `Stream.measures` leaves open: continuation lines first,
then the bodies of block scalars, then comments. -/
def Stream.place (s : Stream) (layout : Layout) (style : Style) (measures : List LineMeasure) :
    List LineMeasure :=
  let columns := layout.columns s.tokens
  let column := fun t => columns[t]?.join
  let continued := measures.map (Placement.continuation s.tokens column style.alignScalars)
  let filled := continued.map (Placement.bodyLine s.tokens layout column continued)
  Placement.comments (Style.columns style.unit) [] filled

end YamlLayout
