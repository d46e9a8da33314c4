import YamlLayout.Measure

/-!
# Shifts

When lines move together, a line without a column of its own follows the line it
hangs on: the last one before it that has a column and is indented no deeper.
-/
namespace YamlLayout

/-- A line that others can hang on. -/
structure Scope where
  leading : Nat
  delta : Int
deriving Repr, DecidableEq

namespace Shift

/-- The delta of the innermost scope that a line hangs on. -/
def inherited (scopes : List Scope) (leading : Nat) : Int :=
  ((scopes.find? (·.leading ≤ leading)).map (·.delta)).getD 0

/-- Opens a scope; those at least as deep end. -/
def opened (scopes : List Scope) (scope : Scope) : List Scope :=
  scope :: scopes.dropWhile (scope.leading ≤ ·.leading)

/-- The delta of a line and the scopes after it. A pinned line stays. -/
def step (scopes : List Scope) (m : LineMeasure) : Int × List Scope :=
  if m.pinned then (0, scopes)
  else
    match m.expected with
    | some e => (e - m.actual, opened scopes ⟨m.leading, e - m.actual⟩)
    | none => (inherited scopes m.leading, scopes)

/-- The deltas of lines, given the scopes before them, innermost first; `none` if a
line would start left of the first column. -/
def deltasFrom (scopes : List Scope) : List LineMeasure → Option (List Int)
  | [] => some []
  | m :: ms =>
    let (delta, scopes) := step scopes m
    if (m.leading : Int) + delta < 0 then none else (deltasFrom scopes ms).map (delta :: ·)

/-- The deltas of the lines that move together. -/
def deltas (window : List LineMeasure) : Option (List Int) := deltasFrom [] window

end Shift

end YamlLayout
