import YamlLayout.Text

/-!
# Edits and repairs

A repair is a list of edits that belong together: all of them are made, or none.
-/
namespace YamlLayout

structure Edit where
  range : Span
  text : String
deriving Repr, DecidableEq, Inhabited

namespace Edit

/-- Order by range. -/
def le (a b : Edit) : Bool := a.range.le b.range

def overlaps (a b : Edit) : Bool := a.range.overlaps b.range

/-- Puts an edit before the first one that it may precede. -/
def insertBy (le : Edit → Edit → Bool) (e : Edit) : List Edit → List Edit
  | [] => [e]
  | f :: fs => if le e f then e :: f :: fs else f :: insertBy le e fs

/-- Sorts edits; those that may stand either way keep their order. -/
def sortBy (le : Edit → Edit → Bool) (edits : List Edit) : List Edit :=
  edits.foldr (insertBy le) []

def sort (edits : List Edit) : List Edit := sortBy le edits

/-- Two neighbours in a list overlap. -/
def neighboursOverlap : List Edit → Bool
  | a :: b :: rest => a.overlaps b || neighboursOverlap (b :: rest)
  | _ => false

/-- Makes one edit; one that does not fit the text is left out. -/
def apply (text : List Char) (e : Edit) : List Char := Text.replace text e.range e.text.toList

end Edit

structure Repair where
  edits : List Edit
deriving Repr, DecidableEq, Inhabited

namespace Repair

/-- The repair of sorted edits, unless two of them overlap. -/
def ofEdits? (edits : List Edit) : Option Repair :=
  let sorted := Edit.sort edits
  if Edit.neighboursOverlap sorted then none else some ⟨sorted⟩

def clashes (accepted : List Edit) (r : Repair) : Bool :=
  r.edits.any fun e => accepted.any (·.overlaps e)

/-- Takes the edits of a repair, unless one of them overlaps an edit already taken. -/
def accept (accepted : List Edit) (r : Repair) : List Edit :=
  if clashes accepted r then accepted else accepted ++ r.edits

/-- The edits of the repairs that are made. -/
def accepted (repairs : List Repair) : List Edit := repairs.foldl accept []

end Repair

/-- Makes repairs in order of preference, leaving out each that overlaps one made
before it. Edits are made from the end of the text to its start. -/
def applyRepairs (text : List Char) (repairs : List Repair) : List Char :=
  (Edit.sortBy (fun a b => b.le a) (Repair.accepted repairs)).foldl Edit.apply text

end YamlLayout
