import YamlLayout.Text

/-!
# Paths

A path is a text. Slashes divide it into segments; its parts are the segments that name
something, so that two different texts can have the same parts.
-/
namespace YamlLayout

namespace Text

/-- Splits a text, or its bytes, at every occurrence of a separator. -/
def splitOn {α : Type} [BEq α] (separator : α) : List α → List (List α)
  | [] => [[]]
  | c :: cs =>
    if c == separator then [] :: splitOn separator cs
    else
      match splitOn separator cs with
      | [] => [[c]]
      | piece :: pieces => (c :: piece) :: pieces

theorem splitOn_ne_nil {α : Type} [BEq α] (separator : α) (cs : List α) :
    splitOn separator cs ≠ [] := by
  cases cs with
  | nil => simp [splitOn]
  | cons c cs =>
    simp only [splitOn]
    split
    · simp
    · split <;> simp

end Text

structure Path where
  text : String
deriving Repr, DecidableEq, Inhabited

/-- One step of a path. -/
inductive PathPart where
  | root
  /-- A dot at the start. Dots further on name nothing. -/
  | current
  | parent
  | name (name : List Char)
deriving Repr, DecidableEq, Inhabited

/-- Parts are ordered by kind, names by their characters. -/
def PathPart.rank : PathPart → List Nat
  | .root => [0]
  | .current => [1]
  | .parent => [2]
  | .name n => 3 :: n.map Char.toNat

namespace Path

def isAbsolute (p : Path) : Bool := p.text.toList.head? == some '/'

/-- What stands between slashes. An absolute path has an empty first segment. -/
def segments (p : Path) : List (List Char) := Text.splitOn '/' p.text.toList

/-- The part a segment is, other than at the start. -/
def part? (segment : List Char) : Option PathPart :=
  if segment.isEmpty || segment == ['.'] then none
  else if segment == ['.', '.'] then some .parent
  else some (.name segment)

def parts (p : Path) : List PathPart :=
  let start :=
    if p.isAbsolute then [.root]
    else if p.segments.head? == some ['.'] then [.current]
    else []
  start ++ p.segments.filterMap part?

/-- Paths are ordered part by part. -/
def le (a b : Path) : Bool :=
  !(b.parts.map PathPart.rank).lex (a.parts.map PathPart.rank) fun x y => x.lex y fun m n => m < n

/-- Sorts paths and keeps the first of those with the same parts. -/
def sort (paths : List Path) : List Path :=
  distinct (paths.mergeSort le)
where
  /-- Drops each path that has the parts of the one before it. -/
  distinct : List Path → List Path
    | [] => []
    | p :: ps =>
      match distinct ps with
      | [] => [p]
      | q :: qs => if p.parts == q.parts then p :: qs else p :: q :: qs

/-- The path of an entry of a directory. An absolute path stands for itself. -/
def join (p entry : Path) : Path :=
  if entry.isAbsolute then entry
  else if p.text.toList.getLast?.all (· == '/') then ⟨p.text ++ entry.text⟩
  else ⟨p.text ++ "/" ++ entry.text⟩

/-- What follows the last dot of a name, unless the dot comes first. -/
def nameExtension? (name : List Char) : Option (List Char) :=
  let extension := (name.reverse.takeWhile (· != '.')).reverse
  if extension.length + 1 < name.length then some extension else none

/-- The extension of the last part, if that is a name. -/
def extension? (p : Path) : Option (List Char) :=
  match p.parts.getLast? with
  | some (.name name) => nameExtension? name
  | _ => none

end Path

end YamlLayout
