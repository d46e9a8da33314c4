import YamlLayout.LineTable
import YamlLayout.Lexeme

/-!
# Bodies of block scalars

The body of a block scalar is found line by line: it goes on as long as the lines
are blank or indented deeply enough, and holds no blank line at either end.
-/
namespace YamlLayout.Lexeme

def isBlankLine (line : List Char) : Bool := (Text.stripBreak line).all isBlank

/-- Where the body of a block scalar lies, seen from the end of its header. -/
structure Body where
  /-- The number of characters before the body. -/
  skipped : Nat
  length : Nat
deriving Repr, DecidableEq

/-- The indentation of a body: the digit of its header counts from the column of
the enclosing node, and without a digit the first line that is not blank decides,
if it lies deeper than that column. -/
def bodyIndent (parent : Int) (digit : Option Nat) (lines : List (List Char)) : Option Nat :=
  match digit with
  | some d => some (parent.toNat + d)
  | none =>
    ((lines.find? (!isBlankLine ·)).map Text.leadingSpaces).filter fun n => decide (parent < n)

/-- The lines of a body of the given indentation, blank lines before and after it
included. A document marker ends the body even at an indentation of zero. -/
def bodyLines (indent : Nat) (lines : List (List Char)) : List (List Char) :=
  lines.takeWhile fun line =>
    isBlankLine line || (decide (indent ≤ Text.leadingSpaces line) && !isMarker line)

/-- Finds the body of a block scalar whose header ends where `text` starts. Its
lines are those after the line of the header. -/
def body? (parent : Int) (digit : Option Nat) (text : List Char) : Option Body :=
  let header := text.takeWhile (· != '\n')
  let lines := Text.splitLines (text.drop (header.length + 1))
  match bodyIndent parent digit lines with
  | none => none
  | some indent =>
    let reached := bodyLines indent lines
    let lead := reached.takeWhile isBlankLine
    match ((reached.dropWhile isBlankLine).reverse.dropWhile isBlankLine) with
    | [] => none
    | last :: earlier =>
      some {
        skipped := header.length + 1 + lead.flatten.length + indent
        length := earlier.flatten.length + (Text.stripBreak last).length - indent }

end YamlLayout.Lexeme
