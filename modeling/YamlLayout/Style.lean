/-!
# Indentation style
-/
namespace YamlLayout

structure Style where
  /-- Columns per level of nesting. -/
  unit : Nat
  /-- A block sequence that is the value of a key lies one unit deeper than the key. -/
  indentSequences : Bool
  /-- Columns from a dash to its value, if they differ from the unit. -/
  ownValueIndent : Option Nat
  /-- Later lines of a scalar align with its first column where it starts within a
  line. -/
  alignScalars : Bool
deriving Repr, DecidableEq

namespace Style

def default : Style := ⟨2, true, none, false⟩

instance : Inhabited Style := ⟨default⟩

/-- Columns from a dash to its value. -/
def valueIndent (s : Style) : Nat := s.ownValueIndent.getD s.unit

/-- A width as a number of columns. Widths that leave the range of column numbers
count as two. -/
def columns (width : Nat) : Int := if width < 2147483648 then width else 2

end Style

end YamlLayout
