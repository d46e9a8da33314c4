import YamlLayout.Text

/-!
# Line tables

The lines of a text, each kept with its line feed. Line numbers start at one, and
a line feed that ends the text opens no further line. Line zero and every line
past the last one are empty and sit at the two ends of the text.
-/
namespace YamlLayout

/-- A line and a column, the line counted from one and the column in characters
from zero. -/
structure Position where
  line : Nat
  column : Nat
deriving Repr, DecidableEq, Inhabited

namespace Text

/-- The lines of a text, each with the line feed that ends it. -/
def splitLines : List Char → List (List Char)
  | [] => []
  | c :: cs =>
    if c == '\n' then [c] :: splitLines cs
    else
      match splitLines cs with
      | [] => [[c]]
      | line :: lines => (c :: line) :: lines

@[simp] theorem flatten_splitLines (text : List Char) : (splitLines text).flatten = text := by
  induction text with
  | nil => rfl
  | cons c cs ih =>
    simp only [splitLines]
    split
    · simp [ih]
    · split
      · rename_i h
        rw [h] at ih
        simp [← ih]
      · rename_i h
        rw [h] at ih
        simp [← ih]

/-- A line without its line break: one line feed, then one carriage return. -/
def stripBreak (line : List Char) : List Char :=
  let line := if line.getLast? == some '\n' then line.dropLast else line
  if line.getLast? == some '\r' then line.dropLast else line

/-- The number of spaces a line starts with. -/
def leadingSpaces (line : List Char) : Nat := (line.takeWhile (· == ' ')).length

end Text

/-- The lines of a text, in order. An empty text has one empty line. -/
structure LineTable where
  rows : List (List Char)
deriving Repr, DecidableEq

namespace LineTable

def ofText (text : List Char) : LineTable :=
  match Text.splitLines text with
  | [] => ⟨[[]]⟩
  | rows => ⟨rows⟩

@[simp] theorem flatten_rows_ofText (text : List Char) : (ofText text).rows.flatten = text := by
  have h := Text.flatten_splitLines text
  unfold ofText
  split
  · rename_i e
    rw [e] at h
    simpa using h
  · exact h

def count (t : LineTable) : Nat := t.rows.length

/-- The length of the text in bytes. -/
def size (t : LineTable) : Nat := Text.byteLength t.rows.flatten

/-- The offset at which a line starts; the end of the text for a line past the
last one. -/
def start (t : LineTable) (line : Nat) : Nat :=
  Text.byteLength (t.rows.take (line - 1)).flatten

/-- The characters of a line, its line break included. -/
def row (t : LineTable) (line : Nat) : List Char :=
  if line = 0 then [] else t.rows[line - 1]?.getD []

/-- The characters of a line without its line break. -/
def content (t : LineTable) (line : Nat) : List Char := Text.stripBreak (t.row line)

/-- The offset at which the content of a line ends. -/
def stop (t : LineTable) (line : Nat) : Nat :=
  t.start line + Text.byteLength (t.content line)

def leading (t : LineTable) (line : Nat) : Nat := Text.leadingSpaces (t.content line)

def isBlankLine (t : LineTable) (line : Nat) : Bool := (t.content line).all isBlank

/-- The offsets at which rows start when the first of them starts at `offset`. -/
def startsFrom (offset : Nat) : List (List Char) → List Nat
  | [] => []
  | row :: rows => offset :: startsFrom (offset + Text.byteLength row) rows

/-- The offsets at which lines start. -/
def starts (t : LineTable) : List Nat := startsFrom 0 t.rows

/-- The line an offset falls on; the last line for every offset past the text. -/
def lineOf (t : LineTable) (offset : Nat) : Nat := t.starts.countP (· ≤ offset)

/-- The line and column of an offset. The column is zero inside a character. -/
def position (t : LineTable) (offset : Nat) : Position :=
  let line := t.lineOf offset
  let within := min offset t.size - t.start line
  ⟨line, ((Text.splitAt? (t.row line) within).map fun cut => cut.1.length).getD 0⟩

end LineTable

end YamlLayout
