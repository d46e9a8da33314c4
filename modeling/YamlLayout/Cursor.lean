import YamlLayout.LineTable

/-!
# Cursors

A cursor splits a text into the characters already read, latest first, and the
characters still to come. Offset, line and column are read off the first part, so
moving a cursor cannot put them out of step with the text.
-/
namespace YamlLayout

structure Cursor where
  before : List Char
  rest : List Char
deriving Repr, DecidableEq

namespace Cursor

def ofText (text : List Char) : Cursor := ⟨[], text⟩

def text (c : Cursor) : List Char := c.before.reverse ++ c.rest

@[simp] theorem text_ofText (text : List Char) : (ofText text).text = text := rfl

/-- Reads `n` characters, or all that are left. -/
def move (c : Cursor) (n : Nat) : Cursor :=
  ⟨(c.rest.take n).reverse ++ c.before, c.rest.drop n⟩

@[simp] theorem text_move (c : Cursor) (n : Nat) : (c.move n).text = c.text := by
  simp [move, text]

@[simp] theorem rest_move (c : Cursor) (n : Nat) : (c.move n).rest = c.rest.drop n := rfl

@[simp] theorem move_zero (c : Cursor) : c.move 0 = c := by
  simp [move]

theorem move_move (c : Cursor) (m n : Nat) : (c.move m).move n = c.move (m + n) := by
  simp only [move, List.drop_drop, Cursor.mk.injEq, and_true]
  rw [List.take_add, List.reverse_append, List.append_assoc]

def peek? (c : Cursor) : Option Char := c.rest.head?

def offset (c : Cursor) : Nat := Text.byteLength c.before

theorem offset_move (c : Cursor) (n : Nat) :
    (c.move n).offset = c.offset + Text.byteLength (c.rest.take n) := by
  simp [offset, move, Nat.add_comm]

/-- Line and column. At the end of a text that ends in a line feed the cursor is
still on the line which that line feed ends. -/
def position (c : Cursor) : Position :=
  match c.rest, c.before with
  | [], '\n' :: earlier =>
    ⟨earlier.count '\n' + 1, (earlier.takeWhile (· != '\n')).length + 1⟩
  | _, before => ⟨before.count '\n' + 1, (before.takeWhile (· != '\n')).length⟩

def line (c : Cursor) : Nat := c.position.line

def column (c : Cursor) : Nat := c.position.column

/-- The next character ends the line, or there is none. -/
def atBreak (c : Cursor) : Bool :=
  match c.rest with
  | [] => true
  | d :: _ => isBreak d

def atLineStart (c : Cursor) : Bool :=
  match c.before with
  | [] => true
  | d :: _ => d == '\n'

/-- Nothing but blanks separates the start of the line from the cursor. -/
def onlyBlanksBefore (c : Cursor) : Bool := (c.before.takeWhile (· != '\n')).all isBlank

/-- The next character is the first of its line that is neither a blank nor the
start of a comment. -/
def atContentStart (c : Cursor) : Bool :=
  match c.rest with
  | [] => false
  | d :: _ => !isBreak d && !isBlank d && d != '#' && c.onlyBlanksBefore

/-- The character just read was a blank. -/
def afterBlank (c : Cursor) : Bool := c.before.head?.any isBlank

/-- Passes over blanks. -/
def skipBlanks (c : Cursor) : Cursor := c.move (c.rest.takeWhile isBlank).length

@[simp] theorem text_skipBlanks (c : Cursor) : c.skipBlanks.text = c.text := text_move ..

@[simp] theorem rest_skipBlanks (c : Cursor) : c.skipBlanks.rest = c.rest.dropWhile isBlank :=
  Text.drop_length_takeWhile ..

/-- Passes over a line break: a carriage return, a line feed, or both. -/
def skipBreak (c : Cursor) : Cursor :=
  match c.rest with
  | '\r' :: '\n' :: _ => c.move 2
  | '\r' :: _ => c.move 1
  | '\n' :: _ => c.move 1
  | _ => c

@[simp] theorem text_skipBreak (c : Cursor) : c.skipBreak.text = c.text := by
  unfold skipBreak
  split <;> simp

theorem length_rest_skipBreak_lt {c : Cursor} {d : Char} {ds : List Char}
    (h : c.rest = d :: ds) (hd : isBreak d = true) :
    c.skipBreak.rest.length < c.rest.length := by
  unfold skipBreak
  split
  · rename_i e
    simp only [rest_move, e, List.drop_succ_cons, List.drop_zero, List.length_cons]
    omega
  · rename_i e
    simp only [rest_move, e, List.drop_succ_cons, List.drop_zero, List.length_cons]
    omega
  · rename_i e
    simp only [rest_move, e, List.drop_succ_cons, List.drop_zero, List.length_cons]
    omega
  · rename_i other _ carriage feed
    rw [h] at carriage feed
    simp only [isBreak, Bool.or_eq_true, beq_iff_eq] at hd
    rcases hd with rfl | rfl
    · exact absurd rfl (feed ds)
    · exact absurd rfl (carriage ds)

end Cursor

end YamlLayout
