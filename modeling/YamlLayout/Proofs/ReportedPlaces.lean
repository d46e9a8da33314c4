import YamlLayout.Proofs.InPlace
import YamlLayout.Report

/-!
# Reported places

A report counts lines and columns from the start of the text, the line table finds them
from an offset. The two places agree, except at the end of a text that ends in a line
feed: the report is on a new line there, while the line table has none.
-/
namespace YamlLayout

namespace Report

/-- The place after a character. -/
def Mark.next (place : Mark) (c : Char) : Mark :=
  if c == '\n' then ⟨place.line + 1, 1⟩ else ⟨place.line, place.column + 1⟩

theorem mark_go_append (place : Mark) (position : Nat) (before after : List Char) :
    mark.go (position + Text.byteLength before) place position (before ++ after) =
      before.foldl Mark.next place := by
  induction before generalizing place position with
  | nil => cases after <;> simp [mark.go, Text.byteLength]
  | cons c cs ih =>
    have hsize := c.utf8Size_pos
    have hne : (position == position + Text.byteLength (c :: cs)) = false := by
      simp [Text.byteLength]
      omega
    have hnext := ih (place.next c) (position + c.utf8Size)
    rw [Nat.add_assoc] at hnext
    rw [List.cons_append, mark.go, hne]
    exact hnext

/-- The line is one more than the line feeds passed, and the column one more than the
characters passed since the last of them. -/
theorem foldl_next (before : List Char) :
    before.foldl Mark.next ⟨1, 1⟩ =
      ⟨before.count '\n' + 1, (before.reverse.takeWhile (· != '\n')).length + 1⟩ := by
  induction before using List.reverseRecOn with
  | nil => rfl
  | append_singleton cs c ih =>
    rw [List.foldl_append, ih, List.count_append, List.reverse_append]
    by_cases hc : c = '\n'
    · simp [Mark.next, hc]
    · simp [Mark.next, hc]

theorem mark_cursor (c : Cursor) :
    mark c.text c.offset =
      ⟨c.before.count '\n' + 1, (c.before.takeWhile (· != '\n')).length + 1⟩ := by
  have hplace := mark_go_append ⟨1, 1⟩ 0 c.before.reverse c.rest
  rw [Nat.zero_add, Text.byteLength_reverse, foldl_next, List.count_reverse,
    List.reverse_reverse] at hplace
  exact hplace

end Report

namespace Cursor

theorem position_of_not_final {c : Cursor} (h : ¬(c.rest = [] ∧ c.before.head? = some '\n')) :
    c.position = ⟨c.before.count '\n' + 1, (c.before.takeWhile (· != '\n')).length⟩ := by
  unfold position
  split
  · rename_i hrest hbefore
    exact absurd ⟨hrest, by rw [hbefore]; rfl⟩ h
  · rfl

theorem position_of_final {c : Cursor} (h : c.rest = [] ∧ c.before.head? = some '\n') :
    c.position =
      ⟨c.before.count '\n', (c.before.tail.takeWhile (· != '\n')).length + 1⟩ := by
  obtain ⟨earlier, hbefore⟩ := List.head?_eq_some_iff.mp h.2
  simp [position, h.1, hbefore]

/-- Neither the line nor the column is greater than the number of bytes, but for the one
line of an empty text. -/
theorem position_le (c : Cursor) :
    c.line ≤ max 1 (Text.byteLength c.text) ∧ c.column ≤ Text.byteLength c.text := by
  have hlength := Text.length_le_byteLength c.text
  rw [text, List.length_append, List.length_reverse, ← text] at hlength
  have hcount : c.before.count '\n' ≤ c.before.length := List.count_le_length
  by_cases hfinal : c.rest = [] ∧ c.before.head? = some '\n'
  · have hpos := List.length_pos_of_mem (List.mem_of_mem_head? hfinal.2)
    have hwidth := (c.before.tail.takeWhile_sublist (· != '\n')).length_le
    rw [List.length_tail] at hwidth
    rw [line, column, position_of_final hfinal]
    constructor <;> dsimp only <;> omega
  · have hwidth := (c.before.takeWhile_sublist (· != '\n')).length_le
    rw [line, column, position_of_not_final hfinal]
    refine ⟨?_, by dsimp only; omega⟩
    dsimp only
    cases hrest : c.rest with
    | cons d ds =>
      rw [hrest, List.length_cons] at hlength
      omega
    | nil =>
      cases hbefore : c.before with
      | nil => simp
      | cons d earlier =>
        -- The last character is no line feed, so one character at least opens no line.
        have hd : d ≠ '\n' := by
          intro hd
          exact hfinal ⟨hrest, by rw [hbefore, hd]; rfl⟩
        have hearlier : earlier.count '\n' ≤ earlier.length := List.count_le_length
        rw [hbefore, List.length_cons] at hlength
        rw [List.count_cons_of_ne hd]
        omega

end Cursor

instance (text : List Char) (offset : Nat) : Decidable (Text.OnBoundary text offset) :=
  inferInstanceAs (Decidable ((Text.splitAt? text offset).isSome = true))

/-- Every offset between two characters is that of a cursor. -/
theorem Text.OnBoundary.exists_cursor {text : List Char} {offset : Nat}
    (h : Text.OnBoundary text offset) : ∃ c : Cursor, c.text = text ∧ c.offset = offset := by
  obtain ⟨⟨front, back⟩, hcut⟩ := Option.isSome_iff_exists.mp h
  obtain ⟨htext, hoffset⟩ := Text.splitAt?_eq_some_iff.mp hcut
  refine ⟨⟨front.reverse, back⟩, ?_, ?_⟩
  · rw [Cursor.text, List.reverse_reverse, htext]
  · rw [Cursor.offset, Text.byteLength_reverse, hoffset]

/-- A cursor is behind the line feed that ends the text. -/
theorem Cursor.final_iff (c : Cursor) :
    (c.rest = [] ∧ c.before.head? = some '\n') ↔
      (c.offset = Text.byteLength c.text ∧ c.text.getLast? = some '\n') := by
  have hend : c.offset = Text.byteLength c.text ↔ c.rest = [] := by
    rw [offset, text, Text.byteLength_append, Text.byteLength_reverse]
    cases c.rest with
    | nil => simp [Text.byteLength]
    | cons d ds =>
      have hsize := d.utf8Size_pos
      simp [Text.byteLength]
      omega
  rw [hend]
  refine and_congr_right fun hrest => ?_
  rw [text, hrest, List.append_nil, List.getLast?_reverse]

namespace Report

/-- Between any two characters of a text, and at its ends, the place that is reported is the
position in the line table, with the column counted from one. Only at the end of a text that
ends in a line feed the report is at the start of a line that the table does not have: the
position stays behind the line feed, on the line which that ends. Positions in texts of less
than 2^32 bytes fit in 32 bits. -/
theorem mark_eq_position {text : List Char} {offset : Nat} (h : Text.OnBoundary text offset) :
    let place := (LineTable.ofText text).position offset
    (¬(offset = Text.byteLength text ∧ text.getLast? = some '\n') →
        mark text offset = ⟨place.line, place.column + 1⟩) ∧
      (offset = Text.byteLength text ∧ text.getLast? = some '\n' →
        mark text offset = ⟨place.line + 1, 1⟩ ∧ 0 < place.column) ∧
      (Text.byteLength text < 2 ^ 32 → place.line < 2 ^ 32 ∧ place.column < 2 ^ 32) := by
  obtain ⟨c, rfl, rfl⟩ := h.exists_cursor
  rw [← c.position_eq, mark_cursor, ← c.final_iff]
  refine ⟨fun hfinal => ?_, fun hfinal => ?_, fun hsmall => ?_⟩
  · rw [Cursor.position_of_not_final hfinal]
  · obtain ⟨earlier, hbefore⟩ := List.head?_eq_some_iff.mp hfinal.2
    rw [Cursor.position_of_final hfinal, hbefore]
    simp
  · obtain ⟨hline, hcolumn⟩ := c.position_le
    rw [Cursor.line] at hline
    rw [Cursor.column] at hcolumn
    omega

/-- The end of a text with a character of two bytes and an empty line. -/
theorem mark_eq_position_column :
    Text.OnBoundary "é\n\n x".toList 6 ∧ mark "é\n\n x".toList 6 = ⟨3, 3⟩ := by
  have hboundary : Text.OnBoundary "é\n\n x".toList 6 := by decide +kernel
  have hfinal : ¬(6 = Text.byteLength "é\n\n x".toList ∧
      "é\n\n x".toList.getLast? = some '\n') := by
    decide +kernel
  refine ⟨hboundary, ?_⟩
  rw [(mark_eq_position hboundary).1 hfinal]
  decide +kernel

/-- The end of a flow sequence that is not closed, behind a line feed: the report is on line
two, and the line table has one line. -/
theorem mark_ne_position_final :
    Text.byteLength "[\n".toList < 2 ^ 32 ∧ Text.OnBoundary "[\n".toList 2 ∧
      mark "[\n".toList 2 = ⟨2, 1⟩ ∧ (LineTable.ofText "[\n".toList).position 2 = ⟨1, 2⟩ ∧
      mark "[\n".toList 2 ≠ ⟨((LineTable.ofText "[\n".toList).position 2).line,
        ((LineTable.ofText "[\n".toList).position 2).column + 1⟩ := by
  decide +kernel

end Report

end YamlLayout
