import YamlLayout.Proofs.Measured

/-!
# The place of a cursor

A cursor counts its line and column from the characters behind it, and the line
table finds them from an offset. The two agree at every cursor of a text.
-/
namespace YamlLayout

/-- Behind whole lines and a part of the next one, the latest characters are that part. -/
theorem Text.count_and_length_takeWhile {before whole front : List Char}
    (h : before.reverse = whole ++ front) (hwhole : WholeLines whole) (hfront : '\n' ∉ front) :
    before.count '\n' = whole.count '\n' ∧
      (before.takeWhile (· != '\n')).length = front.length := by
  have hbefore : before = front.reverse ++ whole.reverse := by
    rw [← List.reverse_append, ← h, List.reverse_reverse]
  have hstop : whole.reverse.takeWhile (· != '\n') = [] := by
    rcases hwhole with rfl | hlast
    · rfl
    · obtain ⟨lines, rfl⟩ := List.getLast?_eq_some_iff.mp hlast
      simp
  have hgoes : ∀ c ∈ front.reverse, (c != '\n') = true := by
    intro c hc
    have hne : c ≠ '\n' := fun heq => hfront (heq ▸ List.mem_reverse.mp hc)
    simpa using hne
  constructor
  · rw [← List.count_reverse, h, List.count_append, List.count_eq_zero_of_not_mem hfront,
      Nat.add_zero]
  · rw [hbefore, List.takeWhile_append_of_pos hgoes, hstop, List.append_nil, List.length_reverse]

namespace LineTable

variable {text before row after front back : List Char} {line : Nat}

theorem start_eq (h : Text.Row text line before row after) :
    (ofText text).start line = Text.byteLength before := by
  obtain ⟨hsplit, hlength⟩ := h.take_splitLines
  by_cases hnil : Text.splitLines text = []
  · rw [hnil] at hsplit
    have hbefore : Text.splitLines before = [] := (List.nil_eq_append_iff.mp hsplit).1
    rw [Text.splitLines_eq_nil_iff.mp hbefore, start, ← hlength, hbefore]
    rfl
  · rw [start, Text.rows_ofText hnil, hsplit, ← hlength, List.take_left, Text.flatten_splitLines]

/-- The column on a line is the number of characters in front of it there. -/
theorem position_eq (h : Text.Row text line before row after)
    (hcut : row ++ after.take 1 = front ++ back)
    (hline : (ofText text).lineOf (Text.byteLength (before ++ front)) = line) :
    (ofText text).position (Text.byteLength (before ++ front)) = ⟨line, front.length⟩ := by
  have hsize : Text.byteLength (before ++ front) ≤ (ofText text).size := by
    have htext : text = before ++ front ++ (back ++ after.drop 1) := by
      rw [h.text_eq, List.append_assoc, ← List.append_assoc front, ← hcut, List.append_assoc,
        List.take_append_drop]
    rw [size, flatten_rows_ofText, htext, Text.byteLength_append _ (back ++ _)]
    exact Nat.le_add_right ..
  have hwithin : min (Text.byteLength (before ++ front)) (ofText text).size -
      (ofText text).start line = Text.byteLength front := by
    rw [Nat.min_eq_left hsize, start_eq h, Text.byteLength_append, Nat.add_sub_cancel_left]
  have hsplit : Text.splitAt? ((ofText text).row line) (Text.byteLength front) =
      some (front, back) := by
    rw [h.row_eq, hcut]
    exact Text.splitAt?_eq_some_iff.mpr ⟨rfl, rfl⟩
  unfold position
  dsimp only
  rw [hline, hwithin, hsplit]
  rfl

/-- The end of a text lies on its last line. -/
theorem lineOf_byteLength (text : List Char) :
    (ofText text).lineOf (Text.byteLength text) = (ofText text).count := by
  rw [lineOf, List.countP_eq_length.mpr, starts, length_startsFrom, count]
  intro n hn
  have hbounds := (bounds_of_mem_startsFrom hn).2
  rw [flatten_rows_ofText, Nat.zero_add] at hbounds
  simpa using hbounds

/-- The last line, ended by a line feed or not, comes after whole lines. -/
theorem count_append {whole last : List Char} (hwhole : Text.WholeLines whole)
    (hlast : Text.splitLines last = [last]) :
    (ofText (whole ++ last)).count = whole.count '\n' + 1 := by
  have hsplit : Text.splitLines (whole ++ last) = Text.splitLines whole ++ [last] := by
    rw [Text.splitLines_append hwhole, hlast]
  rw [count, Text.rows_ofText (by simp [hsplit]), hsplit, List.length_append,
    hwhole.length_splitLines, List.length_singleton]

end LineTable

namespace Cursor

variable {c : Cursor}

theorem position_of_cons {d : Char} {ds : List Char} (h : c.rest = d :: ds) :
    c.position = (LineTable.ofText c.text).position c.offset := by
  obtain ⟨whole, front, hbefore, hwhole, hfront⟩ :=
    Text.exists_wholeLines_append c.before.reverse
  obtain ⟨hcount, hlength⟩ := Text.count_and_length_takeWhile hbefore hwhole hfront
  obtain ⟨back, after, hrest, hback, hafter⟩ := Text.exists_first_row c.rest
  have hrow : Text.Row c.text (whole.count '\n' + 1) whole (front ++ back) after := by
    refine ⟨?_, hwhole, rfl, ?_, hafter⟩
    · rw [text, hbefore, hrest]
      simp
    · simp [hfront, hback]
  have hline : (LineTable.ofText c.text).lineOf (Text.byteLength (whole ++ front)) =
      whole.count '\n' + 1 := by
    have hat := LineTable.lineOf_eq c.before.reverse ds d.utf8Size_pos
    rw [← h, List.count_reverse, hcount, Nat.add_zero, hbefore] at hat
    rw [text, hbefore]
    exact hat
  have hplace := LineTable.position_eq hrow (List.append_assoc front back (after.take 1)) hline
  rw [offset, ← Text.byteLength_reverse, hbefore, hplace, position, h]
  simp only [hcount, hlength]

/-- At the end of a text whose last line has no line feed. -/
theorem position_of_nil (h : c.rest = []) (hhead : c.before.head? ≠ some '\n') :
    c.position = (LineTable.ofText c.text).position c.offset := by
  obtain ⟨whole, front, hbefore, hwhole, hfront⟩ :=
    Text.exists_wholeLines_append c.before.reverse
  obtain ⟨hcount, hlength⟩ := Text.count_and_length_takeWhile hbefore hwhole hfront
  have htext : c.text = whole ++ front := by rw [text, h, List.append_nil, hbefore]
  have hrow : Text.Row c.text (whole.count '\n' + 1) whole front [] :=
    ⟨by rw [htext, List.append_nil], hwhole, rfl, hfront, .inl rfl⟩
  have hlines : (LineTable.ofText c.text).count = whole.count '\n' + 1 := by
    rw [htext]
    by_cases hnil : front = []
    · -- Whole lines in front of nothing would end in a line feed.
      rcases hwhole with rfl | hlast
      · rw [hnil]
        rfl
      · rw [← List.head?_reverse, ← List.append_nil whole, ← hnil, ← hbefore,
          List.reverse_reverse] at hlast
        exact absurd hlast hhead
    · exact LineTable.count_append hwhole (Text.splitLines_of_not_mem hfront hnil)
  have hline : (LineTable.ofText c.text).lineOf (Text.byteLength (whole ++ front)) =
      whole.count '\n' + 1 := by
    rw [← htext, LineTable.lineOf_byteLength, hlines]
  have hcut : front ++ ([] : List Char).take 1 = front ++ [] := rfl
  have hplace := LineTable.position_eq hrow hcut hline
  have hhere : c.position =
      ⟨c.before.count '\n' + 1, (c.before.takeWhile (· != '\n')).length⟩ := by
    unfold position
    split
    · rename_i hfeed
      rw [hfeed] at hhead
      exact absurd rfl hhead
    · rfl
  rw [offset, ← Text.byteLength_reverse, hbefore, hplace, hhere, hcount, hlength]

/-- At the end of a text the line feed counts as a character of the line it ends. -/
theorem position_of_feed {earlier : List Char} (h : c.rest = [])
    (hfeed : c.before = '\n' :: earlier) :
    c.position = (LineTable.ofText c.text).position c.offset := by
  obtain ⟨whole, front, hbefore, hwhole, hfront⟩ := Text.exists_wholeLines_append earlier.reverse
  obtain ⟨hcount, hlength⟩ := Text.count_and_length_takeWhile hbefore hwhole hfront
  have hreverse : c.before.reverse = whole ++ (front ++ ['\n']) := by
    rw [hfeed, List.reverse_cons, hbefore, List.append_assoc]
  have htext : c.text = whole ++ (front ++ ['\n']) := by
    rw [text, h, List.append_nil, hreverse]
  have hrow : Text.Row c.text (whole.count '\n' + 1) whole front ['\n'] :=
    ⟨htext, hwhole, rfl, hfront, .inr ⟨[], rfl⟩⟩
  have hline : (LineTable.ofText c.text).lineOf (Text.byteLength (whole ++ (front ++ ['\n']))) =
      whole.count '\n' + 1 := by
    rw [← htext, LineTable.lineOf_byteLength, htext,
      LineTable.count_append hwhole (Text.splitLines_append_feed hfront)]
  have hcut : front ++ ['\n'].take 1 = front ++ ['\n'] ++ [] := by simp
  have hplace := LineTable.position_eq hrow hcut hline
  rw [offset, ← Text.byteLength_reverse, hreverse, hplace, position, h, hfeed]
  simp only [hcount, hlength, List.length_append, List.length_singleton]

/-- The place of a cursor is the one of its offset. -/
theorem position_eq (c : Cursor) : c.position = (LineTable.ofText c.text).position c.offset := by
  cases hrest : c.rest with
  | cons d ds => exact position_of_cons hrest
  | nil =>
    cases hbefore : c.before with
    | nil => exact position_of_nil hrest (by simp [hbefore])
    | cons d earlier =>
      by_cases hd : d = '\n'
      · exact position_of_feed hrest (hd ▸ hbefore)
      · exact position_of_nil hrest (by simpa [hbefore] using hd)

end Cursor

end YamlLayout
