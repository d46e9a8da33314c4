import Mathlib
import YamlLayout.Proofs.ReportedPlaces

/-!
# Lines as ranges of offsets

A line reaches from the offset at which it starts to the one at which the next line
starts. The lines of a text cover its offsets without a gap and without a common offset,
`lineOf` finds the one that an offset lies on, and of two places in a text the later one
has the later position.
-/
namespace YamlLayout

/-- The place comes before another one, by line and then by column. -/
def Position.Before (a b : Position) : Prop :=
  a.line < b.line ∨ (a.line = b.line ∧ a.column < b.column)

theorem Position.Before.trans {a b c : Position} (hab : a.Before b) (hbc : b.Before c) :
    a.Before c := by
  unfold Position.Before at *
  omega

namespace Cursor

variable {c : Cursor}

/-- The place behind a character comes after the one in front of it, also where the
character is the line feed that ends the text. -/
theorem position_before_move_one {d : Char} {ds : List Char} (h : c.rest = d :: ds) :
    c.position.Before (c.move 1).position := by
  have hmove : c.move 1 = ⟨d :: c.before, ds⟩ := by simp [move, h]
  have hhere : ¬(c.rest = [] ∧ c.before.head? = some '\n') := by simp [h]
  rw [position_of_not_final hhere, hmove]
  by_cases hfinal : ds = [] ∧ (d :: c.before).head? = some '\n'
  · obtain rfl : d = '\n' := by simpa using hfinal.2
    rw [position_of_final hfinal]
    exact .inr ⟨by simp, by simp⟩
  · rw [position_of_not_final hfinal]
    by_cases hd : d = '\n'
    · exact .inl (by simp [hd])
    · exact .inr ⟨by simp [hd], by simp [hd]⟩

theorem position_before_move {n : Nat} (hpos : 0 < n) (hle : n ≤ c.rest.length) :
    c.position.Before (c.move n).position := by
  induction n with
  | zero => exact absurd hpos (Nat.lt_irrefl 0)
  | succ n ih =>
    have hlt : 0 < (c.move n).rest.length := by
      rw [rest_move, List.length_drop]
      omega
    obtain ⟨d, ds, hrest⟩ := List.exists_cons_of_length_pos hlt
    have hstep := position_before_move_one hrest
    rw [move_move] at hstep
    rcases Nat.eq_zero_or_pos n with rfl | hn
    · simpa using hstep
    · exact (ih hn (Nat.le_of_succ_le hle)).trans hstep

/-- A cursor further on in the same text is reached by reading. -/
theorem exists_move_of_offset_lt {e : Cursor} (htext : c.text = e.text)
    (hlt : c.offset < e.offset) : ∃ n, 0 < n ∧ n ≤ c.rest.length ∧ e = c.move n := by
  have hle : Text.byteLength c.before.reverse ≤ Text.byteLength e.before.reverse := by
    simpa [offset] using Nat.le_of_lt hlt
  obtain ⟨mid, hbefore, hrest⟩ := Text.exists_append_of_byteLength_le htext hle
  have hmid : mid ≠ [] := by
    rintro rfl
    rw [List.append_nil, List.reverse_inj] at hbefore
    rw [offset, offset, hbefore] at hlt
    exact Nat.lt_irrefl _ hlt
  refine ⟨mid.length, List.length_pos_of_ne_nil hmid, by simp [hrest], ?_⟩
  have hback : e.before = mid.reverse ++ c.before := by
    rw [← List.reverse_inj, hbefore, List.reverse_append, List.reverse_reverse]
  obtain ⟨before, rest⟩ := e
  simp only at hback hrest
  simp [move, hrest, hback]

end Cursor

namespace LineTable

variable {lines : LineTable} {text : List Char} {line offset : Nat}

/-- A line ends where the next one starts. -/
theorem start_succ (hpos : 0 < line) :
    lines.start (line + 1) = lines.start line + Text.byteLength (lines.row line) := by
  obtain ⟨n, rfl⟩ := Nat.exists_eq_succ_of_ne_zero (Nat.ne_of_gt hpos)
  simp only [start, row, Nat.succ_eq_add_one, Nat.add_sub_cancel, Nat.add_eq_zero_iff,
    Nat.one_ne_zero, and_false, if_false]
  rw [List.take_add_one, List.flatten_append, Text.byteLength_append]
  cases lines.rows[n]? <;> simp

theorem start_count_succ (lines : LineTable) : lines.start (lines.count + 1) = lines.size := by
  rw [start, Nat.add_sub_cancel, count, List.take_length, size]

theorem start_le_size (lines : LineTable) (line : Nat) : lines.start line ≤ lines.size := by
  rw [start, size, ← List.take_append_drop (line - 1) lines.rows, List.flatten_append,
    Text.byteLength_append, List.take_append_drop]
  exact Nat.le_add_right ..

/-- As rows start one after the other, those that have started up to an offset are the
first ones. -/
theorem lt_countP_startsFrom_iff {first n : Nat} {rows : List (List Char)}
    (h : n < rows.length) :
    n < (startsFrom first rows).countP (· ≤ offset) ↔
      first + Text.byteLength (rows.take n).flatten ≤ offset := by
  induction rows generalizing first n with
  | nil => cases h
  | cons row rows ih =>
    rw [startsFrom]
    by_cases hfirst : first ≤ offset
    · rw [List.countP_cons_of_pos (by simpa using hfirst)]
      cases n with
      | zero => simpa [Text.byteLength] using hfirst
      | succ n =>
        rw [Nat.add_lt_add_iff_right, ih (by simpa using h), List.take_succ_cons,
          List.flatten_cons, Text.byteLength_append, Nat.add_assoc]
    · -- The rows after one that starts too far on start further on still.
      have hnone : (startsFrom (first + Text.byteLength row) rows).countP (· ≤ offset) = 0 := by
        rw [List.countP_eq_zero]
        intro start hstart
        have hbounds := bounds_of_mem_startsFrom hstart
        rw [decide_eq_true_eq]
        omega
      rw [List.countP_cons_of_neg (by simpa using hfirst), hnone]
      omega

theorem le_lineOf_iff (hpos : 0 < line) (hle : line ≤ lines.count) :
    line ≤ lines.lineOf offset ↔ lines.start line ≤ offset := by
  have hlt : line - 1 < lines.rows.length := by
    unfold count at hle
    omega
  have hcount : line - 1 < lines.lineOf offset ↔
      0 + Text.byteLength (lines.rows.take (line - 1)).flatten ≤ offset :=
    lt_countP_startsFrom_iff hlt
  rw [Nat.zero_add, ← start] at hcount
  omega

theorem lineOf_le_iff (h : offset < lines.size) (hle : line ≤ lines.count) :
    lines.lineOf offset ≤ line ↔ offset < lines.start (line + 1) := by
  rcases Nat.lt_or_eq_of_le hle with hlt | rfl
  · have hnext : line + 1 ≤ lines.lineOf offset ↔ lines.start (line + 1) ≤ offset :=
      le_lineOf_iff (Nat.succ_pos line) hlt
    omega
  · rw [start_count_succ]
    exact iff_of_true (lines.lineOf_le_count offset) h

/-- The line of an offset is the only one that reaches over it. -/
theorem lineOf_eq_iff (h : offset < lines.size) :
    lines.lineOf offset = line ↔
      0 < line ∧ line ≤ lines.count ∧ lines.start line ≤ offset ∧
        offset < lines.start (line + 1) := by
  constructor
  · rintro rfl
    have hlast := lines.lineOf_le_count offset
    have hpos : 0 < lines.lineOf offset := by
      apply Nat.pos_of_ne_zero
      intro hzero
      have hbefore := (lineOf_le_iff h (Nat.zero_le _)).mp (Nat.le_of_eq hzero)
      simp [start, Text.byteLength] at hbefore
    exact ⟨hpos, hlast, (le_lineOf_iff hpos hlast).mp (Nat.le_refl _),
      (lineOf_le_iff h hlast).mp (Nat.le_refl _)⟩
  · rintro ⟨hpos, hle, hstart, hstop⟩
    exact Nat.le_antisymm ((lineOf_le_iff h hle).mpr hstop) ((le_lineOf_iff hpos hle).mpr hstart)

theorem size_ofText (text : List Char) : (ofText text).size = Text.byteLength text := by
  rw [size, flatten_rows_ofText]

/-- Only the one line of an empty text is empty. -/
theorem start_lt_start_succ (hne : text ≠ []) (hpos : 0 < line)
    (hle : line ≤ (ofText text).count) :
    (ofText text).start line < (ofText text).start (line + 1) := by
  have hrows := Text.rows_ofText (mt Text.splitLines_eq_nil_iff.mp hne)
  have hlt : line - 1 < (ofText text).rows.length := by
    unfold count at hle
    omega
  have hrow : (ofText text).row line = (ofText text).rows[line - 1] := by
    rw [row, if_neg (Nat.ne_of_gt hpos), List.getElem?_eq_getElem hlt, Option.getD_some]
  have hmem : (ofText text).row line ∈ Text.splitLines text := by
    rw [hrow, ← hrows]
    exact List.getElem_mem hlt
  obtain ⟨content, -, hfeed⟩ := Text.exists_content_of_mem_splitLines hmem
  have hsome : (ofText text).row line ≠ [] := by
    rcases hfeed with hfeed | ⟨hfeed, hcontent⟩
    · simp [hfeed]
    · rwa [hfeed]
  have hbytes : 0 < Text.byteLength ((ofText text).row line) :=
    Nat.pos_of_ne_zero (mt Text.byteLength_eq_zero hsome)
  rw [start_succ hpos]
  omega

/-- In front of a character, a line starts where the text starts and behind each line
feed. -/
theorem exists_start_iff {before after : List Char} (htext : text = before ++ after)
    (hafter : after ≠ []) :
    (∃ line, 0 < line ∧ line ≤ (ofText text).count ∧
        (ofText text).start line = Text.byteLength before) ↔ Text.WholeLines before := by
  constructor
  · rintro ⟨line, hpos, hle, hstart⟩
    have hne : text ≠ [] := by simp [htext, hafter]
    have hrows := Text.rows_ofText (mt Text.splitLines_eq_nil_iff.mp hne)
    have hlt : line - 1 < (Text.splitLines text).length := by
      rw [count, hrows] at hle
      omega
    -- The rows in front of the line are the text in front of its offset.
    have hcut := List.take_append_drop (line - 1) (Text.splitLines text)
    rw [List.drop_eq_getElem_cons hlt] at hcut
    have hjoin := congrArg List.flatten hcut
    rw [List.flatten_append, Text.flatten_splitLines] at hjoin
    rw [start, hrows] at hstart
    obtain ⟨rfl, -⟩ := Text.eq_of_byteLength_eq (hjoin.trans htext) hstart
    exact Text.wholeLines_of_splitLines hcut.symm
  · intro hwhole
    obtain ⟨c, cs, rfl⟩ := List.exists_cons_of_ne_nil hafter
    obtain ⟨row, rest, hrow, hfeed, hrest⟩ := Text.exists_first_row (c :: cs)
    have hline : Text.Row text (before.count '\n' + 1) before row rest :=
      ⟨by rw [htext, hrow], hwhole, rfl, hfeed, hrest⟩
    have hlast := (ofText text).lineOf_le_count (Text.byteLength before)
    have hat := lineOf_eq before cs c.utf8Size_pos
    rw [← htext, Nat.add_zero] at hat
    rw [hat] at hlast
    exact ⟨_, Nat.succ_pos _, hlast, start_eq hline⟩

/-- The lines of a table are those of a text, and its lookups find them. Line numbers and
columns of a text of less than 2^32 bytes fit in 32 bits. -/
structure Exact (lines : LineTable) (text : List Char) : Prop where
  /-- In front of a character, a line starts at the start of the text or behind a line feed. -/
  start_iff : ∀ before after, text = before ++ after → after ≠ [] →
    ((∃ line ∈ Set.Icc 1 lines.count, lines.start line = Text.byteLength before) ↔
      Text.WholeLines before)
  /-- Together the lines are the text, -/
  covers : ⋃ line ∈ Set.Icc 1 lines.count, Set.Ico (lines.start line) (lines.start (line + 1)) =
    Set.Iio (Text.byteLength text)
  /-- no two of them share an offset, -/
  disjoint : (Set.Icc 1 lines.count).PairwiseDisjoint fun line =>
    Set.Ico (lines.start line) (lines.start (line + 1))
  /-- and only the line of an empty text has none. -/
  nonempty : text ≠ [] → ∀ line ∈ Set.Icc 1 lines.count,
    (Set.Ico (lines.start line) (lines.start (line + 1))).Nonempty
  lineOf_iff : ∀ offset < Text.byteLength text, ∀ line,
    lines.lineOf offset = line ↔
      line ∈ Set.Icc 1 lines.count ∧ offset ∈ Set.Ico (lines.start line) (lines.start (line + 1))
  lineOf_end : lines.lineOf (Text.byteLength text) = lines.count
  position_before : ∀ a b, Text.OnBoundary text a → Text.OnBoundary text b → a < b →
    (lines.position a).Before (lines.position b)
  fits_word : Text.byteLength text < 2 ^ 32 → lines.count < 2 ^ 32 ∧
    ∀ offset, Text.OnBoundary text offset → (lines.position offset).column < 2 ^ 32

theorem lineOf_iff_mem (h : offset < Text.byteLength text) :
    (ofText text).lineOf offset = line ↔ line ∈ Set.Icc 1 (ofText text).count ∧
      offset ∈ Set.Ico ((ofText text).start line) ((ofText text).start (line + 1)) := by
  rw [← size_ofText] at h
  rw [lineOf_eq_iff h, Set.mem_Icc, Set.mem_Ico, and_assoc]
  rfl

theorem lt_of_mem_Ico (h : offset ∈ Set.Ico (lines.start line) (lines.start (line + 1))) :
    offset < lines.size :=
  Nat.lt_of_lt_of_le h.2 (lines.start_le_size (line + 1))

theorem position_before_of_lt {a b : Nat} (ha : Text.OnBoundary text a)
    (hb : Text.OnBoundary text b) (hlt : a < b) :
    ((ofText text).position a).Before ((ofText text).position b) := by
  obtain ⟨c, rfl, rfl⟩ := ha.exists_cursor
  obtain ⟨e, htext, rfl⟩ := hb.exists_cursor
  obtain ⟨n, hpos, hle, rfl⟩ := Cursor.exists_move_of_offset_lt htext.symm hlt
  have hbefore := Cursor.position_before_move hpos hle
  rwa [c.position_eq, (c.move n).position_eq, Cursor.text_move] at hbefore

theorem count_le_byteLength (text : List Char) :
    (ofText text).count ≤ max 1 (Text.byteLength text) := by
  have hend : Text.OnBoundary text (Text.byteLength text) := by
    simpa using Text.onBoundary_append text []
  obtain ⟨c, htext, hoffset⟩ := hend.exists_cursor
  have hline := c.position_le.1
  rw [Cursor.line, c.position_eq, htext, hoffset, position, lineOf_byteLength] at hline
  exact hline

/-- The line table of every text is exact. -/
theorem exact_ofText (text : List Char) : (ofText text).Exact text where
  start_iff before after htext hafter := by
    rw [← exists_start_iff htext hafter]
    simp only [Set.mem_Icc, and_assoc, Nat.lt_iff_add_one_le, Nat.zero_add]
  covers := by
    ext offset
    simp only [Set.mem_iUnion, exists_prop, Set.mem_Iio]
    constructor
    · rintro ⟨line, -, hmem⟩
      exact size_ofText text ▸ lt_of_mem_Ico hmem
    · exact fun hlt => ⟨_, (lineOf_iff_mem hlt).mp rfl⟩
  disjoint := by
    intro line hline other hother hne
    rw [Function.onFun, Set.disjoint_left]
    intro offset hmem hmem'
    have hlt : offset < Text.byteLength text := size_ofText text ▸ lt_of_mem_Ico hmem
    apply hne
    rw [← (lineOf_iff_mem hlt).mpr ⟨hline, hmem⟩, ← (lineOf_iff_mem hlt).mpr ⟨hother, hmem'⟩]
  nonempty hne line hline := Set.nonempty_Ico.mpr (start_lt_start_succ hne hline.1 hline.2)
  lineOf_iff offset hlt line := lineOf_iff_mem hlt
  lineOf_end := lineOf_byteLength text
  position_before a b ha hb hlt := position_before_of_lt ha hb hlt
  fits_word hsmall := by
    refine ⟨?_, fun offset hoffset => ?_⟩
    · have hcount := count_le_byteLength text
      omega
    · obtain ⟨c, rfl, rfl⟩ := hoffset.exists_cursor
      have hcolumn := c.position_le.2
      rw [Cursor.column, c.position_eq] at hcolumn
      omega

end LineTable

end YamlLayout
