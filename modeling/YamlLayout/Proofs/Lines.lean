import YamlLayout.LineTable
import Mathlib.Data.List.Induction

/-!
# Lines of a text

A text that is empty or ends in a line feed consists of whole lines, and cutting a
text after whole lines cuts its lines in two. From this follow the line on which a
character stands and the offset at which its line starts.
-/
namespace YamlLayout.Text

/-- The text ends where a line ends. -/
def WholeLines (text : List Char) : Prop := text = [] ∨ text.getLast? = some '\n'

theorem wholeLines_nil : WholeLines [] := .inl rfl

theorem wholeLines_append_feed (text : List Char) : WholeLines (text ++ ['\n']) :=
  .inr (by simp)

theorem WholeLines.tail {c : Char} {cs : List Char} (h : WholeLines (c :: cs)) :
    WholeLines cs := by
  rcases cs with _ | ⟨d, ds⟩
  · exact .inl rfl
  · rcases h with h | h
    · cases h
    · exact .inr (by simpa using h)

theorem WholeLines.append {a b : List Char} (ha : WholeLines a) (hb : WholeLines b) :
    WholeLines (a ++ b) := by
  rcases hb with rfl | hb
  · simpa using ha
  · exact .inr (by simp [hb])

@[simp] theorem splitLines_eq_nil_iff {text : List Char} : splitLines text = [] ↔ text = [] := by
  constructor
  · intro h
    have hjoin := flatten_splitLines text
    rw [h] at hjoin
    exact hjoin.symm
  · rintro rfl
    rfl

theorem splitLines_append {a : List Char} (ha : WholeLines a) (b : List Char) :
    splitLines (a ++ b) = splitLines a ++ splitLines b := by
  induction a with
  | nil => rfl
  | cons c cs ih =>
    have hcs := ih ha.tail
    by_cases hc : c = '\n'
    · subst hc
      simp [splitLines, hcs]
    · -- A whole text that starts with another character goes on.
      have hne : cs ≠ [] := by
        rintro rfl
        rcases ha with h | h
        · cases h
        · exact hc (by simpa using h)
      obtain ⟨row, rows, hrows⟩ := List.exists_cons_of_ne_nil (mt splitLines_eq_nil_iff.mp hne)
      rw [hrows] at hcs
      simp [splitLines, hc, hcs, hrows]

theorem splitLines_of_not_mem {line : List Char} (h : '\n' ∉ line) (hne : line ≠ []) :
    splitLines line = [line] := by
  induction line with
  | nil => exact absurd rfl hne
  | cons c cs ih =>
    have hc : c ≠ '\n' := fun e => h (e ▸ List.mem_cons_self)
    have hcs : '\n' ∉ cs := fun m => h (List.mem_cons_of_mem c m)
    rcases cs with _ | ⟨d, ds⟩
    · simp [splitLines, hc]
    · have hrest := ih hcs (by simp)
      rw [splitLines, hrest]
      simp [hc]

theorem splitLines_append_feed {line : List Char} (h : '\n' ∉ line) :
    splitLines (line ++ ['\n']) = [line ++ ['\n']] := by
  induction line with
  | nil => rfl
  | cons c cs ih =>
    have hc : c ≠ '\n' := fun e => h (e ▸ List.mem_cons_self)
    have hcs : '\n' ∉ cs := fun m => h (List.mem_cons_of_mem c m)
    simp [splitLines, hc, ih hcs]

/-- The number of whole lines is the number of line feeds. -/
theorem WholeLines.length_splitLines {text : List Char} (h : WholeLines text) :
    (splitLines text).length = text.count '\n' := by
  induction text with
  | nil => rfl
  | cons c cs ih =>
    have hcs := ih h.tail
    by_cases hc : c = '\n'
    · subst hc
      simp [splitLines, hcs]
    · have hne : cs ≠ [] := by
        rintro rfl
        rcases h with h | h
        · cases h
        · exact hc (by simpa using h)
      obtain ⟨row, rows, hrows⟩ := List.exists_cons_of_ne_nil (mt splitLines_eq_nil_iff.mp hne)
      rw [List.count_cons_of_ne hc, ← hcs]
      simp [splitLines, hc, hrows]

/-- A line is its content with a line feed, or without one at the end of the text. -/
theorem exists_content_of_mem_splitLines {text row : List Char} (h : row ∈ splitLines text) :
    ∃ content, '\n' ∉ content ∧
      (row = content ++ ['\n'] ∨ (row = content ∧ content ≠ [])) := by
  induction text generalizing row with
  | nil => simp [splitLines] at h
  | cons c cs ih =>
    by_cases hc : c = '\n'
    · subst hc
      simp only [splitLines, beq_self_eq_true, if_true, List.mem_cons] at h
      rcases h with rfl | h
      · exact ⟨[], by simp, .inl rfl⟩
      · exact ih h
    · simp only [splitLines, beq_iff_eq, hc, if_false] at h
      split at h
      · simp only [List.mem_singleton] at h
        subst h
        exact ⟨[c], by simpa using Ne.symm hc, .inr ⟨rfl, by simp⟩⟩
      · rename_i line lines hlines
        rcases List.mem_cons.mp h with rfl | h
        · have hline : line ∈ splitLines cs := by simp [hlines]
          obtain ⟨content, hnot, hrow⟩ := ih hline
          refine ⟨c :: content, by simp [hnot, Ne.symm hc], ?_⟩
          rcases hrow with rfl | ⟨rfl, -⟩
          · exact .inl rfl
          · exact .inr ⟨rfl, by simp⟩
        · exact ih (by simp [hlines, h])

/-- Every text is whole lines and a rest without a line feed. -/
theorem exists_wholeLines_append (text : List Char) :
    ∃ whole line, text = whole ++ line ∧ WholeLines whole ∧ '\n' ∉ line := by
  induction text using List.reverseRecOn with
  | nil => exact ⟨[], [], rfl, wholeLines_nil, by simp⟩
  | append_singleton cs c ih =>
    obtain ⟨whole, line, rfl, hwhole, hline⟩ := ih
    by_cases hc : c = '\n'
    · subst hc
      exact ⟨whole ++ line ++ ['\n'], [], by simp, wholeLines_append_feed _, by simp⟩
    · refine ⟨whole, line ++ [c], by simp, hwhole, ?_⟩
      simp [hline, Ne.symm hc]

/-- The first line ends in a line feed, or it is the only one. -/
theorem splitLines_eq_cons {text row : List Char} {rows : List (List Char)}
    (h : splitLines text = row :: rows) :
    (∃ rest, WholeLines row ∧ text = row ++ rest ∧ splitLines rest = rows) ∨
      (rows = [] ∧ text = row ∧ '\n' ∉ row) := by
  by_cases hfeed : '\n' ∈ text
  · obtain ⟨content, rest, rfl, hcontent⟩ := List.eq_append_cons_of_mem hfeed
    have htext : content ++ '\n' :: rest = (content ++ ['\n']) ++ rest := by simp
    rw [htext, splitLines_append (wholeLines_append_feed content), splitLines_append_feed hcontent,
      List.singleton_append, List.cons.injEq] at h
    obtain ⟨rfl, hrest⟩ := h
    exact .inl ⟨rest, wholeLines_append_feed content, htext, hrest⟩
  · have hne : text ≠ [] := by
      rintro rfl
      cases h
    rw [splitLines_of_not_mem hfeed hne, List.cons.injEq] at h
    exact .inr ⟨h.2.symm, h.1, h.1 ▸ hfeed⟩

/-- The lines before a line are whole. -/
theorem wholeLines_of_splitLines {text row : List Char} {rows more : List (List Char)}
    (h : splitLines text = rows ++ row :: more) : WholeLines rows.flatten := by
  induction rows generalizing text with
  | nil => exact wholeLines_nil
  | cons first rows ih =>
    rcases splitLines_eq_cons h with ⟨rest, hfirst, -, hrest⟩ | ⟨hnil, -⟩
    · rw [List.flatten_cons]
      exact hfirst.append (ih hrest)
    · simp at hnil

/-- Every carriage return is followed by a line feed. -/
def ReturnsPaired : List Char → Prop
  | [] => True
  | c :: cs => (c = '\r' → cs.head? = some '\n') ∧ ReturnsPaired cs

instance ReturnsPaired.decidable : (text : List Char) → Decidable (ReturnsPaired text)
  | [] => inferInstanceAs (Decidable True)
  | c :: cs =>
    have := ReturnsPaired.decidable cs
    inferInstanceAs (Decidable ((c = '\r' → cs.head? = some '\n') ∧ ReturnsPaired cs))

theorem ReturnsPaired.of_append {a b : List Char} (h : ReturnsPaired (a ++ b)) :
    ReturnsPaired b := by
  induction a with
  | nil => exact h
  | cons c cs ih => exact ih h.2

theorem ReturnsPaired.head? {a b : List Char} (h : ReturnsPaired (a ++ '\r' :: b)) :
    b.head? = some '\n' :=
  h.of_append.1 rfl

/-- A carriage return in front of another character than a line feed is not there. -/
theorem ReturnsPaired.not_mem {a b c : List Char} (h : ReturnsPaired (a ++ (b ++ c)))
    (hb : '\n' ∉ b) (hc : c.head? ≠ some '\n') : '\r' ∉ b := by
  intro hmem
  obtain ⟨l, r, rfl⟩ := List.append_of_mem hmem
  have hnext : (r ++ c).head? = some '\n' := by
    refine ReturnsPaired.head? (a := a ++ l) ?_
    simpa using h
  cases r with
  | nil => exact hc hnext
  | cons d ds =>
    have hd : d = '\n' := by simpa using hnext
    exact hb (by simp [hd])

/-- A line of a text without its line feed, and the text around it. -/
structure Row (text : List Char) (line : Nat) (before row after : List Char) : Prop where
  text_eq : text = before ++ (row ++ after)
  whole : WholeLines before
  line_eq : before.count '\n' + 1 = line
  not_mem : '\n' ∉ row
  after_eq : after = [] ∨ ∃ rest, after = '\n' :: rest

/-- Every text starts with a line. -/
theorem exists_first_row (text : List Char) :
    ∃ row after, text = row ++ after ∧ '\n' ∉ row ∧
      (after = [] ∨ ∃ rest, after = '\n' :: rest) := by
  induction text with
  | nil => exact ⟨[], [], rfl, by simp, .inl rfl⟩
  | cons c cs ih =>
    by_cases hc : c = '\n'
    · exact ⟨[], c :: cs, rfl, by simp, .inr ⟨cs, by rw [hc]⟩⟩
    · obtain ⟨row, after, rfl, hrow, hafter⟩ := ih
      refine ⟨c :: row, after, rfl, ?_, hafter⟩
      rw [List.mem_cons, not_or]
      exact ⟨fun h => hc h.symm, hrow⟩

/-- There is one line more than there are line feeds. -/
theorem exists_row {text : List Char} {n : Nat} (h : n ≤ text.count '\n') :
    ∃ before row after, Row text (n + 1) before row after := by
  induction n with
  | zero =>
    obtain ⟨row, after, htext, hrow, hafter⟩ := exists_first_row text
    exact ⟨[], row, after, htext, wholeLines_nil, rfl, hrow, hafter⟩
  | succ n ih =>
    obtain ⟨before, row, after, hprevious⟩ := ih (Nat.le_of_succ_le h)
    obtain ⟨rest, rfl⟩ : ∃ rest, after = '\n' :: rest := by
      refine hprevious.after_eq.resolve_left fun hnil => ?_
      have hcount := congrArg (List.count '\n') hprevious.text_eq
      have hline := hprevious.line_eq
      rw [hnil, List.append_nil, List.count_append,
        List.count_eq_zero_of_not_mem hprevious.not_mem] at hcount
      omega
    obtain ⟨next, after, rfl, hnext, hafter⟩ := exists_first_row rest
    refine ⟨before ++ (row ++ ['\n']), next, after, ?_, ?_, ?_, hnext, hafter⟩
    · rw [hprevious.text_eq]
      simp
    · rw [← List.append_assoc]
      exact wholeLines_append_feed _
    · have hline := hprevious.line_eq
      have hzero := List.count_eq_zero_of_not_mem hprevious.not_mem
      simp only [List.count_append, hzero, List.count_singleton_self]
      omega

theorem splitLines_row_append {row after : List Char} (hrow : '\n' ∉ row)
    (hafter : after = [] ∨ ∃ rest, after = '\n' :: rest) :
    (splitLines (row ++ after)).head?.getD [] = row ++ after.take 1 := by
  rcases hafter with rfl | ⟨rest, rfl⟩
  · rw [List.append_nil, List.take_nil, List.append_nil]
    by_cases hnil : row = []
    · rw [hnil]
      rfl
    · rw [splitLines_of_not_mem hrow hnil]
      rfl
  · have hsplit : row ++ '\n' :: rest = (row ++ ['\n']) ++ rest := by simp
    rw [hsplit, splitLines_append (wholeLines_append_feed row), splitLines_append_feed hrow]
    rfl

theorem Row.take_splitLines {text before row after : List Char} {line : Nat}
    (h : Row text line before row after) :
    splitLines text = splitLines before ++ splitLines (row ++ after) ∧
      (splitLines before).length = line - 1 := by
  have hline := h.line_eq
  constructor
  · rw [h.text_eq]
    exact splitLines_append h.whole _
  · rw [h.whole.length_splitLines]
    omega

/-- Only a text without characters has a row that splitting does not give. -/
theorem rows_ofText {text : List Char} (h : splitLines text ≠ []) :
    (LineTable.ofText text).rows = splitLines text := by
  unfold LineTable.ofText
  split
  · rename_i hnil
    exact absurd hnil h
  · rfl

theorem Row.row_eq {text before row after : List Char} {line : Nat}
    (h : Row text line before row after) :
    (LineTable.ofText text).row line = row ++ after.take 1 := by
  obtain ⟨hsplit, hlength⟩ := h.take_splitLines
  have hline := h.line_eq
  rw [LineTable.row, if_neg (by omega), ← splitLines_row_append h.not_mem h.after_eq]
  have hrows : (LineTable.ofText text).rows[line - 1]?.getD [] =
      (splitLines text)[line - 1]?.getD [] := by
    by_cases hnil : splitLines text = []
    · rw [LineTable.ofText, hnil]
      cases line - 1 <;> rfl
    · rw [rows_ofText hnil]
  rw [hrows, hsplit, List.getElem?_append_right (Nat.le_of_eq hlength), hlength, Nat.sub_self,
    List.head?_eq_getElem?]

theorem stripBreak_append_take {row after : List Char} (hrow : '\n' ∉ row)
    (hafter : after = [] ∨ ∃ rest, after = '\n' :: rest) :
    stripBreak (row ++ after.take 1) = stripBreak row := by
  have hlast : row.getLast? ≠ some '\n' := fun h => hrow (List.mem_of_mem_getLast? h)
  rcases hafter with rfl | ⟨rest, rfl⟩
  · simp
  · simp [stripBreak, hlast]

theorem Row.content_eq {text before row after : List Char} {line : Nat}
    (h : Row text line before row after) :
    (LineTable.ofText text).content line = stripBreak row := by
  rw [LineTable.content, h.row_eq, stripBreak_append_take h.not_mem h.after_eq]

end YamlLayout.Text
