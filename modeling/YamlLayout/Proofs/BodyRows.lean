import Mathlib.Data.List.Basic
import YamlLayout.Proofs.Measured

/-!
# The lines of a block scalar's body

The body of a block scalar takes up whole lines: no other token starts or ends on
them, the first and the last one hold more than blanks, and all that do are at
least as deep as the body.
-/
namespace YamlLayout

namespace Text

/-- The rows of a text after the first ones are the rows of what follows them. -/
theorem splitLines_flatten_right {rows more : List (List Char)}
    (h : splitLines (rows ++ more).flatten = rows ++ more) :
    splitLines more.flatten = more := by
  induction rows with
  | nil => exact h
  | cons row rows ih =>
    have hcons : splitLines (row ++ (rows ++ more).flatten) = row :: (rows ++ more) := by
      simpa using h
    rcases splitLines_eq_cons hcons with ⟨rest, -, htext, hrest⟩ | ⟨hnil, -, -⟩
    · rw [List.append_cancel_left_eq] at htext
      rw [← htext] at hrest
      exact ih hrest
    · have hmore : more = [] := (List.append_eq_nil_iff.mp hnil).2
      rw [hmore]
      rfl

/-- Rows in front of another row are the rows of their own text. -/
theorem splitLines_flatten_left {rows more : List (List Char)}
    (h : splitLines (rows ++ more).flatten = rows ++ more) (hmore : more ≠ []) :
    splitLines rows.flatten = rows := by
  obtain ⟨row, rest, rfl⟩ := List.exists_cons_of_ne_nil hmore
  have hwhole := wholeLines_of_splitLines h
  have hright := splitLines_flatten_right h
  rw [List.flatten_append, splitLines_append hwhole, hright] at h
  exact List.append_cancel_right h

theorem leadingSpaces_stripBreak (line : List Char) :
    leadingSpaces (stripBreak line) = leadingSpaces line := by
  obtain ⟨ending, hline, hending⟩ := stripBreak_eq_or line
  have hstop : ending.takeWhile (· == ' ') = [] := by
    rcases ending with _ | ⟨c, cs⟩
    · rfl
    · have hc : (c == ' ') = false := by
        have hbreak := hending c (List.mem_cons_self ..)
        simp only [isBreak, Bool.or_eq_true, beq_iff_eq] at hbreak
        rcases hbreak with rfl | rfl <;> rfl
      rw [List.takeWhile_cons, hc]
      rfl
  unfold leadingSpaces
  nth_rewrite 2 [hline]
  rw [List.takeWhile_append]
  split
  · rename_i hall
    rw [hstop, List.append_nil, hall]
  · rfl

end Text

namespace LineTable

/-- Rows that follow whole lines keep their order in the table. -/
theorem row_of_wholeLines {front back : List Char} {rows : List (List Char)} {k : Nat}
    (hwhole : Text.WholeLines front) (hrows : Text.splitLines back = rows)
    (hk : k < rows.length) :
    (ofText (front ++ back)).row (front.count '\n' + 1 + k) = rows[k] := by
  have hsplit : Text.splitLines (front ++ back) = Text.splitLines front ++ rows := by
    rw [Text.splitLines_append hwhole, hrows]
  have htable : (ofText (front ++ back)).rows = Text.splitLines front ++ rows := by
    rw [Text.rows_ofText, hsplit]
    intro hnil
    rw [hsplit, List.append_eq_nil_iff] at hnil
    rw [hnil.2] at hk
    cases hk
  have hlength := hwhole.length_splitLines
  have hindex : front.count '\n' + 1 + k - 1 = (Text.splitLines front).length + k := by omega
  rw [row, if_neg (by omega), htable, hindex, List.getElem?_append_right (by omega),
    Nat.add_sub_cancel_left, List.getElem?_eq_getElem hk, Option.getD_some]

theorem le_count_of_wholeLines {front back : List Char} {rows : List (List Char)}
    (hwhole : Text.WholeLines front) (hrows : Text.splitLines back = rows) :
    front.count '\n' + rows.length ≤ (ofText (front ++ back)).count := by
  have hsplit : Text.splitLines (front ++ back) = Text.splitLines front ++ rows := by
    rw [Text.splitLines_append hwhole, hrows]
  have hlength := hwhole.length_splitLines
  unfold count ofText
  split
  · rename_i hnil
    rw [hsplit, List.append_eq_nil_iff] at hnil
    rw [hnil.1] at hlength
    rw [hnil.2, ← hlength]
    simp
  · have htotal : (Text.splitLines (front ++ back)).length = front.count '\n' + rows.length := by
      rw [hsplit, List.length_append, hlength]
    exact Nat.le_of_eq htotal.symm

end LineTable

theorem Cursor.line_of_head?_ne {c : Cursor} (h : c.before.head? ≠ some '\n') :
    c.line = c.before.count '\n' + 1 := by
  unfold line position
  split
  · rename_i hbefore
    rw [hbefore] at h
    exact absurd rfl h
  · rfl

theorem Cursor.column_of_rest_ne_nil {c : Cursor} (h : c.rest ≠ []) :
    c.column = (c.before.takeWhile (· != '\n')).length := by
  obtain ⟨d, ds, hrest⟩ := List.exists_cons_of_ne_nil h
  simp [column, position, hrest]

theorem Token.Stands.lineOf_start {t : Token} {text before value after : List Char}
    (h : t.Stands text before value after) :
    (LineTable.ofText text).lineOf t.range.start = t.startLine := by
  obtain ⟨c, cs, hvalue⟩ := List.exists_cons_of_ne_nil h.ne_nil
  have hline := LineTable.lineOf_eq before (cs ++ after) c.utf8Size_pos
  rw [h.text_eq, h.range_eq, h.startLine_eq, hvalue]
  exact hline

/-- The line on which the last character of a token stands. -/
theorem Token.Stands.lineOf_last {t : Token} {text before value after : List Char}
    (h : t.Stands text before value after) :
    (LineTable.ofText text).lineOf (t.range.stop - 1) =
      (before ++ value.dropLast).count '\n' + 1 := by
  obtain ⟨front, c, hvalue⟩ := value.eq_nil_or_concat'.resolve_left h.ne_nil
  have hpos := c.utf8Size_pos
  have htext : text = (before ++ front) ++ c :: after := by
    rw [h.text_eq, hvalue]
    simp
  have hstop : t.range.stop - 1 = Text.byteLength (before ++ front) + (c.utf8Size - 1) := by
    rw [h.range_eq, hvalue]
    simp only [Text.byteLength_append, Text.byteLength]
    omega
  have hlast : value.dropLast = front := by rw [hvalue, List.dropLast_concat]
  rw [htext, hstop, hlast]
  exact LineTable.lineOf_eq _ _ (by omega)

namespace Lexeme.BodyParts

variable {p : BodyParts} {parent : Int} {digit : Option Nat} {text : List Char} {body : Body}

/-- What precedes the lines of the body. -/
def front (p : BodyParts) : List Char := p.header ++ '\n' :: p.lead.flatten

theorem margin_eq (p : BodyParts) : p.margin = p.front ++ List.replicate p.indent ' ' := by
  simp [margin, front]

/-- What follows the line of the header in front of the body: its line feed, blank lines
and the indentation. -/
def gap (p : BodyParts) : List Char := '\n' :: (p.lead.flatten ++ List.replicate p.indent ' ')

theorem Locates.isSpace_of_mem_gap (h : p.Locates parent digit text body) {c : Char}
    (hc : c ∈ p.gap) : isSpace c = true := by
  rw [gap, List.mem_cons, List.mem_append] at hc
  rcases hc with rfl | hc | hc
  · rfl
  · obtain ⟨line, hline, hmem⟩ := List.mem_flatten.mp hc
    have hblank := isBlank_or_isBreak_of_isBlankLine (h.lead_blank line hline) c hmem
    simpa [isSpace] using hblank
  · rw [List.eq_of_mem_replicate hc]
    rfl

theorem Locates.text_eq_front (h : p.Locates parent digit text body) :
    text = p.front ++ (p.core ++ p.after).flatten := by
  rw [h.text_eq]
  simp [front, lines]

theorem Locates.splitLines_core (h : p.Locates parent digit text body) :
    Text.splitLines (p.core ++ p.after).flatten = p.core ++ p.after := by
  have hlines := h.lines_eq
  rw [lines, List.append_assoc] at hlines
  exact Text.splitLines_flatten_right hlines

theorem Locates.wholeLines_front (h : p.Locates parent digit text body) :
    Text.WholeLines p.front := by
  have hlines := h.lines_eq
  have hlead : Text.WholeLines p.lead.flatten := by
    rw [lines, List.append_assoc, core, List.cons_append] at hlines
    exact Text.wholeLines_of_splitLines hlines
  have hfront : p.front = (p.header ++ ['\n']) ++ p.lead.flatten := by simp [front]
  rw [hfront]
  exact (Text.wholeLines_append_feed _).append hlead

theorem core_eq (p : BodyParts) : p.core = p.core.dropLast ++ [p.last] :=
  (List.dropLast_concat_getLast (by simp [core])).symm

theorem Locates.last_mem (h : p.Locates parent digit text body) :
    p.last ∈ Text.splitLines (p.core ++ p.after).flatten := by
  rw [h.splitLines_core]
  exact List.mem_append_left _ (List.getLast_mem _)

/-- Every line of the body but the last one ends in a line feed. -/
theorem Locates.count_reach (h : p.Locates parent digit text body) :
    p.reach.count '\n' + 1 = p.core.length := by
  have hcore := h.splitLines_core
  have hlast : '\n' ∉ Text.stripBreak p.last :=
    Text.not_mem_stripBreak_of_mem_splitLines h.last_mem
  have hsplit : p.core ++ p.after = p.core.dropLast ++ (p.last :: p.after) := by
    nth_rewrite 1 [p.core_eq]
    simp
  rw [hsplit] at hcore
  have hinit := Text.splitLines_flatten_left hcore (by simp)
  have hcount := (Text.wholeLines_of_splitLines hcore).length_splitLines
  rw [hinit, List.length_dropLast] at hcount
  rw [reach, List.count_append, List.count_eq_zero_of_not_mem hlast, ← hcount]
  simp [core]

theorem Locates.getLast?_value (h : p.Locates parent digit text body) :
    p.value.getLast? ≠ some '\n' := by
  obtain ⟨c, cs, more, hvalue, -, -, hreach⟩ := h.exists_value
  have hlong := leadingSpaces_lt_of_not_isBlankLine h.last_solid
  have hne : Text.stripBreak p.last ≠ [] := by
    intro hnil
    rw [hnil] at hlong
    cases hlong
  have hlast : p.value.getLast? = (Text.stripBreak p.last).getLast? := by
    have hboth := congrArg List.getLast? hreach
    rw [reach, List.getLast?_append_of_ne_nil _ hne,
      List.getLast?_append_of_ne_nil _ (by simp [hvalue])] at hboth
    exact hboth.symm
  rw [hlast]
  intro hfeed
  exact Text.not_mem_stripBreak_of_mem_splitLines h.last_mem (List.mem_of_mem_getLast? hfeed)

/-- Without a digit the first line decides on the indentation. -/
theorem Locates.indent_of_none (h : p.Locates parent none text body) :
    p.indent = Text.leadingSpaces p.first := by
  have hindent := h.indent_eq
  have hfind : p.lines.find? (!isBlankLine ·) = some p.first := by
    rw [lines, List.append_assoc, List.find?_append, core, List.cons_append,
      List.find?_cons_of_pos (by simp [h.first_solid])]
    have hlead : p.lead.find? (!isBlankLine ·) = none := by
      rw [List.find?_eq_none]
      intro l hl
      simp [h.lead_blank l hl]
    rw [hlead]
    rfl
  simp only [bodyIndent, hfind, Option.map_some] at hindent
  obtain ⟨hsome, -⟩ := Option.filter_eq_some_iff.mp hindent
  rw [Option.some.injEq] at hsome
  exact hsome.symm

end Lexeme.BodyParts

namespace ParseState

variable {s t : ParseState} {token : Token} {parent : Int} {digit : Option Nat}
  {p : Lexeme.BodyParts} {body : Lexeme.Body}

/-- The body of a block scalar is read from `s` to `t`. -/
structure ReadsBody (s : ParseState) (parent : Int) (digit : Option Nat)
    (p : Lexeme.BodyParts) (body : Lexeme.Body) (token : Token) (t : ParseState) : Prop where
  locates : p.Locates parent digit s.cursor.rest body
  takes : s.Takes token p.margin p.value t
  token_eq : token = (s.skip body.skipped).ahead .scalar body.length
  state_eq : t = (s.skip body.skipped).push .scalar body.length

theorem ReadsBody.before_skip (h : s.ReadsBody parent digit p body token t) :
    (s.skip body.skipped).cursor.before = p.margin.reverse ++ s.cursor.before := by
  obtain ⟨ending, htext, -, -, hskipped, -⟩ := h.locates.exists_tail
  rw [(between_skip s body.skipped).before_eq, htext, ← hskipped, List.take_left]

theorem ReadsBody.rest_skip_ne (h : s.ReadsBody parent digit p body token t) :
    (s.skip body.skipped).cursor.rest ≠ [] := by
  obtain ⟨ending, htext, -, -, hskipped, -⟩ := h.locates.exists_tail
  obtain ⟨c, cs, more, hvalue, -⟩ := h.locates.exists_value
  have hrest : (s.skip body.skipped).cursor.rest = p.value ++ (ending ++ p.after.flatten) := by
    change s.cursor.rest.drop body.skipped = _
    rw [htext, ← hskipped, List.drop_left]
  rw [hrest, hvalue]
  simp

theorem ReadsBody.startLine_eq (h : s.ReadsBody parent digit p body token t) :
    token.startLine = (s.cursor.before.reverse ++ p.front).count '\n' + 1 := by
  have hstart := h.takes.stands.startLine_eq
  rw [p.margin_eq] at hstart
  rw [hstart]
  simp [List.count_replicate]

/-- The body stands at its own indentation. -/
theorem ReadsBody.column_eq (h : s.ReadsBody parent digit p body token t) :
    token.first.column = p.indent := by
  have hcolumn := Cursor.column_of_rest_ne_nil h.rest_skip_ne
  have hfront : (p.front.reverse ++ s.cursor.before).takeWhile (· != '\n') = [] := by
    rcases h.locates.wholeLines_front with hnil | hlast
    · simp [Lexeme.BodyParts.front] at hnil
    · obtain ⟨init, hinit⟩ := List.getLast?_eq_some_iff.mp hlast
      rw [hinit]
      simp
  have hspaces : ∀ c ∈ List.replicate p.indent ' ', (c != '\n') = true := by
    intro c hc
    rw [List.eq_of_mem_replicate hc]
    rfl
  rw [h.before_skip, p.margin_eq, List.reverse_append, List.reverse_replicate, List.append_assoc,
    List.takeWhile_append_of_pos hspaces, hfront, List.append_nil, List.length_replicate]
    at hcolumn
  rw [h.token_eq]
  exact hcolumn

/-- The body ends on the line of its last row. -/
theorem ReadsBody.endLine_eq (h : s.ReadsBody parent digit p body token t) :
    token.endLine + 1 = token.startLine + p.core.length ∧
      token.endLine = t.cursor.before.count '\n' + 1 := by
  have hend : token.endLine = t.cursor.line := by
    rw [h.token_eq, h.state_eq]
    rfl
  have hbefore := h.takes.between.before_eq
  obtain ⟨c, cs, more, hvalue, -, -, hreach⟩ := h.locates.exists_value
  have hhead : t.cursor.before.head? ≠ some '\n' := by
    have hne : p.value ≠ [] := by simp [hvalue]
    rw [hbefore, List.reverse_append, List.append_assoc, List.head?_append, List.head?_reverse,
      List.getLast?_eq_some_getLast hne, Option.some_or, ← List.getLast?_eq_some_getLast hne]
    exact h.locates.getLast?_value
  have hline := Cursor.line_of_head?_ne hhead
  refine ⟨?_, hend.trans hline⟩
  have hcount := h.locates.count_reach
  have hstart := h.startLine_eq
  rw [hreach, List.count_append] at hcount
  rw [hbefore, List.count_append, List.count_reverse, List.count_append, p.margin_eq,
    List.count_append] at hline
  rw [List.count_append, List.count_reverse] at hstart
  omega

/-- What follows the body holds a line feed, or nothing but a carriage return. -/
theorem ReadsBody.rest_eq (h : s.ReadsBody parent digit p body token t) :
    ∃ ending, t.cursor.rest = ending ++ p.after.flatten ∧ (∀ c ∈ ending, isSpace c = true) ∧
      ('\n' ∈ ending ∨ p.after = []) := by
  obtain ⟨ending, htext, hlast, hending, -⟩ := h.locates.exists_tail
  have hrest : t.cursor.rest = ending ++ p.after.flatten := by
    have hbetween := h.takes.between.rest_eq
    rw [htext, List.append_assoc, List.append_cancel_left_eq, List.append_cancel_left_eq]
      at hbetween
    exact hbetween.symm
  refine ⟨ending, hrest, ?_, ?_⟩
  · intro c hc
    simp [isSpace, hending c hc]
  · by_cases hafter : p.after = []
    · exact .inr hafter
    · left
      -- Only the last line of a text can lack its line feed.
      obtain ⟨next, others, hnext⟩ := List.exists_cons_of_ne_nil hafter
      have hlines := h.locates.splitLines_core
      rw [hnext] at hlines
      have hwhole := Text.wholeLines_of_splitLines hlines
      rw [p.core_eq, List.flatten_append, List.flatten_singleton, hlast] at hwhole
      have hclean : '\n' ∉ Text.stripBreak p.last :=
        Text.not_mem_stripBreak_of_mem_splitLines h.locates.last_mem
      have hsolid := Lexeme.leadingSpaces_lt_of_not_isBlankLine h.locates.last_solid
      have hne : Text.stripBreak p.last ≠ [] := List.ne_nil_of_length_pos (by omega)
      rcases hwhole with hnil | hfeed
      · simp [hne] at hnil
      · rcases ending.eq_nil_or_concat' with rfl | ⟨front, c, rfl⟩
        · rw [List.append_nil, List.getLast?_append_of_ne_nil _ hne] at hfeed
          exact absurd (List.mem_of_mem_getLast? hfeed) hclean
        · have hc : c = '\n' := by simpa using hfeed
          simp [hc]

theorem ReadsBody.wholeLines_before (h : s.ReadsBody parent digit p body token t) :
    Text.WholeLines (s.cursor.before.reverse ++ p.front) := by
  rcases h.locates.wholeLines_front with hnil | hlast
  · simp [Lexeme.BodyParts.front] at hnil
  · right
    rw [List.getLast?_append, hlast, Option.some_or]

theorem ReadsBody.text_eq (h : s.ReadsBody parent digit p body token t) :
    s.cursor.text =
      (s.cursor.before.reverse ++ p.front) ++ (p.core ++ p.after).flatten := by
  rw [Cursor.text, List.append_assoc, ← h.locates.text_eq_front]

/-- The rows of the body in the table of lines. -/
theorem ReadsBody.row_eq {k : Nat} (h : s.ReadsBody parent digit p body token t)
    (hk : k < p.core.length) :
    (LineTable.ofText s.cursor.text).row (token.startLine + k) = p.core[k] := by
  have hlong : k < (p.core ++ p.after).length := by
    rw [List.length_append]
    omega
  have hrow := LineTable.row_of_wholeLines h.wholeLines_before h.locates.splitLines_core hlong
  rw [List.getElem_append_left hk, ← h.startLine_eq, ← h.text_eq] at hrow
  exact hrow

theorem ReadsBody.endLine_le_count (h : s.ReadsBody parent digit p body token t) :
    token.endLine ≤ (LineTable.ofText s.cursor.text).count := by
  have hcount := LineTable.le_count_of_wholeLines h.wholeLines_before h.locates.splitLines_core
  have hend := h.endLine_eq.1
  rw [← h.text_eq, List.length_append] at hcount
  have hstart := h.startLine_eq
  omega

/-- The last byte of the body lies on its last line. -/
theorem ReadsBody.endLine_le_lineOf (h : s.ReadsBody parent digit p body token t) :
    token.endLine ≤ (LineTable.ofText s.cursor.text).lineOf (token.range.stop - 1) := by
  have hstands := h.takes.stands
  have hlast := hstands.lineOf_last
  have hpast := hstands.endLine_le
  -- The body does not end in a line feed.
  obtain ⟨front, c, hvalue⟩ := p.value.eq_nil_or_concat'.resolve_left hstands.ne_nil
  have hc : c ≠ '\n' := by
    have hne := h.locates.getLast?_value
    rw [hvalue] at hne
    simpa using hne
  have hdrop : p.value.dropLast.count '\n' = p.value.count '\n' := by
    rw [hvalue, List.dropLast_concat, List.count_append, List.count_singleton]
    simp [hc]
  rw [List.count_append] at hlast hpast
  omega

/-- What is read before the body lies on earlier lines. -/
theorem ReadsBody.lt_of_before {u v : ParseState} {a : Token} {lead value : List Char}
    (h : s.ReadsBody parent digit p body token t) (ha : u.Takes a lead value v)
    (hmoves : v.Moves s) :
    a.startLine < token.startLine ∧ a.endLine < token.startLine ∧
      (LineTable.ofText u.cursor.text).lineOf (a.range.stop - 1) < token.startLine := by
  obtain ⟨mid, hmid⟩ := hmoves.exists_between
  have hbefore : s.cursor.before.count '\n' = u.cursor.before.count '\n' + lead.count '\n' +
      value.count '\n' + mid.count '\n' := by
    rw [hmid.before_eq, ha.between.before_eq]
    simp only [List.count_append, List.count_reverse]
    omega
  have hfront : 0 < p.front.count '\n' :=
    List.count_pos_iff.mpr (by simp [Lexeme.BodyParts.front])
  have hdrop : value.dropLast.count '\n' ≤ value.count '\n' :=
    (List.dropLast_sublist value).count_le _
  have hstart := h.startLine_eq
  have hfirst := ha.stands.startLine_eq
  have hpast := ha.stands.endLine_le
  have hlast := ha.stands.lineOf_last
  simp only [List.count_append, List.count_reverse] at hstart hfirst hpast hlast
  omega

/-- A token read after the body starts on a later line. -/
theorem ReadsBody.lt_of_after {u v : ParseState} {a : Token} {lead value : List Char}
    (h : s.ReadsBody parent digit p body token t) (ha : u.Takes a lead value v)
    (hmoves : t.Moves u) : token.endLine < a.startLine := by
  obtain ⟨mid, hmid⟩ := hmoves.exists_between
  obtain ⟨ending, hrest, hspaces, hfeed⟩ := h.rest_eq
  have hcross : '\n' ∈ mid ++ lead := by
    rcases ha.lead_eq with rfl | hlead
    swap
    · exact List.mem_append_right _ hlead
    rw [List.append_nil]
    obtain ⟨c, cs, hvalue⟩ := List.exists_cons_of_ne_nil ha.stands.ne_nil
    have hsolid := ha.clear rfl c (by simp [hvalue])
    have hboth : ending ++ p.after.flatten = mid ++ (c :: (cs ++ v.cursor.rest)) := by
      rw [← hrest, hmid.rest_eq, ha.between.rest_eq, hvalue]
      simp
    -- The token starts with no space, so the line break in front of it is over.
    obtain ⟨more, hmore, hafter⟩ : ∃ more, mid = ending ++ more ∧
        p.after.flatten = more ++ c :: (cs ++ v.cursor.rest) := by
      rcases List.append_eq_append_iff.mp hboth with ⟨more, hmore, hafter⟩ | ⟨more, hmore, hafter⟩
      · exact ⟨more, hmore, hafter⟩
      · rcases more with _ | ⟨d, more⟩
        · refine ⟨[], by simpa using hmore.symm, by simpa using hafter.symm⟩
        · rw [List.cons_append, List.cons.injEq] at hafter
          have hspace := hspaces d (by simp [hmore])
          rw [← hafter.1, hsolid] at hspace
          cases hspace
    rcases hfeed with hfeed | hnil
    · rw [hmore]
      exact List.mem_append_left _ hfeed
    · rw [hnil] at hafter
      simp at hafter
  have hpos := List.count_pos_iff.mpr hcross
  have hend := h.endLine_eq.2
  have hstart := ha.stands.startLine_eq
  rw [hmid.before_eq] at hstart
  simp only [List.count_append, List.count_reverse, List.reverse_append, List.reverse_reverse]
    at hstart hpos
  omega

end ParseState

namespace Stream

variable {stream : Stream} {s : ParseState} {b : BlockScalar} {i : Nat}

/-- The token with the number `i` is the body of a block scalar and has its lines for
itself. -/
structure BodyAt (stream : Stream) (i : Nat) (t : Token) : Prop where
  token_eq : stream.tokens[i]? = some t
  kind_eq : t.kind = .scalar
  start_pos : 0 < t.startLine
  start_le : t.startLine ≤ t.endLine
  end_le : t.endLine ≤ stream.lines.count
  first_solid : stream.lines.isBlankLine t.startLine = false
  deep : ∀ n, t.startLine ≤ n → n ≤ t.endLine → stream.lines.isBlankLine n = false →
    t.first.column ≤ stream.lines.leading n
  last_le : t.endLine ≤ stream.lines.lineOf (t.range.stop - 1)
  before : ∀ (j : Nat) (a : Token), j < i → stream.tokens[j]? = some a →
    a.startLine < t.startLine ∧ a.endLine < t.startLine ∧
      stream.lines.lineOf (a.range.stop - 1) < t.startLine
  after : ∀ (j : Nat) (a : Token), i < j → stream.tokens[j]? = some a → t.endLine < a.startLine

/-- A block scalar with a body has been read on the way. -/
theorem ReadTo.exists_readsBody (h : stream.ReadTo s) (hb : .block b ∈ stream.pieces)
    (hi : b.body = some i) :
    ∃ u v parent p body t, (ParseState.ofText stream.text).Moves u ∧
      u.ReadsBody parent b.digit p body t v ∧ v.Moves s ∧ u.next = i ∧ u.Move v ∧
      stream.tokens[i]? = some t := by
  obtain ⟨start, v, hstart, hblock, hv⟩ := h.reads.exists_readsBlock hb
  cases hblock with
  | bare hopens hpasses hbody =>
    rw [hbody] at hi
    cases hi
  | @filled _ u _ _ body hopens hpasses hends hfound hbody =>
    rw [hbody, Option.some.injEq] at hi
    obtain ⟨p, hp, htakes⟩ := ParseState.takes_body hfound
    have hu : (ParseState.ofText stream.text).Moves u :=
      hstart.trans (.head hopens.move hpasses.moves)
    refine ⟨u, _, _, p, body, _, hu, ⟨hp, htakes, rfl, rfl⟩, hv, hi, .body hends hfound, ?_⟩
    rw [h.tokens_eq, List.getElem?_toArray, ← hi]
    exact htakes.getElem?_eq hv

/-- The body of a block scalar has its lines for itself. -/
theorem ReadTo.exists_bodyAt (h : stream.ReadTo s) (hb : .block b ∈ stream.pieces)
    (hi : b.body = some i) :
    ∃ t, stream.BodyAt i t ∧
      (b.digit = none → t.first.column = stream.lines.leading t.startLine) := by
  obtain ⟨u, v, parent, p, body, t, hu, hreads, hv, hnext, hmove, htoken⟩ :=
    h.exists_readsBody hb hi
  have htext : u.cursor.text = stream.text := ParseState.Moves.text_eq hu
  have hend := hreads.endLine_eq.1
  have hlength : 0 < p.core.length := by simp [Lexeme.BodyParts.core]
  have hrow : ∀ n, t.startLine ≤ n → n ≤ t.endLine →
      ∃ l ∈ p.core, stream.lines.isBlankLine n = Lexeme.isBlankLine l ∧
        stream.lines.leading n = Text.leadingSpaces l := by
    intro n hfirst hlast
    have hk : n - t.startLine < p.core.length := by omega
    have heq := hreads.row_eq hk
    rw [Nat.add_sub_cancel' hfirst, htext] at heq
    refine ⟨_, List.getElem_mem hk, ?_, ?_⟩
    · rw [LineTable.isBlankLine, LineTable.content, Stream.lines, heq]
      rfl
    · rw [LineTable.leading, LineTable.content, Stream.lines, heq, Text.leadingSpaces_stripBreak]
  refine ⟨t, ?_, ?_⟩
  swap
  · intro hdigit
    have hlocates := hreads.locates
    rw [hdigit] at hlocates
    have heq := hreads.row_eq hlength
    rw [Nat.add_zero, htext] at heq
    rw [hreads.column_eq, hlocates.indent_of_none, LineTable.leading, LineTable.content,
      Stream.lines, heq, Text.leadingSpaces_stripBreak]
    rfl
  constructor
  case token_eq => exact htoken
  case kind_eq =>
    rw [hreads.token_eq]
    rfl
  case start_pos =>
    have hstart := hreads.startLine_eq
    omega
  case start_le => omega
  case end_le =>
    have hcount := hreads.endLine_le_count
    rw [htext] at hcount
    exact hcount
  case first_solid =>
    have heq := hreads.row_eq hlength
    rw [Nat.add_zero, htext] at heq
    have hfirst : p.core[0] = p.first := rfl
    rw [LineTable.isBlankLine, LineTable.content, Stream.lines, heq, hfirst]
    exact hreads.locates.first_solid
  case deep =>
    intro n hfirst hlast hsolid
    obtain ⟨l, hl, hblank, hleading⟩ := hrow n hfirst hlast
    rw [hreads.column_eq, hleading]
    exact hreads.locates.deep l hl (hblank ▸ hsolid)
  case last_le =>
    have hlast := hreads.endLine_le_lineOf
    rw [htext] at hlast
    exact hlast
  case before =>
    intro j a hj ha
    obtain ⟨u', v', a', lead, value, hu', -, htakes, hv', hj'⟩ :=
      hu.exists_takes (Nat.zero_le j) (hnext ▸ hj)
    have hget := htakes.getElem?_eq ((hv'.tail hmove).trans hv)
    rw [hj', ← List.getElem?_toArray, ← h.tokens_eq, ha, Option.some.injEq] at hget
    subst hget
    have hlt := hreads.lt_of_before htakes hv'
    have htext' : u'.cursor.text = stream.text := ParseState.Moves.text_eq hu'
    rw [htext'] at hlt
    exact hlt
  case after =>
    intro j a hj ha
    have hle : v.next ≤ j := by
      rw [hreads.takes.next_eq, hnext]
      exact hj
    obtain ⟨u', v', lead, value, hu', -, htakes, -, -, -⟩ :=
      h.exists_takes (hu.tail hmove) hv hle ha
    exact hreads.lt_of_after htakes hu'

end Stream

end YamlLayout
