import YamlLayout.Proofs.Coverage
import YamlLayout.Proofs.InPlace
import YamlLayout.Proofs.Reindented

/-!
# Which lines are measured

A line is measured where a token starts on it or a scalar runs through it. Tokens start
on lines with more than blanks, and every character that is no space belongs to a token,
so the measured lines are those that hold such a character.
-/
namespace YamlLayout

namespace Text

variable {text before row after : List Char} {line : Nat}

/-- Every character but a line feed stands in a line. -/
theorem exists_row_of_cons {c : Char} (before after : List Char) (hc : c ≠ '\n') :
    ∃ front row rest, Row (before ++ c :: after) (before.count '\n' + 1) front row rest ∧
      c ∈ row := by
  obtain ⟨whole, left, rfl, hwhole, hleft⟩ := exists_wholeLines_append before
  obtain ⟨right, rest, rfl, hright, hrest⟩ := exists_first_row after
  refine ⟨whole, left ++ c :: right, rest, ⟨by simp, hwhole, ?_, ?_, hrest⟩, by simp⟩
  · rw [List.count_append, List.count_eq_zero_of_not_mem hleft, Nat.add_zero]
  · simp [hleft, hright, hc.symm]

/-- Where carriage returns are paired, no line holds one but in its line break. -/
theorem Row.return_not_mem (h : Row text line before row after) (hpaired : ReturnsPaired text) :
    '\r' ∉ stripBreak row := by
  rcases row.eq_nil_or_concat' with rfl | ⟨front, c, rfl⟩
  · exact List.not_mem_nil
  have hfeed : '\n' ∉ front ∧ c ≠ '\n' := by
    have hrow := h.not_mem
    rw [List.mem_append, not_or, List.mem_singleton] at hrow
    exact ⟨hrow.1, fun heq => hrow.2 heq.symm⟩
  have hfront : '\r' ∉ front := by
    have hpairs := hpaired
    rw [h.text_eq, List.append_assoc] at hpairs
    exact hpairs.not_mem hfeed.1 (by simpa using hfeed.2)
  by_cases hc : c = '\r'
  · simpa [stripBreak, hc] using hfront
  · simpa [stripBreak, hc, hfeed.2, Ne.symm hc] using hfront

theorem Row.isBlankLine_eq_false (h : Row text line before row after) {c : Char} (hc : c ∈ row)
    (hsolid : isSpace c = false) : (LineTable.ofText text).isBlankLine line = false := by
  rw [isSpace, Bool.or_eq_false_iff] at hsolid
  obtain ⟨ending, hrow, hending⟩ := stripBreak_eq_or row
  have hmem : c ∈ stripBreak row := by
    rw [hrow, List.mem_append] at hc
    refine hc.resolve_right fun hbreak => ?_
    rw [hending c hbreak] at hsolid
    cases hsolid.2
  rw [LineTable.isBlankLine, h.content_eq, List.all_eq_false]
  exact ⟨c, hmem, by simp [hsolid.1]⟩

/-- A line that is not blank holds a character that is no space. -/
theorem Row.isBlankLine_eq_false_iff (h : Row text line before row after)
    (hpaired : ReturnsPaired text) :
    (LineTable.ofText text).isBlankLine line = false ↔ ∃ c ∈ row, isSpace c = false := by
  constructor
  · intro hblank
    rw [LineTable.isBlankLine, h.content_eq, List.all_eq_false] at hblank
    obtain ⟨c, hc, hsolid⟩ := hblank
    obtain ⟨ending, hrow, -⟩ := stripBreak_eq_or row
    have hmem : c ∈ row := by
      rw [hrow]
      exact List.mem_append_left _ hc
    have hfeed : c ≠ '\n' := fun heq => h.not_mem (heq ▸ hmem)
    have hreturn : c ≠ '\r' := fun heq => h.return_not_mem hpaired (heq ▸ hc)
    exact ⟨c, hmem, by simpa [isSpace, isBreak, hfeed, hreturn] using hsolid⟩
  · rintro ⟨c, hc, hsolid⟩
    exact h.isBlankLine_eq_false hc hsolid

end Text

namespace LineTable

/-- Later offsets lie on later lines. -/
theorem lineOf_mono (lines : LineTable) {i j : Nat} (h : i ≤ j) : lines.lineOf i ≤ lines.lineOf j :=
  List.countP_mono_left fun n _ hn => by
    rw [decide_eq_true_eq] at hn ⊢
    exact Nat.le_trans hn h

end LineTable

namespace Stream

variable {stream : Stream} {s : ParseState} {i : TokenId} {t : Token} {n : Nat}

/-- No token starts on a blank line. -/
theorem ReadTo.isBlankLine_startLine (h : stream.ReadTo s) (ht : stream.tokens[i]? = some t) :
    stream.lines.isBlankLine t.startLine = false := by
  by_cases hbody : stream.IsBody i
  · obtain ⟨b, hb, hi⟩ := hbody
    obtain ⟨a, hat, -⟩ := h.exists_bodyAt hb hi
    obtain rfl : t = a := Option.some.inj (ht.symm.trans hat.token_eq)
    exact hat.first_solid
  · obtain ⟨front, mid, c, cs, after, -, hstands, -, hc⟩ := h.exists_stands_of_not_isBody ht hbody
    have hfeed : c ≠ '\n' := by
      rintro rfl
      cases hc
    obtain ⟨before, row, rest, hrow, hmem⟩ :=
      Text.exists_row_of_cons (front ++ mid) (cs ++ after) hfeed
    rw [lines, hstands.text_eq, hstands.startLine_eq]
    exact hrow.isBlankLine_eq_false hmem hc

theorem isSolid_of_cons {before after : List Char} {c : Char}
    (htext : stream.text = before ++ c :: after) (hc : isSpace c = false) :
    stream.IsSolid (Text.byteLength before) := by
  have hpos : 0 < (String.utf8EncodeChar c).length :=
    String.length_utf8EncodeChar c ▸ c.utf8Size_pos
  obtain ⟨b, bs, hbytes⟩ := List.exists_cons_of_length_pos hpos
  refine ⟨b, ?_, ?_⟩
  · have hat := Text.getElem?_bytes_append before (c :: after) 0
    rw [Nat.add_zero, ← htext, Text.bytes, Text.bytes, List.flatMap_cons, hbytes] at hat
    exact hat
  · rw [isSpaceByte_eq_of_mem (hbytes ▸ List.mem_cons_self), hc]

/-- Where carriage returns are paired, every character that is no space belongs to a token. -/
theorem ReadTo.exists_covers {before after : List Char} {c : Char} (h : stream.ReadTo s)
    (hplace : stream.InPlace stream.text) (hpaired : Text.ReturnsPaired stream.text)
    (htext : stream.text = before ++ c :: after) (hc : isSpace c = false) :
    ∃ (i : TokenId) (t : Token), stream.tokens[i]? = some t ∧ t.Covers (Text.byteLength before) ∧
      t.startLine ≤ before.count '\n' + 1 ∧ before.count '\n' + 1 ≤ t.endLine := by
  have hline : stream.lines.lineOf (Text.byteLength before) = before.count '\n' + 1 := by
    have hat := LineTable.lineOf_eq before after c.utf8Size_pos
    rwa [Nat.add_zero, ← htext] at hat
  obtain ⟨t, ht, hcovers⟩ : ∃ t ∈ stream.tokens, t.Covers (Text.byteLength before) := by
    by_contra hnone
    have hlost : stream.Lost (Text.byteLength before) :=
      ⟨isSolid_of_cons htext hc, fun t ht hcovers => hnone ⟨t, ht, hcovers⟩⟩
    exact ((h.lost_iff _).mp hlost).2.not_returnsPaired hpaired
  obtain ⟨i, hi⟩ := Array.mem_iff_getElem?.mp ht
  refine ⟨i, t, hi, hcovers, ?_, ?_⟩
  · rw [Token.startLine, (hplace.tokens t ht).first_eq, ← hline]
    exact LineTable.lineOf_mono _ hcovers.1
  · rw [Token.endLine, (hplace.tokens t ht).past_eq, ← hline]
    exact LineTable.lineOf_mono _ (Nat.le_of_lt hcovers.2)

/-- Where carriage returns are paired, every line that is not blank is one of the lines of a
token. -/
theorem ReadTo.exists_token_on (h : stream.ReadTo s) (hplace : stream.InPlace stream.text)
    (hpaired : Text.ReturnsPaired stream.text) (hpos : 0 < n) (hle : n ≤ stream.lines.count)
    (hblank : stream.lines.isBlankLine n = false) :
    ∃ (i : TokenId) (t : Token), stream.tokens[i]? = some t ∧ t.startLine ≤ n ∧ n ≤ t.endLine := by
  obtain ⟨before, row, after, hrow, -⟩ := LineTable.exists_row stream.text hpos hle
  obtain ⟨c, hc, hsolid⟩ := (hrow.isBlankLine_eq_false_iff hpaired).mp hblank
  obtain ⟨left, right, rfl⟩ := List.append_of_mem hc
  have htext : stream.text = (before ++ left) ++ c :: (right ++ after) := by
    rw [hrow.text_eq]
    simp
  have hline : (before ++ left).count '\n' + 1 = n := by
    have hleft : '\n' ∉ left := fun hmem => hrow.not_mem (List.mem_append_left _ hmem)
    rw [List.count_append, List.count_eq_zero_of_not_mem hleft, Nat.add_zero, hrow.line_eq]
  obtain ⟨i, t, hi, -, hrange⟩ := h.exists_covers hplace hpaired htext hsolid
  exact ⟨i, t, hi, hline ▸ hrange⟩

/-- A scalar of several lines takes up all of them but perhaps its first one. -/
theorem exists_interior (layout : Layout) (ht : stream.tokens[i]? = some t)
    (hkind : t.kind = .scalar) (hfirst : t.startLine < n) (hlast : n ≤ t.endLine) :
    ∃ inner ∈ (Measure.numbered stream.tokens).filterMap (Measure.interior? layout),
      inner.first ≤ n ∧ n ≤ inner.last := by
  have hmultiline : t.isMultiline = true := by
    rw [Token.isMultiline, decide_eq_true_eq]
    omega
  have hinner : ∃ inner, Measure.interior? layout (i, t) = some inner ∧ inner.first ≤ n ∧
      n ≤ inner.last := by
    rw [Measure.interior?, if_pos (by simp [hkind, hmultiline])]
    cases layout.blockOfBody? i with
    | some block => exact ⟨_, rfl, Nat.le_of_lt hfirst, hlast⟩
    | none => exact ⟨_, rfl, hfirst, hlast⟩
  obtain ⟨inner, heq, hrange⟩ := hinner
  exact ⟨inner, List.mem_filterMap.mpr ⟨_, Measure.mem_numbered_iff.mpr ht, heq⟩, hrange⟩

/-- A line is measured exactly if it is not blank. -/
theorem ReadTo.line?_isSome_iff (h : stream.ReadTo s) (hplace : stream.InPlace stream.text)
    (hpaired : Text.ReturnsPaired stream.text) (layout : Layout) (column : TokenId → Option Int)
    (hpos : 0 < n) (hle : n ≤ stream.lines.count) :
    (Measure.line? stream.lines stream.tokens layout column
      ((Measure.numbered stream.tokens).filterMap (Measure.interior? layout)) n).isSome = true ↔
      stream.lines.isBlankLine n = false := by
  rw [Measure.isSome_line?_iff]
  constructor
  · rintro (⟨-, -, -, -, hblank⟩ | ⟨i, t, ht, rfl⟩)
    · exact hblank
    · exact h.isBlankLine_startLine ht
  · intro hblank
    obtain ⟨i, t, ht, hfirst, hlast⟩ := h.exists_token_on hplace hpaired hpos hle hblank
    rcases Nat.lt_or_eq_of_le hfirst with hlt | heq
    · -- Only a scalar ends on another line than the one it starts on.
      have hkind := (hplace.tokens t (Array.mem_of_getElem? ht)).kind_eq (.inl (by omega))
      obtain ⟨inner, hinner, hrange⟩ := exists_interior layout ht hkind hlt hlast
      exact .inl ⟨inner, hinner, hrange.1, hrange.2, hblank⟩
    · exact .inr ⟨i, t, ht, heq⟩

theorem ReadTo.mem_measures_iff (h : stream.ReadTo s) (hplace : stream.InPlace stream.text)
    (hpaired : Text.ReturnsPaired stream.text) (layout : Layout) :
    n ∈ (stream.measures layout).map (·.line) ↔
      (0 < n ∧ n ≤ stream.lines.count) ∧ stream.lines.isBlankLine n = false := by
  rw [measures, List.mem_map]
  constructor
  · rintro ⟨m, hm, rfl⟩
    obtain ⟨i, hi, hline⟩ := List.mem_filterMap.mp hm
    rw [List.mem_range] at hi
    rw [Measure.line_of_line? hline]
    exact ⟨⟨Nat.succ_pos i, hi⟩, (h.line?_isSome_iff hplace hpaired layout _ (Nat.succ_pos i)
      hi).mp (by rw [hline]; rfl)⟩
  · rintro ⟨⟨hpos, hle⟩, hblank⟩
    obtain ⟨i, rfl⟩ := Nat.exists_eq_succ_of_ne_zero (Nat.ne_of_gt hpos)
    obtain ⟨m, hm⟩ := Option.isSome_iff_exists.mp
      ((h.line?_isSome_iff hplace hpaired layout _ hpos hle).mpr hblank)
    exact ⟨m, List.mem_filterMap.mpr ⟨i, List.mem_range.mpr hle, hm⟩,
      Measure.line_of_line? hm⟩

end Stream

/-- Where every carriage return is followed by a line feed, each line that is not blank has
one measure and no other line has any, in the order of the lines: these are the lines that
hold a character that is no space. -/
theorem measures_nonblank_lines {text : List Char} {stream : Stream}
    (hparse : parse text = .ok stream) (hpaired : Text.ReturnsPaired text) (style : Style) :
    let measured := (stream.measures (Layout.ofStream stream style)).map (·.line)
    measured.Pairwise (· < ·) ∧
      (∀ n, n ∈ measured ↔ (0 < n ∧ n ≤ (LineTable.ofText text).count) ∧
        (LineTable.ofText text).isBlankLine n = false) ∧
      ∀ n before row after, Text.Row text n before row after →
        (n ∈ measured ↔ ∃ c ∈ row, isSpace c = false) := by
  intro measured
  have hplace := Stream.inPlace_of_parse hparse
  obtain ⟨rfl, s, h⟩ := Stream.exists_readTo hparse
  have hmem : ∀ n, n ∈ measured ↔ (0 < n ∧ n ≤ stream.lines.count) ∧
      stream.lines.isBlankLine n = false := fun _ => h.mem_measures_iff hplace hpaired _
  refine ⟨List.pairwise_map.mpr (stream.pairwise_measures _), hmem, ?_⟩
  intro n before row after hrow
  rw [hmem, ← hrow.isBlankLine_eq_false_iff hpaired]
  refine ⟨fun hline => hline.2, fun hblank => ⟨⟨?_, ?_⟩, hblank⟩⟩
  · rw [← hrow.line_eq]
    exact Nat.succ_pos _
  · by_contra hlt
    rw [LineTable.isBlankLine_of_count_lt (Nat.not_le.mp hlt)] at hblank
    cases hblank

/-- A header, two lines of its body, a comment and a scalar of two lines, with blank lines
between them. -/
theorem measures_nonblank_lines_scalars :
    ∃ stream, parse "a: |\r\n  x\n\n  y\n # z\n\t\nb: 'p\n  q'".toList = .ok stream ∧
      Text.ReturnsPaired "a: |\r\n  x\n\n  y\n # z\n\t\nb: 'p\n  q'".toList ∧
      ∀ n, n ∈ (stream.measures (Layout.ofStream stream ⟨4, true, none, true⟩)).map (·.line) ↔
        n ∈ [1, 2, 4, 5, 7, 8] := by
  have hpaired : Text.ReturnsPaired "a: |\r\n  x\n\n  y\n # z\n\t\nb: 'p\n  q'".toList := by
    decide +kernel
  have hcount : (LineTable.ofText
      "a: |\r\n  x\n\n  y\n # z\n\t\nb: 'p\n  q'".toList).count = 8 := by
    decide +kernel
  have hlines : (List.range' 1 8).filter (!(LineTable.ofText
      "a: |\r\n  x\n\n  y\n # z\n\t\nb: 'p\n  q'".toList).isBlankLine ·) = [1, 2, 4, 5, 7, 8] := by
    decide +kernel
  have hok : (parse "a: |\r\n  x\n\n  y\n # z\n\t\nb: 'p\n  q'".toList).isOk = true := by
    decide +kernel
  cases hparse : parse "a: |\r\n  x\n\n  y\n # z\n\t\nb: 'p\n  q'".toList with
  | error e =>
    rw [hparse] at hok
    cases hok
  | ok stream =>
    refine ⟨stream, rfl, hpaired, fun n => ?_⟩
    rw [(measures_nonblank_lines hparse hpaired _).2.1, hcount, ← hlines, List.mem_filter,
      List.mem_range'_1, Bool.not_eq_true']
    exact and_congr_left fun _ => by omega

end YamlLayout
