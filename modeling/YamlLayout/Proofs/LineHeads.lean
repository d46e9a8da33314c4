import YamlLayout.Proofs.BodyLines
import YamlLayout.Proofs.MeasuredLines

/-!
# Where lines start

A line of the structure is compared by the column of its first token, any other line by
the spaces it starts with. Only spaces stand in front of the first token where no line is
indented with tabs, so the two are the same there.
-/
namespace YamlLayout

namespace Text

variable {text before left rest after : List Char} {c : Char} {n k : Nat}

/-- The spaces in front of another character are those that the line starts with. -/
theorem Row.leading_eq (h : Row text n before (List.replicate k ' ' ++ c :: rest) after)
    (hc : c ≠ ' ') : (LineTable.ofText text).leading n = k := by
  rw [LineTable.leading, h.content_eq, leadingSpaces_stripBreak, leadingSpaces_spaces_append]
  simp [leadingSpaces, hc]

/-- A line that is not indented with tabs has none in front of its first character. -/
theorem Row.tab_not_mem (h : Row text n before (left ++ c :: rest) after)
    (htabs : isTabIndented text = false) (hleft : ∀ d ∈ left, isBlank d = true)
    (hc : isSpace c = false) : '\t' ∉ left := by
  rw [isSpace, Bool.or_eq_false_iff] at hc
  have hclean : '\n' ∉ left := fun hmem => h.not_mem (List.mem_append_left _ hmem)
  obtain ⟨tail, more, hrows⟩ := LineTable.exists_splitLines_cons c (rest ++ after) hclean
  have hline : isTabIndentedLine (left ++ c :: tail) = false := by
    refine Bool.eq_false_iff.mpr (List.any_eq_false.mp htabs _ ?_)
    rw [h.take_splitLines.1, List.append_assoc, List.cons_append, hrows]
    exact List.mem_append_right _ (List.mem_cons_self ..)
  -- The break that is cut off lies behind the character.
  obtain ⟨tail', htail⟩ : ∃ tail', (if (left ++ c :: tail).getLast? == some '\n' then
      stripBreak (left ++ c :: tail) else left ++ c :: tail) = left ++ c :: tail' := by
    split
    · obtain ⟨ending, hsplit, hending⟩ := stripBreak_eq_or (left ++ c :: tail)
      rcases List.append_eq_append_iff.mp hsplit with ⟨mid, hstrip, hmid⟩ | ⟨mid, hstrip, hmid⟩
      · rcases mid with _ | ⟨d, mid⟩
        · rw [List.nil_append] at hmid
          rw [hending c (hmid ▸ List.mem_cons_self ..)] at hc
          cases hc.2
        · rw [List.cons_append, List.cons.injEq] at hmid
          exact ⟨mid, by rw [hstrip, hmid.1]⟩
      · have hbreak : c ∈ ending := by
          rw [hmid]
          exact List.mem_append_right _ (List.mem_cons_self ..)
        rw [hending c hbreak] at hc
        cases hc.2
    · exact ⟨tail, rfl⟩
  rw [isTabIndentedLine, htail] at hline
  have hblanks : (left ++ c :: tail').takeWhile isBlank = left := by
    rw [List.takeWhile_append_of_pos hleft, List.takeWhile_cons_of_neg (by simp [hc.1]),
      List.append_nil]
  simpa [hblanks, hc.1] using hline

end Text

namespace Measure

variable {lines : LineTable} {tokens : Array Token} {layout : Layout}
  {column : TokenId → Option Int} {interiors : List Interior} {n : Nat} {m : LineMeasure}

/-- A line is compared by the spaces it starts with or, if no scalar takes it up, by the
column of its first token. -/
theorem actual_of_line? (h : line? lines tokens layout column interiors n = some m) :
    m.actual = m.leading ∨
      ∃ i t rest, contentOn tokens n = (i, t) :: rest ∧ m.actual = t.first.column ∧
        bodyOn? tokens layout n = none ∧
        ∀ c ∈ interiors, c.first ≤ n → n ≤ c.last → lines.isBlankLine n = true := by
  unfold line? at h
  dsimp only at h
  split at h
  · cases h
    exact .inl rfl
  · cases h
    exact .inl rfl
  · rename_i hcovering hbody
    split at h
    · cases h
    rw [Option.some.injEq, ofTokens] at h
    rw [Option.map_eq_none_iff, List.getLast?_eq_none_iff, List.filter_eq_nil_iff] at hcovering
    dsimp only at h
    split at h
    · subst h
      exact .inl rfl
    · rename_i i t rest hcontent
      subst h
      refine .inr ⟨i, t, rest, hcontent, rfl, hbody, fun c hc hfirst hlast => ?_⟩
      simpa [hfirst, hlast] using hcovering c hc

end Measure

namespace Placement

theorem actual_continuation (tokens : Array Token) (column : TokenId → Option Int)
    (align : Bool) (m : LineMeasure) :
    (continuation tokens column align m).actual = m.actual := by
  unfold continuation
  split <;> rfl

theorem actual_bodyLine_cases (tokens : Array Token) (layout : Layout)
    (column : TokenId → Option Int) (measures : List LineMeasure) (m : LineMeasure) :
    (bodyLine tokens layout column measures m).actual = m.actual ∨
      ((bodyLine tokens layout column measures m).role.isBlockBody = true ∧
        0 ≤ (bodyLine tokens layout column measures m).actual) := by
  unfold bodyLine
  split
  · rename_i header body hrole
    dsimp only
    split
    · exact .inl rfl
    · refine .inr ⟨by simp [hrole, LineRole.isBlockBody], ?_⟩
      cases measures.find? fun r => r.role == m.role &&
          r.line == (tokens[body]?.map (·.startLine)).getD 0 with
      | none => exact Int.natCast_nonneg _
      | some r => exact Int.le_min.mpr ⟨Int.natCast_nonneg _, Int.natCast_nonneg _⟩
  · exact .inl rfl

end Placement

namespace Stream

variable {stream : Stream} {s : ParseState} {style : Style} {m : LineMeasure} {i j : TokenId}
  {a b : Token}

/-- No token follows a comment on its line. -/
theorem ReadTo.startLine_lt_of_isComment (h : stream.ReadTo s)
    (hpaired : Text.ReturnsPaired stream.text) (ha : stream.tokens[i]? = some a)
    (hb : stream.tokens[j]? = some b) (hij : i < j) (hcomment : a.isComment = true) :
    a.startLine < b.startLine := by
  have hlt : i + 1 < stream.tokens.size :=
    Nat.lt_of_le_of_lt hij (Array.getElem?_eq_some_iff.mp hb).1
  have hc := Array.getElem?_eq_getElem hlt
  obtain ⟨_, _, mid, _, _, hapart, hmid⟩ := h.exists_between hpaired ha hc
  have hnext : a.startLine < stream.tokens[i + 1].startLine := by
    rcases hmid with hfeed | ⟨hcontent, -⟩
    · exact hapart.startLine_lt hfeed
    · rw [hcomment] at hcontent
      cases hcontent
  rcases Nat.lt_or_eq_of_le (Nat.succ_le_of_lt hij) with hlater | heq
  · obtain ⟨_, _, _, _, _, hbehind⟩ := h.exists_apart hc hb hlater
    exact Nat.lt_of_lt_of_le hnext hbehind.startLine_le
  · rw [← heq, hc, Option.some.injEq] at hb
    exact hb ▸ hnext

/-- Where carriage returns are paired, only spaces stand in front of the first token of a
line that no scalar takes up. -/
theorem ReadTo.isSpace_of_first {t : Token} {rest : List Measure.Numbered} {n : Nat}
    {whole left value after : List Char} (h : stream.ReadTo s)
    (hplace : stream.InPlace stream.text) (hpaired : Text.ReturnsPaired stream.text)
    (layout : Layout) (hcontent : Measure.contentOn stream.tokens n = (i, t) :: rest)
    (hinner : ∀ c ∈ (Measure.numbered stream.tokens).filterMap (Measure.interior? layout),
      c.first ≤ n → ¬n ≤ c.last)
    (hstands : t.Stands stream.text (whole ++ left) value after) (hleft : '\n' ∉ left)
    {c : Char} (hc : c ∈ left) : isSpace c = true := by
  obtain ⟨ht, hline, hfirst⟩ := Measure.first_of_contentOn hcontent
  by_contra hsolid
  rw [Bool.not_eq_true] at hsolid
  obtain ⟨l, r, rfl⟩ := List.append_of_mem hc
  have htext : stream.text = (whole ++ l) ++ c :: (r ++ (value ++ after)) := by
    rw [hstands.text_eq]
    simp
  obtain ⟨j, a, ha, hcovers, hstart, hend⟩ := h.exists_covers hplace hpaired htext hsolid
  have hhere : (whole ++ l).count '\n' + 1 = n := by
    rw [List.mem_append, not_or, List.mem_cons, not_or] at hleft
    rw [← hline, hstands.startLine_eq]
    simp [List.count_eq_zero_of_not_mem hleft.1, List.count_eq_zero_of_not_mem hleft.2.2,
      List.count_cons_of_ne (Ne.symm hleft.2.1)]
  rw [hhere] at hstart hend
  -- The token that holds the character comes before the first one of the line.
  have hji : j < i := by
    have hbehind : Text.byteLength (whole ++ l) < t.range.start := by
      have hpos := c.utf8Size_pos
      rw [hstands.range_eq]
      simp only [Text.byteLength_append, Text.byteLength]
      omega
    have hbounds := hcovers
    unfold Token.Covers at hbounds
    rcases Nat.lt_trichotomy j i with hlt | rfl | hlt
    · exact hlt
    · rw [ha, Option.some.injEq] at ht
      subst ht
      omega
    · have hle := h.stop_le_start ht ha hlt
      have hpos := hstands.start_lt_stop
      omega
  rcases Nat.lt_or_eq_of_le hstart with hlt | heq
  · have hkind := (hplace.tokens a (Array.mem_of_getElem? ha)).kind_eq (.inl (by omega))
    obtain ⟨inner, hmem, hrange⟩ := exists_interior layout ha hkind hlt hend
    exact hinner inner hmem hrange.1 hrange.2
  · have hlt := h.startLine_lt_of_isComment hpaired ha ht hji (hfirst j a hji ha heq)
    omega

/-- Where no line is indented with tabs either, these are the spaces up to the column of the
token. -/
theorem ReadTo.exists_row_of_first {t : Token} {rest : List Measure.Numbered} {n : Nat}
    (h : stream.ReadTo s) (hplace : stream.InPlace stream.text)
    (hpaired : Text.ReturnsPaired stream.text) (htabs : isTabIndented stream.text = false)
    (layout : Layout) (hcontent : Measure.contentOn stream.tokens n = (i, t) :: rest)
    (hinner : ∀ c ∈ (Measure.numbered stream.tokens).filterMap (Measure.interior? layout),
      c.first ≤ n → ¬n ≤ c.last) (hnot : ¬stream.IsBody i) :
    ∃ before c right after, c ≠ ' ' ∧ Text.Row stream.text n before
      (List.replicate t.first.column ' ' ++ c :: right) after := by
  obtain ⟨ht, hline, -⟩ := Measure.first_of_contentOn hcontent
  obtain ⟨before, value, after, hstands⟩ := h.exists_stands ht
  obtain ⟨c, cs, rfl, hc⟩ := h.exists_cons_of_not_isBody ht hnot hstands
  obtain ⟨whole, left, rfl, hwhole, hleft⟩ := Text.exists_wholeLines_append before
  obtain ⟨right, tail, htail, hright, hbreak⟩ := Text.exists_first_row (cs ++ after)
  have hrow : Text.Row stream.text n whole (left ++ c :: right) tail := by
    refine ⟨?_, hwhole, ?_, ?_, hbreak⟩
    · rw [hstands.text_eq, List.cons_append, htail]
      simp
    · rw [← hline, hstands.startLine_eq, List.count_append,
        List.count_eq_zero_of_not_mem hleft, Nat.add_zero]
    · have hfeed : '\n' ≠ c := by
        rintro rfl
        cases hc
      simp [hleft, hright, hfeed]
  have hblanks : ∀ d ∈ left, isBlank d = true := by
    intro d hd
    have hspace := h.isSpace_of_first hplace hpaired layout hcontent hinner hstands hleft hd
    have hreturn : '\r' ∉ left := by
      rw [hstands.text_eq, List.append_assoc] at hpaired
      exact hpaired.not_mem hleft hstands.head_ne
    have hne : d ≠ '\n' ∧ d ≠ '\r' :=
      ⟨fun heq => hleft (heq ▸ hd), fun heq => hreturn (heq ▸ hd)⟩
    simpa [isSpace, isBreak, hne.1, hne.2] using hspace
  have htab := hrow.tab_not_mem htabs hblanks hc
  have hspaces : left = List.replicate left.length ' ' := by
    refine List.eq_replicate_iff.mpr ⟨rfl, fun d hd => ?_⟩
    have hblank := hblanks d hd
    have hne : d ≠ '\t' := fun heq => htab (heq ▸ hd)
    simpa [isBlank, hne] using hblank
  have hcolumn := (hplace.tokens t (Array.mem_of_getElem? ht)).column_eq hstands
  rw [(Text.count_and_length_takeWhile (List.reverse_reverse _) hwhole hleft).2] at hcolumn
  rw [hspaces, ← hcolumn] at hrow
  refine ⟨whole, c, right, tail, ?_, hrow⟩
  rintro rfl
  cases hc

/-- The column by which a line is compared is the number of spaces it starts with. -/
theorem ReadTo.actual_of_mem_measures (h : stream.ReadTo s)
    (hplace : stream.InPlace stream.text) (hpaired : Text.ReturnsPaired stream.text)
    (htabs : isTabIndented stream.text = false)
    (hm : m ∈ stream.measures (Layout.ofStream stream style)) : m.actual = m.leading := by
  have hleading := (fresh_of_mem_measures hm).leading_eq
  obtain ⟨k, -, hk⟩ := List.mem_filterMap.mp hm
  rw [Measure.line_of_line? hk] at hleading
  rcases Measure.actual_of_line? hk with heq | ⟨i, t, rest, hcontent, hactual, hbody, hinner⟩
  · exact heq
  obtain ⟨ht, hline, -⟩ := Measure.first_of_contentOn hcontent
  have hnot : ¬stream.IsBody i := by
    intro his
    obtain ⟨b, hb, hi⟩ := isBody_iff.mp his
    have hnone := List.findSome?_eq_none_iff.mp hbody b hb
    simp [hi, ht, hline] at hnone
  have houtside : ∀ c ∈ (Measure.numbered stream.tokens).filterMap
      (Measure.interior? (Layout.ofStream stream style)), c.first ≤ k + 1 → ¬k + 1 ≤ c.last := by
    intro c hc hfirst hlast
    have hsolid := h.isBlankLine_startLine ht
    rw [hline, hinner c hc hfirst hlast] at hsolid
    cases hsolid
  obtain ⟨_, c, _, _, hne, hrow⟩ :=
    h.exists_row_of_first hplace hpaired htabs _ hcontent houtside hnot
  rw [hactual, hleading, Stream.lines, hrow.leading_eq hne]

/-- Placing a line changes the column by which it is compared only in a block scalar's body. -/
theorem exists_actual_of_mem_lines (hm : m ∈ (stream.analyze style).lines) :
    ∃ n ∈ stream.measures (Layout.ofStream stream style), n.leading = m.leading ∧
      (m.actual = n.actual ∨ (m.role.isBlockBody = true ∧ 0 ≤ m.actual)) := by
  have hplaced : ∀ m ∈ (stream.analyze style).lines,
      ∃ n ∈ stream.measures (Layout.ofStream stream style), n.leading = m.leading ∧
        (m.actual = n.actual ∨ (m.role.isBlockBody = true ∧ 0 ≤ m.actual)) := by
    apply Placement.forall_mem_comments
    · exact fun c expected _ hc => hc
    · simp
    · intro c hc
      obtain ⟨d, hd, rfl⟩ := List.mem_map.mp hc
      obtain ⟨n, hn, rfl⟩ := List.mem_map.mp hd
      refine ⟨n, hn, ?_, ?_⟩
      · rw [(LineMeasure.unplaced_inj (Placement.unplaced_bodyLine ..)).2.2.1,
          (LineMeasure.unplaced_inj (Placement.unplaced_continuation ..)).2.2.1]
      · exact (Placement.actual_bodyLine_cases ..).imp_left
          fun heq => heq.trans (Placement.actual_continuation ..)
  exact hplaced m hm

theorem actual_nonneg (hm : m ∈ (stream.analyze style).lines) : 0 ≤ m.actual := by
  obtain ⟨n, hn, -, heq | ⟨-, hnonneg⟩⟩ := exists_actual_of_mem_lines hm
  · obtain ⟨k, -, hk⟩ := List.mem_filterMap.mp hn
    rw [heq]
    rcases Measure.actual_of_line? hk with hactual | ⟨_, t, _, -, hactual, -⟩
    · exact hactual ▸ Int.natCast_nonneg _
    · exact hactual ▸ Int.natCast_nonneg _
  · exact hnonneg

/-- A line that is no part of a block scalar's body stands where its spaces end. -/
theorem ReadTo.actual_eq_leading (h : stream.ReadTo s) (hplace : stream.InPlace stream.text)
    (hpaired : Text.ReturnsPaired stream.text) (htabs : isTabIndented stream.text = false)
    (hm : m ∈ (stream.analyze style).lines) (hrole : m.role.isBlockBody = false) :
    m.actual = m.leading := by
  obtain ⟨n, hn, hleading, heq | ⟨hbody, -⟩⟩ := exists_actual_of_mem_lines hm
  · rw [heq, ← hleading]
    exact h.actual_of_mem_measures hplace hpaired htabs hn
  · rw [hrole] at hbody
    cases hbody

end Stream

end YamlLayout
