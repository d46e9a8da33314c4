import YamlLayout.Proofs.Introductions

/-!
# A gap is never closed

The gap behind a mark is measured only where the node that the mark introduces follows on
the same line and belongs to the right of the mark. Then it belongs at least two columns to
the right: by a unit, by the indent of values, or as far as it stands. So no repair writes
what a mark introduces right behind the mark.
-/
namespace YamlLayout

theorem Style.two_le_columns {width : Nat} (h : 2 ≤ width) : 2 ≤ Style.columns width := by
  unfold columns
  split <;> omega

/-- A token that touches the one before it is not the first of its line. -/
theorem Stream.InPlace.isFirstOnLine_of_touches {stream : Stream} {i : TokenId}
    (hplace : stream.InPlace stream.text) (h : Token.Touches stream.tokens.toList i) :
    isFirstOnLine stream.tokens i = false := by
  obtain ⟨k, a, b, rfl, ha, hb, hstop⟩ := h
  rw [Array.getElem?_toList] at ha hb
  have hpast := (hplace.tokens a (Array.mem_of_getElem? ha)).past_eq
  have hfirst := (hplace.tokens b (Array.mem_of_getElem? hb)).first_eq
  have hline : a.endLine = b.startLine := by
    rw [Token.endLine, hpast, hstop, ← hfirst, Token.startLine]
  simp [isFirstOnLine, ha, hb, hline]

/-- The column of a token that is set off from another is counted from that of the other. -/
theorem Assignment.exists_column_of_setOff {tokens : Array Token} {column : TokenId → Option Int}
    {t b : TokenId} {offset y : Int} {inlineOffset : Option Int}
    (h : ∀ a ∈ setOff (some t) (some b) offset inlineOffset, a.Obeyed tokens column)
    (hlt : b < t) (ht : column t = some y) :
    ∃ x, column b = some x ∧
      y = x + ColumnRule.step ⟨some b, offset, inlineOffset⟩ (isFirstOnLine tokens b) := by
  have hcolumn := h _ (mem_setOff_iff.mpr ⟨t, b, rfl, rfl, hlt, rfl⟩) b rfl hlt
  rw [ht] at hcolumn
  obtain ⟨x, hx, hy⟩ := Option.map_eq_some_iff.mp hcolumn.symm
  exact ⟨x, hx, hy.symm⟩

open Assignment

namespace Node

variable {stream : Stream} {style : Style} {row key n : Node} {question : Option TokenId}
  {span : Span} {i j : TokenId} {x y : Int}

/-- The value of a pair belongs to the right of the colon by a unit where the colon starts
its line, and not to the right of it anywhere else. -/
theorem LaidOut.column_of_colon (h : (pair span question key (some i) n).LaidOut stream style)
    (hsorted : (pair span question key (some i) n).ids.Pairwise (· < ·)) (hj : n.first? = some j)
    (hx : (Layout.ofStream stream style).column? stream.tokens i = some x)
    (hy : (Layout.ofStream stream style).column? stream.tokens j = some y) (hlt : x < y) :
    isFirstOnLine stream.tokens i = true ∧ y = x + Style.columns style.unit := by
  have hunit : 0 ≤ Style.columns style.unit := by
    unfold Style.columns
    split <;> omega
  have hobeyed : ∀ a ∈ pairRules (.ofStyle stream.tokens style) false question key (some i) n,
      a.Obeyed stream.tokens ((Layout.ofStream stream style).column? stream.tokens) :=
    fun a ha => h.obeyed a (List.mem_append_right _ ha)
  rw [ids_pair, List.pairwise_append] at hsorted
  obtain ⟨-, hrest, hquestion⟩ := hsorted
  obtain ⟨-, hcolon, hkey⟩ := List.pairwise_append.mp hrest
  have hjn : j ∈ n.ids := mem_ids_of_first? hj
  have hij : i < j := (List.pairwise_cons.mp hcolon).1 j hjn
  unfold pairRules at hobeyed
  rw [List.forall_mem_append] at hobeyed
  obtain ⟨hmarks, hvalue⟩ := hobeyed
  rw [hj] at hvalue
  split at hvalue
  · -- An unindented sequence hangs on what the colon hangs on, or on the colon.
    cases question with
    | some q =>
      have hqi : q < i := hquestion q (by simp) i (by simp)
      rw [if_pos Option.isSome_some, List.forall_mem_append] at hmarks
      obtain ⟨_, hq, rfl⟩ := exists_column_of_setOff hmarks.2 hqi hx
      obtain ⟨_, hq', rfl⟩ := exists_column_of_setOff hvalue (hqi.trans hij) hy
      rw [hq, Option.some.injEq] at hq'
      simp [ColumnRule.step, hq'] at hlt
    | none =>
      rw [if_neg (by simp)] at hmarks
      cases hfirst : key.first? with
      | some k =>
        rw [hfirst] at hmarks hvalue
        have hki : k < i := hkey k (mem_ids_of_first? hfirst) i (by simp)
        obtain ⟨_, hk, rfl⟩ := exists_column_of_setOff hmarks hki hx
        obtain ⟨_, hk', rfl⟩ := exists_column_of_setOff hvalue (hki.trans hij) hy
        rw [hk, Option.some.injEq] at hk'
        simp only [ColumnRule.step, LayoutContext.ofStyle, Option.getD_none, ite_self] at hlt
        omega
      | none =>
        rw [hfirst] at hvalue
        obtain ⟨_, hi, rfl⟩ := exists_column_of_setOff hvalue hij hy
        rw [hx, Option.some.injEq] at hi
        simp [ColumnRule.step, hi] at hlt
  · obtain ⟨_, hi, rfl⟩ := exists_column_of_setOff hvalue hij hy
    rw [hx, Option.some.injEq] at hi
    subst hi
    cases hline : isFirstOnLine stream.tokens i with
    | true => exact ⟨rfl, rfl⟩
    | false => simp [ColumnRule.step, hline] at hlt

/-- Where a node belongs to the right of the mark that introduces it, it does so by a unit or
by the offset of an entry, and the mark is set off from what follows it. -/
theorem LaidOut.spaced_and_column (h : row.LaidOut stream style)
    (hplace : stream.InPlace stream.text) (hsorted : row.ids.Pairwise (· < ·))
    (hmem : (i, n) ∈ row.introduced) (hj : n.first? = some j)
    (hx : (Layout.ofStream stream style).column? stream.tokens i = some x)
    (hy : (Layout.ofStream stream style).column? stream.tokens j = some y) (hlt : x < y) :
    Token.Spaced stream.text stream.tokens.toList i ∧
      (y = x + Style.columns style.unit ∨
        y = x + (LayoutContext.ofStyle stream.tokens style).entryOffset i (some j)) := by
  have hmarked := h.marked
  have hjn : j ∈ n.ids := mem_ids_of_first? hj
  have hrules := fun a ha => h.obeyed a (List.mem_append_right _ ha)
  rcases cases_of_mem_introduced hmem with rfl | ⟨_, colon, value, rfl⟩ | ⟨_, question, key, rfl⟩
  · refine ⟨hmarked.1.1, .inr ?_⟩
    rw [rowRules, hj] at hrules
    have hij : i < j := (List.pairwise_cons.mp hsorted).1 j hjn
    exact Option.some.inj (hy.symm.trans (column_of_setOff hrules hij hx))
  · refine ⟨(hmarked.1.of_question i rfl).1, .inl ?_⟩
    rw [rowRules, pairRules, if_pos Option.isSome_some, hj, List.forall_mem_append,
      List.forall_mem_append] at hrules
    rw [ids_pair, List.pairwise_append] at hsorted
    have hij : i < j := hsorted.2.2 i (by simp) j (List.mem_append_left _ hjn)
    exact Option.some.inj (hy.symm.trans (column_of_setOff hrules.1.1 hij hx))
  · obtain ⟨hfirst, hcolumn⟩ := h.column_of_colon hsorted hj hx hy hlt
    refine ⟨((hmarked.1.of_colon i rfl).1).resolve_right fun htouches => ?_, .inl hcolumn⟩
    rw [hplace.isFirstOnLine_of_touches htouches] at hfirst
    cases hfirst

end Node

namespace Stream

variable {stream : Stream} {s : ParseState} {style : Style} {i j : TokenId} {a b : Token}

/-- Behind a token that is set off from what follows it, the next one on its line starts at
a later column than the token ends at. -/
theorem ReadTo.column_of_spaced (h : stream.ReadTo s) (hplace : stream.InPlace stream.text)
    (ha : stream.tokens[i]? = some a) (hb : stream.tokens[j]? = some b) (hij : i < j)
    (hline : a.startLine = b.startLine)
    (hspaced : Token.Spaced stream.text stream.tokens.toList i) :
    a.first.column < a.past.column ∧ a.past.column < b.first.column := by
  obtain ⟨before, x, mid, y, after, hapart⟩ := h.exists_apart ha hb hij
  obtain ⟨_, front, value, rest, ha', hstands, hspace⟩ := hspaced
  rw [Array.getElem?_toList, ha, Option.some.injEq] at ha'
  subst ha'
  have hin := hplace.tokens a (Array.mem_of_getElem? ha)
  have hcolumn := hapart.column_eq hin (hplace.tokens b (Array.mem_of_getElem? hb)) hline
  have hpast := hin.past_column_eq hapart.left fun hmem =>
    hapart.feed_not_mem hline (List.mem_append_left _ hmem)
  have hx := List.length_pos_of_ne_nil hapart.left.ne_nil
  have hmid : mid ≠ [] := by
    rintro rfl
    -- The token behind the space would start with it.
    obtain ⟨rfl, rfl⟩ := hapart.left.unique hstands
    have hrest : rest = y ++ after := by
      have htext := hapart.left.text_eq.symm.trans hstands.text_eq
      rw [List.append_cancel_left_eq, List.append_cancel_left_eq] at htext
      exact htext.symm
    obtain ⟨c, cs, rfl, hc⟩ := h.exists_cons_of_not_isBody hb
      (h.not_isBody_of_line hb ha (Nat.ne_of_gt hij) hline.symm) hapart.right
    rw [hspace c (by simp [hrest])] at hc
    cases hc
  have hwidth := List.length_pos_of_ne_nil hmid
  rw [List.length_append] at hcolumn
  omega

/-- The offset of a value from a dash that is set off from it is at least two. -/
theorem two_le_entryOffset (hvalue : 2 ≤ style.valueIndent) (ha : stream.tokens[i]? = some a)
    (hb : stream.tokens[j]? = some b) (hline : a.startLine = b.startLine)
    (hwidth : a.first.column < a.past.column ∧ a.past.column < b.first.column) :
    2 ≤ (LayoutContext.ofStyle stream.tokens style).entryOffset i (some j) := by
  have hindent := Style.two_le_columns hvalue
  simp only [LayoutContext.entryOffset, LayoutContext.gap?, LayoutContext.ofStyle, ha, hb]
  split
  · exact hindent
  · simp only [Option.bind_eq_bind, Option.bind_some, if_pos hline, Option.getD_some]
    omega

end Stream

/-- The gap is kept open: what the mark introduces stands and belongs behind a space, and
the edit of the gap writes one. -/
structure Gap.Open (stream : Stream) (style : Style) (g : Gap) : Prop where
  expected_pos : 1 ≤ g.expected
  actual_pos : 1 ≤ g.actual
  introduces : ∃ d ∈ stream.documents, ∃ node,
    (g.indicator, node) ∈ d.content.introductions false ∧ node.first? = some g.next
  writes_space : ∀ e, (RepairContext.ofStream stream (.ofStream stream style)).gapEdit? g = some e →
    ∃ mark, stream.tokens[g.indicator]? = some mark ∧ mark.isMark = true ∧
      e.range.start = mark.range.stop ∧ ∃ n, e.text.toList = ' ' :: List.replicate n ' '

/-- The gaps of a line are kept open. -/
theorem Stream.ReadTo.gap_open {text : List Char} {stream : Stream} {s : ParseState}
    {style : Style} {line : Nat} {g : Gap} (h : stream.ReadTo s)
    (hparse : parse text = .ok stream) (hplace : stream.InPlace stream.text)
    (hunit : 2 ≤ style.unit) (hvalue : 2 ≤ style.valueIndent)
    (hg : g ∈ Measure.gaps (.ofStream stream style)
      (fun t => ((Layout.ofStream stream style).columns stream.tokens)[t]?.join)
      (Measure.contentOn stream.tokens line)) : g.Open stream style := by
  obtain ⟨pre, a, b, post, hon, hindicator, hactual, x, y, hx, hy, hlt, hexpected⟩ :=
    Measure.exists_of_mem_gaps hg
  obtain ⟨ha, hb, hij, hleft, hright, hbetween⟩ := Measure.exists_of_contentOn hon
  have hline : a.startLine = b.startLine := hleft.trans hright.symm
  rw [Layout.join_getElem?_columns (Array.getElem?_eq_some_iff.mp ha).1] at hx
  rw [Layout.join_getElem?_columns (Array.getElem?_eq_some_iff.mp hb).1] at hy
  have hcontent : b.isComment = false := by
    have hmem : (g.next, b) ∈ Measure.contentOn stream.tokens line := by simp [hon]
    simpa using (List.mem_filter.mp hmem).2
  obtain ⟨d, hd, hmark⟩ := List.mem_flatMap.mp (Layout.mem_of_isIndicator hindicator)
  rw [← Node.map_introductions, List.mem_map] at hmark
  obtain ⟨⟨_, node⟩, hintroduced, rfl⟩ := hmark
  obtain ⟨row, hrow, hmem⟩ := (h.laidOut hparse style hd).exists_row hintroduced
  have hfirst := h.first?_of_introduced hrow hmem ha hb hij hline hcontent fun k c hik hkj hc hk =>
    hbetween k c hik hkj hc (hk.trans hleft)
  have hsorted := h.pairwise_ids.sublist hrow.ids_infix.sublist
  obtain ⟨hspaced, hcolumn⟩ := hrow.spaced_and_column hplace hsorted hmem hfirst hx hy hlt
  have hwidth := h.column_of_spaced hplace ha hb hij hline hspaced
  have hstep : x + 2 ≤ y := by
    rcases hcolumn with hcolumn | hcolumn
    · have := Style.two_le_columns hunit
      omega
    · have := two_le_entryOffset hvalue ha hb hline hwidth
      omega
  have hpos : 1 ≤ g.expected := by omega
  refine ⟨hpos, by omega, ⟨d, hd, node, hintroduced, hfirst⟩, fun e he => ?_⟩
  rw [RepairContext.gapEdit?_eq _ ha hb he]
  refine ⟨a, ha, h.isMark_of_isIndicator ha hindicator, rfl, g.expected.toNat - 1, ?_⟩
  rw [RepairContext.toList_spaces, ← List.replicate_succ]
  congr 1
  omega

/-- No gap behind a dash, a question mark or a colon is closed: the node that the mark
introduces stands and belongs behind at least one space, and the repair of the gap writes at
least one. -/
theorem gaps_kept_open {text : List Char} {stream : Stream} (hparse : parse text = .ok stream)
    (style : Style) (hunit : 2 ≤ style.unit) (hvalue : 2 ≤ style.valueIndent) :
    ∀ m ∈ stream.measures (.ofStream stream style) ++ (stream.analyze style).lines,
      ∀ g ∈ m.gaps, g.Open stream style := by
  intro m hm g hg
  obtain ⟨rfl, s, h⟩ := Stream.exists_readTo hparse
  have hplace := Stream.inPlace_of_parse hparse
  rcases List.mem_append.mp hm with hm | hm
  · exact h.gap_open hparse hplace hunit hvalue ((Stream.fresh_of_mem_measures hm).gaps_mem g hg)
  · exact h.gap_open hparse hplace hunit hvalue (Stream.gaps_of_mem_lines hm hg)

/-- A dash that keeps its gap within a line, and wide gaps behind the other marks. -/
theorem gaps_kept_open_nested :
    ∃ stream, parse "-   -  a:    b\n-   ?    c\n    :   d\n".toList = .ok stream ∧
      (stream.measures (.ofStream stream .default)).flatMap (·.gaps) =
        [⟨0, 1, 1, 3⟩, ⟨1, 2, 2, 2⟩, ⟨5, 6, 1, 3⟩, ⟨6, 7, 1, 4⟩, ⟨8, 9, 1, 3⟩] ∧
      ∀ g ∈ [(⟨0, 1, 1, 3⟩ : Gap), ⟨1, 2, 2, 2⟩, ⟨5, 6, 1, 3⟩, ⟨6, 7, 1, 4⟩, ⟨8, 9, 1, 3⟩],
        g.Open stream .default := by
  have h : (parse "-   -  a:    b\n-   ?    c\n    :   d\n".toList).toOption.map
      (fun stream => (stream.measures (.ofStream stream .default)).flatMap (·.gaps)) =
      some [⟨0, 1, 1, 3⟩, ⟨1, 2, 2, 2⟩, ⟨5, 6, 1, 3⟩, ⟨6, 7, 1, 4⟩, ⟨8, 9, 1, 3⟩] := by
    decide +kernel
  cases hparse : parse "-   -  a:    b\n-   ?    c\n    :   d\n".toList with
  | error e =>
    rw [hparse] at h
    cases h
  | ok stream =>
    rw [hparse] at h
    have hgaps := Option.some.inj h
    refine ⟨stream, rfl, hgaps, fun g hg => ?_⟩
    rw [← hgaps, List.mem_flatMap] at hg
    obtain ⟨m, hm, hg⟩ := hg
    exact gaps_kept_open hparse .default (by decide) (by decide) m (List.mem_append_left _ hm) g hg

end YamlLayout
