import YamlLayout.Proofs.ChangingRepairs
import YamlLayout.Proofs.MovedLines

/-!
# How far a repair reaches

A repair that moves a window of lines keeps the number of lines and leaves the other lines
as they are. Only the header of a block scalar whose body lies in the window may stand in
front of it, and then its digit is rewritten; there is at most one such header, because
the next one stands behind the body of the first.
-/
namespace YamlLayout

namespace LineTable

variable {text before row after : List Char} {n : Nat}

theorem count_ofText (text : List Char) :
    (ofText text).count = max 1 (Text.splitLines text).length := by
  unfold count ofText
  split
  · rename_i hnil
    rw [hnil]
    rfl
  · rename_i hne
    have hpos := List.length_pos_iff.mpr hne
    exact (Nat.max_eq_right hpos).symm

/-- The last line counts unless nothing stands behind the last line feed. -/
theorem count_of_last (h : Text.Row text n before row after) (hlast : n = text.count '\n' + 1) :
    (ofText text).count = max 1 (text.count '\n' + if row = [] then 0 else 1) := by
  have hfeeds := h.line_eq.trans hlast
  rw [Nat.add_right_cancel_iff, h.text_eq, List.count_append, List.count_append] at hfeeds
  have hnil : after = [] := by
    rcases h.after_eq with hnil | ⟨rest, rfl⟩
    · exact hnil
    · rw [List.count_cons_self] at hfeeds
      omega
  have hrow : (Text.splitLines row).length = if row = [] then 0 else 1 := by
    split
    · rename_i hempty
      rw [hempty]
      rfl
    · rename_i hne
      rw [Text.splitLines_of_not_mem h.not_mem hne]
      rfl
  rw [count_ofText, h.text_eq, hnil, List.append_nil, Text.splitLines_append h.whole,
    List.length_append, h.whole.length_splitLines, hrow, List.count_append,
    List.count_eq_zero_of_not_mem h.not_mem, Nat.add_zero]

/-- Past the last line there is nothing. -/
theorem row_of_count_lt (h : (ofText text).count < n) : (ofText text).row n = [] := by
  have hnone : (ofText text).rows[n - 1]? = none :=
    List.getElem?_eq_none (by rw [count] at h; omega)
  rw [row, if_neg (by omega), hnone]
  rfl

end LineTable

/-- Whether a line ends in a line feed depends on the number of line feeds only. -/
theorem Text.Row.take_one_eq {text text' before before' row row' after after' : List Char}
    {n : Nat} (h : Row text n before row after) (h' : Row text' n before' row' after')
    (hcount : text'.count '\n' = text.count '\n') : after'.take 1 = after.take 1 := by
  have hline := h.line_eq.trans h'.line_eq.symm
  rw [h.text_eq, h'.text_eq] at hcount
  simp only [List.count_append, List.count_eq_zero_of_not_mem h.not_mem,
    List.count_eq_zero_of_not_mem h'.not_mem] at hcount
  rcases h.after_eq with rfl | ⟨rest, rfl⟩ <;> rcases h'.after_eq with rfl | ⟨rest', rfl⟩
  · rfl
  · rw [List.count_cons_self, List.count_nil] at hcount
    omega
  · rw [List.count_cons_self, List.count_nil] at hcount
    omega
  · rfl

/-- A line on which no edit lies stays as it is, with its line break. -/
theorem Patched.row_of_none {text result : List Char} {edits : List Edit} {n : Nat}
    (h : Patched [] edits text result) (hlines : ∀ e ∈ edits, ∃ line, e.OnLine text line)
    (hnone : ∀ e ∈ edits, ¬e.OnLine text n) :
    (LineTable.ofText result).row n = (LineTable.ofText text).row n := by
  have hfeeds := h.count_feed hlines
  cases n with
  | zero => rfl
  | succ n =>
    by_cases hle : n ≤ text.count '\n'
    · obtain ⟨before, row, after, hrow⟩ := Text.exists_row hle
      obtain ⟨before', after', hrow'⟩ := h.exists_row_of_none hlines hrow hnone
      rw [hrow'.row_eq, hrow.row_eq, hrow.take_one_eq hrow' hfeeds]
    · have hcount := LineTable.count_le text
      have hcount' := LineTable.count_le result
      rw [LineTable.row_of_count_lt (by omega), LineTable.row_of_count_lt (by omega)]

/-- What stands within a token stands behind its column by the part of the token in front. -/
theorem Token.InPlace.length_eq {t : Token} {text ahead value after before left front : List Char}
    (h : t.InPlace text) (hstands : t.Stands text ahead value after) (hfront : '\n' ∉ front)
    (hwhole : Text.WholeLines before) (hleft : '\n' ∉ left)
    (hplace : before ++ left = ahead ++ front) :
    left.length = t.first.column + front.length := by
  obtain ⟨whole, x, rfl, hlines, hx⟩ := Text.exists_wholeLines_append ahead
  have hclean : '\n' ∉ x ++ front := by simp [hx, hfront]
  have hcolumn := h.column_eq hstands
  rw [(Text.count_and_length_takeWhile (List.reverse_reverse _) hlines hx).2] at hcolumn
  have hlength := (Text.count_and_length_takeWhile (List.reverse_reverse _) hwhole hleft).2
  rw [hplace, List.append_assoc,
    (Text.count_and_length_takeWhile (List.reverse_reverse _) hlines hclean).2] at hlength
  rw [← hlength, hcolumn, List.length_append]

/-- Two edits of the digit of one header lie at the same place. -/
theorem RepairContext.range_eq_of_digitEdit? {ctx : RepairContext} {header : TokenId}
    {m n : Nat} {e f : Edit} (he : ctx.digitEdit? header m = some e)
    (hf : ctx.digitEdit? header n = some f) : f.range = e.range := by
  obtain ⟨t, ht, he⟩ := Option.bind_eq_some_iff.mp he
  obtain ⟨place, hplace, he⟩ := Option.bind_eq_some_iff.mp he
  obtain ⟨t', ht', hf⟩ := Option.bind_eq_some_iff.mp hf
  obtain ⟨place', hplace', hf⟩ := Option.bind_eq_some_iff.mp hf
  cases ht.symm.trans ht'
  cases hplace.symm.trans hplace'
  cases he
  cases hf
  rfl

namespace Stream

variable {stream : Stream} {s : ParseState} {style : Style} {d : Deviation} {r : Repair}
  {window : List LineMeasure} {deltas : List Int} {b b' : BlockScalar} {i : TokenId}

/-- The next header stands behind the body of a block scalar. -/
theorem ReadTo.body_lt_header (h : stream.ReadTo s) (hb : .block b ∈ stream.pieces)
    (hb' : .block b' ∈ stream.pieces) (hi : b.body = some i) (hlt : b.header < b'.header) :
    i < b'.header := by
  obtain ⟨t, -, -, -, -, ht, hkind, -⟩ := h.exists_header hb'
  obtain ⟨u, v, -, hblock, hv⟩ := h.reads.exists_readsBlock hb
  cases hblock with
  | bare hopens hpasses hbody =>
    rw [hbody] at hi
    cases hi
  | @filled _ w _ _ _ hopens hpasses hends hfound hbody =>
    obtain ⟨n, -, hopened⟩ := hopens.exists_ahead
    obtain rfl : w.next = i := Option.some.inj (hbody.symm.trans hi)
    rcases Nat.lt_trichotomy b'.header w.next with hbefore | heq | hbehind
    · -- Only comments are read between the header and the body.
      exfalso
      have htoken := ht
      rw [h.tokens_eq, List.getElem?_toArray] at htoken
      have hnext : u.next + 1 ≤ b'.header := hopens.header_eq ▸ hlt
      rw [← ParseState.next_push u .punctuator n, ← hopened] at hnext
      have hcomment := hpasses.isComment (.head (.body hends hfound) hv) hnext hbefore htoken
      rw [Token.isComment, hkind] at hcomment
      cases hcomment
    · exfalso
      obtain ⟨t', hat, -⟩ := h.exists_bodyAt hb hi
      obtain rfl : t = t' := Option.some.inj (ht.symm.trans (heq ▸ hat.token_eq))
      rw [hat.kind_eq] at hkind
      cases hkind
    · exact hbehind

/-- The line on which a token starts is measured. -/
theorem ReadTo.exists_line_of_token {t : Token} (h : stream.ReadTo s)
    (hplace : stream.InPlace stream.text) (hpaired : Text.ReturnsPaired stream.text)
    (ht : stream.tokens[i]? = some t) :
    ∃ g ∈ (stream.analyze style).lines, g.line = t.startLine := by
  obtain ⟨before, value, after, hstands⟩ := h.exists_stands ht
  have hpos : 0 < t.startLine := by
    rw [hstands.startLine_eq]
    exact Nat.succ_pos _
  obtain ⟨n, hn, hline⟩ := List.mem_map.mp ((h.mem_measures_iff hplace hpaired
    (Layout.ofStream stream style)).mpr ⟨⟨hpos, hstands.startLine_le_count⟩,
      h.isBlankLine_startLine ht⟩)
  have hmem := List.mem_map_of_mem (f := LineMeasure.unplaced) hn
  rw [← map_unplaced_place stream (Layout.ofStream stream style) style] at hmem
  obtain ⟨g, hg, heq⟩ := List.mem_map.mp hmem
  exact ⟨g, hg, (LineMeasure.unplaced_inj heq).1.trans hline⟩

/-- Every edit lies on a measured line. -/
theorem Shifts.exists_line {e : Edit} (hshifts : stream.Shifts style window deltas r)
    (h : stream.ReadTo s) (hplace : stream.InPlace stream.text)
    (hpaired : Text.ReturnsPaired stream.text) (he : e ∈ r.edits) :
    ∃ g ∈ (stream.analyze style).lines, e.OnLine stream.text g.line := by
  cases hshifts.adjusts e he with
  | @move g delta hg hdelta =>
    have hin := hshifts.sublist.mem (List.of_mem_zip hg).1
    exact ⟨g, hin, RepairContext.onLine_lineEdit _ (sound_of_mem_place hin) delta⟩
  | @gap g delta gap e hg hgap hedit =>
    have hin := hshifts.sublist.mem (List.of_mem_zip hg).1
    exact ⟨g, hin, RepairContext.onLine_gapEdit _ h (sound_of_mem_place hin) hgap hedit⟩
  | digit hb hbody hne hpos hle hedit =>
    obtain ⟨token, htoken, hon⟩ :=
      RepairContext.onLine_digitEdit _ h (block_mem_pieces hb) hpos hle hedit
    obtain ⟨g, hg, hline⟩ := h.exists_line_of_token hplace hpaired htoken
    exact ⟨g, hg, hline ▸ hon⟩

/-- The number of lines stays the same. -/
theorem Shifts.count_eq (hshifts : stream.Shifts style window deltas r) (h : stream.ReadTo s)
    (hplace : stream.InPlace stream.text) (hpaired : Text.ReturnsPaired stream.text)
    (hr : r ∈ (stream.analyze style).repairs) :
    (LineTable.ofText (applyRepairs stream.text [r])).count = stream.lines.count := by
  obtain ⟨edits, hedits, -, hlines, hpatched⟩ := h.exists_patched hr
  have hfeeds := hpatched.count_feed hlines
  obtain ⟨before, row, after, hrow⟩ := Text.exists_row (Nat.le_refl (stream.text.count '\n'))
  by_cases hedit : ∃ e ∈ edits, e.OnLine stream.text (stream.text.count '\n' + 1)
  · -- The last line has an edit, so it holds a character before and after it.
    obtain ⟨e, he, hon⟩ := hedit
    obtain ⟨g, hg, hline⟩ := hshifts.exists_line h hplace hpaired ((hedits e).mp he)
    have hlast := hline.unique hon
    obtain ⟨_, c, _, _, _, _, _, _, -, hold, hnew, -⟩ :=
      hshifts.exists_row h hplace hpaired hr hg
    rw [Stream.lines, LineTable.count_of_last hold hlast,
      LineTable.count_of_last hnew (by rw [hlast, hfeeds]), hfeeds, if_neg (by simp),
      if_neg (by simp)]
  · obtain ⟨before', after', hrow'⟩ := hpatched.exists_row_of_none hlines hrow
      fun e he hon => hedit ⟨e, he, hon⟩
    rw [Stream.lines, LineTable.count_of_last hrow rfl,
      LineTable.count_of_last hrow' (by rw [hfeeds]), hfeeds]

/-- What is edited outside the window: the digit of a header whose body starts in it. -/
theorem Shifts.exists_header_of_outside {e : Edit} {n : Nat}
    (hshifts : stream.Shifts style window deltas r) (h : stream.ReadTo s) (he : e ∈ r.edits)
    (hon : e.OnLine stream.text n) (hout : n ∉ window.map (·.line)) :
    ∃ (b : BlockScalar) (i : TokenId) (m : Nat) (t a : Token) (g : LineMeasure),
      b ∈ (Layout.ofStream stream style).blocks ∧ b.body = some i ∧ 1 ≤ m ∧ m ≤ 9 ∧
      (RepairContext.ofStream stream (Layout.ofStream stream style)).digitEdit? b.header m =
        some e ∧
      stream.tokens[b.header]? = some t ∧ t.startLine = n ∧ stream.tokens[i]? = some a ∧
      g ∈ window ∧ g.line = a.startLine := by
  have hmem : ∀ g delta, (g, delta) ∈ window.zip deltas → g.line ∈ window.map (·.line) :=
    fun g delta hg => List.mem_map_of_mem (List.of_mem_zip hg).1
  cases hshifts.adjusts e he with
  | @move g delta hg hdelta =>
    have hin := hshifts.sublist.mem (List.of_mem_zip hg).1
    have hline := RepairContext.onLine_lineEdit (Layout.ofStream stream style)
      (sound_of_mem_place hin) delta
    exact absurd (hline.unique hon ▸ hmem g delta hg) hout
  | @gap g delta gap e hg hgap hedit =>
    have hin := hshifts.sublist.mem (List.of_mem_zip hg).1
    have hline := RepairContext.onLine_gapEdit _ h (sound_of_mem_place hin) hgap hedit
    exact absurd (hline.unique hon ▸ hmem g delta hg) hout
  | @digit b i m e hb hbody hne hpos hle hedit =>
    obtain ⟨t, ht, hline⟩ :=
      RepairContext.onLine_digitEdit _ h (block_mem_pieces hb) hpos hle hedit
    have hstart := hline.unique hon
    -- The header does not move, so the body does.
    have hheader : (RepairContext.ofStream stream (Layout.ofStream stream style)).deltaAt
        (window.zip deltas) b.header = 0 := by
      by_contra hmoves
      obtain ⟨g, delta, hg, heq⟩ := RepairContext.exists_of_deltaAt_ne hmoves
      rw [RepairContext.ofStream, ht, Option.map_some, Option.some.injEq, hstart] at heq
      exact hout (heq ▸ hmem g delta hg)
    rw [hheader] at hne
    obtain ⟨g, delta, hg, heq⟩ := RepairContext.exists_of_deltaAt_ne (Ne.symm hne)
    obtain ⟨a, ha, heq⟩ := Option.map_eq_some_iff.mp heq
    exact ⟨b, i, m, t, a, g, hb, hbody, hpos, hle, hedit, ht, hstart, ha,
      (List.of_mem_zip hg).1, heq.symm⟩

/-- A token outside the window with a later one that starts in it stands in front of the
window. -/
theorem IsWindow.startLine_lt {j : TokenId} {t a : Token} {g w : LineMeasure}
    (hwindow : stream.IsWindow style d window) (h : stream.ReadTo s)
    (hplace : stream.InPlace stream.text) (hpaired : Text.ReturnsPaired stream.text)
    (ht : stream.tokens[i]? = some t) (ha : stream.tokens[j]? = some a) (hij : i < j)
    (hout : t.startLine ∉ window.map (·.line)) (hg : g ∈ window) (hline : g.line = a.startLine)
    (hw : w ∈ window) : t.startLine < w.line := by
  by_contra hle
  obtain ⟨_, _, _, _, _, hapart⟩ := h.exists_apart ht ha hij
  have hstart := hapart.startLine_le
  obtain ⟨x, hx, hxline⟩ := @ReadTo.exists_line_of_token _ _ style _ _ h hplace hpaired ht
  have hmem := hwindow.mem_of_between hw hg hx (by omega) (by omega)
  exact hout (hxline ▸ List.mem_map_of_mem hmem)

/-- There is at most one edit outside the window. -/
theorem Shifts.eq_of_outside {e f : Edit} {m n : Nat} {edits : List Edit}
    (hshifts : stream.Shifts style window deltas r) (hwindow : stream.IsWindow style d window)
    (h : stream.ReadTo s) (hplace : stream.InPlace stream.text)
    (hpaired : Text.ReturnsPaired stream.text) (hedits : ∀ e, e ∈ edits ↔ e ∈ r.edits)
    (hprecedes : edits.Pairwise Edit.Precedes) (he : e ∈ r.edits) (hf : f ∈ r.edits)
    (hm : e.OnLine stream.text m) (hn : f.OnLine stream.text n)
    (houtm : m ∉ window.map (·.line)) (houtn : n ∉ window.map (·.line)) : e = f := by
  obtain ⟨b, i, _, t, a, g, hb, hi, -, -, hedit, ht, rfl, ha, hg, hline⟩ :=
    hshifts.exists_header_of_outside h he hm houtm
  obtain ⟨b', i', _, t', a', g', hb', hi', -, -, hedit', ht', rfl, ha', hg', hline'⟩ :=
    hshifts.exists_header_of_outside h hf hn houtn
  have hlt := h.header_lt (block_mem_pieces hb) hi
  have hlt' := h.header_lt (block_mem_pieces hb') hi'
  -- A body in the window stands behind every header in front of the window.
  have hfront : ∀ {b b' : BlockScalar} {i : TokenId} {t' a : Token} {g : LineMeasure},
      .block b ∈ stream.pieces → .block b' ∈ stream.pieces → b.body = some i →
      stream.tokens[b'.header]? = some t' → stream.tokens[i]? = some a → g ∈ window →
      g.line = a.startLine → (∀ w ∈ window, t'.startLine < w.line) → ¬b.header < b'.header := by
    intro b b' i t' a g hb hb' hi ht' ha hg hline hbefore hheaders
    have hbehind := h.body_lt_header hb hb' hi hheaders
    obtain ⟨_, _, _, _, _, hapart⟩ := h.exists_apart ha ht' hbehind
    have hstart := hapart.startLine_le
    have hfirst := hbefore g hg
    omega
  have hsame : b.header = b'.header := by
    rcases Nat.lt_trichotomy b.header b'.header with hless | heq | hless
    · exact absurd hless (hfront (block_mem_pieces hb) (block_mem_pieces hb') hi ht' ha hg hline
        fun w hw => hwindow.startLine_lt h hplace hpaired ht' ha' hlt' houtn hg' hline' hw)
    · exact heq
    · exact absurd hless (hfront (block_mem_pieces hb') (block_mem_pieces hb) hi' ht ha' hg' hline'
        fun w hw => hwindow.startLine_lt h hplace hpaired ht ha hlt houtm hg hline hw)
  have hrange := RepairContext.range_eq_of_digitEdit? hedit (hsame ▸ hedit')
  -- Two edits at the same place would overlap.
  rcases eq_or_of_pairwise hprecedes ((hedits e).mpr he) ((hedits f).mpr hf) with heq | hp | hp
  · exact heq
  · rw [Edit.Precedes, hrange] at hp
    omega
  · rw [Edit.Precedes, hrange] at hp
    omega

/-- The line differs from before in one digit, and that stands in the header of a block
scalar. -/
def RewritesDigit (stream : Stream) (before after : LineTable) (n : Nat) : Prop :=
  ∃ document ∈ stream.documents, ∃ b ∈ document.content.blockScalars,
    ∃ t left old new right, stream.tokens[b.header]? = some t ∧ t.startLine = n ∧
      t.first.column < left.length ∧ left.length < t.past.column ∧
      isIndentDigit old = true ∧ isIndentDigit new = true ∧
      before.row n = left ++ old :: right ∧ after.row n = left ++ new :: right

/-- Making the only edit of a line rewrites the digit of its header. -/
theorem rewritesDigit_of_patched {t : Token} {m n : Nat} {e : Edit}
    {before row after before' row' after' result : List Char} (h : stream.ReadTo s)
    (hplace : stream.InPlace stream.text) (hb : b ∈ (Layout.ofStream stream style).blocks)
    (ht : stream.tokens[b.header]? = some t) (hpos : 1 ≤ m) (hle : m ≤ 9)
    (he : (RepairContext.ofStream stream (Layout.ofStream stream style)).digitEdit? b.header m =
      some e) (hline : t.startLine = n)
    (hrow : Text.Row stream.text n before row after)
    (hrow' : Text.Row result n before' row' after') (htake : after'.take 1 = after.take 1)
    (hpatched : Patched before [e] row row') :
    stream.RewritesDigit stream.lines (LineTable.ofText result) n := by
  obtain ⟨document, hdocument, hscalar⟩ := List.mem_flatMap.mp hb
  obtain ⟨token, ahead, mark, l, c, right, rest, htoken, hstands, -, hc, hclean, htext,
    hreplaces⟩ := RepairContext.exists_mark_of_digitEdit _ h (block_mem_pieces hb) he
  obtain rfl : t = token := Option.some.inj (ht.symm.trans htoken)
  obtain ⟨digit, hdigit, hnew⟩ := RepairContext.exists_toString_digit hpos hle
  obtain ⟨left, old, tail, hsplit, hresult, hrange⟩ := hpatched.exists_of_singleton
  have hhere : e.Replaces stream.text (before ++ left) old (tail ++ after) := by
    refine ⟨?_, hrange⟩
    rw [hrow.text_eq, hsplit]
    simp
  obtain ⟨hleft, rfl, -⟩ := hreplaces.unique hhere
  rw [htext, hdigit] at hresult
  have hfeed : '\n' ∉ left := by
    intro hmem
    rw [hsplit] at hrow
    exact hrow.not_mem (List.mem_append_left _ hmem)
  have hin := hplace.tokens t (Array.mem_of_getElem? ht)
  have hcolumns := hin.length_eq hstands (fun hmem => hclean (by
    rw [← List.cons_append]
    exact List.mem_append_left _ hmem)) hrow.whole hfeed hleft.symm
  have hpast := hin.past_column_eq hstands hclean
  refine ⟨document, hdocument, b, hscalar, t, left, c, digit, tail ++ after.take 1, ht, hline,
    by simp [hcolumns], by simp [hpast, hcolumns], hc, hnew, ?_, ?_⟩
  · rw [Stream.lines, hrow.row_eq, hsplit]
    simp
  · rw [hrow'.row_eq, hresult, htake]
    simp

/-- Outside the window nothing changes but perhaps the digit of one header. -/
theorem Shifts.kept (hshifts : stream.Shifts style window deltas r)
    (hwindow : stream.IsWindow style d window) (h : stream.ReadTo s)
    (hplace : stream.InPlace stream.text) (hpaired : Text.ReturnsPaired stream.text)
    (hr : r ∈ (stream.analyze style).repairs) :
    (∀ n, n ∉ window.map (·.line) →
      (LineTable.ofText (applyRepairs stream.text [r])).row n = stream.lines.row n) ∨
    ∃ k, k ∉ window.map (·.line) ∧
      stream.RewritesDigit stream.lines (LineTable.ofText (applyRepairs stream.text [r])) k ∧
      ∀ n, n ∉ window.map (·.line) → n ≠ k →
        (LineTable.ofText (applyRepairs stream.text [r])).row n = stream.lines.row n := by
  obtain ⟨edits, hedits, hprecedes, hlines, hpatched⟩ := h.exists_patched hr
  by_cases hnone : ∀ e ∈ edits, ∀ n, e.OnLine stream.text n → n ∈ window.map (·.line)
  · refine .inl fun n hout => hpatched.row_of_none hlines fun e he hon => hout (hnone e he n hon)
  · push Not at hnone
    obtain ⟨e, he, k, hon, hout⟩ := hnone
    have hmem := (hedits e).mp he
    have honly : ∀ f ∈ edits, ∀ n, f.OnLine stream.text n → n ∉ window.map (·.line) → f = e :=
      fun f hf n hfn houtn => hshifts.eq_of_outside hwindow h hplace hpaired hedits hprecedes
        ((hedits f).mp hf) hmem hfn hon houtn hout
    obtain ⟨b, i, m, t, a, g, hb, hi, hpos, hle, hedit, ht, hline, -, -, -⟩ :=
      hshifts.exists_header_of_outside h hmem hon hout
    obtain ⟨before, row, after, hrow⟩ : ∃ before row after,
        Text.Row stream.text k before row after := by
      obtain ⟨front, old, back, hreplaces, -, -, rfl⟩ := hon
      apply Text.exists_row
      rw [hreplaces.text_eq, List.count_append]
      exact Nat.le_add_right ..
    obtain ⟨before', row', after', hrow', hone⟩ := hpatched.exists_row_of_one hlines hrow
      hprecedes he hon fun f hf hfk => honly f hf k hfk hout
    have htake := hrow.take_one_eq hrow' (hpatched.count_feed hlines)
    refine .inr ⟨k, hout, rewritesDigit_of_patched h hplace hb ht hpos hle hedit hline hrow hrow'
      htake hone, fun n houtn hne => hpatched.row_of_none hlines fun f hf hfn => hne ?_⟩
    rw [honly f hf n hfn houtn] at hfn
    exact hfn.unique hon

/-- How far the lines of the window move. -/
theorem Shifts.leading_eq {g : LineMeasure} {e : Int}
    (hshifts : stream.Shifts style window deltas r) (h : stream.ReadTo s)
    (hplace : stream.InPlace stream.text) (hpaired : Text.ReturnsPaired stream.text)
    (hr : r ∈ (stream.analyze style).repairs) (hg : g ∈ window) (hpinned : g.pinned = false)
    (hexpected : g.expected = some e) :
    ((LineTable.ofText (applyRepairs stream.text [r])).leading g.line : Int) =
      stream.lines.leading g.line + e - g.actual := by
  have hin := hshifts.sublist.mem hg
  obtain ⟨hlength, hdelta⟩ := Shift.exists_delta hshifts.deltas_eq
  obtain ⟨delta, hmem⟩ := exists_mem_zip hlength hg
  obtain ⟨_, c, _, _, _, k, _, _, hc, -, hrow, hmoved⟩ :=
    hshifts.exists_row h hplace hpaired hr hin
  rw [hrow.leading_eq hc, hmoved delta hmem, (hdelta g delta hmem).2.2 e hpinned hexpected,
    (sound_of_mem_place hin).leading_eq]
  omega

end Stream

/-- The lines of a window are put where they belong, and the others are left alone. -/
structure Stream.PutsInPlace (stream : Stream) (d : Deviation) (window : List LineMeasure)
    (before after : LineTable) : Prop where
  count_eq : after.count = before.count
  /-- The line that deviates moves by what it was off. -/
  deviating : (after.leading d.line : Int) =
    before.leading d.line + ((d.expected : Int) - d.actual)
  moved : ∀ g ∈ window, g.pinned = false → ∀ e, g.expected = some e →
    (after.leading g.line : Int) = before.leading g.line + e - g.actual
  /-- Only a line in the body of a block scalar may lie deeper than where it belongs. -/
  landed : ∀ g ∈ window, g.role.isBlockBody = false → ∀ e, g.expected = some e →
    (after.leading g.line : Int) = e
  kept : (∀ n, n ∉ window.map (·.line) → after.row n = before.row n) ∨
    ∃ k, k ∉ window.map (·.line) ∧ stream.RewritesDigit before after k ∧
      ∀ n, n ∉ window.map (·.line) → n ≠ k → after.row n = before.row n

/-- Where no line is indented with tabs and every carriage return is followed by a line feed,
the repair of a line that is off its column keeps the number of lines, moves that line by what
it is off, and moves every line of its window from the column at which it stands to the one
at which it belongs. No other line changes, except that one block scalar header may get
another digit. -/
theorem repair_putsInPlace {text : List Char} {stream : Stream} {d : Deviation} {r : Repair}
    (hparse : parse text = .ok stream) (htabs : isTabIndented text = false)
    (hpaired : Text.ReturnsPaired text) (style : Style)
    (hd : d ∈ (stream.analyze style).deviations) (hkind : d.kind = .indentation)
    (hr : d.repair = some r) :
    ∃ window, stream.IsWindow style d window ∧
      stream.PutsInPlace d window (LineTable.ofText text)
        (LineTable.ofText (applyRepairs text [r])) := by
  have hplace := Stream.inPlace_of_parse hparse
  obtain ⟨rfl, s, h⟩ := Stream.exists_readTo hparse
  obtain ⟨window, deltas, hwindow, hshifts⟩ := Stream.exists_shifts hd hkind hr
  have hrepair : r ∈ (stream.analyze style).repairs := List.mem_filterMap.mpr ⟨d, hd, hr⟩
  have hfree : ∀ g ∈ window, ∀ e, g.expected = some e → g.pinned = false := by
    intro g hg e hexpected
    rw [← Bool.not_eq_true]
    intro hpinned
    rw [Stream.expected_of_pinned (hwindow.sublist.mem hg) hpinned] at hexpected
    cases hexpected
  have hmoved : ∀ g ∈ window, ∀ e, g.expected = some e →
      ((LineTable.ofText (applyRepairs stream.text [r])).leading g.line : Int) =
        stream.lines.leading g.line + e - g.actual := fun g hg e hexpected =>
    hshifts.leading_eq h hplace hpaired hrepair hg (hfree g hg e hexpected) hexpected
  refine ⟨window, hwindow, hshifts.count_eq h hplace hpaired hrepair, ?_,
    fun g hg _ e hexpected => hmoved g hg e hexpected, ?_,
    hshifts.kept hwindow h hplace hpaired hrepair⟩
  · obtain ⟨pre, m, post, hlines, hline, hexpected, hactual, hfound⟩ := hwindow
    have hm : m ∈ window := (RepairContext.mem_window?_iff hfound).mpr (.inr (.inl rfl))
    rw [← hline, hmoved m hm _ hexpected, hactual, Stream.lines]
    omega
  · intro g hg hrole e hexpected
    have hin := hwindow.sublist.mem hg
    rw [hmoved g hg e hexpected, h.actual_eq_leading hplace hpaired htabs hin hrole,
      (Stream.sound_of_mem_place hin).leading_eq]
    omega

/-- The lines of a body move to the left, and the header in front of them gets another digit. -/
theorem repair_putsInPlace_digit :
    ∃ stream d r window, parse "a: |3\n   x\n     y\n".toList = .ok stream ∧
      isTabIndented "a: |3\n   x\n     y\n".toList = false ∧
      Text.ReturnsPaired "a: |3\n   x\n     y\n".toList ∧
      d ∈ (stream.analyze ⟨2, true, none, true⟩).deviations ∧ d.kind = .indentation ∧
      d.repair = some r ∧
      applyRepairs "a: |3\n   x\n     y\n".toList [r] = "a: |2\n  x\n    y\n".toList ∧
      stream.IsWindow ⟨2, true, none, true⟩ d window ∧
      stream.PutsInPlace d window (LineTable.ofText "a: |3\n   x\n     y\n".toList)
        (LineTable.ofText (applyRepairs "a: |3\n   x\n     y\n".toList [r])) := by
  obtain ⟨r, hr⟩ : ∃ r : Repair,
      r = ⟨[⟨⟨4, 5⟩, "2"⟩, ⟨⟨6, 9⟩, "  "⟩, ⟨⟨11, 16⟩, "    "⟩]⟩ := ⟨_, rfl⟩
  have hdeviations : (parse "a: |3\n   x\n     y\n".toList).toOption.map (fun s =>
      (s.analyze ⟨2, true, none, true⟩).deviations) =
        some [⟨.indentation, 2, 0, 2, 3, ⟨6, 9⟩, some r⟩,
          ⟨.indentation, 3, 0, 2, 3, ⟨11, 16⟩, some r⟩] := by
    rw [hr]
    decide +kernel
  have htabs : isTabIndented "a: |3\n   x\n     y\n".toList = false := by decide +kernel
  have hpaired : Text.ReturnsPaired "a: |3\n   x\n     y\n".toList := by decide +kernel
  have hresult : applyRepairs "a: |3\n   x\n     y\n".toList [r] =
      "a: |2\n  x\n    y\n".toList := by
    rw [hr]
    decide +kernel
  cases hparse : parse "a: |3\n   x\n     y\n".toList with
  | error e =>
    rw [hparse] at hdeviations
    cases hdeviations
  | ok stream =>
    rw [hparse] at hdeviations
    simp only [Except.toOption, Option.map_some, Option.some.injEq] at hdeviations
    have hd : ⟨.indentation, 2, 0, 2, 3, ⟨6, 9⟩, some r⟩ ∈
        (stream.analyze ⟨2, true, none, true⟩).deviations := by simp [hdeviations]
    obtain ⟨window, hwindow, hputs⟩ := repair_putsInPlace hparse htabs hpaired _ hd rfl rfl
    exact ⟨stream, _, r, window, rfl, htabs, hpaired, hd, rfl, rfl, hresult, hwindow, hputs⟩

end YamlLayout
