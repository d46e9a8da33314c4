import YamlLayout.Proofs.Canonical.Columns
import YamlLayout.Proofs.FirmEdits
import YamlLayout.Proofs.FixedText
import YamlLayout.Proofs.Reindented

/-!
# Repairs change the text

A gap that is off is as wide as its blanks, and a line that is off moves by the distance
to its column. So every repair has an edit that changes the text, and since the edits of
repairs cannot cancel each other, a text with a repair does not stay as it is.
-/
namespace YamlLayout

/-! ## Indicators -/

namespace Node

mutual

/-- The indicators of a node are dashes, question marks and colons. -/
theorem at_of_mem_indicators {tokens : List Token} (flow : Bool) : (node : Node) →
    node.Every (Fits tokens) → ∀ i ∈ node.indicators flow, Token.At tokens Token.isMark i
  | empty, _ => by simp [indicators]
  | scalar .., _ => by simp [indicators]
  | block .., _ => by simp [indicators]
  | reference .., _ => by simp [indicators]
  | decorated _ _ _ inner, h => by
    intro i hi
    rw [indicators] at hi
    rw [Every] at h
    exact at_of_mem_indicators flow inner h.2 i hi
  | pair _ question key colon value, h => by
    intro i hi
    rw [Every] at h
    obtain ⟨hfits, hkey, hvalue⟩ := h
    obtain ⟨hquestion, hcolon⟩ := hfits.named
    rw [indicators, List.mem_append, List.mem_append] at hi
    rcases hi with (hi | hi) | hi
    · split at hi
      · cases hi
      · rw [List.mem_append, Option.mem_toList, Option.mem_toList] at hi
        rcases hi with hi | hi
        · obtain ⟨t, ht, htest⟩ := hquestion i hi
          exact ⟨t, ht, by simp [Token.isMark, htest]⟩
        · obtain ⟨t, ht, htest⟩ := hcolon i hi
          exact ⟨t, ht, by simp [Token.isMark, htest]⟩
    · exact at_of_mem_indicators flow key hkey i hi
    · exact at_of_mem_indicators flow value hvalue i hi
  | entry dash value, h => by
    intro i hi
    rw [Every] at h
    obtain ⟨t, ht, htest⟩ := h.1.named
    rw [indicators, List.mem_cons] at hi
    rcases hi with rfl | hi
    · exact ⟨t, ht, by simp [Token.isMark, htest]⟩
    · exact at_of_mem_indicators flow value h.2 i hi
  | mapping _ brackets pairs, h => by
    rw [Every] at h
    rw [indicators]
    exact at_of_mem_indicatorsOf (flow || brackets.isSome) pairs h.2
  | sequence _ brackets items, h => by
    rw [Every] at h
    rw [indicators]
    exact at_of_mem_indicatorsOf (flow || brackets.isSome) items h.2

theorem at_of_mem_indicatorsOf {tokens : List Token} (flow : Bool) : (nodes : List Node) →
    EveryOf (Fits tokens) nodes → ∀ i ∈ indicatorsOf flow nodes, Token.At tokens Token.isMark i
  | [], _ => by simp [indicatorsOf]
  | node :: nodes, h => by
    intro i hi
    rw [EveryOf] at h
    rw [indicatorsOf, List.mem_append] at hi
    rcases hi with hi | hi
    · exact at_of_mem_indicators flow node h.1 i hi
    · exact at_of_mem_indicatorsOf flow nodes h.2 i hi

end

end Node

theorem Token.exists_of_isMark {t : Token} (h : t.isMark = true) :
    ∃ c, t.value.toList = [c] ∧ isSpace c = false := by
  simp only [isMark, isPunctuator, Bool.or_eq_true, Bool.and_eq_true, beq_iff_eq] at h
  rcases h with (⟨-, hvalue⟩ | ⟨-, hvalue⟩) | ⟨-, hvalue⟩ <;> rw [hvalue] <;> exact ⟨_, rfl, rfl⟩

namespace Stream

variable {stream : Stream} {s : ParseState} {style : Style} {m : LineMeasure} {g : Gap}
  {e : Edit} {r : Repair} {i : TokenId} {a : Token}

theorem ReadTo.isMark_of_isIndicator (h : stream.ReadTo s) (ha : stream.tokens[i]? = some a)
    (hi : (Layout.ofStream stream style).isIndicator i = true) : a.isMark = true := by
  obtain ⟨d, hd, hmem⟩ := List.mem_flatMap.mp (Layout.mem_of_isIndicator hi)
  obtain ⟨t, ht, hmark⟩ := Node.at_of_mem_indicators false d.content (h.sound d hd).fits i hmem
  rw [Array.getElem?_toList, ha, Option.some.injEq] at ht
  exact ht ▸ hmark

/-! ## Gaps -/

theorem gaps_of_mem_lines (hm : m ∈ (stream.analyze style).lines) (hg : g ∈ m.gaps) :
    g ∈ Measure.gaps (Layout.ofStream stream style)
      (fun t => ((Layout.ofStream stream style).columns stream.tokens)[t]?.join)
      (Measure.contentOn stream.tokens m.line) := by
  obtain ⟨n, hn, hline, -, -, hgaps⟩ := exists_of_mem_place hm
  rw [← hline]
  exact (fresh_of_mem_measures hn).gaps_mem g (hgaps ▸ hg)

/-- The edit of a gap replaces the blanks between two tokens of a line, and the gap is as
wide as they are many. -/
theorem ReadTo.exists_run_of_gapEdit? (h : stream.ReadTo s) (hplace : stream.InPlace stream.text)
    (hpaired : Text.ReturnsPaired stream.text) (hm : m ∈ (stream.analyze style).lines)
    (hg : g ∈ m.gaps)
    (he : (RepairContext.ofStream stream (Layout.ofStream stream style)).gapEdit? g = some e) :
    ∃ before old after, e.Replaces stream.text before old after ∧
      Text.BlankRun before old after ∧ e.text.toList = List.replicate g.expected.toNat ' ' ∧
      0 ≤ g.expected ∧ g.actual = old.length := by
  obtain ⟨pre, a, b, post, hbetween, hindicator, hactual, x₁, x₂, -, -, hlt, hexpected⟩ :=
    Measure.exists_of_mem_gaps (gaps_of_mem_lines hm hg)
  obtain ⟨-, -, hij, hleft, hright, -⟩ := Measure.exists_of_contentOn hbetween
  obtain ⟨ha, hb, before, x, mid, y, after, hapart, hmid⟩ := h.exists_gap hpaired hbetween
  have hedit := RepairContext.gapEdit?_eq _ ha hb he
  have hline : a.startLine = b.startLine := hleft.trans hright.symm
  obtain ⟨c, hvalue, hc⟩ := Token.exists_of_isMark (h.isMark_of_isIndicator ha hindicator)
  obtain rfl : x = [c] := by rw [← hapart.left.toList_value, hvalue]
  have hbody := h.not_isBody_of_line hb ha (Nat.ne_of_gt hij) hline.symm
  obtain ⟨d, ds, rfl, hd⟩ := h.exists_cons_of_not_isBody hb hbody hapart.right
  have hreplaces : e.Replaces stream.text (before ++ [c]) mid (d :: ds ++ after) :=
    hapart.replaces (by rw [hedit])
  refine ⟨_, mid, _, hreplaces, ?_, ?_, by omega, ?_⟩
  · exact .gap List.getLast?_concat hc hmid hd
  · rw [hedit, RepairContext.toList_spaces]
  · have hin := hplace.tokens a (Array.mem_of_getElem? ha)
    have hfirst := hapart.column_eq hin (hplace.tokens b (Array.mem_of_getElem? hb)) hline
    have hpast := hin.past_column_eq hapart.left fun hmem =>
      hapart.feed_not_mem hline (List.mem_append_left _ hmem)
    rw [List.length_append] at hfirst
    rw [hactual, hfirst, hpast]
    omega

/-! ## Lines -/

/-- The edit of a line replaces all spaces it starts with. -/
theorem exists_run_of_lineEdit (hm : m.Sound stream) (layout : Layout) (delta : Int) :
    ∃ before after,
      ((RepairContext.ofStream stream layout).lineEdit m delta).Replaces stream.text before
        (List.replicate m.leading ' ') after ∧
      Text.BlankRun before (List.replicate m.leading ' ') after := by
  obtain ⟨before, rest, after, hrow, hreplaces⟩ :=
    RepairContext.exists_replaces_lineEdit layout hm delta
  refine ⟨before, rest ++ after, hreplaces, .indentation _ hrow.whole ?_⟩
  have hleading : m.leading = m.leading + Text.leadingSpaces (Text.stripBreak rest) := by
    rw [← Text.leadingSpaces_spaces_append, ← Text.stripBreak_spaces_append, ← hrow.content_eq]
    exact hm.leading_eq
  -- A further space would have been counted.
  cases rest with
  | nil =>
    rcases hrow.after_eq with rfl | ⟨later, rfl⟩
    · simp
    · simp
  | cons c cs =>
    rw [List.cons_append, List.head?_cons, ne_eq, Option.some.injEq]
    rintro rfl
    have hspace : Text.stripBreak (' ' :: cs) = List.replicate 1 ' ' ++ Text.stripBreak cs :=
      Text.stripBreak_spaces_append 1 cs
    rw [hspace, Text.leadingSpaces_spaces_append] at hleading
    omega

/-- The edits of a repair are firm. -/
theorem ReadTo.firm_of_mem_edits (h : stream.ReadTo s) (hplace : stream.InPlace stream.text)
    (hpaired : Text.ReturnsPaired stream.text) (hr : r ∈ (stream.analyze style).repairs)
    (he : e ∈ r.edits) : e.Firm stream.text := by
  obtain ⟨moves, hmoves, hmakes, -⟩ := exists_movesTogether hr
  cases hmakes e he with
  | @move g d hg hd =>
    obtain ⟨before, after, hreplaces, hrun⟩ :=
      exists_run_of_lineEdit (sound_of_mem_place (hmoves.mem_lines hg)) _ d
    exact .run hreplaces hrun (RepairContext.toList_spaces _)
  | gap hg hgap hedit =>
    obtain ⟨before, old, after, hreplaces, hrun, hnew, -⟩ :=
      h.exists_run_of_gapEdit? hplace hpaired hg hgap hedit
    exact .run hreplaces hrun hnew
  | digit hb hpos hle hedit =>
    obtain ⟨_, _, _, _, _, _, _, -, -, -, -, -, htext, hreplaces⟩ :=
      RepairContext.exists_replaces_digitEdit _ h (block_mem_pieces hb) hedit
    obtain ⟨c, hc, hdigit⟩ := RepairContext.exists_toString_digit hpos hle
    exact .letter hreplaces (by rw [htext, hc]) (isBlank_of_isIndentDigit hdigit)

end Stream

/-! ## Pinned lines -/

namespace Placement

variable {tokens : Array Token} {layout : Layout} {column : TokenId → Option Int}
  {measures : List LineMeasure} {m : LineMeasure}

theorem pinned_continuation (align : Bool) :
    (continuation tokens column align m).pinned = m.pinned := by
  unfold continuation
  split <;> rfl

/-- A line that is pinned in its place belongs at no column, and it is no comment. -/
theorem expected_bodyLine_of_pinned (hm : m.pinned = false)
    (hpinned : (bodyLine tokens layout column measures m).pinned = true) :
    (bodyLine tokens layout column measures m).expected = none ∧
      isCommentLine (bodyLine tokens layout column measures m) = false := by
  unfold bodyLine at hpinned ⊢
  split at hpinned
  · rename_i hrole
    dsimp only at hpinned
    split at hpinned
    · rename_i hpins
      simp [hrole, hpins, isCommentLine]
    · rw [hm] at hpinned
      cases hpinned
  · rw [hm] at hpinned
    cases hpinned

end Placement

namespace Stream

variable {stream : Stream} {s : ParseState} {style : Style} {m : LineMeasure} {r : Repair}

/-- A pinned line belongs at no column. -/
theorem expected_of_pinned (hm : m ∈ (stream.analyze style).lines) (hpinned : m.pinned = true) :
    m.expected = none := by
  have hall : ∀ n ∈ (stream.analyze style).lines, n.pinned = true →
      n.expected = none ∧ Placement.isCommentLine n = false := by
    apply Placement.forall_mem_comments
    · intro c expected hcomment hc hpin
      rw [hcomment] at hc
      cases (hc hpin).2
    · intro n hn
      cases hn
    · intro n hn
      obtain ⟨c, hc, rfl⟩ := List.mem_map.mp hn
      obtain ⟨x, hx, rfl⟩ := List.mem_map.mp hc
      apply Placement.expected_bodyLine_of_pinned
      rw [Placement.pinned_continuation]
      exact (fresh_of_mem_measures hx).pinned_eq
  exact (hall m hm hpinned).1

end Stream

/-! ## Changes -/

theorem Edit.Replaces.eq_of_apply_eq {e : Edit} {text before old after : List Char}
    (h : e.Replaces text before old after) (heq : e.apply text = text) : e.text.toList = old := by
  rw [h.apply_eq] at heq
  have hsame := heq.trans h.text_eq
  rwa [List.append_cancel_left_eq, List.append_cancel_right_eq] at hsame

namespace Stream

variable {stream : Stream} {s : ParseState} {style : Style} {m : LineMeasure} {r : Repair}

/-- Every repair has an edit that changes the text. -/
theorem ReadTo.exists_apply_ne (h : stream.ReadTo s) (hplace : stream.InPlace stream.text)
    (hpaired : Text.ReturnsPaired stream.text) (hr : r ∈ (stream.analyze style).repairs) :
    ∃ e ∈ r.edits, e.apply stream.text ≠ stream.text := by
  obtain ⟨pre, m, post, hlines, hrepair⟩ := exists_of_mem_repairs hr
  have hm : m ∈ (stream.analyze style).lines := by simp [hlines]
  rcases hrepair with ⟨g, hg, hoff, e, he, rfl⟩ | ⟨expected, hexpected, hne, hrepair⟩
  · refine ⟨e, List.mem_cons_self .., fun heq => ?_⟩
    obtain ⟨before, old, after, hreplaces, -, hnew, hnonneg, hwidth⟩ :=
      h.exists_run_of_gapEdit? hplace hpaired hm hg he
    have hlength := congrArg List.length (hreplaces.eq_of_apply_eq heq)
    rw [hnew, List.length_replicate] at hlength
    rw [Gap.isOff, bne_iff_ne] at hoff
    omega
  · obtain ⟨window, deltas, digits, hwindow, hdeltas, -, hedits⟩ :=
      RepairContext.exists_of_lineRepair? hrepair
    obtain ⟨hlength, hdelta⟩ := Shift.exists_delta hdeltas
    -- The line that is off is in its own window, and nothing pins it there.
    obtain ⟨d, hd⟩ := exists_mem_zip hlength
      ((RepairContext.mem_window?_iff hwindow).mpr (.inr (.inl rfl)))
    have hfree : m.pinned = false := by
      rw [← Bool.not_eq_true]
      intro hpinned
      rw [expected_of_pinned hm hpinned] at hexpected
      cases hexpected
    obtain ⟨hnonneg, -, hmoved⟩ := hdelta m d hd
    have hdistance := hmoved expected hfree hexpected
    refine ⟨_, RepairContext.lineEdit_mem_of_ofEdits? hedits hd (by omega), fun heq => ?_⟩
    obtain ⟨before, after, hreplaces, -⟩ :=
      exists_run_of_lineEdit (sound_of_mem_place hm) (Layout.ofStream stream style) d
    have hlength := congrArg List.length (hreplaces.eq_of_apply_eq heq)
    rw [RepairContext.lineEdit, RepairContext.toList_spaces, List.length_replicate,
      List.length_replicate] at hlength
    omega

end Stream

namespace Repair

theorem mem_foldl_accept {repairs : List Repair} {taken : List Edit} {e : Edit} (he : e ∈ taken) :
    e ∈ repairs.foldl accept taken := by
  induction repairs generalizing taken with
  | nil => exact he
  | cons r rs ih =>
    apply ih
    unfold accept
    split
    · exact he
    · exact List.mem_append_left _ he

/-- The first repair is made whatever comes after it. -/
theorem mem_accepted_cons {r : Repair} {repairs : List Repair} {e : Edit} (he : e ∈ r.edits) :
    e ∈ accepted (r :: repairs) := by
  show e ∈ repairs.foldl accept (accept [] r)
  apply mem_foldl_accept
  simpa [accept, clashes] using he

end Repair

namespace Stream

variable {stream : Stream} {s : ParseState} {style : Style}

/-- A text with repairs is another one after them. -/
theorem ReadTo.applyRepairs_ne (h : stream.ReadTo s) (hplace : stream.InPlace stream.text)
    (hpaired : Text.ReturnsPaired stream.text) (hne : (stream.analyze style).repairs ≠ []) :
    applyRepairs stream.text (stream.analyze style).repairs ≠ stream.text := by
  have hfirm : ∀ r ∈ (stream.analyze style).repairs, ∀ e ∈ r.edits, e.Firm stream.text :=
    fun r hr e he => h.firm_of_mem_edits hplace hpaired hr he
  obtain ⟨edits, hperm, hprecedes, hpatched⟩ := exists_patched_applyRepairs
    (fun r hr => h.apart_of_mem_repairs hr)
    fun r hr e he => (h.quiet_of_mem_edits hpaired hr he).fits
  have hall : ∀ e ∈ edits, e.Firm stream.text := by
    intro e he
    obtain ⟨r, hr, her⟩ := Repair.exists_of_mem_accepted (hperm.mem_iff.mp he)
    exact hfirm r hr e her
  obtain ⟨r, rs, hcons⟩ := List.exists_cons_of_ne_nil hne
  obtain ⟨e, he, happly⟩ := h.exists_apply_ne hplace hpaired
    (hcons ▸ List.mem_cons_self .. : r ∈ (stream.analyze style).repairs)
  have hmade : e ∈ edits := by
    rw [hperm.mem_iff, hcons]
    exact Repair.mem_accepted_cons he
  intro heq
  exact happly (hpatched.apply_eq_of_eq hall hprecedes heq hmade)

end Stream

end YamlLayout
