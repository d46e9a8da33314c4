import YamlLayout.Proofs.LineHeads

/-!
# Where a repair puts lines

A repair that moves lines changes the spaces that these lines start with. Everything else
it edits lies behind another character of its line: the gaps behind their indicators, the
digits behind the marks of their headers. So each line ends up at the distance that was
chosen for it, and a line that does not move changes at most in the digit of a header.
-/
namespace YamlLayout

namespace Patched

variable {before front old text result : List Char} {edits : List Edit} {e : Edit}

theorem le_start (h : Patched before edits text result) (he : e ∈ edits) :
    Text.byteLength before ≤ e.range.start := by
  obtain ⟨front, old, rest, -, hrange⟩ := h.exists_of_mem he
  rw [hrange, Text.byteLength_append]
  exact Nat.le_add_right ..

/-- What stands in front of all edits stays. -/
theorem exists_of_le_start (h : Patched before edits (front ++ text) result)
    (hle : ∀ e ∈ edits, Text.byteLength (before ++ front) ≤ e.range.start) :
    ∃ rest, result = front ++ rest := by
  induction front generalizing before result with
  | nil => exact ⟨result, rfl⟩
  | cons c front ih =>
    generalize htext : c :: front ++ text = whole at h
    cases h with
    | done => exact ⟨text, htext.symm⟩
    | keep d h =>
      rw [List.cons_append, List.cons.injEq] at htext
      obtain ⟨rfl, rfl⟩ := htext
      obtain ⟨rest, rfl⟩ := ih h (by simpa using hle)
      exact ⟨rest, rfl⟩
    | swap old hrange h =>
      have hbehind := hle _ (List.mem_cons_self ..)
      have hpos := c.utf8Size_pos
      rw [hrange, Text.byteLength_append, Text.byteLength] at hbehind
      dsimp only at hbehind
      omega

/-- An edit at the start is the first one to be made. -/
theorem exists_of_cons (h : Patched before (e :: edits) (old ++ text) result)
    (hrange : e.range =
      ⟨Text.byteLength before, Text.byteLength before + Text.byteLength old⟩) :
    ∃ rest, result = e.text.toList ++ rest ∧ Patched (before ++ old) edits text rest := by
  generalize htext : old ++ text = whole at h
  cases h with
  | keep c h =>
    have hbehind := h.le_start (List.mem_cons_self ..)
    have hpos := c.utf8Size_pos
    simp only [hrange, Text.byteLength_append, Text.byteLength] at hbehind
    omega
  | swap old' hrange' h =>
    rw [hrange', Span.mk.injEq] at hrange
    obtain ⟨rfl, rfl⟩ := Text.eq_of_byteLength_eq htext (by omega)
    exact ⟨_, rfl, h⟩

/-- The edit that exchanges the spaces of a line is the only one in front of its first
character. -/
theorem exists_of_spaces {k : Nat} {c : Char} {tail : List Char}
    (h : Patched before edits (List.replicate k ' ' ++ c :: tail) result)
    (hprecedes : edits.Pairwise Edit.Precedes) (he : e ∈ edits)
    (hrange : e.range = ⟨Text.byteLength before, Text.byteLength before + k⟩)
    (hothers : ∀ f ∈ edits, f = e ∨
      Text.byteLength (before ++ (List.replicate k ' ' ++ [c])) ≤ f.range.start) :
    ∃ rest, result = e.text.toList ++ c :: rest := by
  have hpos := c.utf8Size_pos
  simp only [Text.byteLength_append, Text.byteLength_replicate_space, Text.byteLength,
    Nat.add_zero] at hothers
  cases edits with
  | nil => cases he
  | cons f edits =>
    obtain ⟨hfirst, -⟩ := List.pairwise_cons.mp hprecedes
    rcases hothers f (List.mem_cons_self ..) with rfl | hbehind
    · obtain ⟨rest, rfl, hrest⟩ := h.exists_of_cons (by simpa using hrange)
      have hclear : ∀ g ∈ edits, Text.byteLength (before ++ List.replicate k ' ' ++ [c]) ≤
          g.range.start := by
        intro g hg
        simp only [Text.byteLength_append, Text.byteLength_replicate_space, Text.byteLength,
          Nat.add_zero]
        rcases hothers g (List.mem_cons_of_mem _ hg) with rfl | hle
        · have hself := hfirst g hg
          rw [Edit.Precedes] at hself
          omega
        · omega
      rw [← List.singleton_append] at hrest
      obtain ⟨tail', rfl⟩ := hrest.exists_of_le_start hclear
      exact ⟨tail', rfl⟩
    · -- No edit of another kind comes first.
      exfalso
      have hlt : f.range.start < e.range.stop := by
        rcases List.mem_cons.mp he with rfl | he
        · rw [hrange] at hbehind
          dsimp only at hbehind
          omega
        · exact (hfirst e he).2
      rw [hrange] at hlt
      dsimp only at hlt
      omega

end Patched

namespace Text

/-- The part of a line up to some character other than a space holds the first such
character. -/
theorem exists_append_of_ne_space {k : Nat} {c d : Char} {x rest tail : List Char}
    (h : x ++ c :: rest = List.replicate k ' ' ++ d :: tail) (hc : c ≠ ' ') :
    ∃ y, x ++ [c] = List.replicate k ' ' ++ d :: y := by
  induction k generalizing x with
  | zero =>
    rcases x with _ | ⟨a, x⟩
    · have hcd : c = d := by simpa using (List.cons.inj h).1
      exact ⟨[], by rw [hcd]; rfl⟩
    · have had : a = d := (List.cons.inj h).1
      exact ⟨x ++ [c], by rw [had]; rfl⟩
  | succ k ih =>
    rw [List.replicate_succ, List.cons_append] at h
    rcases x with _ | ⟨a, x⟩
    · exact absurd (List.cons.inj h).1 hc
    · obtain ⟨ha, hrest⟩ := List.cons.inj h
      obtain ⟨y, hy⟩ := ih hrest
      exact ⟨y, by rw [ha, List.cons_append, hy, List.replicate_succ, List.cons_append]⟩

end Text

/-- The edit lies behind a character of its line that is no space. -/
def Edit.Behind (e : Edit) (text : List Char) : Prop :=
  ∃ before c mid old after, e.Replaces text (before ++ c :: mid) old after ∧ c ≠ ' ' ∧
    '\n' ∉ c :: mid

/-- Such an edit lies behind the first character of its line that is no space. -/
theorem Edit.Behind.le_start {e : Edit} {text pre tail post : List Char} {n k : Nat} {d : Char}
    (h : e.Behind text) (hon : e.OnLine text n)
    (hrow : Text.Row text n pre (List.replicate k ' ' ++ d :: tail) post) :
    Text.byteLength (pre ++ (List.replicate k ' ' ++ [d])) ≤ e.range.start := by
  obtain ⟨before, c, mid, old, after, hreplaces, hc, hfeed⟩ := h
  obtain ⟨b, o, a, hthere, -, -, hcount⟩ := hon
  obtain ⟨rfl, -, -⟩ := hthere.unique hreplaces
  rw [List.count_append, List.count_eq_zero_of_not_mem hfeed, Nat.add_zero,
    ← hrow.line_eq, Nat.add_right_cancel_iff] at hcount
  have htext := hreplaces.text_eq.symm.trans hrow.text_eq
  rw [List.append_assoc] at htext
  -- The line starts where the last whole line in front of the edit ends.
  obtain ⟨x, rfl, hx⟩ : ∃ x, before = pre ++ x ∧
      x ++ c :: (mid ++ (old ++ after)) = List.replicate k ' ' ++ d :: (tail ++ post) := by
    rcases List.append_eq_append_iff.mp htext with ⟨x, rfl, hx⟩ | ⟨x, rfl, hx⟩
    · have hnil : x = [] := by
        by_contra hne
        rw [List.count_append] at hcount
        have hlast : '\n' ∈ x := by
          rcases hrow.whole with hempty | hlast
          · exact absurd (List.append_eq_nil_iff.mp hempty).2 hne
          · rw [List.getLast?_append_of_ne_nil _ hne] at hlast
            exact List.mem_of_mem_getLast? hlast
        have hpos := List.count_pos_iff.mpr hlast
        omega
      subst hnil
      exact ⟨[], by simp, by simpa using hx⟩
    · exact ⟨x, rfl, by simpa using hx.symm⟩
  obtain ⟨y, hy⟩ := Text.exists_append_of_ne_space hx hc
  have hsplit : pre ++ x ++ c :: mid = pre ++ (List.replicate k ' ' ++ [d]) ++ (y ++ mid) := by
    have hjoin : x ++ c :: mid = (x ++ [c]) ++ mid := by simp
    rw [List.append_assoc, hjoin, hy]
    simp
  rw [hreplaces.range_eq, hsplit]
  simp only [Text.byteLength_append]
  omega

namespace RepairContext

variable {stream : Stream} {s : ParseState} {e : Edit} (layout : Layout)

/-- A gap lies behind its indicator. -/
theorem behind_gapEdit {m : LineMeasure} {g : Gap} (h : stream.ReadTo s) (hm : m.Sound stream)
    (hg : g ∈ m.gaps) (he : (ofStream stream layout).gapEdit? g = some e) :
    e.Behind stream.text := by
  obtain ⟨pre, a, b, post, hbetween⟩ := hm.gaps_between g hg
  obtain ⟨ha, hb, hij, hleft, hright, -⟩ := Measure.exists_of_contentOn hbetween
  have hline : a.startLine = b.startLine := hleft.trans hright.symm
  obtain ⟨before, x, mid, y, after, hapart⟩ := h.exists_apart ha hb hij
  have hnot := h.not_isBody_of_line ha hb (Nat.ne_of_lt hij) hline
  obtain ⟨c, cs, rfl, hc⟩ := h.exists_cons_of_not_isBody ha hnot hapart.left
  have hedit := gapEdit?_eq layout ha hb he
  refine ⟨before, c, cs, mid, y ++ after, hapart.replaces (by rw [hedit]), ?_, ?_⟩
  · rintro rfl
    cases hc
  · exact fun hmem => hapart.feed_not_mem hline (List.mem_append_left _ hmem)

/-- The digit of a header lies within it, behind its mark. -/
theorem exists_mark_of_digitEdit {b : BlockScalar} {n : Nat} (h : stream.ReadTo s)
    (hb : .block b ∈ stream.pieces)
    (he : (ofStream stream layout).digitEdit? b.header n = some e) :
    ∃ token before mark l c r after, stream.tokens[b.header]? = some token ∧
      token.Stands stream.text before (mark :: (l ++ c :: r)) after ∧ mark ≠ ' ' ∧
      isIndentDigit c = true ∧ '\n' ∉ mark :: (l ++ c :: r) ∧ e.text = toString n ∧
      e.Replaces stream.text (before ++ mark :: l) [c] (r ++ after) := by
  obtain ⟨token, before, value, after, l, c, r, htoken, hstands, rfl, hc, hclean, htext,
    hreplaces⟩ := exists_replaces_digitEdit layout h hb he
  obtain ⟨token', before', mark, indicators, after', htoken', -, hheader, hmark, -⟩ :=
    h.exists_header hb
  obtain rfl : token = token' := Option.some.inj (htoken.symm.trans htoken')
  obtain ⟨-, hvalue⟩ := hstands.unique hheader
  rcases l with _ | ⟨d, l⟩
  · obtain ⟨rfl, -⟩ := List.cons.inj hvalue
    rcases hmark with rfl | rfl <;> cases hc
  · obtain ⟨rfl, -⟩ := List.cons.inj hvalue
    refine ⟨token, before, d, l, c, r, after, htoken, hstands, ?_, hc, hclean, htext, hreplaces⟩
    rintro rfl
    rcases hmark with hmark | hmark <;> cases hmark

theorem behind_digitEdit {b : BlockScalar} {n : Nat} (h : stream.ReadTo s)
    (hb : .block b ∈ stream.pieces)
    (he : (ofStream stream layout).digitEdit? b.header n = some e) : e.Behind stream.text := by
  obtain ⟨token, before, mark, l, c, r, after, -, -, hmark, -, hclean, -, hreplaces⟩ :=
    exists_mark_of_digitEdit layout h hb he
  refine ⟨before, mark, l, _, _, hreplaces, hmark, fun hmem => hclean ?_⟩
  rw [← List.cons_append]
  exact List.mem_append_left _ hmem

/-- A token moves with the line on which it starts, if that line moves. -/
theorem exists_of_deltaAt_ne {ctx : RepairContext} {moves : List (LineMeasure × Int)}
    {t : TokenId} (h : ctx.deltaAt moves t ≠ 0) :
    ∃ g d, (g, d) ∈ moves ∧ ctx.tokens[t]?.map (·.startLine) = some g.line := by
  unfold deltaAt at h
  dsimp only at h
  cases hfound : moves.find? fun x => some x.1.line == ctx.tokens[t]?.map (·.startLine) with
  | none =>
    rw [hfound] at h
    exact absurd rfl h
  | some x =>
    have hline := List.find?_some hfound
    exact ⟨x.1, x.2, List.mem_of_find?_eq_some hfound, (beq_iff_eq.mp hline).symm⟩

/-- The deviation of a line is that from its column, and that is no column left of the first. -/
theorem exists_lineDeviation {ctx : RepairContext} {before after : List LineMeasure}
    {m : LineMeasure} {d : Deviation} (h : d ∈ ctx.deviationsOf before m after)
    (hkind : d.kind = .indentation) :
    ∃ expected, m.expected = some expected ∧ 0 ≤ expected ∧
      d = ctx.lineDeviation expected (ctx.sameDocument m.line before) m
        (ctx.sameDocument m.line after) := by
  unfold deviationsOf at h
  split at h
  · cases h
  rename_i expected hexpected
  dsimp only at h
  split at h
  · cases h
  rename_i hnonneg
  split at h
  · -- The gaps of a line are deviations of the other kind.
    obtain ⟨gap, -, hgap⟩ := List.mem_filterMap.mp h
    obtain ⟨e, -, hgap⟩ := Option.bind_eq_some_iff.mp hgap
    obtain ⟨indicator, -, hgap⟩ := Option.bind_eq_some_iff.mp hgap
    cases hgap
    cases hkind
  · exact ⟨expected, hexpected, Int.not_lt.mp hnonneg, List.mem_singleton.mp h⟩

/-- On one side of a line, what lies between it and a line that is reached is reached too. -/
theorem mem_reached_of_between {ctx : RepairContext} {side : List LineMeasure}
    {x g : LineMeasure} {line : Nat} {p : LineMeasure → Bool} {f : LineMeasure → Int}
    (hsorted : side.Pairwise fun a b => f a < f b)
    (hx : x ∈ (ctx.sameDocument line side).takeWhile p) (hg : g ∈ side) (hlt : f g < f x)
    (hbetween : (x.line ≤ g.line ∧ g.line ≤ line) ∨ (line ≤ g.line ∧ g.line ≤ x.line)) :
    g ∈ (ctx.sameDocument line side).takeWhile p := by
  have hhere := hsorted.sublist (sublist_sameDocument ctx line side)
  have hdocument : g ∈ ctx.sameDocument line side := by
    have hmem := (List.takeWhile_sublist _).mem hx
    unfold sameDocument at hmem ⊢
    cases hfound : ctx.documents.find? (·.contains line) with
    | none => exact hg
    | some range =>
      simp only [hfound] at hmem
      have hline := List.find?_some hfound
      have hreached := (List.mem_filter.mp hmem).2
      simp only [LineRange.contains, Bool.and_eq_true, decide_eq_true_eq] at hline hreached
      refine List.mem_filter.mpr ⟨hg, ?_⟩
      simp only [LineRange.contains, Bool.and_eq_true, decide_eq_true_eq]
      omega
  apply mem_takeWhile_of_forall hhere hdocument
  intro a ha hle
  exact forall_of_mem_takeWhile hhere hx ha (Int.lt_of_le_of_lt hle hlt)

end RepairContext

namespace Stream

variable {stream : Stream} {s : ParseState} {style : Style} {d : Deviation} {r : Repair}
  {window : List LineMeasure} {deltas : List Int} {a b g : LineMeasure}

/-- These lines are moved together with the line that deviates. -/
def IsWindow (stream : Stream) (style : Style) (d : Deviation) (window : List LineMeasure) :
    Prop :=
  ∃ pre m post, (stream.analyze style).lines = pre ++ m :: post ∧ m.line = d.line ∧
    m.expected = some (d.expected : Int) ∧ m.actual = (d.actual : Int) ∧
    RepairContext.window? d.expected
      ((RepairContext.ofStream stream (Layout.ofStream stream style)).sameDocument m.line
        pre.reverse) m
      ((RepairContext.ofStream stream (Layout.ofStream stream style)).sameDocument m.line
        post) = some window

/-- The window is a part of the measured lines, in their order. -/
theorem IsWindow.sublist (h : stream.IsWindow style d window) :
    window.Sublist (stream.analyze style).lines := by
  obtain ⟨pre, m, post, hlines, -, -, -, hwindow⟩ := h
  unfold RepairContext.window? at hwindow
  dsimp only at hwindow
  split at hwindow
  · cases hwindow
  · cases hwindow
    rw [hlines]
    refine List.Sublist.append ?_ (List.Sublist.cons_cons _ ?_)
    · rw [List.reverse_sublist.symm, List.reverse_reverse]
      exact (List.takeWhile_sublist _).trans (RepairContext.sublist_sameDocument ..)
    · exact (List.takeWhile_sublist _).trans (RepairContext.sublist_sameDocument ..)

/-- The window holds every measured line between two of its lines. -/
theorem IsWindow.mem_of_between (h : stream.IsWindow style d window) (ha : a ∈ window)
    (hb : b ∈ window) (hg : g ∈ (stream.analyze style).lines) (hfirst : a.line ≤ g.line)
    (hlast : g.line ≤ b.line) : g ∈ window := by
  by_cases hsame : g.line = a.line ∨ g.line = b.line
  · rcases hsame with heq | heq
    · exact eq_of_line_eq hg (h.sublist.mem ha) heq ▸ ha
    · exact eq_of_line_eq hg (h.sublist.mem hb) heq ▸ hb
  obtain ⟨pre, m, post, hlines, -, -, -, hwindow⟩ := h
  have hsorted := pairwise_lines stream style
  rw [hlines] at hsorted hg
  obtain ⟨hpre, hpost, hcross⟩ := List.pairwise_append.mp hsorted
  obtain ⟨hafter, hpost⟩ := List.pairwise_cons.mp hpost
  have hbefore : ∀ x ∈ pre, x.line < m.line := fun x hx => hcross x hx m (List.mem_cons_self ..)
  rw [RepairContext.mem_window?_iff hwindow] at ha hb ⊢
  rcases List.mem_append.mp hg with hg | hg
  · -- The line is in front, so the first of the two is, too.
    have hlt := hbefore g hg
    left
    rcases ha with ha | rfl | ha
    · have hdown : pre.reverse.Pairwise fun x y => -(x.line : Int) < -(y.line : Int) := by
        rw [List.pairwise_reverse]
        exact hpre.imp fun hxy => by omega
      exact RepairContext.mem_reached_of_between hdown ha (List.mem_reverse.mpr hg) (by omega)
        (.inl (by omega))
    · omega
    · have hgt := hafter a (RepairContext.mem_of_reached ha)
      omega
  rcases List.mem_cons.mp hg with rfl | hg
  · exact .inr (.inl rfl)
  · have hgt := hafter g hg
    right
    right
    rcases hb with hb | rfl | hb
    · have hlt := hbefore b (List.mem_reverse.mp (RepairContext.mem_of_reached hb))
      omega
    · omega
    · have hup : post.Pairwise fun x y => (x.line : Int) < (y.line : Int) :=
        hpost.imp fun hxy => by omega
      exact RepairContext.mem_reached_of_between hup hb hg (by omega) (.inr (by omega))

/-- An edit of a repair that moves lines: it moves one of them, mends a gap in one of them, or
rewrites the digit of a header whose body moves by another distance. -/
inductive Adjusts (stream : Stream) (style : Style) (moves : List (LineMeasure × Int)) :
    Edit → Prop
  | move {g : LineMeasure} {delta : Int} (hg : (g, delta) ∈ moves) (hdelta : delta ≠ 0) :
      Adjusts stream style moves
        ((RepairContext.ofStream stream (Layout.ofStream stream style)).lineEdit g delta)
  | gap {g : LineMeasure} {delta : Int} {gap : Gap} {e : Edit} (hg : (g, delta) ∈ moves)
      (hgap : gap ∈ g.gaps)
      (he : (RepairContext.ofStream stream (Layout.ofStream stream style)).gapEdit? gap =
        some e) : Adjusts stream style moves e
  | digit {b : BlockScalar} {i : TokenId} {n : Nat} {e : Edit}
      (hb : b ∈ (Layout.ofStream stream style).blocks) (hbody : b.body = some i)
      (hne : (RepairContext.ofStream stream (Layout.ofStream stream style)).deltaAt moves
          b.header ≠
        (RepairContext.ofStream stream (Layout.ofStream stream style)).deltaAt moves i)
      (hpos : 1 ≤ n) (hle : n ≤ 9)
      (he : (RepairContext.ofStream stream (Layout.ofStream stream style)).digitEdit? b.header
        n = some e) : Adjusts stream style moves e

/-- The repair moves the lines of a window by these distances. -/
structure Shifts (stream : Stream) (style : Style) (window : List LineMeasure)
    (deltas : List Int) (r : Repair) : Prop where
  sublist : window.Sublist (stream.analyze style).lines
  deltas_eq : Shift.deltas window = some deltas
  moved : ∀ g delta, (g, delta) ∈ window.zip deltas → delta ≠ 0 →
    (RepairContext.ofStream stream (Layout.ofStream stream style)).lineEdit g delta ∈ r.edits
  adjusts : ∀ e ∈ r.edits, stream.Adjusts style (window.zip deltas) e

theorem adjusts_of_ofEdits? {moves : List (LineMeasure × Int)} {digits : List Edit} {e : Edit}
    (hdigits : (RepairContext.ofStream stream (Layout.ofStream stream style)).digitEdits? moves =
      some digits)
    (hedits : Repair.ofEdits? (moves.flatMap (fun (m, delta) =>
      (RepairContext.ofStream stream (Layout.ofStream stream style)).lineEdits m delta) ++
        digits) = some r) (he : e ∈ r.edits) : stream.Adjusts style moves e := by
  have he := (Repair.perm_of_ofEdits? hedits).mem_iff.mp he
  rcases List.mem_append.mp he with he | he
  · obtain ⟨⟨g, delta⟩, hg, he⟩ := List.mem_flatMap.mp he
    rcases RepairContext.exists_of_mem_lineEdits _ he with ⟨hdelta, rfl⟩ | ⟨gap, hgap, hedit⟩
    · exact .move hg hdelta
    · exact .gap hg hgap hedit
  · obtain ⟨b, hb, n, hpos, hle, hedit, i, hbody, hne⟩ :=
      RepairContext.exists_of_mem_digitEdits _ hdigits he
    exact .digit hb hbody hne hpos hle hedit

/-- The repair of a line that is off its column moves the window of that line. -/
theorem exists_shifts (hd : d ∈ (stream.analyze style).deviations)
    (hkind : d.kind = .indentation) (hr : d.repair = some r) :
    ∃ window deltas, stream.IsWindow style d window ∧ stream.Shifts style window deltas r := by
  obtain ⟨pre, m, post, hlines, hd⟩ := RepairContext.exists_of_mem_deviationsFrom hd
  change (stream.analyze style).lines = pre ++ m :: post at hlines
  rw [List.append_nil] at hd
  obtain ⟨expected, hexpected, hnonneg, rfl⟩ := RepairContext.exists_lineDeviation hd hkind
  obtain ⟨window, deltas, digits, hwindow, hdeltas, hdigits, hedits⟩ :=
    RepairContext.exists_of_lineRepair? hr
  have hm : m ∈ (stream.analyze style).lines := by simp [hlines]
  have hcolumn : ((expected.toNat : Nat) : Int) = expected := Int.toNat_of_nonneg hnonneg
  have hactual : ((m.actual.toNat : Nat) : Int) = m.actual :=
    Int.toNat_of_nonneg (actual_nonneg hm)
  have his : stream.IsWindow style
      ((RepairContext.ofStream stream (Layout.ofStream stream style)).lineDeviation expected
        ((RepairContext.ofStream stream (Layout.ofStream stream style)).sameDocument m.line
          pre.reverse) m
        ((RepairContext.ofStream stream (Layout.ofStream stream style)).sameDocument m.line
          post)) window := by
    refine ⟨pre, m, post, hlines, rfl, ?_, hactual.symm, ?_⟩
    · rw [hexpected, RepairContext.lineDeviation, hcolumn]
    · rw [RepairContext.lineDeviation, hcolumn]
      exact hwindow
  exact ⟨window, deltas, his, his.sublist, hdeltas, fun g delta hg hdelta =>
    RepairContext.lineEdit_mem_of_ofEdits? hedits hg hdelta, fun e he =>
    adjusts_of_ofEdits? hdigits hedits he⟩

/-- A line moves by one distance only. -/
theorem Shifts.eq_of_mem_zip {x y : Int} (h : stream.Shifts style window deltas r)
    (hx : (g, x) ∈ window.zip deltas) (hy : (g, y) ∈ window.zip deltas) : x = y := by
  have hlength := (Shift.exists_delta h.deltas_eq).1
  have hnodup : ((window.zip deltas).map Prod.fst).Nodup := by
    rw [List.map_fst_zip (Nat.le_of_eq hlength)]
    refine ((pairwise_lines stream style).sublist h.sublist).imp fun hlt heq => ?_
    rw [heq] at hlt
    exact Nat.lt_irrefl _ hlt
  exact (Prod.mk.inj (List.inj_on_of_nodup_map hnodup hx hy rfl)).2

/-- A measured line holds a character that is no space behind those it starts with. -/
theorem ReadTo.exists_row_of_mem_lines (h : stream.ReadTo s)
    (hplace : stream.InPlace stream.text) (hpaired : Text.ReturnsPaired stream.text)
    (hg : g ∈ (stream.analyze style).lines) :
    ∃ before c tail after, c ≠ ' ' ∧
      Text.Row stream.text g.line before (List.replicate g.leading ' ' ++ c :: tail) after ∧
      (RepairContext.ofStream stream (Layout.ofStream stream style)).lineStart g.line =
        Text.byteLength before := by
  have hsound := sound_of_mem_place hg
  obtain ⟨n, hn, hline, -⟩ := exists_of_mem_place hg
  have hsolid := ((h.mem_measures_iff hplace hpaired _).mp (List.mem_map_of_mem hn)).2
  obtain ⟨before, row, after, hrow, hstart⟩ :=
    LineTable.exists_row stream.text hsound.line_pos hsound.line_le
  have hleading : g.leading = Text.leadingSpaces (Text.stripBreak row) := by
    rw [hsound.leading_eq, LineTable.leading, Stream.lines, hrow.content_eq]
  obtain ⟨rest, hrest⟩ := Text.exists_append_of_leadingSpaces row
  rw [← hleading] at hrest
  rw [hline, LineTable.isBlankLine, Stream.lines, hrow.content_eq, hrest,
    Text.stripBreak_spaces_append, Text.all_isBlank_spaces_append] at hsolid
  rw [hrest] at hrow
  rcases rest with _ | ⟨c, tail⟩
  · cases hsolid
  · refine ⟨before, c, tail, after, ?_, hrow, ?_⟩
    rotate_left
    · change stream.lines.starts[g.line - 1]? = _ at hstart
      simp [RepairContext.lineStart, RepairContext.ofStream, hstart]
    rintro rfl
    have hmore := hleading
    rw [Text.leadingSpaces_stripBreak, hrest, Text.leadingSpaces_spaces_append] at hmore
    simp [Text.leadingSpaces] at hmore

/-- An edit on a measured line moves it or lies behind a character of it. -/
theorem Shifts.move_or_behind {e : Edit} (hshifts : stream.Shifts style window deltas r)
    (h : stream.ReadTo s) (hg : g ∈ (stream.analyze style).lines) (he : e ∈ r.edits)
    (hon : e.OnLine stream.text g.line) :
    (∃ delta, (g, delta) ∈ window.zip deltas ∧ delta ≠ 0 ∧
      e = (RepairContext.ofStream stream (Layout.ofStream stream style)).lineEdit g delta) ∨
    e.Behind stream.text := by
  cases hshifts.adjusts e he with
  | @move g' delta hg' hdelta =>
    have hin := hshifts.sublist.mem (List.of_mem_zip hg').1
    have hline := RepairContext.onLine_lineEdit (Layout.ofStream stream style)
      (sound_of_mem_place hin) delta
    obtain rfl := eq_of_line_eq hin hg (hline.unique hon)
    exact .inl ⟨delta, hg', hdelta, rfl⟩
  | gap hg' hgap hedit =>
    have hin := hshifts.sublist.mem (List.of_mem_zip hg').1
    exact .inr (RepairContext.behind_gapEdit _ h (sound_of_mem_place hin) hgap hedit)
  | digit hb hbody hne hpos hle hedit =>
    exact .inr (RepairContext.behind_digitEdit _ h (block_mem_pieces hb) hedit)

/-- Each measured line keeps its first character, behind as many spaces more or less as it
is moved. -/
theorem Shifts.exists_row (hshifts : stream.Shifts style window deltas r) (h : stream.ReadTo s)
    (hplace : stream.InPlace stream.text) (hpaired : Text.ReturnsPaired stream.text)
    (hr : r ∈ (stream.analyze style).repairs) (hg : g ∈ (stream.analyze style).lines) :
    ∃ before c tail after before' k tail' after', c ≠ ' ' ∧
      Text.Row stream.text g.line before (List.replicate g.leading ' ' ++ c :: tail) after ∧
      Text.Row (applyRepairs stream.text [r]) g.line before'
        (List.replicate k ' ' ++ c :: tail') after' ∧
      ∀ delta, (g, delta) ∈ window.zip deltas → (k : Int) = g.leading + delta := by
  obtain ⟨before, c, tail, after, hc, hrow, hstart⟩ :=
    h.exists_row_of_mem_lines hplace hpaired hg
  obtain ⟨edits, hedits, hprecedes, hlines, hpatched⟩ := h.exists_patched hr
  obtain ⟨here, before', row', after', hsublist, hrow', hrowPatched, hall⟩ :=
    hpatched.exists_row hlines hrow
  have hkind : ∀ e ∈ here,
      (∃ delta, (g, delta) ∈ window.zip deltas ∧ delta ≠ 0 ∧
        e = (RepairContext.ofStream stream (Layout.ofStream stream style)).lineEdit g delta) ∨
      Text.byteLength (before ++ (List.replicate g.leading ' ' ++ [c])) ≤ e.range.start := by
    intro e he
    have hmem := hsublist.mem he
    have hon := Patched.onLine_of_row hrow hrowPatched he (hlines e hmem)
    exact (hshifts.move_or_behind h hg ((hedits e).mp hmem) hon).imp_right
      fun hbehind => hbehind.le_start hon hrow
  by_cases hmoved : ∃ delta, (g, delta) ∈ window.zip deltas ∧ delta ≠ 0
  · obtain ⟨delta, hdelta, hne⟩ := hmoved
    have hon := RepairContext.onLine_lineEdit (Layout.ofStream stream style)
      (sound_of_mem_place hg) delta
    have hmem := hall _ ((hedits _).mpr (hshifts.moved g delta hdelta hne)) hon
    obtain ⟨tail', rfl⟩ := hrowPatched.exists_of_spaces (hprecedes.sublist hsublist) hmem
      (by rw [RepairContext.lineEdit, hstart])
      (fun f hf => (hkind f hf).imp_left fun ⟨other, hother, _, hedit⟩ => by
        rw [hedit, hshifts.eq_of_mem_zip hother hdelta])
    have hnonneg := ((Shift.exists_delta hshifts.deltas_eq).2 g delta hdelta).1
    rw [RepairContext.lineEdit, RepairContext.toList_spaces] at hrow'
    refine ⟨before, c, tail, after, before', _, tail', after', hc, hrow, hrow', ?_⟩
    intro other hother
    rw [hshifts.eq_of_mem_zip hother hdelta]
    exact Int.toNat_of_nonneg hnonneg
  · have hclear : ∀ e ∈ here,
        Text.byteLength (before ++ (List.replicate g.leading ' ' ++ [c])) ≤ e.range.start :=
      fun e he => (hkind e he).resolve_left fun ⟨delta, hdelta, hne, _⟩ =>
        hmoved ⟨delta, hdelta, hne⟩
    rw [← List.singleton_append, ← List.append_assoc] at hrowPatched
    obtain ⟨tail', rfl⟩ := hrowPatched.exists_of_le_start hclear
    refine ⟨before, c, tail, after, before', g.leading, tail', after', hc, hrow, ?_, ?_⟩
    · simpa using hrow'
    · intro delta hdelta
      have hzero : delta = 0 := by
        by_contra hne
        exact hmoved ⟨delta, hdelta, hne⟩
      rw [hzero, Int.add_zero]

end Stream

end YamlLayout
