import Mathlib
import YamlLayout.Proofs.Reindented

/-!
# The measures of a text at another depth

Every line has the same role at any depth, it belongs to the same column, and the gaps
after its indicators are the same.
-/
namespace YamlLayout

/-- What a measure says without the depth of its line. -/
def LineMeasure.demand (m : LineMeasure) : Nat × LineRole × Option Int × List Gap :=
  (m.line, m.role, m.expected, m.gaps)

/-- Lines without a measure at the end do not count. -/
theorem filterMap_range_of_none {α : Type} {f : Nat → Option α} {m n : Nat} (hle : m ≤ n)
    (h : ∀ i, m ≤ i → f i = none) : (List.range n).filterMap f = (List.range m).filterMap f := by
  induction n, hle using Nat.le_induction with
  | base => rfl
  | succ n hle ih =>
    rw [List.range_succ, List.filterMap_append, ih]
    simp [h n hle]

namespace Stream

open YamlLayout.Measure

variable {stream other : Stream} {layout : Layout} {column : TokenId → Option Int} {line : Nat}

/-- No line past the last one has a measure. -/
theorem ReadTo.line?_eq_none {s : ParseState} {interiors : List Interior} (h : stream.ReadTo s)
    (hline : stream.lines.count < line) :
    line? stream.lines stream.tokens layout column interiors line = none := by
  rw [← Option.not_isSome_iff_eq_none, isSome_line?_iff]
  rintro (⟨i, -, -, -, hsolid⟩ | ⟨i, t, ht, hstart⟩)
  · have hblank : stream.lines.isBlankLine line = true := LineTable.isBlankLine_of_count_lt hline
    rw [hblank] at hsolid
    cases hsolid
  · obtain ⟨before, value, after, hstands⟩ := h.exists_stands ht
    have hle := hstands.startLine_le_count
    rw [hstart] at hle
    exact absurd hline (Nat.not_lt.mpr hle)

theorem ReadTo.measures_eq {s : ParseState} (h : stream.ReadTo s) (layout : Layout) {n : Nat}
    (hle : stream.lines.count ≤ n) :
    stream.measures layout = (List.range n).filterMap fun i =>
      line? stream.lines stream.tokens layout (fun t => (layout.columns stream.tokens)[t]?.join)
        ((numbered stream.tokens).filterMap (interior? layout)) (i + 1) :=
  (filterMap_range_of_none hle fun _ hi => h.line?_eq_none (Nat.lt_succ_of_le hi)).symm

/-- The same token with its number in two streams. -/
structure SameToken (stream other : Stream) (p q : Numbered) : Prop where
  id_eq : p.1 = q.1
  left : stream.tokens[p.1]? = some p.2
  right : other.tokens[q.1]? = some q.2

namespace Reindented

theorem sameToken_reindented (h : stream.Reindented other) {p q : Numbered}
    (hsame : SameToken stream other p q) : p.2.Reindented q.2 :=
  h.token hsame.left (hsame.id_eq ▸ hsame.right)

theorem numbered_forall₂ (h : stream.Reindented other) :
    List.Forall₂ (SameToken stream other) (numbered stream.tokens) (numbered other.tokens) := by
  rw [List.forall₂_iff_get]
  refine ⟨by simp [numbered, h.size_eq], fun i hi hi' => ?_⟩
  have hleft := getElem?_numbered stream.tokens i
  have hright := getElem?_numbered other.tokens i
  rw [List.getElem?_eq_getElem hi] at hleft
  rw [List.getElem?_eq_getElem hi'] at hright
  obtain ⟨a, ha, hp⟩ := Option.map_eq_some_iff.mp hleft.symm
  obtain ⟨b, hb, hq⟩ := Option.map_eq_some_iff.mp hright.symm
  rw [List.get_eq_getElem, List.get_eq_getElem, ← hp, ← hq]
  exact ⟨rfl, ha, hb⟩

theorem filter_forall₂ (h : stream.Reindented other) {f : Token → Bool}
    (hf : ∀ {a b : Token}, a.Reindented b → f a = f b) {l l' : List Numbered}
    (hl : List.Forall₂ (SameToken stream other) l l') :
    List.Forall₂ (SameToken stream other) (l.filter fun (_, t) => f t)
      (l'.filter fun (_, t) => f t) := by
  apply List.rel_filter _ hl
  intro p q hsame
  show f p.2 = true ↔ f q.2 = true
  rw [hf (h.sameToken_reindented hsame)]

theorem interiors_eq (h : stream.Reindented other) (layout : Layout) :
    (numbered stream.tokens).filterMap (interior? layout) =
      (numbered other.tokens).filterMap (interior? layout) := by
  have hlists : ∀ {l l' : List Numbered}, List.Forall₂ (SameToken stream other) l l' →
      l.filterMap (interior? layout) = l'.filterMap (interior? layout) := by
    intro l l' hl
    induction hl with
    | nil => rfl
    | @cons p q _ _ hsame _ ih =>
      have hinterior : interior? layout p = interior? layout q := by
        obtain ⟨i, a⟩ := p
        obtain ⟨i', b⟩ := q
        obtain rfl : i = i' := hsame.id_eq
        have htoken : a.Reindented b := h.sameToken_reindented hsame
        rw [interior?, interior?, Token.isMultiline, Token.isMultiline, htoken.kind_eq,
          htoken.startLine_eq, htoken.endLine_eq]
      rw [List.filterMap_cons, List.filterMap_cons, hinterior, ih]
  exact hlists h.numbered_forall₂

theorem bodyOn?_eq (h : stream.Reindented other) (layout : Layout) (line : Nat) :
    bodyOn? stream.tokens layout line = bodyOn? other.tokens layout line := by
  unfold bodyOn?
  congr 1
  funext block
  cases block.body with
  | none => rfl
  | some body =>
    cases ha : stream.tokens[body]? with
    | none => simp [ha, h.getElem?_eq_none ha]
    | some a =>
      obtain ⟨b, hb, htoken⟩ := h.exists_token ha
      simp [ha, hb, htoken.startLine_eq]

theorem isBlankLine_eq (h : stream.Reindented other) (line : Nat) :
    stream.lines.isBlankLine line = other.lines.isBlankLine line := by
  rw [lines, lines, ← LineTable.isBlankLine_flush, ← LineTable.isBlankLine_flush other.text,
    h.text_eq]

/-- The gaps on a line are the same, from any of its tokens on. -/
theorem gaps_eq (h : stream.Reindented other) {pre l l' : List Numbered}
    (hl : contentOn stream.tokens line = pre ++ l)
    (hsame : List.Forall₂ (SameToken stream other) l l') :
    gaps layout column l = gaps layout column l' := by
  induction hsame generalizing pre with
  | nil => rfl
  | @cons p q l l' hfirst hrest ih =>
    obtain ⟨i, a⟩ := p
    obtain ⟨i', a'⟩ := q
    obtain rfl : i = i' := hfirst.id_eq
    cases hrest with
    | nil => rfl
    | @cons p q l l' hsecond hrest =>
      obtain ⟨j, b⟩ := p
      obtain ⟨j', b'⟩ := q
      obtain rfl : j = j' := hsecond.id_eq
      obtain ⟨ha, hb, hij, hleft, hright, -⟩ := exists_of_contentOn hl
      have hsub :=
        (h.column_sub_eq ha hb hfirst.right hsecond.right hij (hleft.trans hright.symm)).2
      have htail : contentOn stream.tokens line = (pre ++ [(i, a)]) ++ (j, b) :: l := by
        rw [hl]
        simp
      rw [gaps, gaps, hsub, ih htail]

theorem findSome?_eq {l l' : List Numbered}
    (hl : List.Forall₂ (SameToken stream other) l l') :
    l.findSome? (fun (id, _) => column id) = l'.findSome? fun (id, _) => column id := by
  induction hl with
  | nil => rfl
  | @cons p q _ _ hsame _ ih =>
    obtain ⟨i, a⟩ := p
    obtain ⟨i', b⟩ := q
    obtain rfl : i = i' := hsame.id_eq
    rw [List.findSome?_cons, List.findSome?_cons, ih]

theorem demand_ofTokens (h : stream.Reindented other) {leading leading' : Nat}
    {on on' : List Numbered}
    (hon : on = (numbered stream.tokens).filter fun (_, t) => t.startLine == line)
    (hsame : List.Forall₂ (SameToken stream other) on on') :
    (ofTokens layout column line leading on).demand =
      (ofTokens layout column line leading' on').demand := by
  have hcontent := h.filter_forall₂ (f := fun t => !t.isComment)
    (fun htoken => by rw [Token.isComment, Token.isComment, htoken.kind_eq]) hsame
  have hall : contentOn stream.tokens line = [] ++ on.filter fun (_, t) => !t.isComment := by
    rw [contentOn, hon]
    rfl
  unfold ofTokens
  dsimp only
  generalize (on.filter fun (_, t) => !t.isComment) = content at hcontent hall
  generalize (on'.filter fun (_, t) => !t.isComment) = content' at hcontent
  have hgaps : gaps layout column content = gaps layout column content' := h.gaps_eq hall hcontent
  have hexpected := @findSome?_eq _ _ column _ _ hcontent
  cases hcontent with
  | nil => rfl
  | cons hfirst hrest =>
    simp only [LineMeasure.demand, LineMeasure.bare]
    rw [hgaps, hexpected]

/-- A line has the same measure but for its depth, or none. -/
theorem demand_line? (h : stream.Reindented other) (interiors : List Interior) (line : Nat) :
    (line? stream.lines stream.tokens layout column interiors line).map LineMeasure.demand =
      (line? other.lines other.tokens layout column interiors line).map LineMeasure.demand := by
  have hon := h.filter_forall₂ (f := fun t => t.startLine == line)
    (fun htoken => by rw [htoken.startLine_eq]) h.numbered_forall₂
  unfold line?
  dsimp only
  rw [h.isBlankLine_eq line, h.bodyOn?_eq layout line]
  split
  · rfl
  · rfl
  · generalize hleft : ((numbered stream.tokens).filter fun (_, t) => t.startLine == line) = on
      at hon
    generalize ((numbered other.tokens).filter fun (_, t) => t.startLine == line) = on' at hon
    have hdemand := @demand_ofTokens _ _ layout column line h (stream.lines.leading line)
      (other.lines.leading line) on on' hleft.symm hon
    cases hon with
    | nil => rfl
    | cons => exact congrArg some hdemand

theorem columns_eq (h : stream.Reindented other) (style : Style) (t : TokenId) :
    ((Layout.ofStream stream style).columns stream.tokens)[t]?.join =
      ((Layout.ofStream other style).columns other.tokens)[t]?.join := by
  have hcolumn : (Layout.ofStream stream style).column? stream.tokens =
      (Layout.ofStream other style).column? other.tokens := funext (h.column?_eq style)
  rw [Layout.columns_eq, Layout.columns_eq, h.size_eq, hcolumn]

theorem demand_measures (h : stream.Reindented other) (style : Style) :
    (stream.measures (Layout.ofStream stream style)).map LineMeasure.demand =
      (other.measures (Layout.ofStream other style)).map LineMeasure.demand := by
  obtain ⟨-, s, hread⟩ := exists_readTo h.parse_eq
  obtain ⟨-, s', hread'⟩ := exists_readTo h.parse_eq'
  rw [hread.measures_eq _ (Nat.le_max_left _ other.lines.count),
    hread'.measures_eq _ (Nat.le_max_right stream.lines.count _), List.map_filterMap,
    List.map_filterMap]
  apply List.filterMap_congr
  intro i _
  rw [funext (h.columns_eq style), h.layout_eq style, h.interiors_eq]
  exact h.demand_line? _ _

end Reindented

/-- In whatever order columns are looked up, they are the same at any depth, and so is
what the lines are measured against. -/
theorem Reindented.resolve_and_measures (h : stream.Reindented other) (style : Style) :
    (∀ (asked asked' : List TokenId) (t : TokenId),
      (ColumnCache.resolve (Layout.ofStream stream style) stream.tokens t
        (ColumnCache.after (Layout.ofStream stream style) stream.tokens asked)).1 =
      (ColumnCache.resolve (Layout.ofStream other style) other.tokens t
        (ColumnCache.after (Layout.ofStream other style) other.tokens asked')).1) ∧
    (stream.measures (Layout.ofStream stream style)).map LineMeasure.demand =
      (other.measures (Layout.ofStream other style)).map LineMeasure.demand := by
  refine ⟨fun asked asked' t => ?_, h.demand_measures style⟩
  rw [ColumnCache.resolve_after, ColumnCache.resolve_after, h.column?_eq style t]

/-- Whether two texts are read in the same way shows when both are read. -/
theorem exists_reindented {text text' : List Char}
    (htext : Text.flush true text = Text.flush true text')
    (htokens : (parse text).toOption.any (fun stream => (parse text').toOption.any fun other =>
      List.Forall₂ Token.Reindented stream.tokens.toList other.tokens.toList) = true)
    (hdocuments : (parse text).toOption.map (·.documents.map (Document.shape false)) =
      (parse text').toOption.map (·.documents.map (Document.shape false))) :
    ∃ stream other : Stream, parse text = .ok stream ∧ parse text' = .ok other ∧
      stream.Reindented other := by
  cases hparse : parse text with
  | error e =>
    rw [hparse] at htokens
    cases htokens
  | ok stream =>
    cases hparse' : parse text' with
    | error e =>
      rw [hparse, hparse'] at htokens
      cases htokens
    | ok other =>
      rw [hparse, hparse'] at htokens hdocuments
      obtain ⟨rfl, -⟩ := exists_readTo hparse
      obtain ⟨rfl, -⟩ := exists_readTo hparse'
      exact ⟨stream, other, rfl, rfl, hparse, hparse', htext, of_decide_eq_true htokens,
        Option.some.inj hdocuments⟩

set_option maxRecDepth 20000 in
/-- Sequences on one line, a flow collection over two lines and a block scalar, each of
them at another depth. -/
theorem Reindented.resolve_and_measures_nested :
    ∃ stream other : Stream,
      parse "a:\n  - - b: [c,\n      d]\n  # x\n  - |\n    y\n     z\n".toList = .ok stream ∧
      parse "a:\n- - b: [c,\n d]\n    # x\n- |\n y\n   z\n".toList = .ok other ∧
      stream.Reindented other ∧
      (∀ t, (ColumnCache.resolve (Layout.ofStream stream .default) stream.tokens t
          (ColumnCache.fresh stream.tokens)).1 =
        (ColumnCache.resolve (Layout.ofStream other .default) other.tokens t
          (ColumnCache.fresh other.tokens)).1) ∧
      (stream.measures (Layout.ofStream stream .default)).map LineMeasure.demand =
        (other.measures (Layout.ofStream other .default)).map LineMeasure.demand := by
  obtain ⟨stream, other, hparse, hparse', h⟩ :=
    @exists_reindented "a:\n  - - b: [c,\n      d]\n  # x\n  - |\n    y\n     z\n".toList
      "a:\n- - b: [c,\n d]\n    # x\n- |\n y\n   z\n".toList (by decide +kernel)
      (by decide +kernel) (by cbv)
  obtain ⟨hcolumns, hmeasures⟩ := h.resolve_and_measures .default
  exact ⟨stream, other, hparse, hparse', h, hcolumns [] [], hmeasures⟩

end Stream

end YamlLayout
