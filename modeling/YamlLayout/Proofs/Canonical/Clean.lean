import YamlLayout.Check
import YamlLayout.Proofs.Canonical.Columns
import YamlLayout.Proofs.ColumnCache
import YamlLayout.Proofs.Measured

/-!
# Canonical texts are clean

Every line of a canonical text starts with a token of the structure. That token stands
where it belongs, and after each indicator the gap is as wide as the columns ask for. So
the text of an outline is read as that outline, and nothing in it deviates.
-/
namespace YamlLayout

/-! ## Lines in place -/

/-- Nothing about the line deviates. -/
structure LineMeasure.InPlace (m : LineMeasure) : Prop where
  role_eq : m.role = .structural
  expected_eq : m.expected = some m.actual
  gaps_eq : ∀ g ∈ m.gaps, g.isOff = false

theorem Placement.comments_eq_append (unit : Int) (before : List LineMeasure)
    {rest : List LineMeasure} (h : ∀ m ∈ rest, m.role = .structural) :
    comments unit before rest = before.reverse ++ rest := by
  induction rest generalizing before with
  | nil => simp [comments]
  | cons m rest ih =>
    have hm : isCommentLine m = false := by simp [isCommentLine, h m (List.mem_cons_self ..)]
    rw [comments, hm, if_neg Bool.false_ne_true, ih _ fun r hr => h r (List.mem_cons_of_mem _ hr)]
    simp

/-- Lines of the structure have their places. -/
theorem Stream.place_eq_self (s : Stream) (layout : Layout) (style : Style)
    {measures : List LineMeasure} (h : ∀ m ∈ measures, m.role = .structural) :
    s.place layout style measures = measures := by
  have hmap : ∀ f : LineMeasure → LineMeasure, (∀ m, m.role = .structural → f m = m) →
      measures.map f = measures := by
    intro f hf
    calc measures.map f = measures.map id := List.map_congr_left fun m hm => hf m (h m hm)
      _ = measures := List.map_id _
  unfold Stream.place
  dsimp only
  rw [hmap _ fun m hm => by rw [Placement.continuation, hm],
    hmap _ fun m hm => by rw [Placement.bodyLine, hm], Placement.comments_eq_append _ _ h]
  rfl

namespace RepairContext

variable {ctx : RepairContext}

theorem deviationsOf_eq_nil {m : LineMeasure} (h : m.InPlace) (before after : List LineMeasure) :
    ctx.deviationsOf before m after = [] := by
  have hgaps : m.gaps.filter Gap.isOff = [] := by
    simpa [List.filter_eq_nil_iff] using h.gaps_eq
  simp [deviationsOf, h.expected_eq, hgaps]

theorem deviationsFrom_eq_nil (before : List LineMeasure) {rest : List LineMeasure}
    (h : ∀ m ∈ rest, m.InPlace) : ctx.deviationsFrom before rest = [] := by
  induction rest generalizing before with
  | nil => rfl
  | cons m rest ih =>
    rw [deviationsFrom, deviationsOf_eq_nil (h m (List.mem_cons_self ..)), List.nil_append]
    exact ih _ fun r hr => h r (List.mem_cons_of_mem _ hr)

end RepairContext

/-! ## Tokens of a line -/

/-- Where no token is a comment or goes on over a line break, every measured line is one
of the structure. -/
theorem Stream.exists_of_mem_measures {stream : Stream} {layout : Layout} {m : LineMeasure}
    (hsolid : ∀ (i : Nat) (t : Token), stream.tokens[i]? = some t →
      t.isMultiline = false ∧ t.isComment = false)
    (hblocks : layout.blocks = []) (hm : m ∈ stream.measures layout) :
    let column := fun t : TokenId => (layout.columns stream.tokens)[t]?.join
    ∃ i t rest, Measure.contentOn stream.tokens m.line = (i, t) :: rest ∧
      m.role = .structural ∧ m.expected = ((i, t) :: rest).findSome? (fun x => column x.1) ∧
      m.actual = t.first.column ∧ m.gaps = Measure.gaps layout column ((i, t) :: rest) := by
  intro column
  obtain ⟨n, -, hline⟩ := List.mem_filterMap.mp hm
  have hinteriors : (Measure.numbered stream.tokens).filterMap (Measure.interior? layout) =
      [] := by
    rw [List.filterMap_eq_nil_iff]
    rintro ⟨i, t⟩ hmem
    have hsingle := (hsolid i t (Measure.mem_numbered_iff.mp hmem)).1
    simp [Measure.interior?, hsingle]
  have hbody : Measure.bodyOn? stream.tokens layout (n + 1) = none := by
    simp [Measure.bodyOn?, hblocks]
  rw [hinteriors, Measure.line?, hbody] at hline
  dsimp only [List.filter_nil, List.getLast?_nil, Option.map_none] at hline
  split at hline
  · cases hline
  · rename_i on hon
    rw [Option.some.injEq, Measure.ofTokens] at hline
    cases hcontent : Measure.contentOn stream.tokens (n + 1) with
    | nil =>
      -- No token is a comment, so all those of the line are content.
      refine absurd ?_ hon
      rw [Measure.contentOn, List.filter_eq_nil_iff] at hcontent
      refine List.eq_nil_iff_forall_not_mem.mpr fun x hx => ?_
      have hx' := Measure.mem_numbered_iff.mp (List.mem_filter.mp hx).1
      exact hcontent x hx (by simp [(hsolid _ _ hx').2])
    | cons x rest =>
      obtain ⟨i, t⟩ := x
      unfold Measure.contentOn at hcontent
      rw [hcontent] at hline
      subst hline
      exact ⟨i, t, rest, hcontent, rfl, rfl, rfl, rfl⟩

namespace Glyph

variable {all : List Glyph} {tokens : Array Token} {g h : Glyph} {t : Token} {i j : Nat}

theorem exists_glyph (hfits : List.Forall₂ Fits all tokens.toList) (ht : tokens[i]? = some t) :
    ∃ g, all[i]? = some g ∧ g.Fits t := by
  have hlt : i < all.length := by
    rw [hfits.length_eq, Array.length_toList]
    exact (Array.getElem?_eq_some_iff.mp ht).1
  obtain ⟨u, hu, hg⟩ := exists_fits hfits (List.getElem?_eq_getElem hlt)
  rw [ht, Option.some.injEq] at hu
  exact ⟨_, List.getElem?_eq_getElem hlt, hu ▸ hg⟩

theorem Fits.isMultiline_eq (hfits : g.Fits t) : t.isMultiline = false := by
  simp [Token.isMultiline, Token.startLine, Token.endLine, hfits.first_eq, hfits.past_eq]

theorem leads_of_isChain (hchain : all.IsChain Leads) (hg : all[i]? = some g)
    (hh : all[i + 1]? = some h) : g.Leads h := by
  obtain ⟨_, rfl⟩ := List.getElem?_eq_some_iff.mp hg
  obtain ⟨hlt, rfl⟩ := List.getElem?_eq_some_iff.mp hh
  exact List.isChain_iff_getElem.mp hchain i hlt

theorem line_le_of_isChain (hchain : all.IsChain Leads) (hij : i ≤ j) (hg : all[i]? = some g)
    (hh : all[j]? = some h) : g.place.line ≤ h.place.line := by
  induction j, hij using Nat.le_induction generalizing h with
  | base =>
    rw [hg, Option.some.injEq] at hh
    rw [hh]
  | succ j hij ih =>
    have hlt : j < all.length := by
      have := (List.getElem?_eq_some_iff.mp hh).1
      omega
    have hprevious := List.getElem?_eq_getElem hlt
    exact Nat.le_trans (ih hprevious) (leads_of_isChain hchain hprevious hh).line_le

/-- A token with none before it on its line stands where it belongs. -/
theorem Runs.placed {p q : Position} {c : Nat} (hruns : Runs p c q all) (hp : p.column = c)
    (hg : all[i]? = some g) (hfirst : ∀ k f, k < i → all[k]? = some f →
      f.place.line ≠ g.place.line) : g.place.column = g.column := by
  cases i with
  | zero =>
    obtain ⟨head, hhead, hplace, hcolumn⟩ := hruns.head
    rw [List.head?_eq_getElem?, hg, Option.some.injEq] at hhead
    rw [hhead, hplace, hcolumn, hp]
  | succ i =>
    have hlt : i < all.length := by
      have := (List.getElem?_eq_some_iff.mp hg).1
      omega
    have hbefore := List.getElem?_eq_getElem hlt
    have hleads := leads_of_isChain hruns.chain hbefore hg
    exact hleads.placed (Nat.lt_of_le_of_ne hleads.line_le
      (hfirst i _ (Nat.lt_succ_self i) hbefore))

/-- Neighbours on a line have neighbouring numbers: none of the tokens between them is a
comment. -/
theorem exists_leads_of_contentOn (hfits : List.Forall₂ Fits all tokens.toList)
    (hchain : all.IsChain Leads) {line : Nat} {a b : Token} {pre post : List Measure.Numbered}
    (hrow : Measure.contentOn tokens line = pre ++ (i, a) :: (j, b) :: post) :
    ∃ g h, all[i]? = some g ∧ all[j]? = some h ∧ g.Fits a ∧ h.Fits b ∧
      g.place.line = h.place.line ∧ g.Leads h := by
  obtain ⟨ha, hb, hij, hleft, hright, hcomments⟩ := Measure.exists_of_contentOn hrow
  obtain ⟨g, hg, hga⟩ := exists_glyph hfits ha
  obtain ⟨h, hh, hhb⟩ := exists_glyph hfits hb
  rw [Token.startLine, hga.first_eq] at hleft
  rw [Token.startLine, hhb.first_eq] at hright
  refine ⟨g, h, hg, hh, hga, hhb, hleft.trans hright.symm, ?_⟩
  by_cases hnext : j = i + 1
  · subst hnext
    exact leads_of_isChain hchain hg hh
  · exfalso
    have hlt : i + 1 < all.length := by
      have := (List.getElem?_eq_some_iff.mp hh).1
      omega
    have hbetween := List.getElem?_eq_getElem hlt
    obtain ⟨t, ht, hfit⟩ := exists_fits hfits hbetween
    have hbelow := line_le_of_isChain hchain (Nat.le_succ i) hg hbetween
    have habove := line_le_of_isChain hchain (by omega) hbetween hh
    have hcomment := hcomments (i + 1) t (Nat.lt_succ_self i) (by omega) ht (by
      rw [Token.startLine, hfit.first_eq]
      omega)
    rw [hfit.isComment_eq] at hcomment
    cases hcomment

end Glyph

/-! ## Canonical lines -/

namespace Outline

variable {tree : Outline} {unit : Nat} {stream : Stream} {d : Document} {s : ParseState}

theorem runs (tree : Outline) (hunit : 0 < unit) :
    Glyph.Runs ⟨1, 0⟩ 0 (Position.after ⟨1, 0⟩ (tree.text unit 0)) (tree.glyphs unit ⟨1, 0⟩ 0) :=
  runs_glyphs hunit tree (sits_of_eq rfl)

section Fills

variable (h : tree.Fills unit stream d) (hread : stream.ReadTo s) (hunit : 0 < unit)
  (hsmall : unit < 2147483648)

include h hread hunit hsmall

theorem Fills.join_columns_eq {i : Nat} {g : Glyph}
    (hg : (tree.glyphs unit ⟨1, 0⟩ 0)[i]? = some g) :
    ((Layout.ofStream stream { Style.default with unit }).columns stream.tokens)[i]?.join =
      some (g.column : Int) := by
  obtain ⟨t, ht, -⟩ := Glyph.exists_fits h.fits hg
  rw [Layout.join_getElem?_columns (Array.getElem?_eq_some_iff.mp ht).1,
    h.column?_eq hread hunit hsmall hg]

/-- After an indicator the gap is as wide as the columns ask for. -/
theorem Fills.isOff_eq {line : Nat} {gap : Gap}
    (hgap : gap ∈ Measure.gaps (Layout.ofStream stream { Style.default with unit })
      (fun t => ((Layout.ofStream stream { Style.default with unit }).columns
        stream.tokens)[t]?.join) (Measure.contentOn stream.tokens line)) :
    gap.isOff = false := by
  obtain ⟨pre, a, b, post, hrow, hindicator, hactual, x, y, hx, hy, hlt, hexpected⟩ :=
    Measure.exists_of_mem_gaps hgap
  obtain ⟨left, right, hleft, hright, ha, hb, hline, hleads⟩ :=
    Glyph.exists_leads_of_contentOn h.fits (tree.runs hunit).chain hrow
  rw [h.join_columns_eq hread hunit hsmall hleft, Option.some.injEq] at hx
  rw [h.join_columns_eq hread hunit hsmall hright, Option.some.injEq] at hy
  obtain ⟨c, p, column, hmark⟩ := h.exists_mark hunit hindicator
  rw [hleft, Option.some.injEq] at hmark
  have hwidth := hleads.gap hline (by rw [hmark]; rfl) (by omega)
  have hpast : a.past.column = left.place.column + 1 := by
    rw [ha.past_eq, hmark]
    rfl
  have hfirst : b.first.column = right.place.column := by rw [hb.first_eq]
  have hequal : gap.expected = gap.actual := by omega
  simp [Gap.isOff, hequal]

/-- Nothing about a line of a canonical text deviates. -/
theorem Fills.inPlace {m : LineMeasure}
    (hm : m ∈ stream.measures (Layout.ofStream stream { Style.default with unit })) :
    m.InPlace := by
  have hsolid : ∀ (i : Nat) (t : Token), stream.tokens[i]? = some t →
      t.isMultiline = false ∧ t.isComment = false := by
    intro i t ht
    obtain ⟨g, -, hg⟩ := Glyph.exists_glyph h.fits ht
    exact ⟨hg.isMultiline_eq, hg.isComment_eq⟩
  obtain ⟨i, t, rest, hrow, hrole, hexpected, hactual, hgaps⟩ :=
    Stream.exists_of_mem_measures hsolid (h.blocks_eq hunit _) hm
  obtain ⟨ht, hline, hfirst⟩ := Measure.first_of_contentOn hrow
  obtain ⟨g, hg, hfits⟩ := Glyph.exists_glyph h.fits ht
  have hplaced : g.place.column = g.column := by
    refine (tree.runs hunit).placed rfl hg fun k f hk hf hsame => ?_
    obtain ⟨c, hc, hfit⟩ := Glyph.exists_fits h.fits hf
    have hcomment := hfirst k c hk hc (by
      rw [← hline, Token.startLine, Token.startLine, hfit.first_eq, hfits.first_eq, hsame])
    rw [hfit.isComment_eq] at hcomment
    cases hcomment
  constructor
  case role_eq => exact hrole
  case expected_eq =>
    have hcolumn := h.join_columns_eq hread hunit hsmall hg
    simp only [hexpected, hactual, List.findSome?_cons, hcolumn, hfits.first_eq, hplaced]
  case gaps_eq =>
    intro gap hgap
    rw [hgaps, ← hrow] at hgap
    exact h.isOff_eq hread hunit hsmall hgap

theorem Fills.deviations_eq_nil :
    (stream.analyze { Style.default with unit }).deviations = [] := by
  have hlines : ∀ m ∈ stream.measures (Layout.ofStream stream { Style.default with unit }),
      m.InPlace := fun m hm => h.inPlace hread hunit hsmall hm
  have hplace := stream.place_eq_self (Layout.ofStream stream { Style.default with unit })
    { Style.default with unit } fun m hm => (hlines m hm).role_eq
  change RepairContext.deviationsFrom _ [] (stream.place _ _ _) = []
  rw [hplace]
  exact RepairContext.deviationsFrom_eq_nil [] hlines

end Fills

/-- The text of an outline is read as one document that holds just this outline, and
nothing in it deviates. A line feed may end the text. -/
theorem exists_parse_text_clean (tree : Outline) {unit : Nat} {ending : List Char}
    (hunit : 2 ≤ unit) (hsmall : unit < 2147483648) (hending : ending = [] ∨ ending = ['\n']) :
    ∃ stream d, parse (tree.text unit 0 ++ ending) = .ok stream ∧ stream.documents = [d] ∧
      d.directives = [] ∧ d.startMarker = none ∧ d.endMarker = none ∧
      d.content.outline? stream.tokens = some tree ∧
      ∃ analysis, analyze (tree.text unit 0 ++ ending) { Style.default with unit } = .ok analysis ∧
        analysis.deviations = [] := by
  obtain ⟨stream, d, hparse, hfills⟩ := tree.exists_fills hunit hending
  obtain ⟨-, s, hread⟩ := Stream.exists_readTo hparse
  refine ⟨stream, d, hparse, hfills.documents_eq, hfills.directives_eq, hfills.startMarker_eq,
    hfills.endMarker_eq, outline?_eq hfills.fits tree hfills.numbers List.prefix_rfl,
    stream.analyze { Style.default with unit }, ?_,
    hfills.deviations_eq_nil hread (by omega) hsmall⟩
  rw [analyze, hparse]
  rfl

/-- A mapping of a sequence and a word, with a mapping and a sequence inside. -/
def nested : Outline :=
  let a : Word := ⟨['a'], by simp, by simp⟩
  let key : Word := ⟨['k', 'e', 'y'], by simp, by simp⟩
  let items := Items.one (.sequence (.one (.word a)))
  let inner := Pairs.more a (.word a) (.one key (.sequence items))
  .mapping (.more key (.sequence (.more (.mapping inner) (.one (.word key)))) (.one a (.word key)))

theorem exists_parse_text_clean_nested :
    nested.text 3 0 =
      "key:\n   -  a: a\n      key:\n         -  -  a\n   -  key\na: key".toList ∧
    ∃ stream d, parse (nested.text 3 0 ++ ['\n']) = .ok stream ∧ stream.documents = [d] ∧
      d.content.outline? stream.tokens = some nested ∧
      ∃ analysis, analyze (nested.text 3 0 ++ ['\n']) { Style.default with unit := 3 } =
        .ok analysis ∧ analysis.deviations = [] := by
  obtain ⟨stream, d, hparse, hdocument, -, -, -, houtline, hclean⟩ :=
    exists_parse_text_clean nested (show 2 ≤ 3 by decide) (by decide) (.inr rfl)
  exact ⟨by decide +kernel, stream, d, hparse, hdocument, houtline, hclean⟩

end Outline

end YamlLayout
