import YamlLayout.Proofs.Canonical.Parsing
import YamlLayout.Proofs.ColumnRules

/-!
# Columns of canonical texts

The rules of a layout give each token of a canonical text the column of its glyph. A
colon is never the first token of its line, so the value of a key belongs at the column
of the colon, one unit deeper than the key.
-/
namespace YamlLayout

/-- What the rules of a canonical text depend on. -/
def LayoutContext.canonical (tokens : Array Token) (unit : Nat) : LayoutContext :=
  ⟨tokens, unit, unit, true⟩

theorem LayoutContext.ofStyle_eq_canonical (tokens : Array Token) {unit : Nat}
    (hunit : unit < 2147483648) :
    LayoutContext.ofStyle tokens { Style.default with unit } = canonical tokens unit := by
  simp [ofStyle, canonical, Style.columns, Style.valueIndent, Style.default, hunit]

/-- The rule leads from the column of one glyph to that of another. -/
def Assignment.Suits (a : Assignment) (all : List Glyph) (tokens : Array Token) : Prop :=
  ∃ base g h, a.rule.base = some base ∧ base < a.token ∧ all[base]? = some g ∧
    all[a.token]? = some h ∧
    (h.column : Int) = g.column + a.rule.step (isFirstOnLine tokens base)

theorem Assignment.suits_of_mem_setOff {a : Assignment} {all : List Glyph} {tokens : Array Token}
    {token base : TokenId} {g h : Glyph} {offset : Int} {inlineOffset : Option Int}
    (ha : a ∈ setOff (some token) (some base) offset inlineOffset) (hg : all[base]? = some g)
    (hh : all[token]? = some h) (hcolumn : (h.column : Int) = g.column +
      ColumnRule.step ⟨some base, offset, inlineOffset⟩ (isFirstOnLine tokens base)) :
    a.Suits all tokens := by
  obtain ⟨t, b, ht, hb, hlt, rfl⟩ := mem_setOff_iff.mp ha
  cases ht
  cases hb
  exact ⟨base, g, h, rfl, hlt, hg, hh, hcolumn⟩

theorem Node.mem_indicatorsOf_iff {flow : Bool} {nodes : List Node} {i : TokenId} :
    i ∈ indicatorsOf flow nodes ↔ ∃ node ∈ nodes, i ∈ node.indicators flow := by
  induction nodes with
  | nil => simp [indicatorsOf]
  | cons node nodes ih => simp [indicatorsOf, ih]

theorem Node.blockScalarsOf_eq_nil {nodes : List Node}
    (h : ∀ node ∈ nodes, node.blockScalars = []) : blockScalarsOf nodes = [] := by
  induction nodes with
  | nil => rfl
  | cons node nodes ih => simp_all [blockScalarsOf]

namespace Layout

theorem mem_of_getElem?_foldl {i : Nat} (marks : List TokenId) (table : Array Bool)
    (h : (marks.foldl (fun table t => table.setIfInBounds t true) table)[i]? = some true) :
    i ∈ marks ∨ table[i]? = some true := by
  induction marks generalizing table with
  | nil => exact .inr h
  | cons t marks ih =>
    rcases ih _ h with hmem | htable
    · exact .inl (List.mem_cons_of_mem _ hmem)
    · by_cases heq : t = i
      · exact .inl (heq ▸ List.mem_cons_self ..)
      · rw [Array.getElem?_setIfInBounds_ne heq] at htable
        exact .inr htable

theorem mem_of_isIndicator {stream : Stream} {style : Style} {i : Nat}
    (h : (ofStream stream style).isIndicator i = true) :
    i ∈ stream.documents.flatMap (·.content.indicators false) := by
  have htable : (ofStream stream style).indicators[i]? = some true := by
    rw [isIndicator] at h
    cases hmark : (ofStream stream style).indicators[i]? with
    | none => simp [hmark] at h
    | some mark => simpa [hmark] using h
  rcases mem_of_getElem?_foldl _ _ htable with hmem | hnone
  · exact hmem
  · simp [Array.getElem?_replicate] at hnone

end Layout

namespace Outline

variable {unit column : Nat} {p : Position} {first : TokenId} {all : List Glyph}
  {tokens : Array Token} {a : Assignment}

/-! ## First tokens -/

theorem Pairs.firstOf?_eq {pairs : Pairs} {nodes : List Node} (h : pairs.Numbers first nodes) :
    Node.firstOf? nodes = some first := by
  cases pairs with
  | one key value =>
    obtain ⟨pair, rfl, span, keySpan, inner, rfl, -⟩ := h
    rfl
  | more key value rest =>
    obtain ⟨pair, others, rfl, ⟨span, keySpan, inner, rfl, -⟩, -⟩ := h
    rfl

theorem Items.firstOf?_eq {items : Items} {nodes : List Node} (h : items.Numbers first nodes) :
    Node.firstOf? nodes = some first := by
  cases items with
  | one item =>
    obtain ⟨value, rfl, -⟩ := h
    rfl
  | more item rest =>
    obtain ⟨value, others, rfl, -⟩ := h
    rfl

theorem first?_eq {tree : Outline} {node : Node} (h : tree.Numbers first node) :
    node.first? = some first := by
  cases tree with
  | word w =>
    obtain ⟨span, rfl⟩ := h
    rfl
  | mapping pairs =>
    obtain ⟨span, nodes, rfl, hnodes⟩ := h
    exact Pairs.firstOf?_eq hnodes
  | sequence items =>
    obtain ⟨span, nodes, rfl, hnodes⟩ := h
    exact Items.firstOf?_eq hnodes

/-- An outline starts with a token that stands at its place and belongs at its column. -/
theorem exists_head (unit : Nat) (p : Position) (column : Nat) (tree : Outline) :
    ∃ g more, tree.glyphs unit p column = g :: more ∧ g.place = p ∧ g.column = column := by
  cases tree with
  | word w => exact ⟨_, _, rfl, rfl, rfl⟩
  | mapping pairs => cases pairs <;> exact ⟨_, _, rfl, rfl, rfl⟩
  | sequence items => cases items <;> exact ⟨_, _, rfl, rfl, rfl⟩

theorem exists_first {tree : Outline} (h : HoldsAt all first (tree.glyphs unit p column)) :
    ∃ g, all[first]? = some g ∧ g.place = p ∧ g.column = column := by
  obtain ⟨g, more, hglyphs, hplace, hcolumn⟩ := tree.exists_head unit p column
  rw [hglyphs] at h
  exact ⟨g, h.getElem?_eq, hplace, hcolumn⟩

/-! ## Rules -/

section Rules

variable (hfits : List.Forall₂ Glyph.Fits all tokens.toList)

include hfits

theorem isFirstOnLine_colon {key : Word} {value : Outline}
    (h : HoldsAt all first ((Pairs.one key value).glyphs unit p column)) :
    isFirstOnLine tokens (first + 1) = false := by
  obtain ⟨a, ha, hkey⟩ := Glyph.exists_fits hfits h.getElem?_eq
  obtain ⟨b, hb, hcolon⟩ := Glyph.exists_fits hfits h.tail.getElem?_eq
  rw [isFirstOnLine, ha, hb]
  simp [Token.endLine, Token.startLine, hkey.past_eq, hcolon.first_eq, Glyph.word, Glyph.mark,
    p.after_of_not_mem key.feed_not_mem]

theorem suits_pairRules {key : Word} {value : Outline} {keySpan : Span} {inner : Node}
    (h : HoldsAt all first ((Pairs.one key value).glyphs unit p column))
    (hinner : value.Numbers (first + 2) inner)
    (ha : a ∈ Node.pairRules (.canonical tokens unit) false none (.scalar keySpan .plain first)
      (some (first + 1)) inner) : a.Suits all tokens := by
  obtain ⟨g, hg, -, hcolumn⟩ := exists_first h.tail.tail
  simp only [Node.pairRules, Option.isSome_none, Bool.false_eq_true, if_false,
    LayoutContext.canonical, Bool.not_true, Bool.and_false, Bool.false_and, first?_eq hinner,
    Node.first?] at ha
  rcases List.mem_append.mp ha with ha | ha
  · refine Assignment.suits_of_mem_setOff ha h.getElem?_eq h.tail.getElem?_eq ?_
    simp [ColumnRule.step, Glyph.word, Glyph.mark]
  · refine Assignment.suits_of_mem_setOff ha h.tail.getElem?_eq hg ?_
    simp [ColumnRule.step, Glyph.mark, hcolumn, isFirstOnLine_colon hfits h]

theorem entryOffset_eq (hunit : 0 < unit) {item : Outline}
    (h : HoldsAt all first ((Items.one item).glyphs unit p column)) :
    (LayoutContext.canonical tokens unit).entryOffset first (some (first + 1)) = unit := by
  obtain ⟨a, ha, hdash⟩ := Glyph.exists_fits hfits h.getElem?_eq
  obtain ⟨g, hg, hplace, -⟩ := exists_first h.tail
  obtain ⟨b, hb, hvalue⟩ := Glyph.exists_fits hfits hg
  have hbehind : g.place = ⟨p.line, p.column + unit⟩ := by
    rw [hplace, p.after_of_not_mem (by simp [List.mem_replicate]), List.length_cons,
      List.length_replicate, Nat.sub_add_cancel hunit]
  have hgap : (LayoutContext.canonical tokens unit).gap? first (first + 1) =
      some (unit : Int) := by
    have hwidth : ((p.column + unit : Nat) : Int) - p.column = unit := by omega
    rw [LayoutContext.gap?, LayoutContext.canonical, ha, hb]
    change (if a.first.line = b.first.line then some ((b.first.column : Int) - a.first.column)
      else none) = some (unit : Int)
    rw [hdash.first_eq, hvalue.first_eq, hbehind]
    exact (if_pos rfl).trans (congrArg some hwidth)
  rw [LayoutContext.entryOffset, hgap]
  exact ite_self _

theorem suits_entryRules (hunit : 0 < unit) {item : Outline} {value : Node} {dash : TokenId}
    {g : Glyph} (h : HoldsAt all first ((Items.one item).glyphs unit p column))
    (hvalue : item.Numbers (first + 1) value) (hdash : all[dash]? = some g)
    (hcolumn : g.column = column)
    (ha : a ∈ (Node.entry first value).entryRules (.canonical tokens unit) (some dash)) :
    a.Suits all tokens := by
  obtain ⟨inner, hinner, -, hbelongs⟩ := exists_first h.tail
  rw [Node.entryRules, first?_eq hvalue, entryOffset_eq hfits hunit h] at ha
  rcases List.mem_append.mp ha with ha | ha
  · refine Assignment.suits_of_mem_setOff ha hdash h.getElem?_eq ?_
    simp [ColumnRule.step, Glyph.mark, hcolumn]
  · refine Assignment.suits_of_mem_setOff ha h.getElem?_eq hinner ?_
    simp [ColumnRule.step, Glyph.mark, hbelongs]

end Rules

/-- What a layout takes from a node that belongs at `column`: rules that suit the glyphs,
marks as indicators, and no block scalars. -/
structure LaidOut (all : List Glyph) (tokens : Array Token) (unit column : Nat) (node : Node) :
    Prop where
  head : ∀ i, node.first? = some i → ∃ g, all[i]? = some g ∧ g.column = column
  /-- The rules that a sequence gives to its entry. -/
  entry : ∀ dash g, all[dash]? = some g → g.column = column →
    ∀ a ∈ node.entryRules (.canonical tokens unit) (some dash), a.Suits all tokens
  rules : ∀ a ∈ node.rules (.canonical tokens unit) false, a.Suits all tokens
  indicators : ∀ i ∈ node.indicators false, ∃ c p column, all[i]? = some (.mark c p column)
  blocks : node.blockScalars = []

theorem laidOut_mapping {pairs : Pairs} {nodes : List Node} (span : Span)
    (hnodes : pairs.Numbers first nodes) (h : HoldsAt all first (pairs.glyphs unit p column))
    (hrows : ∀ node ∈ nodes, LaidOut all tokens unit column node) :
    LaidOut all tokens unit column (.mapping span none nodes) := by
  obtain ⟨g, hg, -, hcolumn⟩ :=
    exists_first (show HoldsAt all first ((mapping pairs).glyphs unit p column) from h)
  have hfirst := Pairs.firstOf?_eq hnodes
  constructor
  case head =>
    intro i hi
    have hsame := hfirst.symm.trans hi
    cases hsame
    exact ⟨g, hg, hcolumn⟩
  case entry => exact fun _ _ _ _ a ha => (by cases ha)
  case rules =>
    intro a ha
    rcases List.mem_append.mp ha with ha | ha
    · obtain ⟨pair, hpair, ha⟩ := List.mem_flatMap.mp ha
      obtain ⟨i, b, hi, hb, -, -⟩ := Assignment.mem_setOff_iff.mp ha
      obtain ⟨other, hother, hsame⟩ := (hrows pair hpair).head i hi
      rw [hi, hfirst] at ha
      refine Assignment.suits_of_mem_setOff ha hg hother ?_
      simp [ColumnRule.step, hcolumn, hsame]
    · obtain ⟨pair, hpair, ha⟩ := Node.mem_rulesOf_iff.mp ha
      exact (hrows pair hpair).rules a ha
  case indicators =>
    intro i hi
    obtain ⟨pair, hpair, hi⟩ := Node.mem_indicatorsOf_iff.mp hi
    exact (hrows pair hpair).indicators i hi
  case blocks => exact Node.blockScalarsOf_eq_nil fun pair hpair => (hrows pair hpair).blocks

theorem laidOut_sequence {items : Items} {nodes : List Node} (span : Span)
    (hnodes : items.Numbers first nodes) (h : HoldsAt all first (items.glyphs unit p column))
    (hrows : ∀ node ∈ nodes, LaidOut all tokens unit column node) :
    LaidOut all tokens unit column (.sequence span none nodes) := by
  obtain ⟨g, hg, -, hcolumn⟩ :=
    exists_first (show HoldsAt all first ((sequence items).glyphs unit p column) from h)
  have hfirst := Items.firstOf?_eq hnodes
  constructor
  case head =>
    intro i hi
    have hsame := hfirst.symm.trans hi
    cases hsame
    exact ⟨g, hg, hcolumn⟩
  case entry => exact fun _ _ _ _ a ha => (by cases ha)
  case rules =>
    intro a ha
    rcases List.mem_append.mp ha with ha | ha
    · obtain ⟨entry, hentry, ha⟩ := List.mem_flatMap.mp ha
      rw [hfirst] at ha
      exact (hrows entry hentry).entry first g hg hcolumn a ha
    · obtain ⟨entry, hentry, ha⟩ := Node.mem_rulesOf_iff.mp ha
      exact (hrows entry hentry).rules a ha
  case indicators =>
    intro i hi
    obtain ⟨entry, hentry, hi⟩ := Node.mem_indicatorsOf_iff.mp hi
    exact (hrows entry hentry).indicators i hi
  case blocks => exact Node.blockScalarsOf_eq_nil fun entry hentry => (hrows entry hentry).blocks

section Rows

variable (hfits : List.Forall₂ Glyph.Fits all tokens.toList)

include hfits

theorem laidOut_pair {key : Word} {value : Outline} {inner : Node} (span keySpan : Span)
    (h : HoldsAt all first ((Pairs.one key value).glyphs unit p column))
    (hinner : value.Numbers (first + 2) inner)
    (hlaid : LaidOut all tokens unit (column + unit) inner) :
    LaidOut all tokens unit column
      (.pair span none (.scalar keySpan .plain first) (some (first + 1)) inner) := by
  constructor
  case head =>
    intro i hi
    cases hi
    exact ⟨_, h.getElem?_eq, rfl⟩
  case entry => exact fun _ _ _ _ a ha => (by cases ha)
  case rules =>
    intro a ha
    simp only [Node.rules, List.append_nil, List.mem_append] at ha
    rcases ha with ha | ha
    · exact suits_pairRules hfits h hinner ha
    · exact hlaid.rules a ha
  case indicators =>
    intro i hi
    rcases List.mem_cons.mp hi with rfl | hi
    · exact ⟨_, _, _, h.tail.getElem?_eq⟩
    · exact hlaid.indicators i hi
  case blocks => exact hlaid.blocks

theorem laidOut_entry (hunit : 0 < unit) {item : Outline} {value : Node}
    (h : HoldsAt all first ((Items.one item).glyphs unit p column))
    (hvalue : item.Numbers (first + 1) value)
    (hlaid : LaidOut all tokens unit (column + unit) value) :
    LaidOut all tokens unit column (.entry first value) := by
  constructor
  case head =>
    intro i hi
    cases hi
    exact ⟨_, h.getElem?_eq, rfl⟩
  case entry =>
    exact fun dash g hdash hcolumn a ha => suits_entryRules hfits hunit h hvalue hdash hcolumn ha
  case rules =>
    intro a ha
    rw [Node.rules] at ha
    exact hlaid.rules a ha
  case indicators =>
    intro i hi
    rcases List.mem_cons.mp hi with rfl | hi
    · exact ⟨_, _, _, h.getElem?_eq⟩
    · exact hlaid.indicators i hi
  case blocks => exact hlaid.blocks

theorem laidOut (hunit : 0 < unit) {tree : Outline} {node : Node}
    (hnumbers : tree.Numbers first node) (h : HoldsAt all first (tree.glyphs unit p column)) :
    LaidOut all tokens unit column node := by
  refine nodes_induction (C := LaidOut all tokens unit) ?word laidOut_mapping laidOut_sequence
    (laidOut_pair hfits) (laidOut_entry hfits hunit) tree hnumbers h
  intro w first p column span h
  constructor
  case head =>
    intro i hi
    cases hi
    exact ⟨_, h.getElem?_eq, rfl⟩
  case entry => exact fun _ _ _ _ a ha => (by cases ha)
  case rules => exact fun a ha => (by cases ha)
  case indicators => exact fun i hi => (by cases hi)
  case blocks => rfl

end Rows

/-! ## The layout of a stream -/

section Fills

variable {stream : Stream} {d : Document} {s : ParseState} {g : Glyph} {tree : Outline} {i : Nat}

theorem Fills.laidOut (h : tree.Fills unit stream d) (hunit : 0 < unit) :
    LaidOut (tree.glyphs unit ⟨1, 0⟩ 0) stream.tokens unit 0 d.content :=
  Outline.laidOut h.fits hunit h.numbers (List.prefix_rfl)

theorem Fills.rules_eq (h : tree.Fills unit stream d) (ctx : LayoutContext) :
    stream.documents.flatMap (·.rules ctx) = ⟨0, ⟨none, 0, none⟩⟩ :: d.content.rules ctx false := by
  have hfirst := first?_eq h.numbers
  simp [h.documents_eq, Document.rules, Document.first?, h.directives_eq, h.startMarker_eq,
    h.endMarker_eq, hfirst, Assignment.setOff]

/-- Every token belongs at the column of its glyph. -/
theorem Fills.column?_eq (h : tree.Fills unit stream d) (hread : stream.ReadTo s)
    (hunit : 0 < unit) (hsmall : unit < 2147483648)
    (hg : (tree.glyphs unit ⟨1, 0⟩ 0)[i]? = some g) :
    (Layout.ofStream stream { Style.default with unit }).column? stream.tokens i =
      some (g.column : Int) := by
  induction i using Nat.strongRecOn generalizing g with
  | ind i ih =>
    obtain ⟨t, ht, hfits⟩ := Glyph.exists_fits h.fits hg
    obtain ⟨a, ha, rfl, hrule⟩ := hread.exists_assignment { Style.default with unit }
      ((hread.mem_ids_iff ht).mpr hfits.isComment_eq)
    rw [LayoutContext.ofStyle_eq_canonical _ hsmall, h.rules_eq] at ha
    rw [Layout.column?, hrule]
    rcases List.mem_cons.mp ha with rfl | ha
    · obtain ⟨head, more, hglyphs, -, hcolumn⟩ := tree.exists_head unit ⟨1, 0⟩ 0
      rw [hglyphs, List.getElem?_cons_zero, Option.some.injEq] at hg
      rw [← hg, hcolumn]
      rfl
    · obtain ⟨base, b, c, hbase, hlt, hb, hc, hcolumn⟩ := (h.laidOut hunit).rules a ha
      rw [hg, Option.some.injEq] at hc
      subst hc
      dsimp only
      rw [hbase]
      dsimp only
      rw [if_pos hlt, ih base hlt hb, hcolumn]
      rfl

theorem Fills.blocks_eq (h : tree.Fills unit stream d) (hunit : 0 < unit) (style : Style) :
    (Layout.ofStream stream style).blocks = [] := by
  simp [Layout.ofStream, h.documents_eq, (h.laidOut hunit).blocks]

/-- The indicators are dashes and colons. -/
theorem Fills.exists_mark (h : tree.Fills unit stream d) (hunit : 0 < unit) {style : Style}
    (hi : (Layout.ofStream stream style).isIndicator i = true) :
    ∃ c p column, (tree.glyphs unit ⟨1, 0⟩ 0)[i]? = some (.mark c p column) := by
  have hmem := Layout.mem_of_isIndicator hi
  rw [h.documents_eq, List.flatMap_singleton] at hmem
  exact (h.laidOut hunit).indicators i hmem

end Fills

end Outline

end YamlLayout
