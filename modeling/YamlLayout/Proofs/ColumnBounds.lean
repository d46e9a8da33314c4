import YamlLayout.Proofs.ResolvedColumns

/-!
# How large columns get

A rule goes on from its base by a width of the style or by the gap that two tokens were
written with. Either is at most the width times the bytes from the base to the token, and
the bases of a token stand in front of each other, so the column of a token is bounded by
the bytes in front of it.
-/
namespace YamlLayout

/-- The rule goes nowhere, or on from its base by `limit` at most or by the gap between its
tokens. -/
def Assignment.Reaches (ctx : LayoutContext) (limit : Int) (a : Assignment) : Prop :=
  ∀ first, a.rule.step first ≤ 0 ∨ ∃ b, a.rule.base = some b ∧
    (a.rule.step first ≤ limit ∨ ctx.gap? b a.token = some (a.rule.step first))

/-- The widths of the style are at most `limit`. -/
structure LayoutContext.Within (ctx : LayoutContext) (limit : Int) : Prop where
  nonneg : 0 ≤ limit
  unit_le : ctx.unit ≤ limit
  valueIndent_le : ctx.valueIndent ≤ limit

open Assignment

variable {ctx : LayoutContext} {limit : Int} {a : Assignment}

theorem Assignment.reaches_of_mem_setOff {token base : Option TokenId} {offset : Int}
    {inlineOffset : Option Int} (h : a ∈ setOff token base offset inlineOffset)
    (hoffset : offset ≤ limit) (hinline : ∀ x, inlineOffset = some x → x ≤ limit) :
    a.Reaches ctx limit := by
  obtain ⟨t, b, -, -, -, rfl⟩ := mem_setOff_iff.mp h
  intro first
  refine .inr ⟨b, rfl, .inl ?_⟩
  unfold ColumnRule.step
  split
  · exact hoffset
  · cases inlineOffset with
    | none => exact hoffset
    | some x => exact hinline x rfl

namespace Node

theorem reaches_entryRules (hctx : ctx.Within limit) {first : Option TokenId} {item : Node}
    (h : a ∈ entryRules ctx first item) : a.Reaches ctx limit := by
  unfold entryRules at h
  split at h
  swap
  · cases h
  rename_i dash value
  rcases List.mem_append.mp h with h | h
  · exact reaches_of_mem_setOff h hctx.nonneg fun x hx => by cases hx
  · obtain ⟨t, b, ht, hb, -, rfl⟩ := mem_setOff_iff.mp h
    obtain rfl : dash = b := Option.some.inj hb
    intro first
    have hstep : ColumnRule.step ⟨some dash, ctx.entryOffset dash value.first?, none⟩ first =
        ctx.entryOffset dash (some t) := by
      simp [ColumnRule.step, ht]
    refine .inr ⟨dash, rfl, ?_⟩
    dsimp only
    rw [hstep, LayoutContext.entryOffset]
    -- A dash within a line keeps its gap, if the value is on that line.
    split
    · exact .inl hctx.valueIndent_le
    · cases hgap : ctx.gap? dash t with
      | none => exact .inl hctx.valueIndent_le
      | some gap => exact .inr rfl

theorem reaches_ownRules (hctx : ctx.Within limit) (flow : Bool) {node : Node}
    (h : a ∈ node.ownRules ctx flow) : a.Reaches ctx limit := by
  have hnone : ∀ x, (none : Option Int) = some x → x ≤ limit := fun x hx => by cases hx
  have hzero : ∀ x, some (0 : Int) = some x → x ≤ limit := by
    intro x hx
    rw [← Option.some.inj hx]
    exact hctx.nonneg
  have hflow : ∀ {brackets items}, a ∈ flowRules ctx brackets items → a.Reaches ctx limit := by
    intro brackets items h
    simp only [flowRules, List.mem_append, List.mem_flatMap] at h
    rcases h with (⟨item, -, h⟩ | ⟨comma, -, h⟩) | h
    · exact reaches_of_mem_setOff h hctx.unit_le hnone
    · exact reaches_of_mem_setOff h hctx.unit_le hnone
    · exact reaches_of_mem_setOff h hctx.nonneg hnone
  cases node with
  | block => exact reaches_of_mem_setOff h hctx.unit_le hzero
  | decorated =>
    rcases List.mem_append.mp h with h | h
    · exact reaches_of_mem_setOff h hctx.nonneg hnone
    · exact reaches_of_mem_setOff h hctx.unit_le hzero
  | pair _ question key colon value =>
    rcases List.mem_append.mp h with h | h
    · split at h
      · rcases List.mem_append.mp h with h | h
        · exact reaches_of_mem_setOff h hctx.unit_le hnone
        · exact reaches_of_mem_setOff h hctx.nonneg hnone
      · exact reaches_of_mem_setOff h hctx.unit_le hnone
    · split at h
      · exact reaches_of_mem_setOff h hctx.nonneg hnone
      · exact reaches_of_mem_setOff h hctx.unit_le hzero
  | mapping _ brackets pairs =>
    cases brackets with
    | some => exact hflow h
    | none =>
      obtain ⟨pair, -, h⟩ := List.mem_flatMap.mp h
      exact reaches_of_mem_setOff h hctx.nonneg hnone
  | sequence _ brackets items =>
    cases brackets with
    | some => exact hflow h
    | none =>
      obtain ⟨item, -, h⟩ := List.mem_flatMap.mp h
      exact reaches_entryRules hctx h
  | _ => cases h

theorem reaches_rules (hctx : ctx.Within limit) (flow : Bool) (node : Node)
    (h : a ∈ node.rules ctx flow) : a.Reaches ctx limit := by
  induction node using parts_induction generalizing flow with
  | step node ih =>
    rcases (mem_rules_iff ctx flow).mp h with hown | ⟨part, hpart, ha⟩
    · exact reaches_ownRules hctx flow hown
    · exact ih part hpart _ ha

end Node

theorem Document.reaches_rules (hctx : ctx.Within limit) {d : Document} (h : a ∈ d.rules ctx) :
    a.Reaches ctx limit := by
  have hlevel : ∀ {token first}, a ∈ setOff token (some first) 0 none → a.Reaches ctx limit :=
    fun h => reaches_of_mem_setOff h hctx.nonneg fun x hx => by cases hx
  unfold rules at h
  split at h
  · cases h
  simp only [List.cons_append, List.mem_cons, List.mem_append, List.mem_flatMap] at h
  rcases h with rfl | ((((⟨t, -, h⟩ | h) | h) | h) | h)
  · intro first
    cases first <;> exact .inl (Int.le_refl 0)
  · exact hlevel h
  · exact hlevel h
  · exact hlevel h
  · exact hlevel h
  · exact d.content.reaches_rules hctx false h

namespace Stream

variable {stream : Stream} {s : ParseState} {i j : TokenId} {x y : Token}

theorem Apart.start_eq {text before value mid next after : List Char}
    (h : Apart text x y before value mid next after) :
    y.range.start = x.range.start + Text.byteLength (value ++ mid) := by
  rw [h.left.range_eq, h.right.range_eq, Text.byteLength_append]

/-- A gap is no longer than the bytes it is made of. -/
theorem ReadTo.gap_le {style : Style} {gap : Int} (h : stream.ReadTo s)
    (hplace : stream.InPlace stream.text) (hlt : i < j) (hx : stream.tokens[i]? = some x)
    (hy : stream.tokens[j]? = some y)
    (hgap : (LayoutContext.ofStyle stream.tokens style).gap? i j = some gap) :
    gap ≤ y.range.start - x.range.start := by
  obtain ⟨before, value, mid, next, after, hapart⟩ := h.exists_apart hx hy hlt
  simp only [LayoutContext.gap?, LayoutContext.ofStyle, hx, hy, Option.bind_eq_bind,
    Option.bind_some] at hgap
  split at hgap
  · rename_i hline
    have hcolumn := hapart.column_eq (hplace.tokens x (Array.mem_of_getElem? hx))
      (hplace.tokens y (Array.mem_of_getElem? hy)) hline
    have hstart := hapart.start_eq
    have hbytes := Text.length_le_byteLength (value ++ mid)
    rw [← Option.some.inj hgap]
    omega
  · cases hgap

theorem ReadTo.start_lt (h : stream.ReadTo s) (hlt : i < j) (hx : stream.tokens[i]? = some x)
    (hy : stream.tokens[j]? = some y) : x.range.start < y.range.start := by
  obtain ⟨before, value, mid, next, after, hapart⟩ := h.exists_apart hx hy hlt
  have hpos := List.length_pos_iff.mpr
    (List.append_ne_nil_of_left_ne_nil hapart.left.ne_nil mid)
  have hbytes := Text.length_le_byteLength (value ++ mid)
  rw [hapart.start_eq]
  omega

/-- A step is at most `limit` for each byte from the base to the token. -/
theorem ReadTo.step_le {style : Style} {rule : ColumnRule} (h : stream.ReadTo s)
    (hplace : stream.InPlace stream.text) (hlimit : 1 ≤ limit)
    (hctx : (LayoutContext.ofStyle stream.tokens style).Within limit)
    (hrule : (Layout.ofStream stream style).rule? j = some rule) (hbase : rule.base = some i)
    (hlt : i < j) (hx : stream.tokens[i]? = some x) (hy : stream.tokens[j]? = some y)
    (first : Bool) :
    rule.step first ≤ limit * (y.range.start - x.range.start) := by
  obtain ⟨d, -, a, ha, rfl, rfl⟩ := Layout.exists_of_rule? hrule
  have hstart := h.start_lt hlt hx hy
  have hwidth : limit * 1 ≤ limit * ((y.range.start : Int) - x.range.start) :=
    Int.mul_le_mul_of_nonneg_left (by omega) hctx.nonneg
  have hbytes : 1 * ((y.range.start : Int) - x.range.start) ≤
      limit * ((y.range.start : Int) - x.range.start) :=
    Int.mul_le_mul_of_nonneg_right hlimit (by omega)
  rcases d.reaches_rules hctx ha first with hzero | ⟨b, hb, hle | hgap⟩
  · omega
  · omega
  · obtain rfl : i = b := Option.some.inj (hbase.symm.trans hb)
    have hle := h.gap_le hplace hlt hx hy hgap
    omega

/-- The column of a token is at most `limit` for each byte in front of it. -/
theorem ReadTo.column?_le {style : Style} {column : Int} (h : stream.ReadTo s)
    (hplace : stream.InPlace stream.text) (hlimit : 1 ≤ limit)
    (hctx : (LayoutContext.ofStyle stream.tokens style).Within limit)
    (hcolumn : (Layout.ofStream stream style).column? stream.tokens j = some column)
    (hy : stream.tokens[j]? = some y) : column ≤ limit * y.range.start := by
  induction j using Nat.strongRecOn generalizing column y with
  | ind j ih =>
    rw [Layout.column?] at hcolumn
    cases hrule : (Layout.ofStream stream style).rule? j with
    | none => simp [hrule] at hcolumn
    | some rule =>
      simp only [hrule] at hcolumn
      cases hbase : rule.base with
      | none =>
        simp only [hbase, Option.some.injEq] at hcolumn
        obtain ⟨d, -, a, ha, -, rfl⟩ := Layout.exists_of_rule? hrule
        have hstart : 0 ≤ limit * (y.range.start : Int) :=
          Int.mul_nonneg hctx.nonneg (Int.natCast_nonneg _)
        rcases d.reaches_rules hctx ha true with hzero | ⟨b, hb, -⟩
        · rw [← hcolumn]
          exact Int.le_trans hzero hstart
        · rw [hbase] at hb
          cases hb
      | some base =>
        simp only [hbase] at hcolumn
        split at hcolumn
        · rename_i hlt
          obtain ⟨c, hc, rfl⟩ := Option.map_eq_some_iff.mp hcolumn
          obtain ⟨x, hx, -⟩ := (h.column?_isSome_iff style hplace base).mp (by rw [hc]; rfl)
          have hfrom := ih base hlt hc hx
          have hstep := h.step_le hplace hlimit hctx hrule hbase hlt hx hy
            (isFirstOnLine stream.tokens base)
          rw [Int.mul_sub] at hstep
          omega
        · cases hcolumn

theorem ReadTo.start_le (h : stream.ReadTo s) (hy : stream.tokens[j]? = some y) :
    y.range.start ≤ Text.byteLength stream.text := by
  obtain ⟨before, value, after, hstands⟩ := h.exists_stands hy
  rw [hstands.range_eq, hstands.text_eq, Text.byteLength_append]
  exact Nat.le_add_right ..

end Stream

/-- A base comes before its token. -/
theorem Layout.base_lt {stream : Stream} {style : Style} {t base : TokenId} {rule : ColumnRule}
    (hrule : (Layout.ofStream stream style).rule? t = some rule) (hbase : rule.base = some base) :
    base < t := by
  obtain ⟨d, -, a, ha, rfl, rfl⟩ := Layout.exists_of_rule? hrule
  rcases Document.grounded_rules ha with hnone | ⟨b, hb, hlt, -⟩
  · rw [hbase] at hnone
    cases hnone
  · rw [hbase, Option.some.injEq] at hb
    exact hb ▸ hlt

theorem LayoutContext.within_of_style {style : Style} {width : Nat} (tokens : Array Token)
    (hwidth : 2 ≤ width) (hunit : style.unit ≤ width) (hvalue : style.valueIndent ≤ width) :
    (LayoutContext.ofStyle tokens style).Within width := by
  have hcolumns : ∀ n ≤ width, Style.columns n ≤ width := by
    intro n hn
    unfold Style.columns
    split <;> omega
  exact ⟨Int.natCast_nonneg _, hcolumns _ hunit, hcolumns _ hvalue⟩

/-- The number fits a signed word of 32 bits. -/
def FitsWord (x : Int) : Prop := -2 ^ 31 ≤ x ∧ x < 2 ^ 31

/-- With widths of at most 16 a column is at most 17 for each byte of the text. So for a
text of less than 2 ^ 31 / 17 bytes, the sum of the column of a base and the step from it
fits a word of 32 bits, and so do both numbers. -/
theorem columns_fit_word {text : List Char} {stream : Stream} (hparse : parse text = .ok stream)
    (style : Style) (hunit : style.unit ≤ 16) (hvalue : style.valueIndent ≤ 16)
    (asked : List TokenId) :
    let column := fun t => (ColumnCache.resolve (Layout.ofStream stream style) stream.tokens t
      (ColumnCache.after (Layout.ofStream stream style) stream.tokens asked)).1
    (∀ t x, column t = some x → x ≤ 17 * Text.byteLength text) ∧
    (17 * Text.byteLength text < 2 ^ 31 → ∀ t rule base x,
      (Layout.ofStream stream style).rule? t = some rule → rule.base = some base →
      column base = some x → ∀ first,
        FitsWord x ∧ FitsWord (rule.step first) ∧ FitsWord (x + rule.step first)) := by
  have hplace := Stream.inPlace_of_parse hparse
  obtain ⟨rfl, s, h⟩ := Stream.exists_readTo hparse
  have hctx := LayoutContext.within_of_style stream.tokens (by decide) hunit hvalue
  simp only [ColumnCache.resolve_after]
  have hbound : ∀ t x, (Layout.ofStream stream style).column? stream.tokens t = some x →
      ∃ a, stream.tokens[t]? = some a ∧ 0 ≤ x ∧ x ≤ 16 * a.range.start ∧
        a.range.start ≤ Text.byteLength stream.text := by
    intro t x hx
    obtain ⟨a, ha, -⟩ := (h.column?_isSome_iff style hplace t).mp (by rw [hx]; rfl)
    exact ⟨a, ha, h.column?_nonneg hplace hx, h.column?_le hplace (by decide) hctx hx ha,
      h.start_le ha⟩
  refine ⟨fun t x hx => ?_, fun hlength t rule base x hrule hbase hx first => ?_⟩
  · obtain ⟨a, -, -, hle, hstart⟩ := hbound t x hx
    omega
  · have hlt := Layout.base_lt hrule hbase
    obtain ⟨a, ha, hnonneg, hle, -⟩ := hbound base x hx
    obtain ⟨d, hd, ht, hcases⟩ := h.rule_cases hplace hrule
    have hmem := h.lt_size_of_mem_ids (Stream.mem_ids_iff.mpr ⟨d, hd, ht⟩)
    have hb := Array.getElem?_eq_getElem hmem
    have hstep := h.step_le hplace (by decide) hctx hrule hbase hlt ha hb first
    have hstart := h.start_le hb
    have hforward : 0 ≤ rule.step first := by
      rcases hcases with ⟨-, rfl⟩ | ⟨-, hsteps⟩
      · cases hbase
      · exact hsteps first
    unfold FitsWord
    omega

/-- Widths of 16 and 7, and a dash that keeps its gap. -/
theorem columns_fit_word_gap :
    ∃ stream, parse "- a:\n  - -     b: c\n".toList = .ok stream ∧
      let layout := Layout.ofStream stream ⟨16, true, some 7, false⟩
      let column := fun t => (ColumnCache.resolve layout stream.tokens t
        (ColumnCache.after layout stream.tokens [])).1
      (List.range stream.tokens.size).map column =
        [some 0, some 7, some 23, some 23, some 30, some 36, some 52, some 52] ∧
      (∀ t x, column t = some x → x ≤ 17 * Text.byteLength "- a:\n  - -     b: c\n".toList) ∧
      ∀ t rule base x, layout.rule? t = some rule → rule.base = some base →
        column base = some x → ∀ first,
          FitsWord x ∧ FitsWord (rule.step first) ∧ FitsWord (x + rule.step first) := by
  have h : (parse "- a:\n  - -     b: c\n".toList).toOption.map
      (fun stream => (List.range stream.tokens.size).map fun t =>
        (ColumnCache.resolve (Layout.ofStream stream ⟨16, true, some 7, false⟩) stream.tokens t
          (ColumnCache.after (Layout.ofStream stream ⟨16, true, some 7, false⟩)
            stream.tokens [])).1) =
      some [some 0, some 7, some 23, some 23, some 30, some 36, some 52, some 52] := by
    decide +kernel
  cases hparse : parse "- a:\n  - -     b: c\n".toList with
  | error e =>
    rw [hparse] at h
    cases h
  | ok stream =>
    rw [hparse] at h
    have hfit := columns_fit_word hparse ⟨16, true, some 7, false⟩ (by decide) (by decide) []
    exact ⟨stream, rfl, Option.some.inj h, hfit.1, hfit.2 (by decide)⟩

end YamlLayout
