import YamlLayout.Proofs.ArenaSpans
import YamlLayout.Proofs.ColumnCache
import YamlLayout.Proofs.ColumnRules
import YamlLayout.Proofs.InPlace

/-!
# Which tokens have a column, and where columns start

Exactly the tokens that are no comments have a column. A rule never counts backwards,
and only the first token of a document has a rule that counts from nothing, so every
document starts at column zero and no column is negative. All of this holds whatever
columns have been looked up before.
-/
namespace YamlLayout

section Tails

variable {α : Type} {x : α} {front back : List α}

theorem mem_tail_append_left (h : x ∈ front.tail) : x ∈ (front ++ back).tail := by
  cases front with
  | nil => cases h
  | cons a as => exact List.mem_append_left _ h

/-- What follows something is not the first. -/
theorem mem_tail_append_right (hne : front ≠ []) (h : x ∈ back) : x ∈ (front ++ back).tail := by
  cases front with
  | nil => exact absurd rfl hne
  | cons a as => exact List.mem_append_right _ h

theorem mem_tail_append (h : x ∈ back.tail) : x ∈ (front ++ back).tail := by
  cases front with
  | nil => exact h
  | cons a as => exact List.mem_append_right _ (List.mem_of_mem_tail h)

theorem mem_tail_of_head?_ne (h : x ∈ front) (hne : front.head? ≠ some x) : x ∈ front.tail := by
  cases front with
  | nil => cases h
  | cons a as =>
    rcases List.mem_cons.mp h with rfl | h
    · exact absurd rfl hne
    · exact h

end Tails

/-- Widths are not negative, and no token stands to the left of an earlier one on its
line. -/
structure LayoutContext.Forward (ctx : LayoutContext) : Prop where
  unit_nonneg : 0 ≤ ctx.unit
  valueIndent_nonneg : 0 ≤ ctx.valueIndent
  gap_nonneg : ∀ {a b : TokenId} {gap : Int}, a < b → ctx.gap? a b = some gap → 0 ≤ gap

theorem LayoutContext.Forward.entryOffset_nonneg {ctx : LayoutContext} {dash value : TokenId}
    (h : ctx.Forward) (hlt : dash < value) : 0 ≤ ctx.entryOffset dash (some value) := by
  unfold LayoutContext.entryOffset
  dsimp only
  split
  · exact h.valueIndent_nonneg
  · cases hgap : ctx.gap? dash value with
    | none => exact h.valueIndent_nonneg
    | some gap => exact h.gap_nonneg hlt hgap

namespace Assignment

variable {a : Assignment} {ids : List TokenId} {token base : Option TokenId} {offset : Int}
  {inlineOffset : Option Int}

/-- The rule is for a token among `ids` other than the first of them, and counts
forward. -/
structure Follows (ids : List TokenId) (a : Assignment) : Prop where
  mem_tail : a.token ∈ ids.tail
  step_nonneg : ∀ first, 0 ≤ a.rule.step first

theorem Follows.mono {more : List TokenId} (h : a.Follows ids)
    (hmore : a.token ∈ ids.tail → a.token ∈ more.tail) : a.Follows more :=
  ⟨hmore h.mem_tail, h.step_nonneg⟩

theorem follows_of_mem_setOff (h : a ∈ setOff token base offset inlineOffset)
    (hoffset : 0 ≤ offset) (hinline : ∀ x, inlineOffset = some x → 0 ≤ x)
    (htoken : ∀ t b, token = some t → base = some b → b < t → t ∈ ids.tail) : a.Follows ids := by
  obtain ⟨t, b, rfl, rfl, hlt, rfl⟩ := mem_setOff_iff.mp h
  refine ⟨htoken t b rfl rfl hlt, fun first => ?_⟩
  unfold ColumnRule.step
  split
  · exact hoffset
  · cases inlineOffset with
    | none => exact hoffset
    | some x => exact hinline x rfl

/-- A token that is set off from the first one is another one. -/
theorem follows_of_mem_setOff_head (h : a ∈ setOff token ids.head? 0 none)
    (htoken : ∀ t, token = some t → t ∈ ids) : a.Follows ids := by
  refine follows_of_mem_setOff h (Int.le_refl 0) (fun _ hx => by cases hx) ?_
  intro t b ht hb hlt
  apply mem_tail_of_head?_ne (htoken t ht)
  rw [hb, ne_eq, Option.some.injEq]
  exact Nat.ne_of_lt hlt

end Assignment

open Assignment

namespace Node

variable {ctx : LayoutContext} {a : Assignment}

theorem ids_ne_nil_of_first? {node : Node} {i : TokenId} (h : node.first? = some i) :
    node.ids ≠ [] := List.ne_nil_of_mem (mem_ids_of_first? h)

theorem follows_pairRules (hctx : ctx.Forward) {flow : Bool} {span : Span}
    {question colon : Option TokenId} {key value : Node}
    (h : a ∈ pairRules ctx flow question key colon value) :
    a.Follows (pair span question key colon value).ids := by
  rw [ids_pair]
  have hkey : ∀ t, key.first? = some t → question.isSome = true →
      t ∈ (question.toList ++ (key.ids ++ (colon.toList ++ value.ids))).tail := by
    intro t ht hquestion
    apply mem_tail_append_right
    · obtain ⟨q, rfl⟩ := Option.isSome_iff_exists.mp hquestion
      simp
    · exact List.mem_append_left _ (mem_ids_of_first? ht)
  have hcolon : ∀ t, colon = some t → question.toList ++ key.ids ≠ [] →
      t ∈ (question.toList ++ (key.ids ++ (colon.toList ++ value.ids))).tail := by
    rintro t rfl hne
    rw [← List.append_assoc]
    apply mem_tail_append_right hne
    simp
  have hvalue : ∀ t, value.first? = some t → question.toList ++ (key.ids ++ colon.toList) ≠ [] →
      t ∈ (question.toList ++ (key.ids ++ (colon.toList ++ value.ids))).tail := by
    intro t ht hne
    have hsplit : question.toList ++ (key.ids ++ (colon.toList ++ value.ids)) =
        (question.toList ++ (key.ids ++ colon.toList)) ++ value.ids := by simp
    rw [hsplit]
    exact mem_tail_append_right hne (mem_ids_of_first? ht)
  have hzero : ∀ x, some (0 : Int) = some x → 0 ≤ x := by
    intro x hx
    rw [← Option.some.inj hx]
  unfold pairRules at h
  rcases List.mem_append.mp h with h | h
  · split at h
    · rename_i hsome
      have hne : question.toList ++ key.ids ≠ [] := by
        obtain ⟨q, rfl⟩ := Option.isSome_iff_exists.mp hsome
        simp
      rcases List.mem_append.mp h with h | h
      · exact follows_of_mem_setOff h hctx.unit_nonneg (fun _ hx => by cases hx)
          fun t b ht _ _ => hkey t ht hsome
      · exact follows_of_mem_setOff h (Int.le_refl 0) (fun _ hx => by cases hx)
          fun t b ht _ _ => hcolon t ht hne
    · refine follows_of_mem_setOff h hctx.unit_nonneg (fun _ hx => by cases hx)
        fun t b ht hb _ => hcolon t ht ?_
      exact List.append_ne_nil_of_right_ne_nil _ (ids_ne_nil_of_first? hb)
  · split at h
    · refine follows_of_mem_setOff h (Int.le_refl 0) (fun _ hx => by cases hx)
        fun t b ht hb _ => hvalue t ht ?_
      rcases Option.or_eq_some_iff.mp hb with rfl | ⟨-, hb⟩
      · simp
      rcases Option.or_eq_some_iff.mp hb with hb | ⟨-, rfl⟩
      · apply List.append_ne_nil_of_right_ne_nil
        exact List.append_ne_nil_of_left_ne_nil (ids_ne_nil_of_first? hb) _
      · simp
    · refine follows_of_mem_setOff h hctx.unit_nonneg hzero fun t b ht hb _ => hvalue t ht ?_
      rw [hb]
      simp

theorem follows_flowRules (hctx : ctx.Forward) {brackets : Brackets} {items : List Node}
    (h : a ∈ flowRules ctx brackets items) : a.Follows (bracketedIds brackets items) := by
  have hnone : ∀ x, (none : Option Int) = some x → 0 ≤ x := fun _ hx => by cases hx
  unfold flowRules at h
  rcases List.mem_append.mp h with h | h
  · rcases List.mem_append.mp h with h | h
    · obtain ⟨item, hitem, h⟩ := List.mem_flatMap.mp h
      refine follows_of_mem_setOff h hctx.unit_nonneg hnone fun t b ht _ _ => ?_
      exact List.mem_append_left _ ((ids_sublist_idsOf hitem).mem (mem_ids_of_first? ht))
    · obtain ⟨comma, hcomma, h⟩ := List.mem_flatMap.mp h
      refine follows_of_mem_setOff h hctx.unit_nonneg hnone fun t b ht _ _ => ?_
      rw [← Option.some.inj ht]
      exact List.mem_append_left _ (commas_subset_idsOf _ _ hcomma)
  · refine follows_of_mem_setOff h (Int.le_refl 0) hnone fun t b ht _ _ => ?_
    rw [← Option.some.inj ht]
    exact List.mem_append_right _ (List.mem_singleton_self _)

/-- A node among others keeps its place among their tokens. -/
theorem mem_tail_idsOf {nodes : List Node} {node : Node} {i : TokenId} (hnode : node ∈ nodes)
    (h : i ∈ node.ids.tail) : i ∈ (idsOf [] nodes).tail := by
  induction nodes with
  | nil => cases hnode
  | cons other nodes ih =>
    rw [idsOf_cons]
    rcases List.mem_cons.mp hnode with rfl | hnode
    · exact mem_tail_append_left h
    · apply mem_tail_append
      simpa using ih hnode

theorem follows_entryRules (hctx : ctx.Forward) {items : List Node}
    (h : a ∈ items.flatMap (entryRules ctx (firstOf? items))) : a.Follows (idsOf [] items) := by
  obtain ⟨item, hitem, h⟩ := List.mem_flatMap.mp h
  unfold entryRules at h
  split at h
  · rename_i dash value
    rcases List.mem_append.mp h with h | h
    · rw [firstOf?_eq] at h
      refine follows_of_mem_setOff_head h fun t ht => ?_
      rw [← Option.some.inj ht]
      exact (ids_sublist_idsOf hitem).mem (by simp)
    · obtain ⟨t, b, ht, hb, hlt, rfl⟩ := mem_setOff_iff.mp h
      rw [Option.some.injEq] at hb
      refine ⟨mem_tail_idsOf hitem ?_, fun first => ?_⟩
      · rw [ids_entry]
        exact mem_ids_of_first? ht
      · unfold ColumnRule.step
        rw [ht, hb, Option.getD_none, ite_self]
        exact hctx.entryOffset_nonneg hlt
  · cases h

mutual

/-- The rules of a node are for its tokens but the first. -/
theorem follows_rules (hctx : ctx.Forward) (flow : Bool) : (node : Node) →
    a ∈ node.rules ctx flow → a.Follows node.ids
  | empty, h => by cases h
  | scalar .., h => by cases h
  | reference .., h => by cases h
  | block _ content, h => by
    refine follows_of_mem_setOff h hctx.unit_nonneg ?_ fun t b ht _ _ => ?_
    · intro x hx
      rw [← Option.some.inj hx]
    · simp [ids, pieces, Piece.ids, ht]
  | decorated _ anchor tag inner, h => by
    rw [ids_decorated]
    rcases List.mem_append.mp h with h | h
    · rcases List.mem_append.mp h with h | h
      · refine follows_of_mem_setOff h (Int.le_refl 0) (fun _ hx => by cases hx)
          fun t b ht hb _ => ?_
        rw [ht, hb]
        simp
      · refine follows_of_mem_setOff h hctx.unit_nonneg ?_ fun t b ht hb _ => ?_
        · intro x hx
          rw [← Option.some.inj hx]
        · rw [hb]
          apply mem_tail_append_right (by simp)
          exact List.mem_append_right _ (mem_ids_of_first? ht)
    · refine (follows_rules hctx flow inner h).mono fun hi => ?_
      exact mem_tail_append (mem_tail_append hi)
  | pair span question key colon value, h => by
    rcases List.mem_append.mp h with h | h
    · rcases List.mem_append.mp h with h | h
      · exact follows_pairRules hctx h
      · refine (follows_rules hctx flow key h).mono fun hi => ?_
        rw [ids_pair]
        exact mem_tail_append (mem_tail_append_left hi)
    · refine (follows_rules hctx flow value h).mono fun hi => ?_
      rw [ids_pair]
      exact mem_tail_append (mem_tail_append (mem_tail_append hi))
  | entry dash value, h => by
    refine (follows_rules hctx flow value h).mono fun hi => ?_
    rw [ids_entry]
    exact List.mem_of_mem_tail hi
  | mapping _ none pairs, h => by
    rw [ids_mapping_none]
    rcases List.mem_append.mp h with h | h
    · obtain ⟨pair, hpair, h⟩ := List.mem_flatMap.mp h
      rw [firstOf?_eq] at h
      exact follows_of_mem_setOff_head h fun t ht =>
        (ids_sublist_idsOf hpair).mem (mem_ids_of_first? ht)
    · exact follows_rulesOf hctx flow [] pairs h
  | mapping _ (some brackets) pairs, h => by
    rw [ids_mapping_some]
    rcases List.mem_append.mp h with h | h
    · exact follows_flowRules hctx h
    · refine (follows_rulesOf hctx true brackets.commas pairs h).mono fun hi => ?_
      exact List.mem_append_left _ (List.mem_of_mem_tail hi)
  | sequence _ none items, h => by
    rw [ids_sequence_none]
    rcases List.mem_append.mp h with h | h
    · exact follows_entryRules hctx h
    · exact follows_rulesOf hctx flow [] items h
  | sequence _ (some brackets) items, h => by
    rw [ids_sequence_some]
    rcases List.mem_append.mp h with h | h
    · exact follows_flowRules hctx h
    · refine (follows_rulesOf hctx true brackets.commas items h).mono fun hi => ?_
      exact List.mem_append_left _ (List.mem_of_mem_tail hi)

theorem follows_rulesOf (hctx : ctx.Forward) (flow : Bool) (commas : List TokenId) :
    (nodes : List Node) → a ∈ rulesOf ctx flow nodes → a.Follows (idsOf commas nodes)
  | [], h => by cases h
  | node :: nodes, h => by
    rw [idsOf_cons]
    rcases List.mem_append.mp h with h | h
    · exact (follows_rules hctx flow node h).mono mem_tail_append_left
    · refine (follows_rulesOf hctx flow (commas.drop 1) nodes h).mono fun hi => ?_
      exact mem_tail_append (mem_tail_append hi)

end

end Node

/-- The first token of a document is at column zero, and its other rules are for its
other tokens. -/
theorem Document.rule_cases {ctx : LayoutContext} {d : Document} {a : Assignment}
    (hctx : ctx.Forward) (h : a ∈ d.rules ctx) :
    (d.ids.head? = some a.token ∧ a.rule = ⟨none, 0, none⟩) ∨ a.Follows d.ids := by
  unfold rules at h
  split at h
  · cases h
  rename_i first hfirst
  rw [first?_eq_head?] at hfirst
  rw [← hfirst] at h
  have hlevel : ∀ {token : Option TokenId}, a ∈ setOff token d.ids.head? 0 none →
      (∀ t, token = some t → t ∈ d.ids) → a.Follows d.ids :=
    fun ha htoken => follows_of_mem_setOff_head ha htoken
  simp only [List.cons_append, List.mem_cons, List.mem_append, List.mem_flatMap] at h
  rcases h with rfl | ((((⟨t, ht, h⟩ | h) | h) | h) | h)
  · exact .inl ⟨hfirst, rfl⟩
  · refine .inr (hlevel h fun u hu => ?_)
    rw [← Option.some.inj hu, ids_eq]
    exact List.mem_append_left _ ht
  · refine .inr (hlevel h fun u hu => ?_)
    simp [ids_eq, hu]
  · refine .inr (hlevel h fun u hu => ?_)
    simp [ids_eq, hu]
  · refine .inr (hlevel h fun u hu => ?_)
    simp [ids_eq, Node.mem_ids_of_first? hu]
  · refine .inr ((Node.follows_rules hctx false d.content h).mono fun hi => ?_)
    rw [ids_eq]
    exact mem_tail_append (mem_tail_append (mem_tail_append_left hi))

namespace Layout

theorem mem_or_of_foldl_setIfInBounds {i : Nat} {rule : ColumnRule} (rules : List Assignment)
    (table : Array (Option ColumnRule))
    (h : (rules.foldl (fun table a => table.setIfInBounds a.token (some a.rule)) table)[i]? =
      some (some rule)) :
    (∃ a ∈ rules, a.token = i ∧ a.rule = rule) ∨ table[i]? = some (some rule) := by
  induction rules generalizing table with
  | nil => exact .inr h
  | cons a rules ih =>
    rcases ih _ h with ⟨b, hb, hrule⟩ | htable
    · exact .inl ⟨b, List.mem_cons_of_mem _ hb, hrule⟩
    by_cases heq : a.token = i
    · subst heq
      rw [Array.getElem?_setIfInBounds_self] at htable
      split at htable
      · exact .inl ⟨a, List.mem_cons_self .., rfl, by simpa using htable⟩
      · cases htable
    · rw [Array.getElem?_setIfInBounds_ne heq] at htable
      exact .inr htable

/-- The table of rules holds only rules that some document gives. -/
theorem exists_of_rule? {stream : Stream} {style : Style} {i : Nat} {rule : ColumnRule}
    (h : (ofStream stream style).rule? i = some rule) :
    ∃ d ∈ stream.documents, ∃ a ∈ d.rules (.ofStyle stream.tokens style),
      a.token = i ∧ a.rule = rule := by
  have htable : (ofStream stream style).rules[i]? = some (some rule) := by
    rw [rule?, Option.join_eq_some_iff] at h
    exact h
  rcases mem_or_of_foldl_setIfInBounds _ _ htable with ⟨a, ha, hrule⟩ | hnone
  · obtain ⟨d, hd, ha⟩ := List.mem_flatMap.mp ha
    exact ⟨d, hd, a, ha, hrule⟩
  · simp [Array.getElem?_replicate] at hnone

end Layout

/-- Two elements of a list are the same or stand in its order. -/
theorem eq_or_of_pairwise {α : Type} {R : α → α → Prop} {xs : List α} {x y : α}
    (h : xs.Pairwise R) (hx : x ∈ xs) (hy : y ∈ xs) : x = y ∨ R x y ∨ R y x := by
  induction h with
  | nil => cases hx
  | cons hfirst _ ih =>
    rcases List.mem_cons.mp hx with rfl | hxs
    · rcases List.mem_cons.mp hy with rfl | hys
      · exact .inl rfl
      · exact .inr (.inl (hfirst y hys))
    · rcases List.mem_cons.mp hy with rfl | hys
      · exact .inr (.inr (hfirst x hxs))
      · exact ih hxs hys

/-- The column of a token is the number of characters in front of it on its line. -/
theorem Token.InPlace.column_eq {t : Token} {text before value after : List Char}
    (h : t.InPlace text) (hstands : t.Stands text before value after) :
    t.first.column = (before.reverse.takeWhile (· != '\n')).length := by
  let c : Cursor := ⟨before.reverse, value ++ after⟩
  have htext : c.text = text := by
    rw [Cursor.text, List.reverse_reverse]
    exact hstands.text_eq.symm
  have hoffset : c.offset = t.range.start := by
    rw [hstands.range_eq, Cursor.offset, Text.byteLength_reverse]
  have hrest : c.rest ≠ [] := List.append_ne_nil_of_left_ne_nil hstands.ne_nil _
  rw [h.first_eq, ← hoffset, ← htext, ← c.position_eq]
  exact Cursor.column_of_rest_ne_nil hrest

namespace Stream

variable {stream : Stream} {s : ParseState} {i j : TokenId} {a b : Token}

theorem Apart.feed_not_mem {text before x mid y after : List Char}
    (h : Apart text a b before x mid y after) (hline : a.startLine = b.startLine) :
    '\n' ∉ x ++ mid := by
  intro hmem
  have hpos := List.count_pos_iff.mpr hmem
  rw [h.left.startLine_eq, h.right.startLine_eq, List.count_append] at hline
  omega

/-- On one line the columns of two tokens are as far apart as the tokens. -/
theorem Apart.column_eq {before x mid y after : List Char}
    (h : Apart stream.text a b before x mid y after) (ha : a.InPlace stream.text)
    (hb : b.InPlace stream.text) (hline : a.startLine = b.startLine) :
    b.first.column = a.first.column + (x ++ mid).length := by
  have hfeed := h.feed_not_mem hline
  have hgoes : ∀ c ∈ (x ++ mid).reverse, (c != '\n') = true := by
    intro c hc
    have hne : c ≠ '\n' := fun heq => hfeed (heq ▸ List.mem_reverse.mp hc)
    simpa using hne
  rw [ha.column_eq h.left, hb.column_eq h.right, List.reverse_append,
    List.takeWhile_append_of_pos hgoes, List.length_append, List.length_reverse, Nat.add_comm]

theorem ReadTo.forward (style : Style) (h : stream.ReadTo s) (hplace : stream.InPlace stream.text) :
    (LayoutContext.ofStyle stream.tokens style).Forward := by
  have hcolumns : ∀ width, 0 ≤ Style.columns width := by
    intro width
    unfold Style.columns
    split <;> omega
  refine ⟨hcolumns _, hcolumns _, fun {a b gap} hlt hgap => ?_⟩
  unfold LayoutContext.gap? at hgap
  simp only [LayoutContext.ofStyle, Option.bind_eq_bind, Option.bind_eq_some_iff] at hgap
  obtain ⟨x, hx, y, hy, hgap⟩ := hgap
  split at hgap
  · rename_i hline
    obtain ⟨_, _, _, _, _, hapart⟩ := h.exists_apart hx hy hlt
    have hcolumn := hapart.column_eq (hplace.tokens x (Array.mem_of_getElem? hx))
      (hplace.tokens y (Array.mem_of_getElem? hy)) hline
    rw [← Option.some.inj hgap]
    omega
  · cases hgap

theorem ReadTo.eq_of_mem_ids {d e : Document} (h : stream.ReadTo s) (hd : d ∈ stream.documents)
    (he : e ∈ stream.documents) (hi : i ∈ d.ids) (hi' : i ∈ e.ids) : d = e := by
  have hsorted := h.pairwise_ids
  rw [ids_eq_flatMap, List.pairwise_flatMap] at hsorted
  rcases eq_or_of_pairwise hsorted.2 hd he with heq | hlt | hlt
  · exact heq
  · exact absurd (hlt i hi i hi') (Nat.lt_irrefl i)
  · exact absurd (hlt i hi' i hi) (Nat.lt_irrefl i)

/-- A rule is for the first token of a document, which is at column zero, or counts
forward to a later token of it. -/
theorem ReadTo.rule_cases {style : Style} {rule : ColumnRule} (h : stream.ReadTo s)
    (hplace : stream.InPlace stream.text)
    (hrule : (Layout.ofStream stream style).rule? i = some rule) :
    ∃ d ∈ stream.documents, i ∈ d.ids ∧
      ((d.ids.head? = some i ∧ rule = ⟨none, 0, none⟩) ∨
        (i ∈ d.ids.tail ∧ ∀ first, 0 ≤ rule.step first)) := by
  obtain ⟨d, hd, a, ha, rfl, rfl⟩ := Layout.exists_of_rule? hrule
  rcases Document.rule_cases (h.forward style hplace) ha with hfirst | hfollows
  · exact ⟨d, hd, List.mem_of_mem_head? hfirst.1, .inl hfirst⟩
  · exact ⟨d, hd, List.mem_of_mem_tail hfollows.mem_tail,
      .inr ⟨hfollows.mem_tail, hfollows.step_nonneg⟩⟩

theorem ReadTo.column?_isSome_iff (style : Style) (h : stream.ReadTo s)
    (hplace : stream.InPlace stream.text) (i : TokenId) :
    ((Layout.ofStream stream style).column? stream.tokens i).isSome = true ↔
      ∃ a, stream.tokens[i]? = some a ∧ a.isComment = false := by
  constructor
  · intro hsome
    rw [Layout.column?] at hsome
    cases hrule : (Layout.ofStream stream style).rule? i with
    | none => simp [hrule] at hsome
    | some rule =>
      obtain ⟨d, hd, hi, -⟩ := h.rule_cases hplace hrule
      have hmem : i ∈ stream.ids := Stream.mem_ids_iff.mpr ⟨d, hd, hi⟩
      have ha := Array.getElem?_eq_getElem (h.lt_size_of_mem_ids hmem)
      exact ⟨_, ha, (h.mem_ids_iff ha).mp hmem⟩
  · rintro ⟨a, ha, hcontent⟩
    obtain ⟨column, hcolumn⟩ := h.exists_column? style ((h.mem_ids_iff ha).mpr hcontent)
    rw [hcolumn]
    rfl

theorem ReadTo.column?_nonneg {style : Style} {column : Int} (h : stream.ReadTo s)
    (hplace : stream.InPlace stream.text)
    (hcolumn : (Layout.ofStream stream style).column? stream.tokens i = some column) :
    0 ≤ column := by
  induction i using Nat.strongRecOn generalizing column with
  | ind i ih =>
    rw [Layout.column?] at hcolumn
    cases hrule : (Layout.ofStream stream style).rule? i with
    | none => simp [hrule] at hcolumn
    | some rule =>
      have hstep : ∀ first, 0 ≤ rule.step first := by
        obtain ⟨d, -, -, ⟨-, rfl⟩ | ⟨-, hstep⟩⟩ := h.rule_cases hplace hrule
        · intro first
          cases first <;> exact Int.le_refl 0
        · exact hstep
      simp only [hrule] at hcolumn
      cases hbase : rule.base with
      | none =>
        simp only [hbase, Option.some.injEq] at hcolumn
        rw [← hcolumn]
        exact hstep true
      | some base =>
        simp only [hbase] at hcolumn
        split at hcolumn
        · rename_i hlt
          obtain ⟨x, hx, hsum⟩ := Option.map_eq_some_iff.mp hcolumn
          have hfrom := ih base hlt hx
          have hcount := hstep (isFirstOnLine stream.tokens base)
          omega
        · cases hcolumn

/-- The first token of a document is at column zero. -/
theorem ReadTo.column?_first (style : Style) {d : Document} (h : stream.ReadTo s)
    (hplace : stream.InPlace stream.text) (hd : d ∈ stream.documents)
    (hfirst : d.ids.head? = some i) :
    (Layout.ofStream stream style).column? stream.tokens i = some 0 := by
  have hi : i ∈ d.ids := List.mem_of_mem_head? hfirst
  obtain ⟨a, -, -, hrule⟩ := h.exists_assignment style (Stream.mem_ids_iff.mpr ⟨d, hd, hi⟩)
  obtain ⟨e, he, hi', hcases⟩ := h.rule_cases hplace hrule
  obtain rfl := h.eq_of_mem_ids hd he hi hi'
  rcases hcases with ⟨-, hzero⟩ | ⟨htail, -⟩
  · rw [Layout.column?, hrule, hzero]
  · -- The first of increasing numbers is not one of the others.
    have hsorted := h.pairwise_ids.sublist (Stream.document_ids_sublist hd)
    obtain ⟨rest, hcons⟩ := List.head?_eq_some_iff.mp hfirst
    rw [hcons] at hsorted htail
    exact absurd ((List.pairwise_cons.mp hsorted).1 i htail) (Nat.lt_irrefl i)

end Stream

/-- The token lies in the span of the document. -/
def Document.Encloses (d : Document) (t : Token) : Prop :=
  d.span.start ≤ t.range.start ∧ t.range.stop ≤ d.span.stop

/-- The token is the first one in the document that is no comment. -/
structure Document.StartsWith (d : Document) (tokens : Array Token) (i : TokenId) : Prop where
  exists_token : ∃ t, tokens[i]? = some t ∧ t.isComment = false ∧ d.Encloses t
  isComment : ∀ (j : TokenId) (t : Token), j < i → tokens[j]? = some t → d.Encloses t →
    t.isComment = true

namespace Stream

variable {stream : Stream} {s : ParseState} {i j : TokenId} {a b : Token}

/-- A token lies in the span of the document that owns it, and in no other. -/
theorem ReadTo.encloses_iff {d : Document} (h : stream.ReadTo s) (hd : d ∈ stream.documents)
    (ha : stream.tokens[i]? = some a) (hcontent : a.isComment = false) :
    d.Encloses a ↔ i ∈ d.ids := by
  have ha' : stream.tokens.toList[i]? = some a := by rwa [Array.getElem?_toList]
  have howned : ∀ {e : Document}, e ∈ stream.documents → i ∈ e.ids → e.Encloses a := by
    intro e he hi
    obtain ⟨m, n, hspans, -⟩ := h.tiled.exists_spans (List.mem_reverse.mpr he)
    obtain ⟨hlow, hhigh⟩ := hspans.ids_bounds i hi
    exact hspans.within h.inOrder hlow hhigh ha'
  refine ⟨fun hencloses => ?_, howned hd⟩
  obtain ⟨e, he, hi⟩ := Stream.mem_ids_iff.mp ((h.mem_ids_iff ha).mpr hcontent)
  have hother := howned he hi
  have hlt := h.inOrder.start_lt_stop ha'
  unfold Document.Encloses at hencloses hother
  rcases eq_or_of_pairwise (h.tiled.pairwise h.inOrder) (List.mem_reverse.mpr hd)
      (List.mem_reverse.mpr he) with rfl | hle | hle
  · exact hi
  · omega
  · omega

theorem ReadTo.head?_of_startsWith {d : Document} (h : stream.ReadTo s)
    (hd : d ∈ stream.documents) (hstarts : d.StartsWith stream.tokens i) :
    d.ids.head? = some i := by
  obtain ⟨a, ha, hcontent, hencloses⟩ := hstarts.exists_token
  have hi := (h.encloses_iff hd ha hcontent).mp hencloses
  have hsorted := h.pairwise_ids.sublist (Stream.document_ids_sublist hd)
  obtain ⟨first, rest, hcons⟩ := List.exists_cons_of_ne_nil (List.ne_nil_of_mem hi)
  have hhead : d.ids.head? = some first := by
    rw [hcons]
    rfl
  have hle := le_of_head? hsorted hhead hi
  by_cases heq : first = i
  · exact heq ▸ hhead
  · -- An earlier token of the document would be a comment, and it owns no comments.
    have hfirst := List.mem_of_mem_head? hhead
    have hmem : first ∈ stream.ids := Stream.mem_ids_iff.mpr ⟨d, hd, hfirst⟩
    have hb := Array.getElem?_eq_getElem (h.lt_size_of_mem_ids hmem)
    have hother := (h.mem_ids_iff hb).mp hmem
    have hcomment := hstarts.isComment first _ (Nat.lt_of_le_of_ne hle heq) hb
      ((h.encloses_iff hd hb hother).mpr hfirst)
    rw [hother] at hcomment
    cases hcomment

end Stream

namespace ColumnCache

/-- What is remembered after some columns have been looked up one after the other. -/
def after (l : Layout) (tokens : Array Token) (asked : List TokenId) : ColumnCache :=
  asked.foldl (fun cache t => (resolve l tokens t cache).2) (fresh tokens)

theorem agrees_after (l : Layout) (tokens : Array Token) (asked : List TokenId) :
    Agrees l tokens (after l tokens asked) := by
  have hfold : ∀ cache, Agrees l tokens cache →
      Agrees l tokens (asked.foldl (fun cache t => (resolve l tokens t cache).2) cache) := by
    induction asked with
    | nil => exact fun _ h => h
    | cons t asked ih => exact fun cache h => ih _ (resolve_spec t h).2
  exact hfold _ (agrees_fresh l tokens)

theorem resolve_after (l : Layout) (tokens : Array Token) (asked : List TokenId) (t : TokenId) :
    (resolve l tokens t (after l tokens asked)).1 = l.column? tokens t :=
  (resolve_spec t (agrees_after l tokens asked)).1

end ColumnCache

/-- The columns are those of the tokens that are no comments, none of them is negative,
and every document starts at column zero. -/
structure Stream.ColumnsFound (stream : Stream) (column : TokenId → Option Int) : Prop where
  isSome_iff : ∀ t, (column t).isSome = true ↔
    ∃ a, stream.tokens[t]? = some a ∧ a.isComment = false
  first_eq : ∀ d ∈ stream.documents, ∀ t, d.StartsWith stream.tokens t → column t = some 0
  nonneg : ∀ t x, column t = some x → 0 ≤ x

/-- Whatever has been looked up before, looking columns up finds one for every token of
the structure. -/
theorem columnsFound_resolve {text : List Char} {stream : Stream} (hparse : parse text = .ok stream)
    (style : Style) (asked : List TokenId) :
    stream.ColumnsFound fun t =>
      (ColumnCache.resolve (Layout.ofStream stream style) stream.tokens t
        (ColumnCache.after (Layout.ofStream stream style) stream.tokens asked)).1 := by
  have hplace := Stream.inPlace_of_parse hparse
  obtain ⟨rfl, s, h⟩ := Stream.exists_readTo hparse
  constructor
  case isSome_iff =>
    intro t
    rw [ColumnCache.resolve_after]
    exact h.column?_isSome_iff style hplace t
  case first_eq =>
    intro d hd t hstarts
    rw [ColumnCache.resolve_after]
    exact h.column?_first style hplace hd (h.head?_of_startsWith hd hstarts)
  case nonneg =>
    intro t x hx
    rw [ColumnCache.resolve_after] at hx
    exact h.column?_nonneg hplace hx

/-- Two documents with comments around them, and two columns looked up before. -/
theorem columnsFound_resolve_mixed :
    ∃ (stream : Stream) (column : TokenId → Option Int),
      parse "# x\n- a: [b]\n---\nc:\n  d # y\n".toList = .ok stream ∧
      (List.range stream.tokens.size).map column =
        [none, some 0, some 2, some 4, some 4, some 4, some 2, some 0, some 0, some 2, some 2,
          none] ∧
      stream.ColumnsFound column := by
  have h : (parse "# x\n- a: [b]\n---\nc:\n  d # y\n".toList).toOption.map
      (fun stream => (List.range stream.tokens.size).map fun t =>
        (ColumnCache.resolve (Layout.ofStream stream .default) stream.tokens t
          (ColumnCache.after (Layout.ofStream stream .default) stream.tokens [10, 5])).1) =
      some [none, some 0, some 2, some 4, some 4, some 4, some 2, some 0, some 0, some 2, some 2,
        none] := by
    decide +kernel
  cases hparse : parse "# x\n- a: [b]\n---\nc:\n  d # y\n".toList with
  | error e =>
    rw [hparse] at h
    cases h
  | ok stream =>
    rw [hparse] at h
    exact ⟨stream, _, rfl, Option.some.inj h, columnsFound_resolve hparse .default [10, 5]⟩

end YamlLayout
