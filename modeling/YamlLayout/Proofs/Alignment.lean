import YamlLayout.Proofs.NodeParts
import YamlLayout.Proofs.ResolvedColumns

/-!
# Siblings are aligned

A token has one rule at most. What a node rules are its tokens but the first, whose rule
is for the node around it to give, and each of them gets its rule from one place. So a
rule that some node gives is the one that counts in the end, whatever other nodes start
or end with the same token, and the columns of siblings can be read off the rules of the
node that they are in.
-/
namespace YamlLayout

namespace Assignment

variable {t b : TokenId} {token base : Option TokenId} {offset : Int} {inlineOffset : Option Int}

/-- How many of the rules are for a token. -/
def times (t : TokenId) (rules : List Assignment) : Nat := rules.countP (·.token == t)

@[simp] theorem times_nil : times t [] = 0 := rfl

@[simp] theorem times_append (rules more : List Assignment) :
    times t (rules ++ more) = times t rules + times t more := List.countP_append ..

theorem times_pos_of_mem {a : Assignment} {rules : List Assignment} (h : a ∈ rules) :
    0 < times a.token rules :=
  List.countP_pos_iff.mpr ⟨a, h, beq_self_eq_true _⟩

/-- Rules for a token that has one rule at most are the same. -/
theorem eq_of_times_le_one {a a' : Assignment} {rules : List Assignment} (ha : a ∈ rules)
    (ha' : a' ∈ rules) (htoken : a'.token = a.token) (h : times a.token rules ≤ 1) : a' = a := by
  have hmem : ∀ x ∈ rules, x.token = a.token → x ∈ rules.filter (·.token == a.token) :=
    fun x hx heq => List.mem_filter.mpr ⟨hx, beq_iff_eq.mpr heq⟩
  rw [times, List.countP_eq_length_filter] at h
  obtain ⟨x, hx⟩ := List.length_eq_one_iff.mp
    (Nat.le_antisymm h (List.length_pos_of_mem (hmem a ha rfl)))
  rw [hx] at hmem
  rw [List.mem_singleton.mp (hmem a' ha' htoken), List.mem_singleton.mp (hmem a ha rfl)]

@[simp] theorem setOff_none (token : Option TokenId) (offset : Int) (inlineOffset : Option Int) :
    setOff token none offset inlineOffset = [] := by
  cases token <;> rfl

theorem times_setOff_le (token base : Option TokenId) (offset : Int) (inlineOffset : Option Int) :
    times t (setOff token base offset inlineOffset) ≤ token.toList.count t := by
  cases token with
  | none => exact Nat.le_refl 0
  | some u =>
    cases base with
    | none => simp
    | some b =>
      by_cases hlt : b < u
      · simp [setOff, hlt, times, List.count_singleton]
      · simp [setOff, hlt]

/-- A token is not set off from itself. -/
theorem times_setOff_self (token : Option TokenId) (offset : Int) (inlineOffset : Option Int) :
    times t (setOff token (some t) offset inlineOffset) = 0 := by
  by_contra hne
  obtain ⟨a, ha, htoken⟩ := List.countP_pos_iff.mp (Nat.pos_of_ne_zero hne)
  obtain ⟨u, b, -, hb, hlt, rfl⟩ := mem_setOff_iff.mp ha
  rw [Option.some.injEq] at hb
  rw [beq_iff_eq, hb] at htoken
  exact absurd hlt (htoken ▸ Nat.lt_irrefl _)

section FlatMap

variable {α : Type} {xs : List α} {f : α → List Assignment} {g : α → List TokenId}

theorem times_flatMap_le (h : ∀ x ∈ xs, times t (f x) ≤ (g x).count t) :
    times t (xs.flatMap f) ≤ (xs.flatMap g).count t := by
  induction xs with
  | nil => exact Nat.le_refl 0
  | cons x xs ih =>
    have hhead := h x (List.mem_cons_self ..)
    have htail := ih fun y hy => h y (List.mem_cons_of_mem _ hy)
    simp only [List.flatMap_cons, times_append, List.count_append]
    omega

theorem times_flatMap_lt {o : α → Option TokenId} (h : ∀ x ∈ xs, times t (f x) ≤ (g x).count t)
    (hmem : ∃ x ∈ xs, o x = some t) :
    times t (xs.flatMap f) < (xs.flatMap fun x => (o x).toList ++ g x).count t := by
  induction xs with
  | nil => simp at hmem
  | cons x xs ih =>
    have hhead := h x (List.mem_cons_self ..)
    have hrest : ∀ y ∈ xs, times t (f y) ≤ (g y).count t :=
      fun y hy => h y (List.mem_cons_of_mem _ hy)
    simp only [List.flatMap_cons, times_append, List.count_append]
    by_cases hx : o x = some t
    · have htail : times t (xs.flatMap f) ≤
          (xs.flatMap fun x => (o x).toList ++ g x).count t := by
        refine times_flatMap_le fun y hy => ?_
        rw [List.count_append]
        exact Nat.le_add_left_of_le (hrest y hy)
      simp only [hx, Option.toList_some, List.count_singleton_self]
      omega
    · obtain ⟨y, hy, hyt⟩ := hmem
      have hlater : y ∈ xs := (List.mem_cons.mp hy).resolve_left fun heq => hx (heq ▸ hyt)
      have htail := ih hrest ⟨y, hlater, hyt⟩
      omega

/-- Some tokens get rules, and the first of them gets none. -/
theorem times_level_le {o : α → Option TokenId} {first : Option TokenId}
    (hfirst : ∀ b, first = some b → ∃ x ∈ xs, o x = some b)
    (h : ∀ x ∈ xs, times t (f x) ≤ (o x).toList.count t + (g x).count t)
    (hself : first = some t → ∀ x ∈ xs, times t (f x) ≤ (g x).count t) :
    first.toList.count t + times t (xs.flatMap f) ≤
      (xs.flatMap fun x => (o x).toList ++ g x).count t := by
  by_cases ht : first = some t
  · have hlt := times_flatMap_lt (hself ht) (hfirst t ht)
    rw [ht, Option.toList_some, List.count_singleton_self]
    omega
  · have hzero : first.toList.count t = 0 := by
      refine List.count_eq_zero.mpr fun hmem => ht ?_
      simpa using hmem
    rw [hzero, Nat.zero_add]
    refine times_flatMap_le fun x hx => ?_
    rw [List.count_append]
    exact h x hx

end FlatMap

end Assignment

open Assignment

namespace Node

variable {ctx : LayoutContext} {t : TokenId}

/-- The first token of the value of an entry. -/
def entered : Node → List TokenId
  | entry _ value => value.first?.toList
  | _ => []

/-- The tokens of a node that the node around it gives rules to. -/
def ruledOutside (node : Node) : List TokenId := node.first?.toList ++ node.entered

theorem count_first?_le (node : Node) :
    node.first?.toList.count t ≤ node.ruledOutside.count t := by
  rw [ruledOutside, List.count_append]
  exact Nat.le_add_right ..

theorem exists_of_firstOf? {nodes : List Node} {b : TokenId} (h : firstOf? nodes = some b) :
    ∃ node ∈ nodes, node.first? = some b := by
  induction nodes with
  | nil => cases h
  | cons node nodes ih =>
    rcases Option.or_eq_some_iff.mp h with hnode | ⟨-, hnodes⟩
    · exact ⟨node, List.mem_cons_self .., hnode⟩
    · obtain ⟨other, hmem, hother⟩ := ih hnodes
      exact ⟨other, List.mem_cons_of_mem _ hmem, hother⟩

variable (ctx : LayoutContext) (t : TokenId)

theorem times_pairRules_le (flow : Bool) (question : Option TokenId) (key : Node)
    (colon : Option TokenId) (value : Node) :
    (question.or (key.first?.or (colon.or value.first?))).toList.count t +
        times t (pairRules ctx flow question key colon value) ≤
      question.toList.count t + key.first?.toList.count t + colon.toList.count t +
        value.first?.toList.count t := by
  have hrule : times t (if !flow && !ctx.indentSequences && value.isBlockSequence then
        setOff value.first? (question.or (key.first?.or colon)) 0 none
      else setOff value.first? colon ctx.unit (some 0)) ≤ value.first?.toList.count t := by
    split <;> exact times_setOff_le ..
  cases question with
  | some q =>
    have hkey := times_setOff_le (t := t) key.first? (some q) ctx.unit none
    have hcolon := times_setOff_le (t := t) colon (some q) 0 none
    simp only [pairRules, Option.isSome_some, if_true, times_append, Option.some_or] at hrule ⊢
    omega
  | none =>
    have hcolon := times_setOff_le (t := t) colon key.first? ctx.unit none
    simp only [pairRules, Option.isSome_none, Bool.false_eq_true, if_false, times_append,
      Option.none_or, Option.toList_none, List.count_nil] at hrule ⊢
    -- The first token of the pair is the one that nothing in it comes before.
    cases hfirst : key.first? with
    | some k =>
      simp only [hfirst, Option.some_or] at hrule hcolon ⊢
      omega
    | none =>
      cases colon with
      | some c =>
        simp only [hfirst, Option.none_or, Option.some_or, setOff_none, times_nil] at hrule ⊢
        omega
      | none => simp

theorem times_flowRules_le (brackets : Brackets) (items : List Node) :
    times t (flowRules ctx brackets items) ≤
      (items.flatMap ruledOutside).count t + brackets.commas.count t +
        [brackets.closing].count t := by
  have hitems : times t (items.flatMap fun item =>
      setOff item.first? (some (ctx.lineHead brackets.opening)) ctx.unit none) ≤
      (items.flatMap ruledOutside).count t :=
    times_flatMap_le fun item _ => (times_setOff_le ..).trans item.count_first?_le
  have hcommas : times t (brackets.commas.flatMap fun comma =>
      setOff (some comma) (some (ctx.lineHead brackets.opening)) ctx.unit none) ≤
      (brackets.commas.flatMap fun comma => [comma]).count t :=
    times_flatMap_le fun comma _ => times_setOff_le ..
  have hclosing := times_setOff_le (t := t) (some brackets.closing)
    (some (ctx.lineHead brackets.opening)) 0 none
  rw [List.flatMap_singleton'] at hcommas
  simp only [flowRules, times_append]
  exact Nat.add_le_add (Nat.add_le_add hitems hcommas) hclosing

theorem times_pairLevel_le (pairs : List Node) :
    (firstOf? pairs).toList.count t +
        times t (pairs.flatMap fun pair => setOff pair.first? (firstOf? pairs) 0 none) ≤
      (pairs.flatMap ruledOutside).count t := by
  refine times_level_le (fun b hb => exists_of_firstOf? hb) (fun pair _ => ?_) ?_
  · exact Nat.le_add_right_of_le (times_setOff_le ..)
  · intro hfirst pair _
    rw [hfirst, times_setOff_self]
    exact Nat.zero_le _

theorem times_entryRules_le (items : List Node) :
    (firstOf? items).toList.count t + times t (items.flatMap (entryRules ctx (firstOf? items))) ≤
      (items.flatMap ruledOutside).count t := by
  refine times_level_le (fun b hb => exists_of_firstOf? hb) (fun item _ => ?_) ?_
  · cases item with
    | entry dash value =>
      rw [entryRules, times_append]
      exact Nat.add_le_add (times_setOff_le ..) (times_setOff_le ..)
    | _ => exact Nat.zero_le _
  · intro hfirst item _
    cases item with
    | entry dash value =>
      rw [entryRules, times_append, hfirst, times_setOff_self, Nat.zero_add]
      exact times_setOff_le ..
    | _ => exact Nat.zero_le _

theorem count_bracketedIds (brackets : Brackets) (items : List Node) :
    (bracketedIds brackets items).count t = [brackets.opening].count t +
      ((idsOf brackets.commas items).count t + [brackets.closing].count t) := by
  rw [bracketedIds, ← List.singleton_append, List.count_append, List.count_append]

mutual

/-- A node and the one around it give as many rules to a token as the node has of it. -/
theorem times_rules_le (flow : Bool) : (node : Node) →
    node.ruledOutside.count t + times t (node.rules ctx flow) ≤ node.ids.count t
  | empty => Nat.le_refl 0
  | scalar .. => Nat.le_refl _
  | reference .. => Nat.le_refl _
  | block span content => by
    have hbody := times_setOff_le (t := t) content.body (some content.header) ctx.unit (some 0)
    have hids : (block span content).ids = [content.header] ++ content.body.toList := by
      simp [ids, pieces, Piece.ids]
    rw [hids, List.count_append]
    exact Nat.add_le_add_left hbody _
  | decorated _ anchor tag inner => by
    have hinner := times_rules_le flow inner
    have hfirst := inner.count_first?_le (t := t)
    have hlater := times_setOff_le (t := t) (later anchor tag) (earlier anchor tag) 0 none
    have hset := times_setOff_le (t := t) inner.first? (earlier anchor tag) ctx.unit (some 0)
    rw [ids_decorated]
    simp only [ruledOutside, entered, first?, rules, List.count_append, List.count_nil,
      times_append] at hfirst hinner ⊢
    cases hearlier : earlier anchor tag with
    | some outer =>
      simp only [hearlier, Option.some_or] at hlater hset ⊢
      omega
    | none =>
      simp only [setOff_none, times_nil, Option.none_or]
      omega
  | pair _ question key colon value => by
    have hpair := times_pairRules_le ctx t flow question key colon value
    have hkey := times_rules_le flow key
    have hvalue := times_rules_le flow value
    have hkeyFirst := key.count_first?_le (t := t)
    have hvalueFirst := value.count_first?_le (t := t)
    rw [ruledOutside, first?, ids_pair, rules]
    simp only [entered, List.count_append, List.count_nil, times_append]
    omega
  | entry dash value => by
    have hvalue := times_rules_le flow value
    have hfirst := value.count_first?_le (t := t)
    rw [ruledOutside, first?, ids_entry, ← List.singleton_append, rules]
    simp only [entered, List.count_append, Option.toList_some]
    omega
  | mapping _ none pairs => by
    have hlevel := times_pairLevel_le t pairs
    have hpairs := times_rulesOf_le flow [] pairs
    rw [ruledOutside, first?, ids_mapping_none, rules]
    simp only [entered, List.append_nil, times_append, Option.map_none, Option.none_or]
    omega
  | mapping _ (some brackets) pairs => by
    have hflow := times_flowRules_le ctx t brackets pairs
    have hpairs := times_rulesOf_le true brackets.commas pairs
    rw [ruledOutside, first?, ids_mapping_some, count_bracketedIds, rules]
    simp only [entered, List.append_nil, times_append, Option.map_some, Option.some_or,
      Option.toList_some]
    omega
  | sequence _ none items => by
    have hentries := times_entryRules_le ctx t items
    have hitems := times_rulesOf_le flow [] items
    rw [ruledOutside, first?, ids_sequence_none, rules]
    simp only [entered, List.append_nil, times_append, Option.map_none, Option.none_or]
    omega
  | sequence _ (some brackets) items => by
    have hflow := times_flowRules_le ctx t brackets items
    have hitems := times_rulesOf_le true brackets.commas items
    rw [ruledOutside, first?, ids_sequence_some, count_bracketedIds, rules]
    simp only [entered, List.append_nil, times_append, Option.map_some, Option.some_or,
      Option.toList_some]
    omega

theorem times_rulesOf_le (flow : Bool) (commas : List TokenId) : (nodes : List Node) →
    (nodes.flatMap ruledOutside).count t + commas.count t + times t (rulesOf ctx flow nodes) ≤
      (idsOf commas nodes).count t
  | [] => by
    simp [idsOf, piecesOf, rulesOf]
  | node :: nodes => by
    have hnode := times_rules_le flow node
    have hnodes := times_rulesOf_le flow (commas.drop 1) nodes
    have hcommas : commas.count t = (commas.take 1).count t + (commas.drop 1).count t := by
      rw [← List.count_append, List.take_append_drop]
    simp only [rulesOf, idsOf_cons, List.flatMap_cons, List.count_append, times_append]
    omega

end

end Node

theorem Document.times_rules_le (ctx : LayoutContext) (t : TokenId) (d : Document) :
    times t (d.rules ctx) ≤ d.ids.count t := by
  cases hfirst : d.first? with
  | none =>
    rw [rules, hfirst]
    exact Nat.zero_le _
  | some first =>
    -- The tokens that are at the column of the first one.
    let level := d.directives.map some ++ [d.startMarker, d.endMarker, d.content.first?]
    have hsum : times t (d.rules ctx) = (some first).toList.count t +
        times t (level.flatMap fun token => setOff token (some first) 0 none) +
        times t (d.content.rules ctx false) := by
      rw [rules, hfirst]
      simp [level, times, List.countP_cons, List.count_singleton, List.flatMap_map]
      omega
    have hlevel : (some first).toList.count t +
        times t (level.flatMap fun token => setOff token (some first) 0 none) ≤
        (level.flatMap fun token => token.toList ++ []).count t := by
      refine times_level_le (fun b hb => ⟨some b, ?_, rfl⟩) (fun token _ => times_setOff_le ..) ?_
      · rw [hb, first?] at hfirst
        simp only [Option.or_eq_some_iff] at hfirst
        rcases hfirst with hhead | ⟨-, hmarker | ⟨-, hcontent | ⟨-, hmarker⟩⟩⟩
        · exact List.mem_append_left _ (List.mem_map_of_mem (List.mem_of_mem_head? hhead))
        · simp [level, hmarker]
        · simp [level, hcontent]
        · simp [level, hmarker]
      · intro hself token _
        rw [hself, times_setOff_self]
        exact Nat.zero_le _
    have hcontent := d.content.times_rules_le ctx t false
    have hcontentFirst := d.content.count_first?_le (t := t)
    have hcount : (level.flatMap fun token => token.toList ++ []).count t =
        d.directives.count t + d.startMarker.toList.count t + d.endMarker.toList.count t +
          d.content.first?.toList.count t := by
      simp [level, List.flatMap_map]
      omega
    rw [ids_eq]
    simp only [List.count_append]
    omega

/-- The rules of the content are among those of the document. -/
theorem Document.mem_rules_of_content {ctx : LayoutContext} {d : Document} {a : Assignment}
    (h : a ∈ d.content.rules ctx false) : a ∈ d.rules ctx := by
  cases hfirst : d.first? with
  | none =>
    have hle := d.content.times_rules_le ctx a.token false
    have hpos := times_pos_of_mem h
    have hown : a.token ∈ d.content.ids := List.count_pos_iff.mp (by omega)
    rw [first?_eq_head?, List.head?_eq_none_iff, ids_eq] at hfirst
    simp_all
  | some first =>
    rw [rules, hfirst]
    exact List.mem_append_right _ h

namespace Stream

variable {stream : Stream} {s : ParseState} {style : Style}

theorem ReadTo.times_rules_le_one (h : stream.ReadTo s) (ctx : LayoutContext) (t : TokenId) :
    times t (stream.documents.flatMap (·.rules ctx)) ≤ 1 := by
  have hle := times_flatMap_le fun (d : Document) (_ : d ∈ stream.documents) =>
    d.times_rules_le ctx t
  rw [← ids_eq_flatMap] at hle
  have hnodup : stream.ids.Nodup := h.pairwise_ids.imp Nat.ne_of_lt
  exact hle.trans (List.nodup_iff_count_le_one.mp hnodup t)

/-- A rule that some document gives is the one that counts. -/
theorem ReadTo.rule?_eq {d : Document} {a : Assignment} (h : stream.ReadTo s)
    (hd : d ∈ stream.documents) (ha : a ∈ d.rules (.ofStyle stream.tokens style)) :
    (Layout.ofStream stream style).rule? a.token = some a.rule := by
  have hown : a.token ∈ d.ids :=
    List.count_pos_iff.mp ((times_pos_of_mem ha).trans_le (d.times_rules_le _ a.token))
  have hmem : a ∈ stream.documents.flatMap (·.rules (.ofStyle stream.tokens style)) :=
    List.mem_flatMap.mpr ⟨d, hd, ha⟩
  obtain ⟨other, hother, htoken, hrule⟩ :=
    h.exists_assignment style (Stream.mem_ids_iff.mpr ⟨d, hd, hown⟩)
  rw [hrule, eq_of_times_le_one hmem hother htoken (h.times_rules_le_one ..)]

end Stream

/-- The columns are as the rule says: that of the token is counted from that of the base. -/
def Assignment.Obeyed (tokens : Array Token) (column : TokenId → Option Int) (a : Assignment) :
    Prop :=
  ∀ b, a.rule.base = some b → b < a.token →
    column a.token = (column b).map (· + a.rule.step (isFirstOnLine tokens b))

/-- Items and commas are one unit deeper than the head of the line of the opening bracket,
and the closing bracket is at its column. -/
def Brackets.Aligned (ctx : LayoutContext) (column : TokenId → Option Int) (brackets : Brackets)
    (items : List Node) : Prop :=
  ∃ x, column (ctx.lineHead brackets.opening) = some x ∧
    (∀ item ∈ items, ∀ t, item.first? = some t → column t = some (x + ctx.unit)) ∧
    (∀ comma ∈ brackets.commas, column comma = some (x + ctx.unit)) ∧
    column brackets.closing = some x

namespace Node

/-- The parts of a collection are aligned: the pairs of a block mapping, the dashes of a
block sequence, the items, commas and the end of a flow collection. -/
def Aligned (ctx : LayoutContext) (column : TokenId → Option Int) : Node → Prop
  | mapping _ none pairs =>
    ∃ x, ∀ pair ∈ pairs, ∀ t, pair.first? = some t → column t = some x
  | sequence _ none items => ∃ x, ∀ dash value, entry dash value ∈ items → column dash = some x
  | mapping _ (some brackets) pairs => brackets.Aligned ctx column pairs
  | sequence _ (some brackets) items => brackets.Aligned ctx column items
  | _ => True

variable {ctx : LayoutContext} {column : TokenId → Option Int}

theorem column_of_setOff {t b : TokenId} {offset x : Int} {tokens : Array Token}
    (h : ∀ a ∈ setOff (some t) (some b) offset none, a.Obeyed tokens column) (hlt : b < t)
    (hb : column b = some x) : column t = some (x + offset) := by
  have hrule := h ⟨t, ⟨some b, offset, none⟩⟩ (mem_setOff_iff.mpr ⟨t, b, rfl, rfl, hlt, rfl⟩)
  have hcolumn := hrule b rfl hlt
  rw [hb] at hcolumn
  simpa [ColumnRule.step] using hcolumn

/-- Tokens that are set off by nothing from the first token of the nodes they are in are
aligned. -/
theorem exists_column_of_level (tokens : Array Token) {nodes : List Node} {level : TokenId → Prop}
    (hsorted : (idsOf [] nodes).Pairwise (· < ·))
    (hcolumn : ∀ i ∈ idsOf [] nodes, ∃ x, column i = some x)
    (hmem : ∀ t, level t → t ∈ idsOf [] nodes)
    (h : ∀ t, level t → ∀ a ∈ setOff (some t) (firstOf? nodes) 0 none,
      a.Obeyed tokens column) :
    ∃ x, ∀ t, level t → column t = some x := by
  cases hfirst : firstOf? nodes with
  | none =>
    rw [firstOf?_eq, List.head?_eq_none_iff] at hfirst
    refine ⟨0, fun t ht => ?_⟩
    have hnone := hmem t ht
    rw [hfirst] at hnone
    cases hnone
  | some first =>
    obtain ⟨x, hx⟩ := hcolumn first (mem_idsOf_of_firstOf? hfirst)
    rw [hfirst] at h
    rw [firstOf?_eq] at hfirst
    refine ⟨x, fun t ht => ?_⟩
    by_cases heq : t = first
    · rw [heq, hx]
    · have hlt := head_lt_of_mem hsorted hfirst (hmem t ht) heq
      have hlevel := column_of_setOff (h t ht) hlt hx
      rwa [Int.add_zero] at hlevel

theorem aligned_brackets {brackets : Brackets} {items : List Node} {x : Int}
    (h : ∀ a ∈ flowRules ctx brackets items, a.Obeyed ctx.tokens column)
    (hsorted : (bracketedIds brackets items).Pairwise (· < ·))
    (hhead : column (ctx.lineHead brackets.opening) = some x) :
    brackets.Aligned ctx column items := by
  have hlater : ∀ t ∈ idsOf brackets.commas items ++ [brackets.closing],
      ctx.lineHead brackets.opening < t := fun t ht =>
    Nat.lt_of_le_of_lt (ctx.lineHead_le _) ((List.pairwise_cons.mp hsorted).1 t ht)
  refine ⟨x, hhead, fun item hitem t ht => ?_, fun comma hcomma => ?_, ?_⟩
  · refine column_of_setOff (fun a ha => h a ?_) (hlater t ?_) hhead
    · refine List.mem_append_left _ (List.mem_append_left _ ?_)
      refine List.mem_flatMap.mpr ⟨item, hitem, ?_⟩
      rw [ht]
      exact ha
    · exact List.mem_append_left _ ((ids_sublist_idsOf hitem).mem (mem_ids_of_first? ht))
  · refine column_of_setOff (fun a ha => h a ?_) (hlater comma ?_) hhead
    · refine List.mem_append_left _ (List.mem_append_right _ ?_)
      exact List.mem_flatMap.mpr ⟨comma, hcomma, ha⟩
    · exact List.mem_append_left _ (commas_subset_idsOf _ _ hcomma)
  · have hclosing := column_of_setOff (fun a ha => h a (List.mem_append_right _ ha))
      (hlater _ (List.mem_append_right _ (List.mem_singleton_self _))) hhead
    rwa [Int.add_zero] at hclosing

/-- Columns that are as the rules of a node say align its parts. -/
theorem aligned_of_obeyed (flow : Bool) {node : Node}
    (h : ∀ a ∈ node.rules ctx flow, a.Obeyed ctx.tokens column)
    (hsorted : node.ids.Pairwise (· < ·)) (hcolumn : ∀ i ∈ node.ids, ∃ x, column i = some x)
    (hhead : ∀ i ∈ node.ids, ∃ x, column (ctx.lineHead i) = some x) :
    node.Aligned ctx column := by
  cases node with
  | mapping _ brackets pairs =>
    cases brackets with
    | some brackets =>
      rw [ids_mapping_some] at hsorted hhead
      obtain ⟨x, hx⟩ := hhead brackets.opening (List.mem_cons_self ..)
      exact aligned_brackets (fun a ha => h a (List.mem_append_left _ ha)) hsorted hx
    | none =>
      have hlevel : ∃ x, ∀ t, (∃ pair ∈ pairs, pair.first? = some t) → column t = some x := by
        refine exists_column_of_level ctx.tokens hsorted hcolumn ?_ ?_
        · rintro t ⟨pair, hpair, ht⟩
          exact (ids_sublist_idsOf hpair).mem (mem_ids_of_first? ht)
        · rintro t ⟨pair, hpair, ht⟩ a ha
          refine h a (List.mem_append_left _ (List.mem_flatMap.mpr ⟨pair, hpair, ?_⟩))
          rw [ht]
          exact ha
      obtain ⟨x, hx⟩ := hlevel
      exact ⟨x, fun pair hpair t ht => hx t ⟨pair, hpair, ht⟩⟩
  | sequence _ brackets items =>
    cases brackets with
    | some brackets =>
      rw [ids_sequence_some] at hsorted hhead
      obtain ⟨x, hx⟩ := hhead brackets.opening (List.mem_cons_self ..)
      exact aligned_brackets (fun a ha => h a (List.mem_append_left _ ha)) hsorted hx
    | none =>
      have hlevel : ∃ x, ∀ t, (∃ value, entry t value ∈ items) → column t = some x := by
        refine exists_column_of_level ctx.tokens hsorted hcolumn ?_ ?_
        · rintro t ⟨value, hentry⟩
          exact (ids_sublist_idsOf hentry).mem (List.mem_cons_self ..)
        · rintro t ⟨value, hentry⟩ a ha
          refine h a (List.mem_append_left _ (List.mem_flatMap.mpr ⟨_, hentry, ?_⟩))
          exact List.mem_append_left _ ha
      obtain ⟨x, hx⟩ := hlevel
      exact ⟨x, fun dash value hentry => hx dash ⟨value, hentry⟩⟩
  | _ => trivial

theorem every_aligned (flow : Bool) (node : Node)
    (h : ∀ a ∈ node.rules ctx flow, a.Obeyed ctx.tokens column)
    (hsorted : node.ids.Pairwise (· < ·)) (hcolumn : ∀ i ∈ node.ids, ∃ x, column i = some x)
    (hhead : ∀ i ∈ node.ids, ∃ x, column (ctx.lineHead i) = some x) :
    node.Every (Aligned ctx column) := by
  induction node using parts_induction generalizing flow with
  | step node ih =>
    refine every_iff.mpr ⟨aligned_of_obeyed flow h hsorted hcolumn hhead, fun part hpart => ?_⟩
    have hids := ids_sublist_of_mem_parts hpart
    exact ih part hpart (node.holdsFlow flow)
      (fun a ha => h a ((mem_rules_iff ctx flow).mpr (.inr ⟨part, hpart, ha⟩)))
      (hsorted.sublist hids) (fun i hi => hcolumn i (hids.mem hi)) fun i hi => hhead i (hids.mem hi)

end Node

namespace Stream

variable {stream : Stream} {s : ParseState}

theorem ReadTo.obeyed (style : Style) {d : Document} {a : Assignment} (h : stream.ReadTo s)
    (hd : d ∈ stream.documents) (ha : a ∈ d.rules (.ofStyle stream.tokens style)) :
    a.Obeyed stream.tokens ((Layout.ofStream stream style).column? stream.tokens) := by
  intro b hbase hlt
  rw [Layout.column?, h.rule?_eq hd ha]
  simp only [hbase, if_pos hlt]

/-- The head of the line of a bracket has a column as well. -/
theorem ReadTo.exists_column?_lineHead (style : Style) {i : TokenId} (h : stream.ReadTo s)
    (hi : i ∈ stream.ids) :
    ∃ x, (Layout.ofStream stream style).column? stream.tokens
      ((LayoutContext.ofStyle stream.tokens style).lineHead i) = some x := by
  apply h.exists_column? style
  have hcases := (LayoutContext.ofStyle stream.tokens style).lineHead_cases i
  rcases hcases with heq | ⟨-, a, ha, hcontent⟩
  · rw [heq]
    exact hi
  · exact (h.mem_ids_iff ha).mpr hcontent

end Stream

/-- Siblings are aligned, whatever columns have been looked up before. -/
theorem siblings_aligned {text : List Char} {stream : Stream} (hparse : parse text = .ok stream)
    (style : Style) (asked : List TokenId) :
    ∀ d ∈ stream.documents, d.content.Every (Node.Aligned (.ofStyle stream.tokens style) fun t =>
      (ColumnCache.resolve (Layout.ofStream stream style) stream.tokens t
        (ColumnCache.after (Layout.ofStream stream style) stream.tokens asked)).1) := by
  intro d hd
  obtain ⟨rfl, s, h⟩ := Stream.exists_readTo hparse
  simp only [ColumnCache.resolve_after]
  have hsub : d.content.ids.Sublist d.ids := by
    rw [Document.ids_eq]
    exact ((List.sublist_append_left ..).trans (List.sublist_append_right ..)).trans
      (List.sublist_append_right ..)
  have hids := hsub.trans (Stream.document_ids_sublist hd)
  have hobeyed : ∀ a ∈ d.content.rules (.ofStyle stream.tokens style) false,
      a.Obeyed stream.tokens ((Layout.ofStream stream style).column? stream.tokens) :=
    fun a ha => h.obeyed style hd (Document.mem_rules_of_content ha)
  exact d.content.every_aligned false hobeyed (h.pairwise_ids.sublist hids)
    (fun i hi => h.exists_column? style (hids.mem hi))
    fun i hi => h.exists_column?_lineHead style (hids.mem hi)

/-- Pairs in entries, brackets over two lines, and a dash within a line. -/
theorem siblings_aligned_nested :
    ∃ (stream : Stream) (column : TokenId → Option Int),
      parse "a:\n    - x: [b,\n  c]\n      y: 1\n    - - g\n".toList = .ok stream ∧
      (List.range stream.tokens.size).map column =
        [some 0, some 2, some 2, some 4, some 6, some 6, some 6, some 6, some 6, some 4, some 4,
          some 6, some 6, some 2, some 4, some 6] ∧
      ∀ d ∈ stream.documents,
        d.content.Every (Node.Aligned (.ofStyle stream.tokens .default) column) := by
  have h : (parse "a:\n    - x: [b,\n  c]\n      y: 1\n    - - g\n".toList).toOption.map
      (fun stream => (List.range stream.tokens.size).map fun t =>
        (ColumnCache.resolve (Layout.ofStream stream .default) stream.tokens t
          (ColumnCache.after (Layout.ofStream stream .default) stream.tokens [8, 3])).1) =
      some [some 0, some 2, some 2, some 4, some 6, some 6, some 6, some 6, some 6, some 4, some 4,
        some 6, some 6, some 2, some 4, some 6] := by
    decide +kernel
  cases hparse : parse "a:\n    - x: [b,\n  c]\n      y: 1\n    - - g\n".toList with
  | error e =>
    rw [hparse] at h
    cases h
  | ok stream =>
    rw [hparse] at h
    exact ⟨stream, _, rfl, Option.some.inj h, siblings_aligned hparse .default [8, 3]⟩

end YamlLayout
