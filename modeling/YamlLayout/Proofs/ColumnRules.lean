import YamlLayout.Layout.Columns
import YamlLayout.Proofs.Ownership

/-!
# Every token of the structure has a column

A rule sets a token off from an earlier one that the documents own too, and every token
that they own has a rule. So the rules lead from each of them back to the first token of
a document, which has a column of its own.
-/
namespace YamlLayout

namespace LayoutContext

theorem lineHeadFrom_cases (tokens : Array Token) (line : Nat) (head : TokenId) (n : Nat) :
    lineHeadFrom tokens line head n = head ∨ lineHeadFrom tokens line head n < n ∧
      ∃ t, tokens[lineHeadFrom tokens line head n]? = some t ∧ t.isComment = false := by
  induction n generalizing head with
  | zero => exact .inl rfl
  | succ n ih =>
    rw [lineHeadFrom]
    split
    · exact .inl rfl
    rename_i t ht
    split
    swap
    · exact .inl rfl
    split
    · rcases ih head with heq | ⟨hlt, hcontent⟩
      · exact .inl heq
      · exact .inr ⟨Nat.lt_succ_of_lt hlt, hcontent⟩
    · rename_i hmark
      rcases ih n with heq | ⟨hlt, hcontent⟩
      · rw [heq]
        refine .inr ⟨Nat.lt_succ_self n, t, ht, ?_⟩
        simp only [Bool.or_eq_true, not_or, Bool.not_eq_true] at hmark
        exact hmark.2
      · exact .inr ⟨Nat.lt_succ_of_lt hlt, hcontent⟩

/-- The head of a line is the bracket itself or an earlier token that is no comment. -/
theorem lineHead_cases (ctx : LayoutContext) (opening : TokenId) :
    ctx.lineHead opening = opening ∨ ctx.lineHead opening < opening ∧
      ∃ t, ctx.tokens[ctx.lineHead opening]? = some t ∧ t.isComment = false := by
  unfold lineHead
  split
  · exact .inl rfl
  · exact lineHeadFrom_cases ..

theorem lineHead_le (ctx : LayoutContext) (opening : TokenId) :
    ctx.lineHead opening ≤ opening := by
  rcases ctx.lineHead_cases opening with heq | hlt
  · exact Nat.le_of_eq heq
  · exact Nat.le_of_lt hlt.1

end LayoutContext

namespace Assignment

variable {a : Assignment} {ctx : LayoutContext} {ids more : List TokenId}

theorem mem_setOff_iff {token base : Option TokenId} {offset : Int} {inlineOffset : Option Int} :
    a ∈ setOff token base offset inlineOffset ↔
      ∃ t b, token = some t ∧ base = some b ∧ b < t ∧ a = ⟨t, ⟨some b, offset, inlineOffset⟩⟩ := by
  unfold setOff
  split
  · rename_i t b
    split
    · rename_i hlt
      simp [hlt]
    · rename_i hnot
      simp [hnot]
  · rename_i hnone
    constructor
    · intro h
      cases h
    · rintro ⟨t, b, rfl, rfl, -⟩
      exact absurd rfl (hnone t b rfl)

/-- One of the rules is for the token. -/
def Covers (rules : List Assignment) (token : TokenId) : Prop := ∃ a ∈ rules, a.token = token

theorem covers_setOff {t b : TokenId} (h : b < t) (offset : Int) (inlineOffset : Option Int) :
    Covers (setOff (some t) (some b) offset inlineOffset) t :=
  ⟨_, mem_setOff_iff.mpr ⟨t, b, rfl, rfl, h, rfl⟩, rfl⟩

theorem Covers.mono {rules others : List Assignment} {t : TokenId} (h : Covers rules t)
    (hsub : rules ⊆ others) : Covers others t := by
  obtain ⟨a, ha, htoken⟩ := h
  exact ⟨a, hsub ha, htoken⟩

/-- The rule counts from an earlier token among `ids`, or from the head of the line of a
bracket among them. -/
def Grounded (ctx : LayoutContext) (ids : List TokenId) (a : Assignment) : Prop :=
  ∃ base, a.rule.base = some base ∧ base < a.token ∧
    (base ∈ ids ∨ ∃ opening ∈ ids, base = ctx.lineHead opening)

theorem Grounded.mono (h : a.Grounded ctx ids) (hsub : ids ⊆ more) : a.Grounded ctx more := by
  obtain ⟨base, hbase, hlt, hmem | ⟨opening, hmem, heq⟩⟩ := h
  · exact ⟨base, hbase, hlt, .inl (hsub hmem)⟩
  · exact ⟨base, hbase, hlt, .inr ⟨opening, hsub hmem, heq⟩⟩

theorem grounded_of_mem_setOff {token base : Option TokenId} {offset : Int}
    {inlineOffset : Option Int} (h : a ∈ setOff token base offset inlineOffset)
    (hbase : ∀ b, base = some b → b ∈ ids) : a.Grounded ctx ids := by
  obtain ⟨t, b, rfl, rfl, hlt, rfl⟩ := mem_setOff_iff.mp h
  exact ⟨b, rfl, hlt, .inl (hbase b rfl)⟩

theorem grounded_of_mem_setOff_lineHead {token : Option TokenId} {opening : TokenId} {offset : Int}
    {inlineOffset : Option Int} (hmem : opening ∈ ids)
    (h : a ∈ setOff token (some (ctx.lineHead opening)) offset inlineOffset) :
    a.Grounded ctx ids := by
  obtain ⟨t, b, rfl, hb, hlt, rfl⟩ := mem_setOff_iff.mp h
  rw [Option.some.injEq] at hb
  exact ⟨b, rfl, hlt, .inr ⟨opening, hmem, hb.symm⟩⟩

end Assignment

open Assignment

namespace Node

variable {ctx : LayoutContext} {a : Assignment}

theorem mem_ids_of_first? {node : Node} {i : TokenId} (h : node.first? = some i) :
    i ∈ node.ids := by
  rw [first?_eq_head?] at h
  exact List.mem_of_mem_head? h

theorem firstOf?_eq (nodes : List Node) : firstOf? nodes = (idsOf [] nodes).head? :=
  firstOf?_eq_head? nodes

theorem mem_idsOf_of_firstOf? {nodes : List Node} {i : TokenId} (h : firstOf? nodes = some i) :
    i ∈ idsOf [] nodes := by
  rw [firstOf?_eq] at h
  exact List.mem_of_mem_head? h

theorem mem_rulesOf_iff {flow : Bool} {nodes : List Node} :
    a ∈ rulesOf ctx flow nodes ↔ ∃ node ∈ nodes, a ∈ node.rules ctx flow := by
  induction nodes with
  | nil => simp [rulesOf]
  | cons node nodes ih => simp [rulesOf, ih]

/-! ## What the rules count from -/

theorem grounded_pairRules {flow : Bool} {span : Span} {question colon : Option TokenId}
    {key value : Node} (h : a ∈ pairRules ctx flow question key colon value) :
    a.Grounded ctx (pair span question key colon value).ids := by
  rw [ids_pair]
  have hquestion : ∀ b, question = some b → b ∈ question.toList ++ (key.ids ++ (colon.toList ++
      value.ids)) := by
    rintro b rfl
    simp
  have hkey : ∀ b, key.first? = some b → b ∈ question.toList ++ (key.ids ++ (colon.toList ++
      value.ids)) := by
    intro b hb
    have hmem := mem_ids_of_first? hb
    simp [hmem]
  have hcolon : ∀ b, colon = some b → b ∈ question.toList ++ (key.ids ++ (colon.toList ++
      value.ids)) := by
    rintro b rfl
    simp
  unfold pairRules at h
  rcases List.mem_append.mp h with h | h
  · split at h
    · rcases List.mem_append.mp h with h | h
      · exact grounded_of_mem_setOff h hquestion
      · exact grounded_of_mem_setOff h hquestion
    · exact grounded_of_mem_setOff h hkey
  · split at h
    · refine grounded_of_mem_setOff h fun b hb => ?_
      rcases Option.or_eq_some_iff.mp hb with hb | ⟨-, hb⟩
      · exact hquestion b hb
      rcases Option.or_eq_some_iff.mp hb with hb | ⟨-, hb⟩
      · exact hkey b hb
      · exact hcolon b hb
    · exact grounded_of_mem_setOff h hcolon

theorem grounded_flowRules {brackets : Brackets} {items : List Node}
    (h : a ∈ flowRules ctx brackets items) : a.Grounded ctx (bracketedIds brackets items) := by
  have hopening : brackets.opening ∈ bracketedIds brackets items := List.mem_cons_self ..
  unfold flowRules at h
  rcases List.mem_append.mp h with h | h
  · rcases List.mem_append.mp h with h | h
    · obtain ⟨item, -, h⟩ := List.mem_flatMap.mp h
      exact grounded_of_mem_setOff_lineHead hopening h
    · obtain ⟨comma, -, h⟩ := List.mem_flatMap.mp h
      exact grounded_of_mem_setOff_lineHead hopening h
  · exact grounded_of_mem_setOff_lineHead hopening h

theorem grounded_entryRules {items : List Node}
    (h : a ∈ items.flatMap (entryRules ctx (firstOf? items))) :
    a.Grounded ctx (idsOf [] items) := by
  obtain ⟨item, hitem, h⟩ := List.mem_flatMap.mp h
  unfold entryRules at h
  split at h
  · rename_i dash value
    rcases List.mem_append.mp h with h | h
    · exact grounded_of_mem_setOff h fun b hb => mem_idsOf_of_firstOf? hb
    · refine grounded_of_mem_setOff h fun b hb => ?_
      rw [Option.some.injEq] at hb
      exact (ids_sublist_idsOf hitem).mem (by simp [hb])
  · cases h

mutual

theorem grounded_rules (flow : Bool) : (node : Node) → a ∈ node.rules ctx flow →
    a.Grounded ctx node.ids
  | empty, h => by cases h
  | scalar .., h => by cases h
  | reference .., h => by cases h
  | block _ content, h => by
    refine grounded_of_mem_setOff h fun b hb => ?_
    rw [Option.some.injEq] at hb
    simp [ids, pieces, Piece.ids, hb]
  | decorated _ anchor tag inner, h => by
    rw [ids_decorated]
    have houter : ∀ b, earlier anchor tag = some b → b ∈ (earlier anchor tag).toList ++
        ((later anchor tag).toList ++ inner.ids) := by
      intro b hb
      simp [hb]
    rcases List.mem_append.mp h with h | h
    · rcases List.mem_append.mp h with h | h
      · exact grounded_of_mem_setOff h houter
      · exact grounded_of_mem_setOff h houter
    · refine (grounded_rules flow inner h).mono ?_
      intro i hi
      simp [hi]
  | pair span question key colon value, h => by
    rcases List.mem_append.mp h with h | h
    · rcases List.mem_append.mp h with h | h
      · exact grounded_pairRules h
      · refine (grounded_rules flow key h).mono ?_
        intro i hi
        simp [hi]
    · refine (grounded_rules flow value h).mono ?_
      intro i hi
      simp [hi]
  | entry dash value, h => (grounded_rules flow value h).mono (List.subset_cons_self ..)
  | mapping _ none pairs, h => by
    rw [ids_mapping_none]
    rcases List.mem_append.mp h with h | h
    · obtain ⟨pair, -, h⟩ := List.mem_flatMap.mp h
      exact grounded_of_mem_setOff h fun b hb => mem_idsOf_of_firstOf? hb
    · exact grounded_rulesOf flow [] pairs h
  | mapping _ (some brackets) pairs, h => by
    rw [ids_mapping_some]
    rcases List.mem_append.mp h with h | h
    · exact grounded_flowRules h
    · exact (grounded_rulesOf true _ pairs h).mono (idsOf_subset_bracketedIds ..)
  | sequence _ none items, h => by
    rw [ids_sequence_none]
    rcases List.mem_append.mp h with h | h
    · exact grounded_entryRules h
    · exact grounded_rulesOf flow [] items h
  | sequence _ (some brackets) items, h => by
    rw [ids_sequence_some]
    rcases List.mem_append.mp h with h | h
    · exact grounded_flowRules h
    · exact (grounded_rulesOf true _ items h).mono (idsOf_subset_bracketedIds ..)

theorem grounded_rulesOf (flow : Bool) (commas : List TokenId) : (nodes : List Node) →
    a ∈ rulesOf ctx flow nodes → a.Grounded ctx (idsOf commas nodes)
  | [], h => by cases h
  | node :: nodes, h => by
    rw [idsOf_cons]
    rcases List.mem_append.mp h with h | h
    · exact (grounded_rules flow node h).mono (List.subset_append_left ..)
    · refine (grounded_rulesOf flow (commas.drop 1) nodes h).mono ?_
      intro i hi
      exact List.mem_append_right _ (List.mem_append_right _ hi)

end

/-! ## Which tokens have a rule -/

/-- In an increasing list everything but the first element is larger than it. -/
theorem head_lt_of_mem {xs : List TokenId} {first i : TokenId} (h : xs.Pairwise (· < ·))
    (hfirst : xs.head? = some first) (hi : i ∈ xs) (hne : i ≠ first) : first < i := by
  obtain ⟨rest, rfl⟩ := List.head?_eq_some_iff.mp hfirst
  rcases List.mem_cons.mp hi with heq | hi
  · exact absurd heq hne
  · exact (List.pairwise_cons.mp h).1 i hi

theorem covers_pairRules {flow : Bool} {question colon : Option TokenId} {key value : Node}
    {i : TokenId} (hcolon : colon = none → value.pieces = [])
    (hsorted : (question.toList ++ (key.ids ++ (colon.toList ++ value.ids))).Pairwise (· < ·))
    (hi : key.first? = some i ∧ question.isSome ∨
      colon = some i ∧ (question.isSome ∨ key.first?.isSome) ∨ value.first? = some i) :
    Covers (pairRules ctx flow question key colon value) i := by
  rw [List.pairwise_append, List.pairwise_append, List.pairwise_append] at hsorted
  obtain ⟨-, ⟨-, ⟨-, -, hcolonValue⟩, hkeyLater⟩, hquestionLater⟩ := hsorted
  unfold pairRules
  rcases hi with ⟨hkey, hquestion⟩ | ⟨rfl, hbase⟩ | hvalue
  · obtain ⟨q, rfl⟩ := Option.isSome_iff_exists.mp hquestion
    have hlt : q < i := hquestionLater q (by simp) i
      (List.mem_append_left _ (mem_ids_of_first? hkey))
    simp only [Option.isSome_some, if_true, hkey]
    exact (covers_setOff hlt ctx.unit none).mono (by simp)
  · cases question with
    | some q =>
      have hlt : q < i := hquestionLater q (by simp) i (by simp)
      simp only [Option.isSome_some, if_true]
      refine (covers_setOff hlt 0 none).mono fun a ha => ?_
      exact List.mem_append_left _ (List.mem_append_right _ ha)
    | none =>
      obtain ⟨k, hk⟩ : ∃ k, key.first? = some k :=
        Option.isSome_iff_exists.mp (by simpa using hbase)
      have hlt : k < i := hkeyLater k (mem_ids_of_first? hk) i (by simp)
      simp only [Option.isSome_none, Bool.false_eq_true, if_false, hk]
      exact (covers_setOff hlt ctx.unit none).mono (List.subset_append_left ..)
  · -- A value has a colon in front of it, which it can be set off from.
    have hmem := mem_ids_of_first? hvalue
    obtain ⟨c, rfl⟩ : ∃ c, colon = some c := by
      cases colon with
      | some c => exact ⟨c, rfl⟩
      | none =>
        rw [ids, hcolon rfl] at hmem
        cases hmem
    have hlt : c < i := hcolonValue c (by simp) i hmem
    refine Covers.mono ?_ (List.subset_append_right ..)
    rw [hvalue]
    split
    · obtain ⟨b, hb, hblt⟩ : ∃ b, question.or (key.first?.or (some c)) = some b ∧ b < i := by
        cases question with
        | some q => exact ⟨q, rfl, hquestionLater q (by simp) i (by simp [hmem])⟩
        | none =>
          cases hkey : key.first? with
          | some k => exact ⟨k, rfl, hkeyLater k (mem_ids_of_first? hkey) i (by simp [hmem])⟩
          | none => exact ⟨c, rfl, hlt⟩
      rw [hb]
      exact covers_setOff hblt ..
    · exact covers_setOff hlt ..

theorem covers_flowRules {brackets : Brackets} {items : List Node} {i : TokenId}
    (hsorted : (bracketedIds brackets items).Pairwise (· < ·))
    (hi : i ∈ brackets.commas ∨ (∃ item ∈ items, item.first? = some i) ∨ i = brackets.closing) :
    Covers (flowRules ctx brackets items) i := by
  have hlater := (List.pairwise_cons.mp hsorted).1
  have hlt : ∀ j, brackets.opening < j → ctx.lineHead brackets.opening < j :=
    fun j hj => Nat.lt_of_le_of_lt (ctx.lineHead_le _) hj
  unfold flowRules
  rcases hi with hi | ⟨item, hitem, hfirst⟩ | rfl
  · have hopening := hlater i (List.mem_append_left _ (commas_subset_idsOf _ _ hi))
    refine (covers_setOff (hlt i hopening) ctx.unit none).mono fun a ha => ?_
    exact List.mem_append_left _ (List.mem_append_right _ (List.mem_flatMap.mpr ⟨i, hi, ha⟩))
  · have hopening := hlater i
      (List.mem_append_left _ ((ids_sublist_idsOf hitem).mem (mem_ids_of_first? hfirst)))
    refine (covers_setOff (hlt i hopening) ctx.unit none).mono fun a ha => ?_
    refine List.mem_append_left _ (List.mem_append_left _ (List.mem_flatMap.mpr ⟨item, hitem, ?_⟩))
    rw [hfirst]
    exact ha
  · have hopening := hlater brackets.closing (by simp)
    exact (covers_setOff (hlt _ hopening) 0 none).mono (List.subset_append_right ..)

/-- A flow collection whose items have rules for all their tokens but the first has rules
for all tokens but its opening bracket. -/
theorem covers_bracketed {brackets : Brackets} {items : List Node} {i : TokenId}
    (hsorted : (bracketedIds brackets items).Pairwise (· < ·))
    (hitems : i ∈ idsOf brackets.commas items → i ∈ brackets.commas ∨
      (∃ item ∈ items, item.first? = some i) ∨ Covers (rulesOf ctx true items) i)
    (hi : i ∈ bracketedIds brackets items) (hne : some brackets.opening ≠ some i) :
    Covers (flowRules ctx brackets items ++ rulesOf ctx true items) i := by
  have hflow : Covers (flowRules ctx brackets items) i →
      Covers (flowRules ctx brackets items ++ rulesOf ctx true items) i :=
    fun h => h.mono (List.subset_append_left ..)
  rcases List.mem_cons.mp hi with heq | hi
  · rw [heq] at hne
    exact absurd rfl hne
  rcases List.mem_append.mp hi with hi | hi
  · rcases hitems hi with hi | hfirst | h
    · exact hflow (covers_flowRules hsorted (.inl hi))
    · exact hflow (covers_flowRules hsorted (.inr (.inl hfirst)))
    · exact h.mono (List.subset_append_right ..)
  · exact hflow (covers_flowRules hsorted (.inr (.inr (List.mem_singleton.mp hi))))

theorem pairwise_idsOf_of_bracketedIds {brackets : Brackets} {items : List Node}
    (h : (bracketedIds brackets items).Pairwise (· < ·)) :
    (idsOf brackets.commas items).Pairwise (· < ·) :=
  (h.sublist (List.sublist_cons_self ..)).sublist (List.sublist_append_left ..)

mutual

/-- A node has rules for all its tokens but the first. -/
theorem covers_rules (flow : Bool) {i : TokenId} : (node : Node) → node.Formed →
    node.ids.Pairwise (· < ·) → i ∈ node.ids → node.first? ≠ some i →
      Covers (node.rules ctx flow) i
  | empty, _, _, hi, _ => by cases hi
  | scalar .., _, _, hi, hne => by
    rw [List.mem_singleton.mp hi] at hne
    exact absurd rfl hne
  | reference .., _, _, hi, hne => by
    rw [List.mem_singleton.mp hi] at hne
    exact absurd rfl hne
  | block _ content, _, hsorted, hi, hne => by
    cases hbody : content.body with
    | none =>
      have heq : i = content.header := by simpa [ids, pieces, Piece.ids, hbody] using hi
      rw [heq] at hne
      exact absurd rfl hne
    | some body =>
      have hmem : i = content.header ∨ i = body := by
        simpa [ids, pieces, Piece.ids, hbody] using hi
      have hlt : content.header < body := by
        simpa [ids, pieces, Piece.ids, hbody] using hsorted
      rcases hmem with rfl | rfl
      · exact absurd rfl hne
      · rw [rules, hbody]
        exact covers_setOff hlt ..
  | decorated span anchor tag inner, hformed, hsorted, hi, hne => by
    rw [ids_decorated] at hi hsorted
    have hinner : inner.ids.Pairwise (· < ·) :=
      (hsorted.sublist (List.sublist_append_right ..)).sublist (List.sublist_append_right ..)
    have hlater : i ∈ inner.ids → inner.first? ≠ some i →
        Covers ((decorated span anchor tag inner).rules ctx flow) i := by
      intro hmem hfirst
      exact (covers_rules flow inner hformed hinner hmem hfirst).mono
        (List.subset_append_right ..)
    cases houter : earlier anchor tag with
    | none =>
      have hnone : later anchor tag = none := by
        cases anchor <;> cases tag <;> first | rfl | cases houter
      rw [houter, hnone] at hi
      rw [first?, houter, Option.none_or] at hne
      exact hlater (by simpa using hi) hne
    | some outer =>
      rw [first?, houter, Option.some_or, ne_eq, Option.some.injEq] at hne
      rw [houter, Option.toList_some, List.singleton_append] at hi hsorted
      have hlt : outer < i := head_lt_of_mem hsorted rfl hi fun heq => hne heq.symm
      rcases List.mem_cons.mp hi with heq | hi
      · exact absurd heq.symm hne
      rcases List.mem_append.mp hi with hi | hi
      · have hsecond : later anchor tag = some i := by simpa using hi
        rw [rules, houter, hsecond]
        exact (covers_setOff hlt 0 none).mono (by simp)
      · by_cases hfirst : inner.first? = some i
        · rw [rules, houter, hfirst]
          exact (covers_setOff hlt ctx.unit (some 0)).mono (by simp)
        · exact hlater hi hfirst
  | pair _ question key colon value, hformed, hsorted, hi, hne => by
    rw [ids_pair] at hi hsorted
    have hrules : ∀ {j}, Covers (pairRules ctx flow question key colon value) j →
        Covers (pairRules ctx flow question key colon value ++ key.rules ctx flow ++
          value.rules ctx flow) j :=
      fun h => h.mono (by simp)
    have hlater := hsorted.sublist (List.sublist_append_right ..)
    have hafter := hlater.sublist (List.sublist_append_right ..)
    rw [rules]
    rw [first?] at hne
    rcases List.mem_append.mp hi with hi | hi
    · have hquestion : question = some i := by simpa using hi
      rw [hquestion] at hne
      exact absurd rfl hne
    rcases List.mem_append.mp hi with hi | hi
    · by_cases hkey : key.first? = some i
      · refine hrules (covers_pairRules hformed.2.2 hsorted (.inl ⟨hkey, ?_⟩))
        cases question with
        | some q => rfl
        | none => exact absurd (by simp [hkey]) hne
      · refine (covers_rules flow key hformed.1 (hlater.sublist (List.sublist_append_left ..)) hi
          hkey).mono ?_
        exact fun a ha => List.mem_append_left _ (List.mem_append_right _ ha)
    rcases List.mem_append.mp hi with hi | hi
    · have hcolon : colon = some i := by simpa using hi
      refine hrules (covers_pairRules hformed.2.2 hsorted (.inr (.inl ⟨hcolon, ?_⟩)))
      cases question with
      | some q => exact .inl rfl
      | none =>
        cases hkey : key.first? with
        | some k => exact .inr rfl
        | none => exact absurd (by simp [hkey, hcolon]) hne
    · by_cases hvalue : value.first? = some i
      · exact hrules (covers_pairRules hformed.2.2 hsorted (.inr (.inr hvalue)))
      · exact (covers_rules flow value hformed.2.1
          (hafter.sublist (List.sublist_append_right ..)) hi hvalue).mono (List.subset_append_right ..)
  | entry .., hformed, _, _, _ => hformed.elim
  | mapping _ none pairs, hformed, hsorted, hi, hne => by
    rw [ids_mapping_none] at hi hsorted
    rw [first?, Option.map_none, Option.none_or, firstOf?_eq] at hne
    rw [rules]
    rcases covers_rulesOf flow [] pairs hformed hsorted hi with hi | ⟨pair, hpair, hfirst⟩ | h
    · cases hi
    · obtain ⟨first, hhead⟩ : ∃ first, (idsOf [] pairs).head? = some first := by
        obtain ⟨first, rest, hcons⟩ := List.exists_cons_of_ne_nil (List.ne_nil_of_mem hi)
        exact ⟨first, by rw [hcons]; rfl⟩
      rw [hhead, ne_eq, Option.some.injEq] at hne
      have hlt := head_lt_of_mem hsorted hhead hi fun heq => hne heq.symm
      refine (covers_setOff hlt 0 none).mono fun a ha => ?_
      refine List.mem_append_left _ (List.mem_flatMap.mpr ⟨pair, hpair, ?_⟩)
      rw [hfirst, firstOf?_eq, hhead]
      exact ha
    · exact h.mono (List.subset_append_right ..)
  | mapping _ (some brackets) pairs, hformed, hsorted, hi, hne => by
    rw [ids_mapping_some] at hi hsorted
    refine covers_bracketed hsorted (fun h => ?_) hi hne
    exact covers_rulesOf true brackets.commas pairs hformed
      (pairwise_idsOf_of_bracketedIds hsorted) h
  | sequence _ none items, hformed, hsorted, hi, hne => by
    rw [ids_sequence_none] at hi hsorted
    rw [first?, Option.map_none, Option.none_or, firstOf?_eq] at hne
    rw [rules, firstOf?_eq]
    obtain ⟨first, hhead⟩ : ∃ first, (idsOf [] items).head? = some first := by
      obtain ⟨first, rest, hcons⟩ := List.exists_cons_of_ne_nil (List.ne_nil_of_mem hi)
      exact ⟨first, by rw [hcons]; rfl⟩
    rw [hhead, ne_eq, Option.some.injEq] at hne
    rw [hhead]
    refine covers_entries flow first items hformed hsorted hi ?_
    exact head_lt_of_mem hsorted hhead hi fun heq => hne heq.symm
  | sequence _ (some brackets) items, hformed, hsorted, hi, hne => by
    rw [ids_sequence_some] at hi hsorted
    refine covers_bracketed hsorted (fun h => ?_) hi hne
    exact covers_rulesOf true brackets.commas items hformed
      (pairwise_idsOf_of_bracketedIds hsorted) h

theorem covers_rulesOf (flow : Bool) (commas : List TokenId) {i : TokenId} : (nodes : List Node) →
    FormedAll nodes → (idsOf commas nodes).Pairwise (· < ·) → i ∈ idsOf commas nodes →
      i ∈ commas ∨ (∃ node ∈ nodes, node.first? = some i) ∨ Covers (rulesOf ctx flow nodes) i
  | [], _, _, hi => .inl (by simpa [idsOf, piecesOf] using hi)
  | node :: nodes, hformed, hsorted, hi => by
    rw [idsOf_cons] at hi hsorted
    rcases List.mem_append.mp hi with hi | hi
    · by_cases hfirst : node.first? = some i
      · exact .inr (.inl ⟨node, List.mem_cons_self .., hfirst⟩)
      · refine .inr (.inr ?_)
        exact (covers_rules flow node hformed.1 (hsorted.sublist (List.sublist_append_left ..)) hi
          hfirst).mono (List.subset_append_left ..)
    rcases List.mem_append.mp hi with hi | hi
    · exact .inl (List.mem_of_mem_take hi)
    · have hrest := (hsorted.sublist (List.sublist_append_right ..)).sublist
        (List.sublist_append_right ..)
      rcases covers_rulesOf flow (commas.drop 1) nodes hformed.2 hrest hi with
        hi | ⟨other, hother, hfirst⟩ | h
      · exact .inl (List.mem_of_mem_drop hi)
      · exact .inr (.inl ⟨other, List.mem_cons_of_mem _ hother, hfirst⟩)
      · exact .inr (.inr (h.mono (List.subset_append_right ..)))

/-- The entries of a sequence have rules for all tokens after its first dash. -/
theorem covers_entries (flow : Bool) (first : TokenId) {i : TokenId} : (items : List Node) →
    FormedEntries items → (idsOf [] items).Pairwise (· < ·) → i ∈ idsOf [] items → first < i →
      Covers (items.flatMap (entryRules ctx (some first)) ++ rulesOf ctx flow items) i
  | [], _, _, hi, _ => by cases hi
  | entry dash value :: items, hformed, hsorted, hi, hlt => by
    rw [idsOf_cons, ids_entry] at hi hsorted
    rcases List.mem_append.mp hi with hi | hi
    · have hentry := hsorted.sublist (List.sublist_append_left ..)
      rcases List.mem_cons.mp hi with rfl | hi
      · refine (covers_setOff hlt 0 none).mono fun a ha => ?_
        rw [List.flatMap_cons, entryRules]
        simp [ha]
      · by_cases hfirst : value.first? = some i
        · have hdash := (List.pairwise_cons.mp hentry).1 i hi
          refine (covers_setOff hdash (ctx.entryOffset dash (some i)) none).mono fun a ha => ?_
          rw [List.flatMap_cons, entryRules, hfirst]
          simp [ha]
        · have hvalue := (List.pairwise_cons.mp hentry).2
          refine (covers_rules flow value hformed.1 hvalue hi hfirst).mono fun a ha => ?_
          rw [rulesOf, rules]
          simp [ha]
    · have hi : i ∈ idsOf [] items := by simpa using hi
      have hrest : (idsOf [] items).Pairwise (· < ·) := by
        simpa using hsorted.sublist (List.sublist_append_right ..)
      refine (covers_entries flow first items hformed.2 hrest hi hlt).mono fun a ha => ?_
      rw [List.flatMap_cons, rulesOf]
      rcases List.mem_append.mp ha with ha | ha
      · simp [ha]
      · simp [ha]

end

end Node

namespace Document

variable {ctx : LayoutContext} {d : Document} {a : Assignment} {i : TokenId}

/-- Only the first token of a document has a column of its own. -/
theorem grounded_rules (h : a ∈ d.rules ctx) : a.rule.base = none ∨ a.Grounded ctx d.ids := by
  unfold rules at h
  split at h
  · cases h
  rename_i first hfirst
  have hmem : first ∈ d.ids := by
    rw [first?_eq_head?] at hfirst
    exact List.mem_of_mem_head? hfirst
  have hlevel : ∀ {token : Option TokenId}, a ∈ setOff token (some first) 0 none →
      a.Grounded ctx d.ids := by
    intro token ha
    refine grounded_of_mem_setOff ha fun b hb => ?_
    rw [Option.some.injEq] at hb
    exact hb ▸ hmem
  simp only [List.cons_append, List.mem_cons, List.mem_append, List.mem_flatMap] at h
  rcases h with rfl | ((((⟨t, -, h⟩ | h) | h) | h) | h)
  · exact .inl rfl
  · exact .inr (hlevel h)
  · exact .inr (hlevel h)
  · exact .inr (hlevel h)
  · exact .inr (hlevel h)
  · refine .inr ((Node.grounded_rules false d.content h).mono ?_)
    intro j hj
    rw [ids_eq]
    simp [hj]

/-- A document has rules for all its tokens. -/
theorem covers_rules (hformed : d.content.Formed) (hsorted : d.ids.Pairwise (· < ·))
    (hi : i ∈ d.ids) : Covers (d.rules ctx) i := by
  have hfirst := d.first?_eq_head?
  obtain ⟨first, rest, hcons⟩ := List.exists_cons_of_ne_nil (List.ne_nil_of_mem hi)
  have hhead : d.ids.head? = some first := by rw [hcons]; rfl
  rw [hhead] at hfirst
  unfold rules
  rw [hfirst]
  simp only [List.cons_append]
  by_cases heq : i = first
  · exact ⟨_, List.mem_cons_self .., heq.symm⟩
  have hlt : first < i := Node.head_lt_of_mem hsorted hhead hi heq
  have hlevel : Covers (setOff (some i) (some first) 0 none) i := covers_setOff hlt 0 none
  rw [ids_eq] at hi hsorted
  have hcontent := (hsorted.sublist (List.sublist_append_right ..)).sublist
    (List.sublist_append_right ..)
  rcases List.mem_append.mp hi with hi | hi
  · refine hlevel.mono fun a ha => ?_
    have hdirective : a ∈ d.directives.flatMap fun t => setOff (some t) (some first) 0 none :=
      List.mem_flatMap.mpr ⟨i, hi, ha⟩
    simp [hdirective]
  rcases List.mem_append.mp hi with hi | hi
  · have hmarker : d.startMarker = some i := by simpa using hi
    rw [hmarker]
    exact hlevel.mono fun a ha => by simp [ha]
  rcases List.mem_append.mp hi with hi | hi
  · by_cases hnode : d.content.first? = some i
    · rw [hnode]
      exact hlevel.mono fun a ha => by simp [ha]
    · have hinner : Covers (d.content.rules ctx false) i := Node.covers_rules false d.content
        hformed (hcontent.sublist (List.sublist_append_left ..)) hi hnode
      exact hinner.mono fun a ha => by simp [ha]
  · have hmarker : d.endMarker = some i := by simpa using hi
    rw [hmarker]
    exact hlevel.mono fun a ha => by simp [ha]

end Document

namespace Layout

/-- Of the rules for a token the table keeps one. -/
theorem getElem?_foldl_setIfInBounds {i : Nat} (rules : List Assignment)
    (table : Array (Option ColumnRule)) (hi : i < table.size) :
    let result := rules.foldl (fun table a => table.setIfInBounds a.token (some a.rule)) table
    (¬Covers rules i ∧ result[i]? = table[i]?) ∨
      ∃ a ∈ rules, a.token = i ∧ result[i]? = some (some a.rule) := by
  induction rules generalizing table with
  | nil => exact .inl ⟨fun h => by simp [Covers] at h, rfl⟩
  | cons a rules ih =>
    have hsize : i < (table.setIfInBounds a.token (some a.rule)).size := by simpa using hi
    rcases ih _ hsize with ⟨hnone, hkept⟩ | ⟨b, hb, htoken, hrule⟩
    · by_cases heq : a.token = i
      · refine .inr ⟨a, List.mem_cons_self .., heq, ?_⟩
        rw [List.foldl_cons, hkept, heq, Array.getElem?_setIfInBounds_self_of_lt hi]
      · refine .inl ⟨?_, ?_⟩
        · rintro ⟨b, hb, htoken⟩
          rcases List.mem_cons.mp hb with rfl | hb
          · exact heq htoken
          · exact hnone ⟨b, hb, htoken⟩
        · rw [List.foldl_cons, hkept, Array.getElem?_setIfInBounds_ne heq]
    · exact .inr ⟨b, List.mem_cons_of_mem _ hb, htoken, hrule⟩

theorem exists_rule? {stream : Stream} {style : Style} {i : Nat} (hi : i < stream.tokens.size)
    (h : Covers (stream.documents.flatMap (·.rules (.ofStyle stream.tokens style))) i) :
    ∃ a ∈ stream.documents.flatMap (·.rules (.ofStyle stream.tokens style)), a.token = i ∧
      (ofStream stream style).rule? i = some a.rule := by
  have hsize : i < (Array.replicate stream.tokens.size (none : Option ColumnRule)).size := by
    simpa using hi
  rcases getElem?_foldl_setIfInBounds _ _ hsize with ⟨hnone, -⟩ | ⟨a, ha, htoken, hrule⟩
  · exact absurd h hnone
  · refine ⟨a, ha, htoken, ?_⟩
    unfold rule? ofStream ruleTable
    rw [hrule]
    rfl

end Layout

namespace Stream

variable {stream : Stream} {s : ParseState}

/-- Every token that the documents own has a rule, which one of the documents gives. -/
theorem ReadTo.exists_assignment (style : Style) {i : Nat} (h : stream.ReadTo s)
    (hi : i ∈ stream.ids) :
    ∃ a ∈ stream.documents.flatMap (·.rules (.ofStyle stream.tokens style)), a.token = i ∧
      (Layout.ofStream stream style).rule? i = some a.rule := by
  obtain ⟨d, hd, hmem⟩ := Stream.mem_ids_iff.mp hi
  have hsorted := h.pairwise_ids.sublist (Stream.document_ids_sublist hd)
  have hcovers : Covers (d.rules (.ofStyle stream.tokens style)) i :=
    Document.covers_rules (h.sound d hd).formed hsorted hmem
  exact Layout.exists_rule? (h.lt_size_of_mem_ids hi)
    (hcovers.mono fun a ha => List.mem_flatMap.mpr ⟨d, hd, ha⟩)

/-- The rule of a token counts from nothing or from an earlier token that the documents
own. -/
theorem ReadTo.exists_rule (style : Style) {i : Nat} (h : stream.ReadTo s)
    (hi : i ∈ stream.ids) :
    ∃ rule, (Layout.ofStream stream style).rule? i = some rule ∧
      ∀ base, rule.base = some base → base < i ∧ base ∈ stream.ids := by
  obtain ⟨a, ha, htoken, hrule⟩ := h.exists_assignment style hi
  refine ⟨a.rule, hrule, fun base hbase => ?_⟩
  obtain ⟨e, he, hae⟩ := List.mem_flatMap.mp ha
  have hsub : ∀ j ∈ e.ids, j ∈ stream.ids := fun j hj =>
    Stream.mem_ids_iff.mpr ⟨e, he, hj⟩
  rcases Document.grounded_rules hae with hnone | ⟨b, hb, hlt, hground⟩
  · rw [hnone] at hbase
    cases hbase
  rw [hb, Option.some.injEq] at hbase
  subst hbase
  refine ⟨htoken ▸ hlt, ?_⟩
  rcases hground with hb | ⟨opening, hopening, rfl⟩
  · exact hsub _ hb
  · rcases LayoutContext.lineHead_cases (.ofStyle stream.tokens style) opening with
      heq | ⟨-, t, ht, hcontent⟩
    · rw [heq]
      exact hsub _ hopening
    · exact (h.mem_ids_iff ht).mpr hcontent

/-- Every token that the documents own has a column. -/
theorem ReadTo.exists_column? (style : Style) {i : Nat} (h : stream.ReadTo s)
    (hi : i ∈ stream.ids) :
    ∃ column, (Layout.ofStream stream style).column? stream.tokens i = some column := by
  induction i using Nat.strongRecOn with
  | ind i ih =>
    obtain ⟨rule, hrule, hbase⟩ := h.exists_rule style hi
    rw [Layout.column?, hrule]
    dsimp only
    cases hsome : rule.base with
    | none => exact ⟨rule.offset, rfl⟩
    | some base =>
      obtain ⟨hlt, hmem⟩ := hbase base hsome
      obtain ⟨column, hcolumn⟩ := ih base hlt hmem
      dsimp only
      rw [if_pos hlt, hcolumn]
      exact ⟨_, rfl⟩

end Stream

end YamlLayout
