import Mathlib.Data.List.Basic
import YamlLayout.Proofs.Ownership

/-!
# The shape of a node

What is left of a node without its spans is its shape. The commas of a flow collection
can be left out of it too: they are the tokens between its brackets that belong to none
of its items. The rules, the indicators and the block scalars of a node are those of
its shape.
-/
namespace YamlLayout

/-- The brackets with their commas, or without. -/
def Brackets.shape (commas : Bool) (b : Brackets) : Brackets :=
  if commas then b else { b with commas := [] }

namespace Node

mutual

/-- The node without its spans, with the commas of its brackets or without. -/
def shape (commas : Bool) : Node → Node
  | empty => empty
  | scalar _ style token => scalar ⟨0, 0⟩ style token
  | block _ content => block ⟨0, 0⟩ content
  | reference _ token => reference ⟨0, 0⟩ token
  | decorated _ anchor tag inner => decorated ⟨0, 0⟩ anchor tag (inner.shape commas)
  | pair _ question key colon value =>
    pair ⟨0, 0⟩ question (key.shape commas) colon (value.shape commas)
  | entry dash value => entry dash (value.shape commas)
  | mapping _ brackets pairs =>
    mapping ⟨0, 0⟩ (brackets.map (·.shape commas)) (shapes commas pairs)
  | sequence _ brackets items =>
    sequence ⟨0, 0⟩ (brackets.map (·.shape commas)) (shapes commas items)

def shapes (commas : Bool) : List Node → List Node
  | [] => []
  | node :: nodes => node.shape commas :: shapes commas nodes

end

end Node

/-- The document without its spans. -/
def Document.shape (commas : Bool) (d : Document) : Document :=
  { d with span := ⟨0, 0⟩, content := d.content.shape commas }

section Recovery

variable {α : Type} {all a b : List α} {x z : α}

/-- What stands between two elements of a list without repetition is determined. -/
theorem eq_of_infix_of_nodup (hall : all.Nodup) (ha : x :: (a ++ [z]) <:+: all)
    (hb : x :: (b ++ [z]) <:+: all) : a = b := by
  obtain ⟨s, t, hst⟩ := ha
  obtain ⟨u, v, huv⟩ := hb
  have hleft : all = s ++ x :: (a ++ z :: t) := by simp [← hst]
  have hright : all = u ++ x :: (b ++ z :: v) := by simp [← huv]
  have hx : x ∉ s ∧ x ∉ a ++ z :: t := by
    have hnodup := hall
    rw [hleft, List.nodup_middle, List.nodup_cons, List.mem_append, not_or] at hnodup
    exact hnodup.1
  have hafter : (a ++ z :: t).Nodup := by
    have hnodup := hall
    rw [hleft, List.nodup_append] at hnodup
    exact (List.nodup_cons.mp hnodup.2.1).2
  have hz : z ∉ a ∧ z ∉ t := by
    rw [List.nodup_middle, List.nodup_cons, List.mem_append, not_or] at hafter
    exact hafter.1
  rw [hleft] at hright
  obtain ⟨-, -, hrest⟩ := (List.append_cons_inj_of_notMem hx.1 hx.2).mp hright
  exact ((List.append_cons_inj_of_notMem hz.1 hz.2).mp hrest).1

end Recovery

namespace Node

theorem length_idsOf (commas : List TokenId) (nodes : List Node) :
    (idsOf commas nodes).length = commas.length + (nodes.map ids).flatten.length := by
  induction nodes generalizing commas with
  | nil => simp [idsOf, piecesOf]
  | cons node nodes ih =>
    have hcommas : (commas.take 1).length + (commas.drop 1).length = commas.length := by
      rw [← List.length_append, List.take_append_drop]
    rw [idsOf_cons, List.length_append, List.length_append, ih, List.map_cons, List.flatten_cons,
      List.length_append]
    omega

/-- The commas are what the items leave of the tokens between the brackets. -/
theorem commas_eq_of_idsOf_eq {a b : List TokenId} {nodes others : List Node}
    (hids : nodes.map ids = others.map ids) (h : idsOf a nodes = idsOf b others) : a = b := by
  have hlength : a.length = b.length := by
    have hsum := congrArg List.length h
    rw [length_idsOf, length_idsOf, hids] at hsum
    omega
  induction nodes generalizing a b others with
  | nil =>
    have hnil : others = [] := by simpa using hids.symm
    rw [hnil] at h
    simpa [idsOf, piecesOf] using h
  | cons node nodes ih =>
    obtain ⟨other, others, rfl⟩ : ∃ other rest, others = other :: rest := by
      cases others with
      | nil => simp at hids
      | cons other rest => exact ⟨other, rest, rfl⟩
    rw [List.map_cons, List.map_cons, List.cons.injEq] at hids
    rw [idsOf_cons, idsOf_cons, hids.1, List.append_cancel_left_eq] at h
    obtain ⟨hfirst, hrest⟩ := List.append_inj h (by simp [hlength])
    have hdrop := ih hids.2 hrest (by simp [hlength])
    rw [← List.take_append_drop 1 a, ← List.take_append_drop 1 b, hfirst, hdrop]

/-- The tokens of an item stand together among those of the collection. -/
theorem infix_idsOf_cons (commas : List TokenId) (node : Node) (nodes : List Node) :
    node.ids <:+: idsOf commas (node :: nodes) ∧
      idsOf (commas.drop 1) nodes <:+: idsOf commas (node :: nodes) := by
  rw [idsOf_cons]
  constructor
  · exact (List.prefix_append ..).isInfix
  · rw [← List.append_assoc]
    exact (List.suffix_append ..).isInfix

theorem infix_bracketedIds (brackets : Brackets) (nodes : List Node) :
    idsOf brackets.commas nodes <:+: bracketedIds brackets nodes :=
  ⟨[brackets.opening], [brackets.closing], by simp [bracketedIds]⟩

theorem brackets_eq_of_infix {all : List TokenId} {a b : Brackets} {nodes others : List Node}
    (hall : all.Nodup) (ha : bracketedIds a nodes <:+: all) (hb : bracketedIds b others <:+: all)
    (hshape : a.shape false = b.shape false) (hids : nodes.map ids = others.map ids) :
    a = b ∧ bracketedIds a nodes = bracketedIds b others := by
  obtain ⟨opening, closing, commas⟩ := a
  obtain ⟨opening', closing', commas'⟩ := b
  obtain ⟨rfl, rfl⟩ : opening = opening' ∧ closing = closing' := by
    simpa [Brackets.shape] using hshape
  have hinside := eq_of_infix_of_nodup hall ha hb
  have hcommas : commas = commas' := commas_eq_of_idsOf_eq hids hinside
  subst hcommas
  refine ⟨rfl, ?_⟩
  dsimp only at hinside
  rw [bracketedIds, bracketedIds, hinside]

theorem idsOf_nil_congr {nodes others : List Node} (h : nodes.map ids = others.map ids) :
    idsOf [] nodes = idsOf [] others := by
  induction nodes generalizing others with
  | nil =>
    have hnil : others = [] := by simpa using h.symm
    rw [hnil]
  | cons node nodes ih =>
    cases others with
    | nil => simp at h
    | cons other others =>
      rw [List.map_cons, List.map_cons, List.cons.injEq] at h
      rw [idsOf_cons, idsOf_cons, h.1]
      simp [ih h.2]

section Determined

variable {all : List TokenId}

mutual

/-- Two nodes over the same tokens that agree but for spans and commas agree in their
commas too. -/
theorem shape_and_ids_eq (hall : all.Nodup) : (node other : Node) → node.ids <:+: all →
    other.ids <:+: all → node.shape false = other.shape false →
      node.shape true = other.shape true ∧ node.ids = other.ids
  | empty, other, _, _, h => by
    cases other <;> simp only [shape, reduceCtorEq] at h
    exact ⟨rfl, rfl⟩
  | scalar .., other, _, _, h => by
    cases other <;> simp only [shape, reduceCtorEq] at h
    cases h
    exact ⟨rfl, rfl⟩
  | block .., other, _, _, h => by
    cases other <;> simp only [shape, reduceCtorEq] at h
    cases h
    exact ⟨rfl, rfl⟩
  | reference .., other, _, _, h => by
    cases other <;> simp only [shape, reduceCtorEq] at h
    cases h
    exact ⟨rfl, rfl⟩
  | decorated _ anchor tag inner, other, hnode, hother, h => by
    cases other <;> simp only [shape, reduceCtorEq, decorated.injEq] at h
    rename_i inner'
    obtain ⟨-, rfl, rfl, h⟩ := h
    rw [ids_decorated, ← List.append_assoc] at hnode hother
    have hinner := shape_and_ids_eq hall inner inner'
      ((List.suffix_append ..).isInfix.trans hnode) ((List.suffix_append ..).isInfix.trans hother) h
    rw [shape, shape, ids_decorated, ids_decorated, hinner.1, hinner.2]
    exact ⟨rfl, rfl⟩
  | pair _ question key colon value, other, hnode, hother, h => by
    cases other <;> simp only [shape, reduceCtorEq, pair.injEq] at h
    rename_i key' _ value'
    obtain ⟨-, rfl, hkey, rfl, hvalue⟩ := h
    have hparts : ∀ k v : Node, question.toList ++ (k.ids ++ (colon.toList ++ v.ids)) <:+: all →
        k.ids <:+: all ∧ v.ids <:+: all := by
      intro k v hkv
      constructor
      · exact (List.infix_append ..).trans (List.append_assoc .. ▸ hkv)
      · refine (List.suffix_append (question.toList ++ (k.ids ++ colon.toList)) _).isInfix.trans ?_
        simpa using hkv
    rw [ids_pair] at hnode hother
    have hkeys := shape_and_ids_eq hall key key' (hparts _ _ hnode).1 (hparts _ _ hother).1 hkey
    have hvalues :=
      shape_and_ids_eq hall value value' (hparts _ _ hnode).2 (hparts _ _ hother).2 hvalue
    rw [shape, shape, ids_pair, ids_pair, hkeys.1, hkeys.2, hvalues.1, hvalues.2]
    exact ⟨rfl, rfl⟩
  | entry dash value, other, hnode, hother, h => by
    cases other <;> simp only [shape, reduceCtorEq, entry.injEq] at h
    rename_i value'
    obtain ⟨rfl, h⟩ := h
    have hvalue := shape_and_ids_eq hall value value'
      ((List.suffix_cons ..).isInfix.trans hnode) ((List.suffix_cons ..).isInfix.trans hother) h
    rw [shape, shape, ids_entry, ids_entry, hvalue.1, hvalue.2]
    exact ⟨rfl, rfl⟩
  | mapping _ none pairs, other, hnode, hother, h => by
    cases other <;> simp only [shape, reduceCtorEq, mapping.injEq] at h
    rename_i brackets' pairs'
    obtain ⟨-, hbrackets, h⟩ := h
    obtain rfl : brackets' = none := by simpa using hbrackets.symm
    have hpairs := shapes_and_ids_eq hall [] [] pairs pairs' hnode hother h
    rw [shape, shape, hpairs.1]
    exact ⟨rfl, idsOf_nil_congr hpairs.2⟩
  | mapping _ (some brackets) pairs, other, hnode, hother, h => by
    cases other <;> simp only [shape, reduceCtorEq, mapping.injEq] at h
    rename_i brackets' pairs'
    obtain ⟨-, hbrackets, h⟩ := h
    obtain ⟨brackets', rfl, hshape⟩ := Option.map_eq_some_iff.mp hbrackets.symm
    rw [ids_mapping_some] at hnode hother
    have hpairs := shapes_and_ids_eq hall _ _ pairs pairs'
      ((infix_bracketedIds ..).trans hnode) ((infix_bracketedIds ..).trans hother) h
    obtain ⟨rfl, hids⟩ := brackets_eq_of_infix hall hnode hother hshape.symm hpairs.2
    rw [shape, shape, ids_mapping_some, ids_mapping_some, hpairs.1]
    exact ⟨rfl, hids⟩
  | sequence _ none items, other, hnode, hother, h => by
    cases other <;> simp only [shape, reduceCtorEq, sequence.injEq] at h
    rename_i brackets' items'
    obtain ⟨-, hbrackets, h⟩ := h
    obtain rfl : brackets' = none := by simpa using hbrackets.symm
    have hitems := shapes_and_ids_eq hall [] [] items items' hnode hother h
    rw [shape, shape, hitems.1]
    exact ⟨rfl, idsOf_nil_congr hitems.2⟩
  | sequence _ (some brackets) items, other, hnode, hother, h => by
    cases other <;> simp only [shape, reduceCtorEq, sequence.injEq] at h
    rename_i brackets' items'
    obtain ⟨-, hbrackets, h⟩ := h
    obtain ⟨brackets', rfl, hshape⟩ := Option.map_eq_some_iff.mp hbrackets.symm
    rw [ids_sequence_some] at hnode hother
    have hitems := shapes_and_ids_eq hall _ _ items items'
      ((infix_bracketedIds ..).trans hnode) ((infix_bracketedIds ..).trans hother) h
    obtain ⟨rfl, hids⟩ := brackets_eq_of_infix hall hnode hother hshape.symm hitems.2
    rw [shape, shape, ids_sequence_some, ids_sequence_some, hitems.1]
    exact ⟨rfl, hids⟩

theorem shapes_and_ids_eq (hall : all.Nodup) (a b : List TokenId) : (nodes others : List Node) →
    idsOf a nodes <:+: all → idsOf b others <:+: all →
      shapes false nodes = shapes false others →
      shapes true nodes = shapes true others ∧ nodes.map ids = others.map ids
  | [], others, _, _, h => by
    cases others <;> simp only [shapes, reduceCtorEq] at h
    exact ⟨rfl, rfl⟩
  | node :: nodes, others, hnodes, hothers, h => by
    cases others <;> simp only [shapes, reduceCtorEq, List.cons.injEq] at h
    rename_i other others
    obtain ⟨hnode, hrest⟩ := infix_idsOf_cons a node nodes
    obtain ⟨hother, hrest'⟩ := infix_idsOf_cons b other others
    have hfirst := shape_and_ids_eq hall node other (hnode.trans hnodes) (hother.trans hothers) h.1
    have htail := shapes_and_ids_eq hall _ _ nodes others (hrest.trans hnodes)
      (hrest'.trans hothers) h.2
    rw [shapes, shapes, List.map_cons, List.map_cons, hfirst.1, hfirst.2, htail.1, htail.2]
    exact ⟨rfl, rfl⟩

end

end Determined

end Node

namespace Document

/-- Documents over the same tokens that agree but for spans and commas agree in their
commas too. -/
theorem map_shape_eq {all : List TokenId} (hall : all.Nodup) {docs others : List Document}
    (hdocs : docs.flatMap ids <:+: all) (hothers : others.flatMap ids <:+: all)
    (h : docs.map (shape false) = others.map (shape false)) :
    docs.map (shape true) = others.map (shape true) := by
  induction docs generalizing others with
  | nil =>
    have hnil : others = [] := by simpa using h.symm
    rw [hnil]
  | cons d docs ih =>
    cases others with
    | nil => simp at h
    | cons other others =>
      rw [List.map_cons, List.map_cons, List.cons.injEq] at h
      rw [List.flatMap_cons] at hdocs hothers
      have hcontent : ∀ e : Document, e.ids <:+: all → e.content.ids <:+: all := by
        intro e he
        rw [ids_eq, ← List.append_assoc, ← List.append_assoc] at he
        exact (List.infix_append ..).trans he
      obtain ⟨hfirst, hrest⟩ := h
      simp only [shape, Document.mk.injEq, true_and] at hfirst
      obtain ⟨hdirectives, hstart, hend, hshape⟩ := hfirst
      have hnodes := Node.shape_and_ids_eq hall d.content other.content
        (hcontent d ((List.prefix_append ..).isInfix.trans hdocs))
        (hcontent other ((List.prefix_append ..).isInfix.trans hothers)) hshape
      have htail := ih ((List.suffix_append ..).isInfix.trans hdocs)
        ((List.suffix_append ..).isInfix.trans hothers) hrest
      rw [List.map_cons, List.map_cons, htail, shape, shape, hnodes.1, hdirectives, hstart, hend]

end Document

/-- Two contexts from which nodes get the same rules. -/
structure LayoutContext.Agrees (ctx other : LayoutContext) : Prop where
  unit_eq : ctx.unit = other.unit
  valueIndent_eq : ctx.valueIndent = other.valueIndent
  indentSequences_eq : ctx.indentSequences = other.indentSequences
  entryOffset_eq : ∀ dash value, ctx.entryOffset dash value = other.entryOffset dash value
  lineHead_eq : ∀ opening, ctx.lineHead opening = other.lineHead opening

namespace Node

variable {ctx other : LayoutContext}

mutual

@[simp] theorem first?_shape (commas : Bool) : (node : Node) →
    (node.shape commas).first? = node.first?
  | empty => rfl
  | scalar .. => rfl
  | block .. => rfl
  | reference .. => rfl
  | decorated _ anchor tag inner => by rw [shape, first?, first?, first?_shape commas inner]
  | pair _ question key colon value => by
    rw [shape, first?, first?, first?_shape commas key, first?_shape commas value]
  | entry .. => rfl
  | mapping _ none pairs => by
    rw [shape, first?, first?, firstOf?_shapes commas pairs]
    rfl
  | mapping _ (some brackets) pairs => by cases commas <;> rfl
  | sequence _ none items => by
    rw [shape, first?, first?, firstOf?_shapes commas items]
    rfl
  | sequence _ (some brackets) items => by cases commas <;> rfl

@[simp] theorem firstOf?_shapes (commas : Bool) : (nodes : List Node) →
    firstOf? (shapes commas nodes) = firstOf? nodes
  | [] => rfl
  | node :: nodes => by
    rw [shapes, firstOf?, firstOf?, first?_shape commas node, firstOf?_shapes commas nodes]

end

theorem shapes_eq_map (commas : Bool) (nodes : List Node) :
    shapes commas nodes = nodes.map (shape commas) := by
  induction nodes with
  | nil => rfl
  | cons node nodes ih => rw [shapes, ih, List.map_cons]

@[simp] theorem isBlockSequence_shape (commas : Bool) (node : Node) :
    (node.shape commas).isBlockSequence = node.isBlockSequence := by
  cases node with
  | sequence _ brackets items => cases brackets <;> rfl
  | _ => rfl

theorem pairRules_shape (h : ctx.Agrees other) (flow : Bool) (question : Option TokenId)
    (key : Node) (colon : Option TokenId) (value : Node) :
    pairRules ctx flow question (key.shape true) colon (value.shape true) =
      pairRules other flow question key colon value := by
  simp only [pairRules, first?_shape, isBlockSequence_shape, h.unit_eq, h.indentSequences_eq]

theorem entryRules_shape (h : ctx.Agrees other) (firstDash : Option TokenId) (node : Node) :
    entryRules ctx firstDash (node.shape true) = entryRules other firstDash node := by
  cases node with
  | entry dash value => simp only [shape, entryRules, first?_shape, h.entryOffset_eq]
  | _ => rfl

theorem flowRules_shapes (h : ctx.Agrees other) (brackets : Brackets) (items : List Node) :
    flowRules ctx (brackets.shape true) (shapes true items) = flowRules other brackets items := by
  simp only [flowRules, Brackets.shape, if_true, shapes_eq_map, List.flatMap_map, first?_shape,
    h.unit_eq, h.lineHead_eq]

mutual

/-- The rules of a node depend on its shape alone, and on the lines of the tokens. -/
theorem rules_shape (h : ctx.Agrees other) (flow : Bool) : (node : Node) →
    (node.shape true).rules ctx flow = node.rules other flow
  | empty => rfl
  | scalar .. => rfl
  | reference .. => rfl
  | block .. => by rw [shape, rules, rules, h.unit_eq]
  | decorated _ anchor tag inner => by
    rw [shape, rules, rules, first?_shape, rules_shape h flow inner, h.unit_eq]
  | pair _ question key colon value => by
    rw [shape, rules, rules, pairRules_shape h, rules_shape h flow key, rules_shape h flow value]
  | entry _ value => by rw [shape, rules, rules, rules_shape h flow value]
  | mapping _ none pairs => by
    rw [shape, Option.map_none, rules, rules, firstOf?_shapes, rulesOf_shapes h flow pairs]
    simp only [shapes_eq_map, List.flatMap_map, first?_shape]
  | mapping _ (some brackets) pairs => by
    rw [shape, Option.map_some, rules, rules, flowRules_shapes h, rulesOf_shapes h true pairs]
  | sequence _ none items => by
    rw [shape, Option.map_none, rules, rules, firstOf?_shapes, rulesOf_shapes h flow items]
    simp only [shapes_eq_map, List.flatMap_map, entryRules_shape h]
  | sequence _ (some brackets) items => by
    rw [shape, Option.map_some, rules, rules, flowRules_shapes h, rulesOf_shapes h true items]

theorem rulesOf_shapes (h : ctx.Agrees other) (flow : Bool) : (nodes : List Node) →
    rulesOf ctx flow (shapes true nodes) = rulesOf other flow nodes
  | [] => rfl
  | node :: nodes => by
    rw [shapes, rulesOf, rulesOf, rules_shape h flow node, rulesOf_shapes h flow nodes]

end

mutual

theorem indicators_shape (commas flow : Bool) : (node : Node) →
    (node.shape commas).indicators flow = node.indicators flow
  | empty => rfl
  | scalar .. => rfl
  | reference .. => rfl
  | block .. => rfl
  | decorated _ _ _ inner => by
    rw [shape, indicators, indicators, indicators_shape commas flow inner]
  | pair _ question key colon value => by
    rw [shape, indicators, indicators, indicators_shape commas flow key,
      indicators_shape commas flow value]
  | entry dash value => by rw [shape, indicators, indicators, indicators_shape commas flow value]
  | mapping _ brackets pairs => by
    rw [shape, indicators, indicators, indicatorsOf_shapes, Option.isSome_map]
  | sequence _ brackets items => by
    rw [shape, indicators, indicators, indicatorsOf_shapes, Option.isSome_map]

theorem indicatorsOf_shapes (commas flow : Bool) : (nodes : List Node) →
    indicatorsOf flow (shapes commas nodes) = indicatorsOf flow nodes
  | [] => rfl
  | node :: nodes => by
    rw [shapes, indicatorsOf, indicatorsOf, indicators_shape commas flow node,
      indicatorsOf_shapes commas flow nodes]

end

mutual

theorem blockScalars_shape (commas : Bool) : (node : Node) →
    (node.shape commas).blockScalars = node.blockScalars
  | empty => rfl
  | scalar .. => rfl
  | reference .. => rfl
  | block .. => rfl
  | decorated _ _ _ inner => by
    rw [shape, blockScalars, blockScalars, blockScalars_shape commas inner]
  | pair _ _ key _ value => by
    rw [shape, blockScalars, blockScalars, blockScalars_shape commas key,
      blockScalars_shape commas value]
  | entry _ value => by rw [shape, blockScalars, blockScalars, blockScalars_shape commas value]
  | mapping _ _ pairs => by
    rw [shape, blockScalars, blockScalars, blockScalarsOf_shapes commas pairs]
  | sequence _ _ items => by
    rw [shape, blockScalars, blockScalars, blockScalarsOf_shapes commas items]

theorem blockScalarsOf_shapes (commas : Bool) : (nodes : List Node) →
    blockScalarsOf (shapes commas nodes) = blockScalarsOf nodes
  | [] => rfl
  | node :: nodes => by
    rw [shapes, blockScalarsOf, blockScalarsOf, blockScalars_shape commas node,
      blockScalarsOf_shapes commas nodes]

end

end Node

theorem Document.rules_shape {ctx other : LayoutContext} (h : ctx.Agrees other) (d : Document) :
    (d.shape true).rules ctx = d.rules other := by
  have hfirst : (d.shape true).first? = d.first? := by simp [first?, shape]
  rw [rules, rules, hfirst]
  simp only [shape, Node.first?_shape, Node.rules_shape h]

/-- The layout of a stream depends on the shape of its documents, and on the lines of its
tokens. -/
theorem Layout.ofStream_congr {stream other : Stream} {style : Style}
    (hctx : (LayoutContext.ofStyle stream.tokens style).Agrees (.ofStyle other.tokens style))
    (hsize : stream.tokens.size = other.tokens.size)
    (hshape : stream.documents.map (Document.shape true) =
      other.documents.map (Document.shape true)) :
    ofStream stream style = ofStream other style := by
  have hself : (LayoutContext.ofStyle stream.tokens style).Agrees (.ofStyle stream.tokens style) :=
    ⟨rfl, rfl, rfl, fun _ _ => rfl, fun _ => rfl⟩
  have hrules : stream.documents.flatMap (·.rules (.ofStyle stream.tokens style)) =
      other.documents.flatMap (·.rules (.ofStyle other.tokens style)) := by
    calc stream.documents.flatMap (·.rules (.ofStyle stream.tokens style))
        = (stream.documents.map (Document.shape true)).flatMap
            (·.rules (.ofStyle stream.tokens style)) := by
          simp only [List.flatMap_map, Document.rules_shape hself]
      _ = (other.documents.map (Document.shape true)).flatMap
            (·.rules (.ofStyle stream.tokens style)) := by rw [hshape]
      _ = other.documents.flatMap (·.rules (.ofStyle other.tokens style)) := by
          simp only [List.flatMap_map, Document.rules_shape hctx]
  have hindicators : stream.documents.flatMap (·.content.indicators false) =
      other.documents.flatMap (·.content.indicators false) := by
    have hflat := congrArg (List.flatMap (·.content.indicators false)) hshape
    simpa only [List.flatMap_map, Document.shape, Node.indicators_shape] using hflat
  have hblocks : stream.documents.flatMap (·.content.blockScalars) =
      other.documents.flatMap (·.content.blockScalars) := by
    have hflat := congrArg (List.flatMap (·.content.blockScalars)) hshape
    simpa only [List.flatMap_map, Document.shape, Node.blockScalars_shape] using hflat
  rw [ofStream, ofStream, hsize, hrules, hindicators, hblocks]

end YamlLayout
