import YamlLayout.Node.Arena
import YamlLayout.Proofs.ColumnRules
import YamlLayout.Proofs.Reading.Frames

/-!
# The parts of a node

A node is put together from the nodes right inside it and from tokens of its own. What
holds of all nodes is shown by induction over the parts. The numbered form of a node
lists its parts first and then the node itself, under the numbers of its parts. The
rules of a node are its own and those of its parts.
-/
namespace YamlLayout

namespace Node

/-- The nodes right inside a node, in order. -/
def parts : Node → List Node
  | empty => []
  | scalar .. => []
  | block .. => []
  | reference .. => []
  | decorated _ _ _ inner => [inner]
  | pair _ _ key _ value => [key, value]
  | entry _ value => [value]
  | mapping _ _ pairs => pairs
  | sequence _ _ items => items

mutual

/-- What carries over from the parts of a node to the node holds of all nodes. -/
theorem parts_induction {P : Node → Prop}
    (step : ∀ node, (∀ part ∈ node.parts, P part) → P node) : (node : Node) → P node
  | empty => step _ (by simp [parts])
  | scalar .. => step _ (by simp [parts])
  | block .. => step _ (by simp [parts])
  | reference .. => step _ (by simp [parts])
  | decorated _ _ _ inner => step _ (by simp [parts, parts_induction step inner])
  | pair _ _ key _ value =>
    step _ (by simp [parts, parts_induction step key, parts_induction step value])
  | entry _ value => step _ (by simp [parts, parts_induction step value])
  | mapping _ _ pairs => step _ (parts_inductionOf step pairs)
  | sequence _ _ items => step _ (parts_inductionOf step items)

theorem parts_inductionOf {P : Node → Prop}
    (step : ∀ node, (∀ part ∈ node.parts, P part) → P node) :
    (nodes : List Node) → ∀ node ∈ nodes, P node
  | [] => by simp
  | first :: nodes => by
    intro node hnode
    have hfirst := parts_induction step first
    rcases List.mem_cons.mp hnode with rfl | hnode
    · exact hfirst
    · exact parts_inductionOf step nodes node hnode

end

theorem everyOf_iff {P : Node → Prop} {nodes : List Node} :
    EveryOf P nodes ↔ ∀ node ∈ nodes, node.Every P := by
  induction nodes with
  | nil => simp [EveryOf]
  | cons node nodes ih => simp [EveryOf, ih]

theorem every_iff {P : Node → Prop} {node : Node} :
    node.Every P ↔ P node ∧ ∀ part ∈ node.parts, part.Every P := by
  cases node <;> simp [Every, parts, everyOf_iff]

/-- A node as it stands among the parts of another: in order, or an entry whose value is
in order. -/
def Proper : Node → Prop
  | entry _ value => value.Formed
  | node => node.Formed

theorem Formed.proper {node : Node} (h : node.Formed) : node.Proper := by
  cases node <;> first | exact h | cases h

theorem Formed.dash?_eq {node : Node} (h : node.Formed) : node.dash? = none := by
  cases node <;> first | rfl | cases h

theorem formedAll_iff {nodes : List Node} : FormedAll nodes ↔ ∀ node ∈ nodes, node.Formed := by
  induction nodes with
  | nil => simp [FormedAll]
  | cons node nodes ih => simp [FormedAll, ih]

theorem FormedEntries.proper {nodes : List Node} (h : FormedEntries nodes) :
    ∀ node ∈ nodes, node.Proper := by
  induction nodes with
  | nil => simp
  | cons first nodes ih =>
    cases first with
    | entry dash value =>
      intro node hnode
      rcases List.mem_cons.mp hnode with rfl | hnode
      · exact h.1
      · exact ih h.2 node hnode
    | _ => cases h

theorem Proper.of_mem_parts {node part : Node} (h : node.Proper) (hpart : part ∈ node.parts) :
    part.Proper := by
  cases node with
  | empty => cases hpart
  | scalar => cases hpart
  | block => cases hpart
  | reference => cases hpart
  | decorated _ _ _ inner =>
    rw [List.mem_singleton.mp hpart]
    exact Formed.proper h
  | pair _ _ key _ value =>
    rcases List.mem_pair.mp hpart with rfl | rfl
    · exact Formed.proper h.1
    · exact Formed.proper h.2.1
  | entry _ value =>
    rw [List.mem_singleton.mp hpart]
    exact Formed.proper h
  | mapping _ _ pairs => exact (formedAll_iff.mp h part hpart).proper
  | sequence _ brackets items =>
    cases brackets with
    | none => exact FormedEntries.proper h part hpart
    | some => exact (formedAll_iff.mp h part hpart).proper

end Node

namespace Brackets

def tokens (b : Brackets) : List TokenId := b.opening :: (b.commas ++ [b.closing])

end Brackets

namespace Node

/-- The tokens of a node that are in none of its parts. -/
def own : Node → List TokenId
  | empty => []
  | scalar _ _ token => [token]
  | block _ content => content.header :: content.body.toList
  | reference _ token => [token]
  | decorated _ anchor tag _ => anchor.toList ++ tag.toList
  | pair _ question _ colon _ => question.toList ++ colon.toList
  | entry dash _ => [dash]
  | mapping _ brackets _ => (brackets.map (·.tokens)).getD []
  | sequence _ brackets _ => (brackets.map (·.tokens)).getD []

theorem mem_idsOf_iff {commas : List TokenId} {nodes : List Node} {token : TokenId} :
    token ∈ idsOf commas nodes ↔ token ∈ commas ∨ ∃ node ∈ nodes, token ∈ node.ids := by
  induction nodes generalizing commas with
  | nil => simp [idsOf, piecesOf]
  | cons node nodes ih =>
    have hcommas : token ∈ commas ↔ token ∈ commas.take 1 ∨ token ∈ commas.drop 1 := by
      rw [← List.mem_append, List.take_append_drop]
    rw [idsOf_cons, List.mem_append, List.mem_append, ih, hcommas]
    simp only [List.mem_cons, exists_eq_or_imp]
    tauto

theorem mem_bracketedIds_iff {brackets : Brackets} {nodes : List Node} {token : TokenId} :
    token ∈ bracketedIds brackets nodes ↔
      token ∈ brackets.tokens ∨ ∃ node ∈ nodes, token ∈ node.ids := by
  simp only [bracketedIds, Brackets.tokens, List.mem_cons, List.mem_append, mem_idsOf_iff,
    List.not_mem_nil, or_false]
  grind

theorem mem_ids_iff {node : Node} {token : TokenId} :
    token ∈ node.ids ↔ token ∈ node.own ∨ ∃ part ∈ node.parts, token ∈ part.ids := by
  cases node with
  | empty => simp [ids, pieces, own, parts]
  | scalar => simp [ids, pieces, own, parts, Piece.ids]
  | block => simp [ids, pieces, own, parts, Piece.ids]
  | reference => simp [ids, pieces, own, parts, Piece.ids]
  | decorated _ anchor tag inner =>
    have hown := @mem_properties_iff anchor tag token
    simp only [ids_decorated, own, parts, List.mem_append, List.mem_singleton, exists_eq_left,
      Option.mem_toList, ← or_assoc] at hown ⊢
    rw [hown]
  | pair => simp [own, parts]; tauto
  | entry => simp [own, parts]
  | mapping _ brackets pairs =>
    cases brackets with
    | none => simp [own, parts, mem_idsOf_iff]
    | some b => simp [own, parts, mem_bracketedIds_iff]
  | sequence _ brackets items =>
    cases brackets with
    | none => simp [own, parts, mem_idsOf_iff]
    | some b => simp [own, parts, mem_bracketedIds_iff]

theorem idsOf_nil_sublist (commas : List TokenId) (nodes : List Node) :
    (idsOf [] nodes).Sublist (idsOf commas nodes) := by
  induction nodes generalizing commas with
  | nil => exact List.nil_sublist _
  | cons node nodes ih =>
    rw [idsOf_cons, idsOf_cons]
    exact .append (.refl _) ((ih _).trans (List.sublist_append_right ..))

/-- The tokens of the parts stand in the order of the parts. -/
theorem idsOf_parts_sublist (node : Node) : (idsOf [] node.parts).Sublist node.ids := by
  have hbracketed : ∀ brackets items,
      (idsOf [] items).Sublist (bracketedIds brackets items) := by
    intro brackets items
    exact (idsOf_nil_sublist brackets.commas items).trans
      ((List.sublist_append_left ..).trans (List.sublist_cons_self ..))
  have hnil : idsOf [] [] = [] := rfl
  cases node with
  | empty => exact List.nil_sublist _
  | scalar => exact List.nil_sublist _
  | block => exact List.nil_sublist _
  | reference => exact List.nil_sublist _
  | decorated _ _ _ inner =>
    have hparts : idsOf [] [inner] = inner.ids := by simp [idsOf_cons, hnil]
    rw [ids_decorated, parts, hparts]
    exact (List.sublist_append_right ..).trans (List.sublist_append_right ..)
  | pair _ question key colon value =>
    have hparts : idsOf [] [key, value] = key.ids ++ value.ids := by simp [idsOf_cons, hnil]
    rw [ids_pair, parts, hparts]
    exact ((List.Sublist.refl _).append (List.sublist_append_right ..)).trans
      (List.sublist_append_right ..)
  | entry dash value =>
    have hparts : idsOf [] [value] = value.ids := by simp [idsOf_cons, hnil]
    rw [ids_entry, parts, hparts]
    exact List.sublist_cons_self ..
  | mapping _ brackets pairs =>
    cases brackets with
    | none => exact .refl _
    | some b =>
      rw [ids_mapping_some]
      exact hbracketed b pairs
  | sequence _ brackets items =>
    cases brackets with
    | none => exact .refl _
    | some b =>
      rw [ids_sequence_some]
      exact hbracketed b items

theorem ids_sublist_of_mem_parts {node part : Node} (h : part ∈ node.parts) :
    part.ids.Sublist node.ids :=
  (ids_sublist_idsOf h).trans (idsOf_parts_sublist node)

section Rules

variable (ctx : LayoutContext) (flow : Bool)

/-- The rules of a node without those of its parts. -/
def ownRules : Node → List Assignment
  | block _ content => Assignment.setOff content.body (some content.header) ctx.unit (some 0)
  | decorated _ anchor tag inner =>
    Assignment.setOff (later anchor tag) (earlier anchor tag) 0 none ++
      Assignment.setOff inner.first? (earlier anchor tag) ctx.unit (some 0)
  | pair _ question key colon value => pairRules ctx flow question key colon value
  | mapping _ none pairs =>
    pairs.flatMap fun pair => Assignment.setOff pair.first? (firstOf? pairs) 0 none
  | mapping _ (some brackets) pairs => flowRules ctx brackets pairs
  | sequence _ none items => items.flatMap (entryRules ctx (firstOf? items))
  | sequence _ (some brackets) items => flowRules ctx brackets items
  | _ => []

/-- The parts of the node are inside a flow collection. -/
def holdsFlow : Node → Bool
  | mapping _ brackets _ => flow || brackets.isSome
  | sequence _ brackets _ => flow || brackets.isSome
  | _ => flow

theorem mem_rules_iff {node : Node} {a : Assignment} :
    a ∈ node.rules ctx flow ↔ a ∈ node.ownRules ctx flow ∨
      ∃ part ∈ node.parts, a ∈ part.rules ctx (node.holdsFlow flow) := by
  cases node with
  | empty => simp [rules, ownRules, parts]
  | scalar => simp [rules, ownRules, parts]
  | block => simp [rules, ownRules, parts]
  | reference => simp [rules, ownRules, parts]
  | decorated => simp [rules, ownRules, parts, holdsFlow, or_assoc]
  | pair => simp [rules, ownRules, parts, holdsFlow]
  | entry => simp [rules, ownRules, parts, holdsFlow]
  | mapping _ brackets pairs =>
    cases brackets <;> simp [rules, ownRules, parts, holdsFlow, mem_rulesOf_iff]
  | sequence _ brackets items =>
    cases brackets <;> simp [rules, ownRules, parts, holdsFlow, mem_rulesOf_iff]

end Rules

end Node

end YamlLayout
