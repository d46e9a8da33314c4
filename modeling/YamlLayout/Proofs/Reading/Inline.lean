import YamlLayout.Proofs.InPlace
import YamlLayout.Proofs.NodeParts
import YamlLayout.Proofs.Reading.Flow

/-!
# Inline nodes

Scalars, references and flow collections start with the token that is read first and
end with the one that is read last. Inside brackets there are brackets only: no node
there is laid out by columns.
-/
namespace YamlLayout

namespace Node

/-- The node is laid out by columns: a collection without brackets, or an entry of one. -/
def isUnbracketed : Node → Bool
  | entry .. => true
  | mapping _ none _ => true
  | sequence _ none _ => true
  | _ => false

/-- Neither the node nor any node inside it is laid out by columns. -/
def Bracketed (node : Node) : Prop := node.Every fun part => part.isUnbracketed = false

theorem Every.imp {P Q : Node → Prop} {node : Node} (h : node.Every P)
    (hPQ : ∀ node, P node → Q node) : node.Every Q := by
  induction node using parts_induction with
  | step node ih =>
    obtain ⟨hnode, hparts⟩ := every_iff.mp h
    exact every_iff.mpr ⟨hPQ node hnode, fun part hpart => ih part hpart (hparts part hpart)⟩

/-- A scalar, a reference or a collection in brackets. -/
def isInline : Node → Bool
  | scalar .. => true
  | reference .. => true
  | mapping _ (some _) _ => true
  | sequence _ (some _) _ => true
  | _ => false

theorem isEmpty_of_isInline {node : Node} (h : node.isInline = true) : node.isEmpty = false := by
  cases node <;> first | rfl | cases h

mutual

/-- The property holds of all rows of collections without brackets, and there are no such
collections inside brackets. -/
def EveryRow (P : Node → Prop) : Node → Prop
  | empty => True
  | scalar .. => True
  | block .. => True
  | reference .. => True
  | decorated _ _ _ inner => inner.EveryRow P
  | pair span question key colon value =>
    P (pair span question key colon value) ∧ key.EveryRow P ∧ value.EveryRow P
  | entry dash value => P (entry dash value) ∧ value.EveryRow P
  | mapping _ none rows => EveryRowOf P rows
  | sequence _ none rows => EveryRowOf P rows
  | mapping _ (some _) items => EveryOf (·.isUnbracketed = false) items
  | sequence _ (some _) items => EveryOf (·.isUnbracketed = false) items

def EveryRowOf (P : Node → Prop) : List Node → Prop
  | [] => True
  | row :: rows => row.EveryRow P ∧ EveryRowOf P rows

end

theorem everyRowOf_iff {P : Node → Prop} {rows : List Node} :
    EveryRowOf P rows ↔ ∀ row ∈ rows, row.EveryRow P := by
  induction rows with
  | nil => simp [EveryRowOf]
  | cons row rows ih => simp [EveryRowOf, ih]

theorem Bracketed.everyRow {node : Node} (h : node.Bracketed) (hinline : node.isInline = true)
    (P : Node → Prop) : node.EveryRow P := by
  cases node with
  | scalar => trivial
  | reference => trivial
  | mapping _ brackets =>
    cases brackets with
    | none => cases hinline
    | some => exact h.2
  | sequence _ brackets =>
    cases brackets with
    | none => cases hinline
    | some => exact h.2
  | _ => cases hinline

end Node

namespace ParseState

/-- The last token read ends at the cursor. -/
def JustRead (t : ParseState) : Prop :=
  ∃ a earlier, t.emitted = a :: earlier ∧ a.isComment = false ∧ a.past = t.cursor.position

theorem justRead_push (s : ParseState) {kind : TokenKind} (n : Nat) (hkind : kind ≠ .comment) :
    (s.push kind n).JustRead :=
  ⟨_, _, emitted_push .., by simpa [Token.isComment, ahead] using hkind, rfl⟩

/-- An inline node is read, from its first token to its last one. -/
structure ReadsInline (s : ParseState) (node : Node) (t : ParseState) : Prop where
  isInline : node.isInline = true
  first?_eq : node.first? = some s.next
  exists_first : ∃ kind n, s.ahead kind n :: s.emitted <:+ t.emitted
  bracketed : node.Bracketed
  justRead : t.JustRead

end ParseState

namespace Parse

open ParseState

variable {fuel : Nat} {s : ParseState}

theorem scalar_inline (style : ScalarStyle) (n : Nat) : (scalar style n).Ensures s s.ReadsInline :=
  .get_bind (.emit_bind (.get_bind (.pure
    ⟨rfl, rfl, ⟨_, _, List.suffix_refl _⟩, rfl, justRead_push s n (by decide)⟩)))

theorem reference_inline (flow : Bool) : (reference flow).Ensures s s.ReadsInline :=
  .get_bind (.emit_bind (.get_bind (.pure
    ⟨rfl, rfl, ⟨_, _, List.suffix_refl _⟩, rfl, justRead_push s _ (by decide)⟩)))

theorem quoted_inline : quoted.Ensures s s.ReadsInline := by
  unfold quoted
  refine .get_bind ?_
  split
  · exact .fail
  split
  · exact .fail
  split <;> extract_lets crossed
  · split
    · exact .fail_bind
    · exact scalar_inline _ _
  · split
    · exact .fail_bind
    · exact scalar_inline _ _

theorem plain_inline (parent : Int) (flow : Bool) (cause : ParseCause) :
    (plain parent flow cause).Ensures s s.ReadsInline := by
  unfold plain
  refine .get_bind ?_
  split
  · exact .fail
  · exact scalar_inline _ _

theorem decorate_bracketed {p : Properties} {id : TokenId} {node : Node} (h : node.Bracketed) :
    (decorate p id node).Ensures s fun d _ => d.Bracketed := by
  unfold decorate
  split
  · exact .pure h
  · exact .get_bind (.pure ⟨rfl, h⟩)

/-- What the readers of flow collections answer with, given some fuel. -/
structure FlowInline (fuel : Nat) : Prop where
  collection : ∀ s : ParseState, (flowCollection fuel).Ensures s s.ReadsInline
  items : ∀ (s : ParseState) (isMapping : Bool), (flowItems fuel isMapping).Ensures s
    fun inside t => (∀ item ∈ inside.items, item.Bracketed) ∧ t.JustRead
  item : ∀ (s : ParseState) (isMapping : Bool), (flowItem fuel isMapping).Ensures s
    fun item _ => item.Bracketed
  node : ∀ s : ParseState, (flowNode fuel).Ensures s fun node _ => node.Bracketed

theorem ensures_true {α : Type} (m : Parse α) : m.Ensures s fun _ _ => True :=
  fun _ _ _ => trivial

theorem flowCollection_inline (ih : FlowInline fuel) :
    (flowCollection (fuel + 1)).Ensures s s.ReadsInline := by
  rw [flowCollection]
  refine .get_bind ?_
  extract_lets isMapping
  refine .emit_bind (((ih.items _ isMapping).and ((readsFlow fuel).items _ isMapping)).bind
    fun inside t hinside => .get_bind ?_)
  obtain ⟨⟨hbracketed, hlast⟩, hitems⟩ := hinside
  have hinside := Node.everyOf_iff.mpr hbracketed
  have hfirst : s.ahead .punctuator 1 :: s.emitted <:+ t.emitted :=
    hitems.reads.moves.emitted_suffix
  split
  · exact .pure ⟨rfl, rfl, ⟨_, _, hfirst⟩, ⟨rfl, hinside⟩, hlast⟩
  · exact .pure ⟨rfl, rfl, ⟨_, _, hfirst⟩, ⟨rfl, hinside⟩, hlast⟩

theorem flowItems_inline (ih : FlowInline fuel) (isMapping : Bool) :
    (flowItems (fuel + 1) isMapping).Ensures s
      fun inside t => (∀ item ∈ inside.items, item.Bracketed) ∧ t.JustRead := by
  rw [flowItems]
  generalize (if isMapping = true then '\x7d' else ']') = closing
  refine (ensures_true _).bind fun _ t _ => .get_bind ?_
  split
  · exact .fail
  split
  · exact .emit_bind (.pure ⟨by simp, justRead_push t 1 (by decide)⟩)
  extract_lets more
  split
  · exact .fail_bind
  refine (ih.item t isMapping).bind fun item u hitem =>
    (ensures_true _).bind fun _ v _ => .get_bind ?_
  split
  · exact .fail
  split
  · refine .emit_bind ((ih.items _ isMapping).bind fun rest w hrest => .pure ⟨?_, hrest.2⟩)
    exact List.forall_mem_cons.mpr ⟨hitem, hrest.1⟩
  split
  · exact .emit_bind (.pure ⟨by simpa using hitem, justRead_push v 1 (by decide)⟩)
  · exact .fail

theorem flowItem_inline (ih : FlowInline fuel) (isMapping : Bool) :
    (flowItem (fuel + 1) isMapping).Ensures s fun item _ => item.Bracketed := by
  rw [flowItem]
  refine .get_bind (.get_bind ?_)
  extract_lets questioned
  have hquestioned : ∀ (question : Option TokenId) (t : ParseState),
      (questioned question).Ensures t fun item _ => item.Bracketed := by
    intro question t
    refine .get_bind ?_
    extract_lets keyed
    have hkeyed : ∀ (key : Node) (u : ParseState), key.Bracketed →
        (keyed key).Ensures u fun item _ => item.Bracketed := by
      intro key u hkey
      refine (ensures_true _).bind fun _ v _ => .get_bind ?_
      split
      · refine .emit_bind ((ensures_true _).bind fun _ w _ => .get_bind ?_)
        extract_lets valued
        have hvalued : ∀ (value : Node) (x : ParseState), value.Bracketed →
            (valued value).Ensures x fun item _ => item.Bracketed :=
          fun value x hvalue => .get_bind (.pure ⟨rfl, hkey, hvalue⟩)
        clear_value valued
        split
        · exact hvalued .empty w rfl
        · exact hvalued .empty w rfl
        · exact hvalued .empty w rfl
        · exact (ih.node w).bind hvalued
      · split
        · extract_lets answered
          split
          · exact .fail_bind
          · exact .pure hkey
        · exact .pure ⟨rfl, hkey, rfl⟩
    clear_value keyed
    split
    · exact hkeyed .empty t rfl
    · exact (ih.node t).bind hkeyed
  clear_value questioned
  split
  · exact .emit_bind ((ensures_true _).bind fun _ t _ => hquestioned _ t)
  · exact hquestioned none s

theorem flowNode_inline (ih : FlowInline fuel) :
    (flowNode (fuel + 1)).Ensures s fun node _ => node.Bracketed := by
  rw [flowNode]
  refine .get_bind ?_
  extract_lets first
  refine (ensures_true _).bind fun p t _ => ?_
  extract_lets decorated spaced
  have hdecorated : ∀ (node : Node) (u : ParseState), node.Bracketed →
      (decorated node).Ensures u fun node _ => node.Bracketed :=
    fun node u hnode => decorate_bracketed hnode
  have hinline : ∀ (node : Node) (u v : ParseState), u.ReadsInline node v →
      (decorated node).Ensures v fun node _ => node.Bracketed :=
    fun node u v hnode => hdecorated node v hnode.bracketed
  clear_value decorated
  have hspaced : ∀ u : ParseState, (spaced ()).Ensures u fun node _ => node.Bracketed := by
    intro u
    refine .get_bind ?_
    split
    · exact hdecorated .empty u rfl
    split
    · exact hdecorated .empty u rfl
    split
    · exact (reference_inline true).bind fun node v => hinline node u v
    split
    · exact quoted_inline.bind fun node v => hinline node u v
    split
    · exact (ih.collection u).bind fun node v => hinline node u v
    · exact (plain_inline (-1) true _).bind fun node v => hinline node u v
  clear_value spaced
  split
  · exact hspaced t
  · exact (ensures_true _).bind fun _ u _ => hspaced u

theorem flowInline (fuel : Nat) : FlowInline fuel := by
  induction fuel with
  | zero =>
    constructor
    · intro s
      rw [flowCollection]
      exact .fail
    · intro s isMapping
      rw [flowItems]
      exact .fail
    · intro s isMapping
      rw [flowItem]
      exact .fail
    · intro s
      rw [flowNode]
      exact .fail
  | succ fuel ih =>
    constructor
    · intro s
      exact flowCollection_inline ih
    · intro s isMapping
      exact flowItems_inline ih isMapping
    · intro s isMapping
      exact flowItem_inline ih isMapping
    · intro s
      exact flowNode_inline ih

theorem inlineNode_inline (fuel : Nat) (parent : Int) :
    (inlineNode fuel parent).Ensures s s.ReadsInline := by
  unfold inlineNode
  refine .get_bind ?_
  split
  · exact .fail
  split
  · exact reference_inline false
  split
  · exact quoted_inline
  split
  · exact (flowInline fuel).collection s
  split
  · exact .fail
  · exact plain_inline parent false _

end Parse

end YamlLayout
