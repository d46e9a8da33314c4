import YamlLayout.Layout
import YamlLayout.Proofs.Reading

/-!
# The pieces of a node

The tokens of a node in the order of the text, with those of a block scalar kept
together.
-/
namespace YamlLayout

namespace Piece

def mark (token : Option TokenId) : List Piece := token.toList.map .token

/-- An anchor and a tag, the one that comes first in front. -/
def properties (anchor tag : Option TokenId) : List Piece :=
  mark (Node.earlier anchor tag) ++ mark (Node.later anchor tag)

/-- The pieces inside brackets, together with the brackets. -/
def bracketed (brackets : Option Brackets) (inside : List Piece) : List Piece :=
  match brackets with
  | none => inside
  | some b => .token b.opening :: (inside ++ [.token b.closing])

def block? : Piece → Option BlockScalar
  | token _ => none
  | block content => some content

@[simp] theorem filterMap_block?_token_cons (id : TokenId) (ps : List Piece) :
    (token id :: ps).filterMap block? = ps.filterMap block? := rfl

@[simp] theorem filterMap_block?_map_token (ids : List TokenId) :
    (ids.map token).filterMap block? = [] := by
  induction ids with
  | nil => rfl
  | cons id ids ih => rw [List.map_cons, filterMap_block?_token_cons, ih]

@[simp] theorem filterMap_block?_mark (token : Option TokenId) :
    (mark token).filterMap block? = [] := filterMap_block?_map_token _

@[simp] theorem filterMap_block?_properties (anchor tag : Option TokenId) :
    (properties anchor tag).filterMap block? = [] := by
  simp [properties]

@[simp] theorem filterMap_block?_bracketed (brackets : Option Brackets) (inside : List Piece) :
    (bracketed brackets inside).filterMap block? = inside.filterMap block? := by
  cases brackets <;> simp [bracketed]

end Piece

namespace Node

mutual

def pieces : Node → List Piece
  | empty => []
  | scalar _ _ token => [.token token]
  | block _ content => [.block content]
  | reference _ token => [.token token]
  | decorated _ anchor tag inner => Piece.properties anchor tag ++ inner.pieces
  | pair _ question key colon value =>
    Piece.mark question ++ (key.pieces ++ (Piece.mark colon ++ value.pieces))
  | entry dash value => .token dash :: value.pieces
  | mapping _ brackets pairs =>
    Piece.bracketed brackets (piecesOf ((brackets.map (·.commas)).getD []) pairs)
  | sequence _ brackets items =>
    Piece.bracketed brackets (piecesOf ((brackets.map (·.commas)).getD []) items)

/-- The pieces of nodes with commas between them. -/
def piecesOf (commas : List TokenId) : List Node → List Piece
  | [] => commas.map .token
  | node :: nodes => node.pieces ++ ((commas.take 1).map .token ++ piecesOf (commas.drop 1) nodes)

end

mutual

/-- The node is put together as it is read: a value comes after a colon, and entries
stand in block sequences and nowhere else. -/
def Formed : Node → Prop
  | empty => True
  | scalar .. => True
  | block .. => True
  | reference .. => True
  | decorated _ _ _ inner => inner.Formed
  | pair _ _ key colon value => key.Formed ∧ value.Formed ∧ (colon = none → value.pieces = [])
  | entry .. => False
  | mapping _ _ pairs => FormedAll pairs
  | sequence _ none items => FormedEntries items
  | sequence _ (some _) items => FormedAll items

def FormedAll : List Node → Prop
  | [] => True
  | node :: nodes => node.Formed ∧ FormedAll nodes

def FormedEntries : List Node → Prop
  | [] => True
  | entry _ value :: nodes => value.Formed ∧ FormedEntries nodes
  | _ :: _ => False

end

mutual

/-- The block scalars of a node are those among its pieces. -/
theorem blockScalars_eq : (node : Node) →
    node.blockScalars = node.pieces.filterMap Piece.block?
  | empty => rfl
  | scalar .. => rfl
  | reference .. => rfl
  | block .. => rfl
  | decorated _ anchor tag inner => by
    simp [blockScalars, pieces, blockScalars_eq inner]
  | pair _ question key colon value => by
    simp [blockScalars, pieces, blockScalars_eq key, blockScalars_eq value]
  | entry dash value => by
    simp [blockScalars, pieces, blockScalars_eq value]
  | mapping _ brackets pairs => by
    rw [blockScalars, pieces, Piece.filterMap_block?_bracketed]
    exact blockScalarsOf_eq _ pairs
  | sequence _ brackets items => by
    rw [blockScalars, pieces, Piece.filterMap_block?_bracketed]
    exact blockScalarsOf_eq _ items

theorem blockScalarsOf_eq (commas : List TokenId) : (nodes : List Node) →
    blockScalarsOf nodes = (piecesOf commas nodes).filterMap Piece.block?
  | [] => by
    rw [blockScalarsOf, piecesOf, Piece.filterMap_block?_map_token]
  | node :: nodes => by
    rw [blockScalarsOf, piecesOf, blockScalars_eq node, blockScalarsOf_eq (commas.drop 1) nodes,
      List.filterMap_append, List.filterMap_append, Piece.filterMap_block?_map_token,
      List.nil_append]

end

end Node

namespace Properties

def pieces (p : Properties) : List Piece := Piece.properties p.anchor p.tag

theorem pieces_of_isEmpty {p : Properties} (h : p.isEmpty = true) : p.pieces = [] := by
  simp only [isEmpty, Bool.and_eq_true, Option.isNone_iff_eq_none] at h
  simp [pieces, h.1, h.2, Piece.properties, Piece.mark, Node.earlier, Node.later]

/-- A property that is added comes after the one already there. -/
theorem pieces_withAnchor {p : Properties} {mark : Landmark} (h : ¬p.anchor.isSome = true)
    (hlt : ∀ i, .token i ∈ p.pieces → i < mark.token) (line : Nat) :
    (p.withAnchor mark line).pieces = p.pieces ++ [.token mark.token] := by
  have hanchor : p.anchor = Option.none := by simpa using h
  rcases htag : p.tag with _ | tag
  · simp [pieces, withAnchor, hanchor, htag, Piece.properties, Piece.mark, Node.earlier, Node.later]
  · have hold : p.pieces = [.token tag] := by
      simp [pieces, hanchor, htag, Piece.properties, Piece.mark, Node.earlier, Node.later]
    have hnew : tag < mark.token := hlt tag (by simp [hold])
    rw [hold]
    simp [pieces, withAnchor, htag, Piece.properties, Piece.mark, Node.earlier, Node.later,
      Nat.min_eq_right (Nat.le_of_lt hnew), Nat.max_eq_left (Nat.le_of_lt hnew)]

theorem pieces_withTag {p : Properties} {mark : Landmark} (h : ¬p.tag.isSome = true)
    (hlt : ∀ i, .token i ∈ p.pieces → i < mark.token) (line : Nat) :
    (p.withTag mark line).pieces = p.pieces ++ [.token mark.token] := by
  have htag : p.tag = Option.none := by simpa using h
  rcases hanchor : p.anchor with _ | anchor
  · simp [pieces, withTag, hanchor, htag, Piece.properties, Piece.mark, Node.earlier, Node.later]
  · have hold : p.pieces = [.token anchor] := by
      simp [pieces, hanchor, htag, Piece.properties, Piece.mark, Node.earlier, Node.later]
    have hnew : anchor < mark.token := hlt anchor (by simp [hold])
    rw [hold]
    simp [pieces, withTag, hanchor, Piece.properties, Piece.mark, Node.earlier, Node.later,
      Nat.min_eq_left (Nat.le_of_lt hnew), Nat.max_eq_right (Nat.le_of_lt hnew)]

end Properties

def Document.pieces (d : Document) : List Piece :=
  d.directives.map .token ++ (Piece.mark d.startMarker ++ (d.content.pieces ++
    Piece.mark d.endMarker))

end YamlLayout
