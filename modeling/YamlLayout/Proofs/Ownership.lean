import YamlLayout.Proofs.Reading.Numbers
import YamlLayout.Proofs.TokenPlaces

/-!
# Which tokens the documents own

The pieces of a stream hold the numbers of all its tokens but comments, in increasing
order, and the first token of a node is the one its pieces start with.
-/
namespace YamlLayout

namespace Node

mutual

/-- The first token of a node is the first of its pieces. -/
theorem first?_eq_head? : (node : Node) → node.first? = node.ids.head?
  | empty => rfl
  | scalar .. => rfl
  | block .. => rfl
  | reference .. => rfl
  | decorated _ anchor tag inner => by
    have hinner := first?_eq_head? inner
    rw [ids] at hinner
    cases anchor <;> cases tag <;> simp [first?, ids, pieces, earlier, later, hinner]
  | pair _ question key colon value => by
    have hkey := first?_eq_head? key
    have hvalue := first?_eq_head? value
    rw [ids] at hkey hvalue
    cases question <;> cases colon <;> simp [first?, ids, pieces, hkey, hvalue]
  | entry dash value => rfl
  | mapping _ none pairs => by
    rw [first?, Option.map_none, Option.none_or, firstOf?_eq_head? pairs]
    rfl
  | mapping _ (some brackets) pairs => rfl
  | sequence _ none items => by
    rw [first?, Option.map_none, Option.none_or, firstOf?_eq_head? items]
    rfl
  | sequence _ (some brackets) items => rfl

theorem firstOf?_eq_head? : (nodes : List Node) →
    firstOf? nodes = ((piecesOf [] nodes).flatMap Piece.ids).head?
  | [] => rfl
  | node :: nodes => by
    have hnode := first?_eq_head? node
    rw [ids] at hnode
    have hnodes := firstOf?_eq_head? nodes
    simp [firstOf?, piecesOf, hnode, hnodes]

end

end Node

namespace Document

theorem first?_eq_head? (d : Document) : d.first? = d.ids.head? := by
  rw [ids_eq, first?, Node.first?_eq_head?]
  cases d.startMarker <;> cases d.endMarker <;> simp

end Document

namespace Stream

variable {stream : Stream} {s : ParseState}

/-- The numbers of the tokens of all documents. -/
def ids (stream : Stream) : List TokenId := stream.pieces.flatMap Piece.ids

theorem ids_eq_flatMap (stream : Stream) :
    stream.ids = stream.documents.flatMap Document.ids := List.flatMap_assoc ..

theorem mem_ids_iff {i : TokenId} : i ∈ stream.ids ↔ ∃ d ∈ stream.documents, i ∈ d.ids := by
  rw [ids_eq_flatMap, List.mem_flatMap]

theorem document_ids_sublist {d : Document} (hd : d ∈ stream.documents) :
    d.ids.Sublist stream.ids := by
  rw [ids_eq_flatMap, List.flatMap_def]
  exact List.sublist_flatten_of_mem (List.mem_map_of_mem hd)

theorem ReadTo.pairwise_ids (h : stream.ReadTo s) : stream.ids.Pairwise (· < ·) :=
  h.reads.ids_bounds.1

theorem ReadTo.lt_size_of_mem_ids {i : Nat} (h : stream.ReadTo s) (hi : i ∈ stream.ids) :
    i < stream.tokens.size := by
  have hlt := (h.reads.ids_bounds.2 i hi).2
  rw [h.tokens_eq]
  simpa [ParseState.next] using hlt

/-- The documents own all tokens but comments. -/
theorem ReadTo.mem_ids_iff {i : Nat} {a : Token} (h : stream.ReadTo s)
    (ha : stream.tokens[i]? = some a) : i ∈ stream.ids ↔ a.isComment = false := by
  rw [h.tokens_eq, List.getElem?_toArray] at ha
  have hlt : i < s.next := by
    have hlength := (List.getElem?_eq_some_iff.mp ha).1
    simpa [ParseState.next] using hlength
  exact h.reads.mem_ids_iff (Nat.zero_le i) hlt ha

end Stream

end YamlLayout
