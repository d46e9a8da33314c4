import YamlLayout.Node

/-!
# Numbered nodes

The nodes of a stream in one list, each after its children and the documents among
them. A node is named by its place in the list. Empty nodes and the entries of block
sequences have no place of their own.
-/
namespace YamlLayout

/-- The place of a node in the list of all nodes of a stream. -/
abbrev NodeId := Nat

/-- A node with its children replaced by their numbers. -/
inductive ArenaForm where
  | document (directives : List TokenId) (startMarker endMarker : Option TokenId)
      (content : Option NodeId)
  | mapping (brackets : Option Brackets) (pairs : List NodeId)
  /-- A sequence; each item has the dash before it, if there is one. -/
  | sequence (brackets : Option Brackets) (items : List (Option TokenId × Option NodeId))
  | pair (question : Option TokenId) (key : Option NodeId) (colon : Option TokenId)
      (value : Option NodeId)
  | scalar (style : ScalarStyle) (token : TokenId)
  | block (content : BlockScalar)
  | reference (token : TokenId)
  | decorated (anchor tag : Option TokenId) (inner : Option NodeId)
deriving Repr, DecidableEq

structure ArenaNode where
  span : Span
  form : ArenaForm
deriving Repr, DecidableEq

namespace Node

mutual

/-- The number of places a node takes, its children included. -/
def places : Node → Nat
  | empty => 0
  | scalar .. => 1
  | block .. => 1
  | reference .. => 1
  | decorated _ _ _ inner => inner.places + 1
  | pair _ _ key _ value => key.places + value.places + 1
  | entry _ value => value.places
  | mapping _ _ pairs => placesOf pairs + 1
  | sequence _ _ items => placesOf items + 1

def placesOf : List Node → Nat
  | [] => 0
  | node :: nodes => node.places + placesOf nodes

end

/-- The number of a node whose places start at `base`. -/
def id? (base : NodeId) (node : Node) : Option NodeId :=
  if node.places = 0 then none else some (base + node.places - 1)

/-- The dash of an entry. -/
def dash? : Node → Option TokenId
  | entry dash _ => some dash
  | _ => none

/-- The numbers of nodes that follow each other from `base` on, with their dashes. -/
def slots (base : NodeId) : List Node → List (Option TokenId × Option NodeId)
  | [] => []
  | node :: nodes => (node.dash?, node.id? base) :: slots (base + node.places) nodes

mutual

/-- The places of a node in order, from `base` on. -/
def listing (base : NodeId) : Node → List ArenaNode
  | empty => []
  | scalar span style token => [⟨span, .scalar style token⟩]
  | block span content => [⟨span, .block content⟩]
  | reference span token => [⟨span, .reference token⟩]
  | decorated span anchor tag inner =>
    inner.listing base ++ [⟨span, .decorated anchor tag (inner.id? base)⟩]
  | pair span question key colon value =>
    key.listing base ++ value.listing (base + key.places) ++
      [⟨span, .pair question (key.id? base) colon (value.id? (base + key.places))⟩]
  | entry _ value => value.listing base
  | mapping span brackets pairs =>
    listingOf base pairs ++ [⟨span, .mapping brackets ((slots base pairs).filterMap (·.2))⟩]
  | sequence span brackets items =>
    listingOf base items ++ [⟨span, .sequence brackets (slots base items)⟩]

def listingOf (base : NodeId) : List Node → List ArenaNode
  | [] => []
  | node :: nodes => node.listing base ++ listingOf (base + node.places) nodes

end

end Node

/-- All nodes of a stream, and the numbers of its documents. -/
structure Arena where
  nodes : List ArenaNode
  documents : List NodeId
deriving Repr, DecidableEq

/-- The places of documents that follow each other from `base` on. -/
def Arena.ofDocuments (base : NodeId) : List Document → Arena
  | [] => ⟨[], []⟩
  | d :: ds =>
    let id := base + d.content.places
    let form := .document d.directives d.startMarker d.endMarker (d.content.id? base)
    let rest := ofDocuments (id + 1) ds
    ⟨d.content.listing base ++ ⟨d.span, form⟩ :: rest.nodes, id :: rest.documents⟩

def Stream.arena (s : Stream) : Arena := .ofDocuments 0 s.documents

end YamlLayout
