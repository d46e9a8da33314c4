import YamlLayout.Proofs.NodeParts

/-!
# Numbered nodes and their children

A node takes a number for itself and for each node inside it. Each of these numbers but
its own is that of one child, and the tokens that can be reached from a number are those
of the node that stands under it.
-/
namespace YamlLayout

namespace ArenaForm

/-- The numbers of the children, in order. -/
def children : ArenaForm → List NodeId
  | document _ _ _ content => content.toList
  | mapping _ pairs => pairs
  | sequence _ items => items.filterMap (·.2)
  | pair _ key _ value => key.toList ++ value.toList
  | scalar .. => []
  | block .. => []
  | reference .. => []
  | decorated _ _ inner => inner.toList

/-- The tokens that are named by the node itself. -/
def tokens : ArenaForm → List TokenId
  | document directives startMarker endMarker _ =>
    directives ++ (startMarker.toList ++ endMarker.toList)
  | mapping brackets _ => (brackets.map (·.tokens)).getD []
  | sequence brackets items => (brackets.map (·.tokens)).getD [] ++ items.filterMap (·.1)
  | pair question _ colon _ => question.toList ++ colon.toList
  | scalar _ token => [token]
  | block content => content.header :: content.body.toList
  | reference token => [token]
  | decorated anchor tag _ => anchor.toList ++ tag.toList

end ArenaForm

namespace Arena

/-- The numbers of the children of a node; there are none where there is no node. -/
def children (arena : Arena) (id : NodeId) : List NodeId :=
  (arena.nodes[id]?.map (·.form.children)).getD []

/-- The token is named by the node or by one below it. -/
inductive Owns (arena : Arena) : NodeId → TokenId → Prop
  | own {id : NodeId} {node : ArenaNode} {token : TokenId} (hnode : arena.nodes[id]? = some node)
      (htoken : token ∈ node.form.tokens) : Owns arena id token
  | child {id child : NodeId} {node : ArenaNode} {token : TokenId}
      (hnode : arena.nodes[id]? = some node) (hchild : child ∈ node.form.children)
      (howns : Owns arena child token) : Owns arena id token

variable {arena : Arena} {base id : NodeId} {node : ArenaNode} {token : TokenId}
  {listed more : List ArenaNode}

theorem owns_iff (h : arena.nodes[id]? = some node) :
    arena.Owns id token ↔
      token ∈ node.form.tokens ∨ ∃ child ∈ node.form.children, arena.Owns child token := by
  constructor
  · intro howns
    cases howns with
    | own hnode htoken =>
      rw [h, Option.some.injEq] at hnode
      exact .inl (hnode ▸ htoken)
    | child hnode hchild howns =>
      rw [h, Option.some.injEq] at hnode
      exact .inr ⟨_, hnode ▸ hchild, howns⟩
  · rintro (htoken | ⟨child, hchild, howns⟩)
    · exact .own h htoken
    · exact .child h hchild howns

/-- The nodes stand in the arena from the number `base` on. -/
abbrev Holds (arena : Arena) (base : NodeId) (listed : List ArenaNode) : Prop :=
  HoldsAt arena.nodes base listed

end Arena

namespace Node

variable {base : NodeId} {node : Node} {nodes : List Node} {listed : ArenaNode} {token : TokenId}

/-- The place of a node itself, after those of its parts. -/
def root? (base : NodeId) : Node → Option ArenaNode
  | empty => none
  | scalar span style token => some ⟨span, .scalar style token⟩
  | block span content => some ⟨span, .block content⟩
  | reference span token => some ⟨span, .reference token⟩
  | decorated span anchor tag inner => some ⟨span, .decorated anchor tag (inner.id? base)⟩
  | pair span question key colon value =>
    some ⟨span, .pair question (key.id? base) colon (value.id? (base + key.places))⟩
  | entry .. => none
  | mapping span brackets pairs =>
    some ⟨span, .mapping brackets ((slots base pairs).filterMap (·.2))⟩
  | sequence span brackets items => some ⟨span, .sequence brackets (slots base items)⟩

theorem listingOf_cons (base : NodeId) (node : Node) (nodes : List Node) :
    listingOf base (node :: nodes) = node.listing base ++ listingOf (base + node.places) nodes :=
  rfl

theorem placesOf_cons (node : Node) (nodes : List Node) :
    placesOf (node :: nodes) = node.places + placesOf nodes :=
  rfl

theorem listing_eq (base : NodeId) (node : Node) :
    node.listing base = listingOf base node.parts ++ (node.root? base).toList := by
  cases node <;> simp [listing, listingOf, parts, root?]

theorem places_eq (base : NodeId) (node : Node) :
    node.places = placesOf node.parts + (node.root? base).toList.length := by
  cases node <;> simp [places, placesOf, parts, root?]

theorem span?_eq (base : NodeId) (node : Node) : node.span? = (node.root? base).map (·.span) := by
  cases node <;> rfl

/-- The numbers of the nodes in a list. -/
def idsFrom (base : NodeId) (nodes : List Node) : List NodeId := (slots base nodes).filterMap (·.2)

@[simp] theorem idsFrom_nil (base : NodeId) : idsFrom base [] = [] := rfl

theorem idsFrom_cons (base : NodeId) (node : Node) (nodes : List Node) :
    idsFrom base (node :: nodes) =
      (node.id? base).toList ++ idsFrom (base + node.places) nodes := by
  rw [idsFrom, slots]
  cases node.id? base <;> simp [idsFrom]

theorem children_eq (h : node.root? base = some listed) :
    listed.form.children = idsFrom base node.parts := by
  cases node with
  | mapping => cases h; rfl
  | sequence => cases h; rfl
  | _ => cases h <;> simp [ArenaForm.children, parts, idsFrom_cons]

theorem id?_eq (h : node.root? base = some listed) :
    node.id? base = some (base + placesOf node.parts) := by
  have hplaces := places_eq base node
  rw [h, Option.toList_some, List.length_singleton] at hplaces
  rw [id?, hplaces, if_neg (Nat.succ_ne_zero _)]
  rfl

/-- A node without a place of its own goes by the number of its part. -/
theorem id?_eq_of_none (h : node.root? base = none) :
    (node.id? base).toList = idsFrom base node.parts := by
  cases node with
  | empty => rfl
  | entry dash value =>
    rw [parts, idsFrom_cons, idsFrom_nil, List.append_nil]
    rfl
  | _ => cases h

theorem length_listingOf (h : ∀ node ∈ nodes, ∀ base, (node.listing base).length = node.places)
    (base : NodeId) : (listingOf base nodes).length = placesOf nodes := by
  induction nodes generalizing base with
  | nil => rfl
  | cons node nodes ih =>
    rw [listingOf_cons, placesOf_cons, List.length_append, h node (List.mem_cons_self ..),
      ih fun node hnode => h node (List.mem_cons_of_mem _ hnode)]

@[simp] theorem length_listing (base : NodeId) (node : Node) :
    (node.listing base).length = node.places := by
  induction node using parts_induction generalizing base with
  | step node ih =>
    rw [listing_eq, places_eq base, List.length_append, length_listingOf ih]

/-! ## Parents and children -/

theorem perm_idsFrom (h : ∀ node ∈ nodes, ∀ base,
      ((node.listing base).flatMap (·.form.children) ++ (node.id? base).toList).Perm
        (List.range' base node.places)) (base : NodeId) :
    ((listingOf base nodes).flatMap (·.form.children) ++ idsFrom base nodes).Perm
      (List.range' base (placesOf nodes)) := by
  induction nodes generalizing base with
  | nil => exact .nil
  | cons node nodes ih =>
    have hnode := h node (List.mem_cons_self ..) base
    have hnodes := ih (fun node hnode => h node (List.mem_cons_of_mem _ hnode))
      (base + node.places)
    rw [listingOf_cons, placesOf_cons, idsFrom_cons, List.flatMap_append,
      ← List.range'_append_1]
    refine .trans ?_ (hnode.append hnodes)
    simp only [List.append_assoc]
    exact List.perm_append_comm_assoc .. |>.append_left _

/-- Of the numbers that a node and those below it take, one is that of the node and each
other is that of one child. -/
theorem perm_children (base : NodeId) (node : Node) :
    ((node.listing base).flatMap (·.form.children) ++ (node.id? base).toList).Perm
      (List.range' base node.places) := by
  induction node using parts_induction generalizing base with
  | step node ih =>
    have hparts := perm_idsFrom ih base
    rw [listing_eq, places_eq base]
    cases hroot : node.root? base with
    | none =>
      rw [id?_eq_of_none hroot]
      simpa using hparts
    | some listed =>
      rw [id?_eq hroot, Option.toList_some, Option.toList_some, List.length_singleton,
        List.flatMap_append, List.flatMap_singleton, children_eq hroot, List.range'_1_concat]
      exact hparts.append_right _

theorem idsFrom_bounds {id : NodeId} (h : id ∈ idsFrom base nodes) :
    base ≤ id ∧ id < base + placesOf nodes := by
  have hmem := (perm_idsFrom (fun node _ base => perm_children base node) base).mem_iff.mp
    (List.mem_append_right _ h)
  exact List.mem_range'_1.mp hmem

end Node

namespace Arena

open Node

variable {arena : Arena} {base id : NodeId} {node : Node} {nodes : List Node} {token : TokenId}

theorem Holds.root (h : arena.Holds base (node.listing base)) {listed : ArenaNode}
    (hroot : node.root? base = some listed) :
    arena.nodes[base + placesOf node.parts]? = some listed := by
  rw [listing_eq, hroot] at h
  have hlast := h.right.getElem?_eq
  rwa [length_listingOf fun node _ base => length_listing base node] at hlast

/-- Each of the nodes in a list is held at some number. -/
theorem Holds.exists_of_mem_slots {slot : Option TokenId × Option NodeId}
    (h : arena.Holds base (listingOf base nodes)) (hslot : slot ∈ slots base nodes) :
    ∃ node ∈ nodes, ∃ b, arena.Holds b (node.listing b) ∧ slot = (node.dash?, node.id? b) := by
  induction nodes generalizing base with
  | nil => cases hslot
  | cons first nodes ih =>
    have hright := h.right
    rw [length_listing] at hright
    rcases List.mem_cons.mp hslot with rfl | hslot
    · exact ⟨first, List.mem_cons_self .., base, h.left, rfl⟩
    · obtain ⟨node, hnode, b, hb, rfl⟩ := ih hright hslot
      exact ⟨node, List.mem_cons_of_mem _ hnode, b, hb, rfl⟩

theorem Holds.exists_slot (h : arena.Holds base (listingOf base nodes)) (hnode : node ∈ nodes) :
    ∃ b, arena.Holds b (node.listing b) ∧ (node.dash?, node.id? b) ∈ slots base nodes := by
  induction nodes generalizing base with
  | nil => cases hnode
  | cons first nodes ih =>
    have hright := h.right
    rw [length_listing] at hright
    rcases List.mem_cons.mp hnode with rfl | hnode
    · exact ⟨base, h.left, List.mem_cons_self ..⟩
    · obtain ⟨b, hb, hslot⟩ := ih hright hnode
      exact ⟨b, hb, List.mem_cons_of_mem _ hslot⟩

theorem Holds.exists_of_mem_idsFrom (h : arena.Holds base (listingOf base nodes))
    (hid : id ∈ idsFrom base nodes) :
    ∃ node ∈ nodes, ∃ b, arena.Holds b (node.listing b) ∧ node.id? b = some id := by
  obtain ⟨slot, hslot, hid⟩ := List.mem_filterMap.mp hid
  obtain ⟨node, hnode, b, hb, rfl⟩ := h.exists_of_mem_slots hslot
  exact ⟨node, hnode, b, hb, hid⟩

/-- A number taken by a list of nodes is taken by one of them. -/
theorem Holds.exists_of_lt (h : arena.Holds base (listingOf base nodes)) (hlow : base ≤ id)
    (hhigh : id < base + placesOf nodes) :
    ∃ node ∈ nodes, ∃ b, arena.Holds b (node.listing b) ∧ b ≤ id ∧ id < b + node.places := by
  induction nodes generalizing base with
  | nil =>
    exact absurd hhigh (Nat.not_lt.mpr hlow)
  | cons first nodes ih =>
    have hright := h.right
    rw [length_listing] at hright
    by_cases hfirst : id < base + first.places
    · exact ⟨first, List.mem_cons_self .., base, h.left, hlow, hfirst⟩
    · rw [placesOf_cons, ← Nat.add_assoc] at hhigh
      obtain ⟨node, hnode, b, hb⟩ := ih hright (Nat.not_lt.mp hfirst) hhigh
      exact ⟨node, List.mem_cons_of_mem _ hnode, b, hb⟩

/-- The node stands in the arena under the number `id`, with its places from `base` on. -/
structure Seats (arena : Arena) (id : NodeId) (node : Node) (base : NodeId) : Prop where
  formed : node.Formed
  holds : arena.Holds base (node.listing base)
  id_eq : node.id? base = some id

theorem Seats.exists_root (h : arena.Seats id node base) :
    ∃ listed, node.root? base = some listed ∧ arena.nodes[id]? = some listed := by
  cases hroot : node.root? base with
  | none =>
    have hid := h.id_eq
    have hformed := h.formed
    cases node with
    | empty => cases hid
    | entry => cases hformed
    | _ => cases hroot
  | some listed =>
    have hid := id?_eq hroot
    rw [h.id_eq, Option.some.injEq] at hid
    rw [hid]
    exact ⟨listed, rfl, h.holds.root hroot⟩

/-- A part that has a number stands under it, or its value does. -/
theorem Holds.seats (h : arena.Holds base (node.listing base)) (hproper : node.Proper)
    (hid : node.id? base = some id) :
    ∃ seated, arena.Seats id seated base ∧ seated.ids.Sublist node.ids ∧
      ∀ P, node.Every P → seated.Every P := by
  cases node with
  | entry dash value =>
    exact ⟨value, ⟨hproper, h, hid⟩, List.sublist_cons_self .., fun P hevery => hevery.2⟩
  | _ => exact ⟨_, ⟨hproper, h, hid⟩, .refl _, fun P hevery => hevery⟩

/-- Whatever number a node and those inside it take, one of them stands under it. -/
theorem Holds.exists_seats (h : arena.Holds base (node.listing base)) (hproper : node.Proper)
    (hlow : base ≤ id) (hhigh : id < base + node.places) :
    ∃ seated b, arena.Seats id seated b ∧ seated.ids.Sublist node.ids ∧
      ∀ P, node.Every P → seated.Every P := by
  induction node using parts_induction generalizing base with
  | step node ih =>
    have hplaces := places_eq base node
    have hparts := h
    rw [listing_eq] at hparts
    by_cases hpart : id < base + placesOf node.parts
    · obtain ⟨part, hmem, b, hb, hlow, hhigh⟩ := Holds.exists_of_lt hparts.left hlow hpart
      obtain ⟨seated, c, hseated, hids, hevery⟩ :=
        ih part hmem hb (hproper.of_mem_parts hmem) hlow hhigh
      exact ⟨seated, c, hseated, hids.trans (ids_sublist_of_mem_parts hmem),
        fun P hP => hevery P ((every_iff.mp hP).2 part hmem)⟩
    · -- The last number is that of the node itself.
      cases hroot : node.root? base with
      | none =>
        rw [hroot] at hplaces
        simp only [Option.toList_none, List.length_nil, Nat.add_zero] at hplaces
        exact absurd (hplaces ▸ hhigh) hpart
      | some listed =>
        rw [hroot, Option.toList_some, List.length_singleton] at hplaces
        have hlast : id = base + placesOf node.parts := by
          unfold NodeId at *
          omega
        have hid : node.id? base = some id := by rw [id?_eq hroot, hlast]
        obtain ⟨seated, hseated⟩ := h.seats hproper hid
        exact ⟨seated, base, hseated⟩

/-! ## Tokens of numbered nodes -/

theorem exists_dash?_of_mem_slots {slot : Option TokenId × Option NodeId}
    (h : slot ∈ slots base nodes) : ∃ node ∈ nodes, slot.1 = node.dash? := by
  induction nodes generalizing base with
  | nil => cases h
  | cons first nodes ih =>
    rcases List.mem_cons.mp h with rfl | h
    · exact ⟨first, List.mem_cons_self .., rfl⟩
    · obtain ⟨node, hnode, hdash⟩ := ih h
      exact ⟨node, List.mem_cons_of_mem _ hnode, hdash⟩

/-- A node names its own tokens and the dashes of its entries. -/
theorem mem_tokens_iff {listed : ArenaNode} (h : node.root? base = some listed)
    (hformed : node.Formed) :
    token ∈ listed.form.tokens ↔
      token ∈ node.own ∨ ∃ slot ∈ slots base node.parts, slot.1 = some token := by
  -- Only the parts of a block sequence have dashes.
  have hown : listed.form.tokens = node.own → (∀ part ∈ node.parts, part.Formed) →
      (token ∈ listed.form.tokens ↔
        token ∈ node.own ∨ ∃ slot ∈ slots base node.parts, slot.1 = some token) := by
    intro htokens hparts
    rw [htokens, iff_self_or]
    rintro ⟨slot, hslot, hdash⟩
    obtain ⟨part, hpart, heq⟩ := exists_dash?_of_mem_slots hslot
    rw [heq, (hparts part hpart).dash?_eq] at hdash
    cases hdash
  cases node with
  | sequence _ brackets items =>
    cases h
    simp [ArenaForm.tokens, own, parts, List.mem_filterMap]
  | decorated _ _ _ inner =>
    cases h
    exact hown rfl fun part hpart => List.mem_singleton.mp hpart ▸ hformed
  | pair _ _ key _ value =>
    cases h
    refine hown rfl fun part hpart => ?_
    rcases List.mem_pair.mp hpart with rfl | rfl
    · exact hformed.1
    · exact hformed.2.1
  | mapping _ _ pairs =>
    cases h
    exact hown rfl (formedAll_iff.mp hformed)
  | scalar => cases h; exact hown rfl (by simp [parts])
  | block => cases h; exact hown rfl (by simp [parts])
  | reference => cases h; exact hown rfl (by simp [parts])
  | _ => cases h

/-- A token of a part is its dash or belongs to the node that its number stands for. -/
theorem Holds.mem_ids_iff (h : arena.Holds base (node.listing base)) (hproper : node.Proper) :
    token ∈ node.ids ↔
      node.dash? = some token ∨ ∃ id, node.id? base = some id ∧ arena.Owns id token := by
  induction node using parts_induction generalizing base with
  | step node ih =>
    have hlisted := h
    rw [listing_eq] at hlisted
    have hparts : (∃ part ∈ node.parts, token ∈ part.ids) ↔ ∃ slot ∈ slots base node.parts,
        slot.1 = some token ∨ ∃ id, slot.2 = some id ∧ arena.Owns id token := by
      constructor
      · rintro ⟨part, hpart, htoken⟩
        obtain ⟨b, hb, hslot⟩ := Holds.exists_slot hlisted.left hpart
        exact ⟨_, hslot, (ih part hpart hb (hproper.of_mem_parts hpart)).mp htoken⟩
      · rintro ⟨slot, hslot, htoken⟩
        obtain ⟨part, hpart, b, hb, rfl⟩ := Holds.exists_of_mem_slots hlisted.left hslot
        exact ⟨part, hpart, (ih part hpart hb (hproper.of_mem_parts hpart)).mpr htoken⟩
    rw [Node.mem_ids_iff, hparts]
    cases hroot : node.root? base with
    | none =>
      cases node with
      | empty => simp [own, parts, slots, dash?, id?, places]
      | entry dash value =>
        have hvalue : value.Formed := hproper
        have hid : (entry dash value).id? base = value.id? base := rfl
        have hdash : (entry dash value).dash? = some dash := rfl
        simp [own, parts, slots, hdash, hid, hvalue.dash?_eq, eq_comm]
      | _ => cases hroot
    | some listed =>
      have hformed : node.Formed := by
        cases node with
        | entry => cases hroot
        | _ => exact hproper
      rw [hformed.dash?_eq, id?_eq hroot]
      simp only [Option.some.injEq, exists_eq_left', reduceCtorEq, false_or]
      rw [owns_iff (h.root hroot), mem_tokens_iff hroot hformed, children_eq hroot]
      simp only [idsFrom, List.mem_filterMap]
      constructor
      · rintro (hown | ⟨slot, hslot, hdash | ⟨id, hid, howns⟩⟩)
        · exact .inl (.inl hown)
        · exact .inl (.inr ⟨slot, hslot, hdash⟩)
        · exact .inr ⟨id, ⟨slot, hslot, hid⟩, howns⟩
      · rintro ((hown | ⟨slot, hslot, hdash⟩) | ⟨id, ⟨slot, hslot, hid⟩, howns⟩)
        · exact .inl hown
        · exact .inr ⟨slot, hslot, .inl hdash⟩
        · exact .inr ⟨slot, hslot, .inr ⟨id, hid, howns⟩⟩

theorem Seats.owns_iff (h : arena.Seats id node base) :
    arena.Owns id token ↔ token ∈ node.ids := by
  rw [h.holds.mem_ids_iff h.formed.proper, h.formed.dash?_eq, h.id_eq]
  simp

end Arena

end YamlLayout
