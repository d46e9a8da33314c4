import YamlLayout.Proofs.ArenaForest
import YamlLayout.Proofs.Ownership

/-!
# The numbered nodes form a forest with exact spans

Every node of a stream but the documents is the child of one other node. The span of a
node reaches from its first token to its last one, so the spans of its children lie
inside it, one after the other. The spans of the documents follow each other in the same
way and leave no token out.
-/
namespace YamlLayout

/-- The tokens stand one after the other, and each of them is some text. -/
structure Token.InOrder (tokens : List Token) : Prop where
  start_lt_stop : ∀ {i : Nat} {a : Token}, tokens[i]? = some a → a.range.start < a.range.stop
  stop_le_start : ∀ {i j : Nat} {a b : Token}, i < j → tokens[i]? = some a →
    tokens[j]? = some b → a.range.stop ≤ b.range.start

namespace Token.InOrder

variable {tokens : List Token} {i j : Nat} {a b : Token}

theorem start_le (h : InOrder tokens) (hij : i ≤ j) (ha : tokens[i]? = some a)
    (hb : tokens[j]? = some b) : a.range.start ≤ b.range.start := by
  rcases Nat.lt_or_eq_of_le hij with hlt | rfl
  · exact Nat.le_trans (Nat.le_of_lt (h.start_lt_stop ha)) (h.stop_le_start hlt ha hb)
  · rw [ha, Option.some.injEq] at hb
    exact hb ▸ Nat.le_refl _

theorem stop_le (h : InOrder tokens) (hij : i ≤ j) (ha : tokens[i]? = some a)
    (hb : tokens[j]? = some b) : a.range.stop ≤ b.range.stop := by
  rcases Nat.lt_or_eq_of_le hij with hlt | rfl
  · exact Nat.le_trans (h.stop_le_start hlt ha hb) (Nat.le_of_lt (h.start_lt_stop hb))
  · rw [ha, Option.some.injEq] at hb
    exact hb ▸ Nat.le_refl _

end Token.InOrder

theorem Stream.ReadTo.inOrder {stream : Stream} {s : ParseState} (h : stream.ReadTo s) :
    Token.InOrder stream.tokens.toList where
  start_lt_stop ha := by
    rw [Array.getElem?_toList] at ha
    exact h.start_lt_stop (Nat.le_refl _) ha ha
  stop_le_start hij ha hb := by
    rw [Array.getElem?_toList] at ha hb
    exact h.stop_le_start ha hb hij

theorem le_of_head? {ids : List Nat} {i j : Nat} (h : ids.Pairwise (· < ·))
    (hi : ids.head? = some i) (hj : j ∈ ids) : i ≤ j := by
  obtain ⟨rest, rfl⟩ := List.head?_eq_some_iff.mp hi
  rcases List.mem_cons.mp hj with rfl | hj
  · exact Nat.le_refl _
  · exact Nat.le_of_lt (List.rel_of_pairwise_cons h hj)

theorem le_of_getLast? {ids : List Nat} {i j : Nat} (h : ids.Pairwise (· < ·))
    (hi : ids.getLast? = some i) (hj : j ∈ ids) : j ≤ i := by
  obtain ⟨front, rfl⟩ := List.getLast?_eq_some_iff.mp hi
  rcases List.mem_append.mp hj with hj | hj
  · exact Nat.le_of_lt ((List.pairwise_append.mp h).2.2 j hj i (List.mem_singleton_self i))
  · rw [List.mem_singleton.mp hj]

namespace Span.Frames

variable {tokens : List Token} {span inner : Span} {ids more : List TokenId}

theorem start_lt_stop (h : span.Frames tokens ids) (horder : Token.InOrder tokens)
    (hsorted : ids.Pairwise (· < ·)) : span.start < span.stop := by
  obtain ⟨i, j, a, b, hi, hj, ha, hb, rfl⟩ := h
  have hij := le_of_head? hsorted hi (List.mem_of_getLast? hj)
  exact Nat.lt_of_lt_of_le (horder.start_lt_stop ha) (horder.stop_le hij ha hb)

/-- The span of some of the tokens lies inside the span of all of them. -/
theorem within (h : inner.Frames tokens ids) (hspan : span.Frames tokens more)
    (horder : Token.InOrder tokens) (hsorted : more.Pairwise (· < ·)) (hsub : ids ⊆ more) :
    span.start ≤ inner.start ∧ inner.stop ≤ span.stop := by
  obtain ⟨i, j, a, b, hi, hj, ha, hb, rfl⟩ := h
  obtain ⟨k, l, c, d, hk, hl, hc, hd, rfl⟩ := hspan
  have hstart := le_of_head? hsorted hk (hsub (List.mem_of_mem_head? hi))
  have hstop := le_of_getLast? hsorted hl (hsub (List.mem_of_getLast? hj))
  exact ⟨horder.start_le hstart hc ha, horder.stop_le hstop hb hd⟩

theorem stop_le_start (h : inner.Frames tokens ids) (hspan : span.Frames tokens more)
    (horder : Token.InOrder tokens) (hlt : ∀ i ∈ ids, ∀ j ∈ more, i < j) :
    inner.stop ≤ span.start := by
  obtain ⟨i, j, a, b, hi, hj, ha, hb, rfl⟩ := h
  obtain ⟨k, l, c, d, hk, hl, hc, hd, rfl⟩ := hspan
  exact horder.stop_le_start (hlt j (List.mem_of_getLast? hj) k (List.mem_of_mem_head? hk)) hb hc

end Span.Frames

namespace Arena

open Node

variable {arena : Arena} {base id : NodeId} {node : Node} {nodes : List Node}
  {tokens : List Token}

theorem Seats.frames (h : arena.Seats id node base) (hfits : node.Every (Fits tokens)) :
    ∃ listed, arena.nodes[id]? = some listed ∧ listed.form.children = idsFrom base node.parts ∧
      listed.span.Frames tokens node.ids := by
  obtain ⟨listed, hroot, hlisted⟩ := h.exists_root
  refine ⟨listed, hlisted, children_eq hroot, (every_iff.mp hfits).1.framed _ ?_⟩
  rw [span?_eq base, hroot, Option.map_some]

/-- The one node ends before the other starts. -/
def Precedes (arena : Arena) (id other : NodeId) : Prop :=
  ∃ a b, arena.nodes[id]? = some a ∧ arena.nodes[other]? = some b ∧ a.span.stop ≤ b.span.start

/-- A node under a number that a list of nodes goes by has some of their tokens. -/
theorem Holds.exists_frames (h : arena.Holds base (listingOf base nodes))
    (hproper : ∀ node ∈ nodes, node.Proper) (hfits : ∀ node ∈ nodes, node.Every (Fits tokens))
    (hid : id ∈ idsFrom base nodes) :
    ∃ listed ids, arena.nodes[id]? = some listed ∧ ids ⊆ idsOf [] nodes ∧
      listed.span.Frames tokens ids := by
  obtain ⟨node, hnode, b, hb, hid⟩ := h.exists_of_mem_idsFrom hid
  obtain ⟨seated, hseated, hids, hevery⟩ := hb.seats (hproper node hnode) hid
  obtain ⟨listed, hlisted, -, hframes⟩ := hseated.frames (hevery _ (hfits node hnode))
  exact ⟨listed, seated.ids, hlisted, fun i hi => (ids_sublist_idsOf hnode).subset (hids.subset hi),
    hframes⟩

/-- Nodes in a list stand one after the other. -/
theorem Holds.pairwise_precedes (h : arena.Holds base (listingOf base nodes))
    (horder : Token.InOrder tokens) (hproper : ∀ node ∈ nodes, node.Proper)
    (hfits : ∀ node ∈ nodes, node.Every (Fits tokens))
    (hsorted : (idsOf [] nodes).Pairwise (· < ·)) :
    (idsFrom base nodes).Pairwise arena.Precedes := by
  induction nodes generalizing base with
  | nil => exact .nil
  | cons node nodes ih =>
    have hright := h.right
    rw [length_listing] at hright
    rw [idsOf_cons, List.take_nil, List.drop_nil, List.nil_append, List.pairwise_append] at hsorted
    have hproper' := fun node hnode => hproper node (List.mem_cons_of_mem _ hnode)
    have hfits' := fun node hnode => hfits node (List.mem_cons_of_mem _ hnode)
    have hrest := ih hright hproper' hfits' hsorted.2.1
    rw [idsFrom_cons]
    cases hid : node.id? base with
    | none => exact hrest
    | some id =>
      refine List.pairwise_cons.mpr ⟨fun other hother => ?_, hrest⟩
      obtain ⟨seated, hseated, hids, hevery⟩ :=
        Holds.seats h.left (hproper node (List.mem_cons_self ..)) hid
      obtain ⟨listed, hlisted, -, hframes⟩ :=
        hseated.frames (hevery _ (hfits node (List.mem_cons_self ..)))
      obtain ⟨listed', ids, hlisted', hids', hframes'⟩ :=
        Holds.exists_frames hright hproper' hfits' hother
      refine ⟨listed, listed', hlisted, hlisted', ?_⟩
      exact hframes.stop_le_start hframes' horder fun i hi j hj =>
        hsorted.2.2 i (hids.subset hi) j (hids' hj)

end Arena

/-! ## Documents -/

namespace Document

/-- The place of a document, after those of its content from `base` on. -/
def listed (base : NodeId) (d : Document) : ArenaNode :=
  ⟨d.span, .document d.directives d.startMarker d.endMarker (d.content.id? base)⟩

theorem content_ids_sublist (d : Document) : d.content.ids.Sublist d.ids := by
  rw [ids_eq]
  exact ((List.sublist_append_left ..).trans (List.sublist_append_right ..)).trans
    (List.sublist_append_right ..)

variable {d e : Document} {ds : List Document} {tokens : List Token} {m n : Nat}

theorem Spans.start_lt_stop (h : d.Spans tokens m n) (horder : Token.InOrder tokens) :
    d.span.start < d.span.stop := by
  obtain ⟨j, a, b, -, hmj, -, ha, hb, -, hspan, -⟩ := h.exists_ends
  rw [hspan]
  exact Nat.lt_of_lt_of_le (horder.start_lt_stop ha) (horder.stop_le hmj ha hb)

/-- The span of a document holds all tokens between the first and the last one. -/
theorem Spans.within {i : Nat} {t : Token} (h : d.Spans tokens m n) (horder : Token.InOrder tokens)
    (hlow : m ≤ i) (hhigh : i < n) (ht : tokens[i]? = some t) :
    d.span.start ≤ t.range.start ∧ t.range.stop ≤ d.span.stop := by
  obtain ⟨j, a, b, last, -, -, ha, -, hlast, hspan, hle⟩ := h.exists_ends
  rw [hspan]
  exact ⟨horder.start_le hlow ha ht,
    Nat.le_trans (horder.stop_le (Nat.le_sub_one_of_lt hhigh) ht hlast) hle⟩

/-- Earlier documents end before later ones start. -/
theorem Tiled.pairwise (h : Tiled tokens ds n) (horder : Token.InOrder tokens) :
    ds.Pairwise fun later earlier => earlier.span.stop ≤ later.span.start := by
  induction h with
  | nil => exact .nil
  | cons hrest hspans ih =>
    refine List.pairwise_cons.mpr ⟨fun e he => ?_, ih⟩
    obtain ⟨i, j, hij, hle⟩ := hrest.exists_spans he
    obtain ⟨k, _, b, _, -, hkj, -, hb, -, hspan, -⟩ := hij.exists_ends
    obtain ⟨_, c, _, _, -, -, hc, -, -, hspan', -⟩ := hspans.exists_ends
    rw [hspan, hspan']
    exact horder.stop_le_start (Nat.lt_of_lt_of_le hkj hle) hb hc

theorem Tiled.exists_within {i : Nat} {t : Token} (h : Tiled tokens ds n)
    (horder : Token.InOrder tokens) (hi : i < n) (ht : tokens[i]? = some t) :
    ∃ d ∈ ds, d.span.start ≤ t.range.start ∧ t.range.stop ≤ d.span.stop := by
  induction h with
  | nil => exact absurd hi (Nat.not_lt_zero i)
  | @cons d ds m n hrest hspans ih =>
    by_cases hm : i < m
    · obtain ⟨e, he, hwithin⟩ := ih hm
      exact ⟨e, List.mem_cons_of_mem _ he, hwithin⟩
    · exact ⟨d, List.mem_cons_self .., hspans.within horder (Nat.not_lt.mp hm) hi ht⟩

end Document

namespace Arena

open Node

variable {arena : Arena} {base id : NodeId} {ds : List Document} {d : Document}

theorem nodes_ofDocuments_cons (base : NodeId) (d : Document) (ds : List Document) :
    (ofDocuments base (d :: ds)).nodes = d.content.listing base ++
      (d.listed base :: (ofDocuments (base + d.content.places + 1) ds).nodes) := rfl

theorem documents_ofDocuments_cons (base : NodeId) (d : Document) (ds : List Document) :
    (ofDocuments base (d :: ds)).documents =
      (base + d.content.places) :: (ofDocuments (base + d.content.places + 1) ds).documents := rfl

/-- The content of the document stands from `base` on, and the document right after it. -/
structure SeatsDocument (arena : Arena) (id : NodeId) (d : Document) (base : NodeId) : Prop where
  holds : arena.Holds base (d.content.listing base)
  id_eq : id = base + d.content.places
  getElem?_eq : arena.nodes[id]? = some (d.listed base)

theorem Holds.seatsDocument (h : arena.Holds base (ofDocuments base (d :: ds)).nodes) :
    arena.SeatsDocument (base + d.content.places) d base ∧
      arena.Holds (base + d.content.places + 1)
        (ofDocuments (base + d.content.places + 1) ds).nodes := by
  rw [nodes_ofDocuments_cons] at h
  have hright := h.right
  rw [length_listing] at hright
  refine ⟨⟨h.left, rfl, hright.getElem?_eq⟩, ?_⟩
  rw [← List.singleton_append] at hright
  exact hright.right

theorem Holds.exists_seatsDocument (h : arena.Holds base (ofDocuments base ds).nodes)
    (hid : id ∈ (ofDocuments base ds).documents) :
    ∃ d ∈ ds, ∃ b, arena.SeatsDocument id d b := by
  induction ds generalizing base with
  | nil => cases hid
  | cons d ds ih =>
    rw [documents_ofDocuments_cons] at hid
    obtain ⟨hseats, hrest⟩ := h.seatsDocument
    rcases List.mem_cons.mp hid with rfl | hid
    · exact ⟨d, List.mem_cons_self .., base, hseats⟩
    · obtain ⟨e, he, hseats⟩ := ih hrest hid
      exact ⟨e, List.mem_cons_of_mem _ he, hseats⟩

theorem Holds.exists_mem_documents (h : arena.Holds base (ofDocuments base ds).nodes)
    (hd : d ∈ ds) :
    ∃ id ∈ (ofDocuments base ds).documents, ∃ b, arena.SeatsDocument id d b := by
  induction ds generalizing base with
  | nil => cases hd
  | cons e ds ih =>
    rw [documents_ofDocuments_cons]
    obtain ⟨hseats, hrest⟩ := h.seatsDocument
    rcases List.mem_cons.mp hd with rfl | hd
    · exact ⟨_, List.mem_cons_self .., base, hseats⟩
    · obtain ⟨id, hid, hseats⟩ := ih hrest hd
      exact ⟨id, List.mem_cons_of_mem _ hid, hseats⟩

/-- A number that is not that of a document is taken by the content of one. -/
theorem Holds.exists_content (h : arena.Holds base (ofDocuments base ds).nodes)
    (hlow : base ≤ id) (hhigh : id < base + (ofDocuments base ds).nodes.length)
    (hid : id ∉ (ofDocuments base ds).documents) :
    ∃ d ∈ ds, ∃ b, arena.Holds b (d.content.listing b) ∧ b ≤ id ∧ id < b + d.content.places := by
  induction ds generalizing base with
  | nil =>
    have hlength : (ofDocuments base []).nodes.length = 0 := rfl
    rw [hlength] at hhigh
    exact absurd hhigh (Nat.not_lt.mpr hlow)
  | cons d ds ih =>
    rw [documents_ofDocuments_cons, List.mem_cons, not_or] at hid
    rw [nodes_ofDocuments_cons, List.length_append, length_listing, List.length_cons] at hhigh
    obtain ⟨hseats, hrest⟩ := h.seatsDocument
    by_cases hcontent : id < base + d.content.places
    · exact ⟨d, List.mem_cons_self .., base, hseats.holds, hlow, hcontent⟩
    · have hlater : base + d.content.places + 1 ≤ id := by
        have hne := hid.1
        unfold NodeId at *
        omega
      obtain ⟨e, he, hcontent⟩ := ih hrest hlater (by unfold NodeId at *; omega) hid.2
      exact ⟨e, List.mem_cons_of_mem _ he, hcontent⟩

/-- Each number is that of a document or of one child. -/
theorem perm_ofDocuments (base : NodeId) (ds : List Document) :
    ((ofDocuments base ds).nodes.flatMap (·.form.children) ++
      (ofDocuments base ds).documents).Perm
      (List.range' base (ofDocuments base ds).nodes.length) := by
  induction ds generalizing base with
  | nil => exact .nil
  | cons d ds ih =>
    have hrest := (ih (base + d.content.places + 1)).cons (base + d.content.places)
    have hall := (perm_children base d.content).append hrest
    have hchildren : (d.listed base).form.children = (d.content.id? base).toList := rfl
    rw [← List.range'_succ, List.range'_append_1] at hall
    rw [nodes_ofDocuments_cons, documents_ofDocuments_cons, List.length_append, length_listing,
      List.length_cons, List.flatMap_append, List.flatMap_cons, hchildren]
    refine .trans ?_ hall
    simp only [List.append_assoc]
    exact (List.perm_middle.append_left _).append_left _

theorem Holds.pairwise_documents (h : arena.Holds base (ofDocuments base ds).nodes)
    (hds : ds.Pairwise fun d e => d.span.stop ≤ e.span.start) :
    (ofDocuments base ds).documents.Pairwise arena.Precedes := by
  induction ds generalizing base with
  | nil => exact .nil
  | cons d ds ih =>
    obtain ⟨hseats, hrest⟩ := h.seatsDocument
    rw [List.pairwise_cons] at hds
    rw [documents_ofDocuments_cons]
    refine List.pairwise_cons.mpr ⟨fun other hother => ?_, ih hrest hds.2⟩
    obtain ⟨e, he, c, hseats'⟩ := hrest.exists_seatsDocument hother
    exact ⟨_, _, hseats.getElem?_eq, hseats'.getElem?_eq, hds.1 e he⟩

/-! ## Well-formed arenas -/

/-- The span reaches from the start of the first token that the node owns to the end of
the last one. None of these tokens is a comment. -/
def SpansOwned (arena : Arena) (tokens : Array Token) (id : NodeId) (span : Span) : Prop :=
  ∃ (first last : TokenId) (a b : Token), arena.Owns id first ∧ arena.Owns id last ∧
    tokens[first]? = some a ∧ tokens[last]? = some b ∧ span = ⟨a.range.start, b.range.stop⟩ ∧
    ∀ token, arena.Owns id token → first ≤ token ∧ token ≤ last ∧
      ∃ t, tokens[token]? = some t ∧ t.isComment = false

/-- The children of a node come before it in the arena, and their spans stand one after
the other inside its own. -/
structure Nests (arena : Arena) (id : NodeId) (node : ArenaNode) : Prop where
  nonempty : node.span.start < node.span.stop
  child_lt : ∀ child ∈ node.form.children, child < id
  within : ∀ child ∈ node.form.children, ∃ inner, arena.nodes[child]? = some inner ∧
    node.span.start ≤ inner.span.start ∧ inner.span.stop ≤ node.span.stop
  siblings : node.form.children.Pairwise arena.Precedes

structure WellFormed (arena : Arena) (tokens : Array Token) : Prop where
  /-- Every node but a document has one parent. -/
  parent : ∀ id, id < arena.nodes.length → id ∉ arena.documents →
    ∃! parent, id ∈ arena.children parent
  root : ∀ id ∈ arena.documents, id < arena.nodes.length ∧ ∀ parent, id ∉ arena.children parent
  /-- No parent names a child twice. -/
  nodup : ∀ id, (arena.children id).Nodup
  nests : ∀ id node, arena.nodes[id]? = some node → arena.Nests id node
  owned : ∀ id node, arena.nodes[id]? = some node → id ∉ arena.documents →
    arena.SpansOwned tokens id node.span
  documents : arena.documents.Pairwise arena.Precedes
  /-- Every token lies inside a document. -/
  covered : ∀ t ∈ tokens, ∃ id ∈ arena.documents, ∃ d, arena.nodes[id]? = some d ∧
    d.span.start ≤ t.range.start ∧ t.range.stop ≤ d.span.stop

theorem children_of_getElem? {node : ArenaNode} (h : arena.nodes[id]? = some node) :
    arena.children id = node.form.children := by
  simp [children, h]

theorem exists_of_mem_children {child : NodeId} (h : child ∈ arena.children id) :
    ∃ node, arena.nodes[id]? = some node ∧ child ∈ node.form.children := by
  cases hnode : arena.nodes[id]? with
  | none => simp [children, hnode] at h
  | some node => exact ⟨node, rfl, children_of_getElem? hnode ▸ h⟩

section Parents

variable (h : (arena.nodes.flatMap (·.form.children) ++ arena.documents).Perm
  (List.range' 0 arena.nodes.length))

include h

theorem nodup_of_perm : (arena.nodes.flatMap (·.form.children) ++ arena.documents).Nodup :=
  h.nodup_iff.mpr List.nodup_range'

theorem nodup_children (id : NodeId) : (arena.children id).Nodup := by
  have hnodup := List.nodup_flatMap.mp (List.nodup_append.mp (nodup_of_perm h)).1
  cases hnode : arena.nodes[id]? with
  | none => simp [children, hnode]
  | some node =>
    rw [children_of_getElem? hnode]
    exact hnodup.1 node (List.mem_of_getElem? hnode)

/-- No two nodes share a child. -/
theorem eq_of_mem_children {child p q : NodeId} (hp : child ∈ arena.children p)
    (hq : child ∈ arena.children q) : p = q := by
  have hnodup := List.nodup_flatMap.mp (List.nodup_append.mp (nodup_of_perm h)).1
  have hdisjoint : ∀ i j, i < j → child ∈ arena.children i → child ∈ arena.children j → False := by
    intro i j hij hi hj
    obtain ⟨a, ha, hi⟩ := exists_of_mem_children hi
    obtain ⟨b, hb, hj⟩ := exists_of_mem_children hj
    obtain ⟨hlti, rfl⟩ := List.getElem?_eq_some_iff.mp ha
    obtain ⟨hltj, rfl⟩ := List.getElem?_eq_some_iff.mp hb
    exact List.pairwise_iff_getElem.mp hnodup.2 i j hlti hltj hij hi hj
  rcases Nat.lt_trichotomy p q with hlt | heq | hgt
  · exact (hdisjoint p q hlt hp hq).elim
  · exact heq
  · exact (hdisjoint q p hgt hq hp).elim

theorem existsUnique_parent (hlt : id < arena.nodes.length) (hid : id ∉ arena.documents) :
    ∃! parent, id ∈ arena.children parent := by
  have hmem := h.mem_iff.mpr (List.mem_range'_1.mpr ⟨Nat.zero_le id, by simpa using hlt⟩)
  rw [List.mem_append, or_iff_left hid, List.mem_flatMap] at hmem
  obtain ⟨node, hnode, hchild⟩ := hmem
  obtain ⟨parent, hparent⟩ := List.getElem?_of_mem hnode
  have hchild : id ∈ arena.children parent := by rwa [children_of_getElem? hparent]
  exact ⟨parent, hchild, fun other hother => eq_of_mem_children h hother hchild⟩

/-- Documents have no parents. -/
theorem not_mem_children (hid : id ∈ arena.documents) (parent : NodeId) :
    id ∉ arena.children parent := by
  intro hchild
  obtain ⟨node, hnode, hchild⟩ := exists_of_mem_children hchild
  have hmem : id ∈ arena.nodes.flatMap (·.form.children) :=
    List.mem_flatMap.mpr ⟨node, List.mem_of_getElem? hnode, hchild⟩
  exact (List.nodup_append.mp (nodup_of_perm h)).2.2 id hmem id hid rfl

theorem lt_of_mem_documents (hid : id ∈ arena.documents) : id < arena.nodes.length := by
  have hmem := List.mem_range'_1.mp (h.mem_iff.mp (List.mem_append_right _ hid))
  simpa using hmem.2

end Parents

variable {node : Node} {tokens : List Token}

theorem Seats.holds_parts (h : arena.Seats id node base) :
    arena.Holds base (listingOf base node.parts) := by
  have hlisted := h.holds
  rw [listing_eq] at hlisted
  exact hlisted.left

theorem Seats.child_lt (h : arena.Seats id node base) {child : NodeId}
    (hchild : child ∈ idsFrom base node.parts) : child < id := by
  obtain ⟨listed, hroot, -⟩ := h.exists_root
  have hid := h.id_eq
  rw [id?_eq hroot, Option.some.injEq] at hid
  exact hid ▸ (idsFrom_bounds hchild).2

theorem Seats.within (h : arena.Seats id node base) (horder : Token.InOrder tokens)
    (hfits : node.Every (Fits tokens)) (hsorted : node.ids.Pairwise (· < ·)) {span : Span}
    (hspan : span.Frames tokens node.ids) {child : NodeId}
    (hchild : child ∈ idsFrom base node.parts) :
    ∃ inner, arena.nodes[child]? = some inner ∧ span.start ≤ inner.span.start ∧
      inner.span.stop ≤ span.stop := by
  obtain ⟨inner, ids, hinner, hids, hframes⟩ := h.holds_parts.exists_frames
    (fun _ hpart => h.formed.proper.of_mem_parts hpart) (every_iff.mp hfits).2 hchild
  exact ⟨inner, hinner, hframes.within hspan horder hsorted fun i hi =>
    (idsOf_parts_sublist node).subset (hids hi)⟩

theorem Seats.pairwise_precedes (h : arena.Seats id node base) (horder : Token.InOrder tokens)
    (hfits : node.Every (Fits tokens)) (hsorted : node.ids.Pairwise (· < ·)) :
    (idsFrom base node.parts).Pairwise arena.Precedes :=
  h.holds_parts.pairwise_precedes horder (fun _ hpart => h.formed.proper.of_mem_parts hpart)
    (every_iff.mp hfits).2 (hsorted.sublist (idsOf_parts_sublist node))

end Arena

namespace Stream

open Node

variable {stream : Stream} {s : ParseState} {id : NodeId} {listed : ArenaNode}

theorem holds_arena (stream : Stream) :
    stream.arena.Holds 0 (Arena.ofDocuments 0 stream.documents).nodes :=
  List.prefix_refl _

/-- A node that is no document is one of the nodes that were read. -/
theorem ReadTo.exists_seats (h : stream.ReadTo s) (hnode : stream.arena.nodes[id]? = some listed)
    (hid : id ∉ stream.arena.documents) :
    ∃ seated b, stream.arena.Seats id seated b ∧ seated.Every (Fits stream.tokens.toList) ∧
      seated.ids.Sublist stream.ids := by
  have hlt := (List.getElem?_eq_some_iff.mp hnode).1
  obtain ⟨d, hd, b, hb, hlow, hhigh⟩ := stream.holds_arena.exists_content (Nat.zero_le id)
    (by rw [Nat.zero_add]; exact hlt) hid
  have hsound := h.sound d hd
  obtain ⟨seated, c, hseated, hids, hevery⟩ :=
    hb.exists_seats hsound.formed.proper hlow hhigh
  exact ⟨seated, c, hseated, hevery _ hsound.fits,
    hids.trans (d.content_ids_sublist.trans (document_ids_sublist hd))⟩

/-- The document under a number, with the tokens between which it lies. -/
theorem ReadTo.exists_seatsDocument (h : stream.ReadTo s) (hid : id ∈ stream.arena.documents) :
    ∃ d b m n, stream.arena.SeatsDocument id d b ∧ d.Sound stream.tokens.toList ∧
      d.Spans stream.tokens.toList m n := by
  obtain ⟨d, hd, b, hseats⟩ := stream.holds_arena.exists_seatsDocument hid
  obtain ⟨m, n, hspans, -⟩ := h.tiled.exists_spans (List.mem_reverse.mpr hd)
  exact ⟨d, b, m, n, hseats, h.sound d hd, hspans⟩

theorem ReadTo.spansOwned (h : stream.ReadTo s) (hnode : stream.arena.nodes[id]? = some listed)
    (hid : id ∉ stream.arena.documents) :
    stream.arena.SpansOwned stream.tokens id listed.span := by
  obtain ⟨seated, b, hseats, hfits, hids⟩ := h.exists_seats hnode hid
  obtain ⟨found, hfound, -, hframes⟩ := hseats.frames hfits
  rw [hnode, Option.some.injEq] at hfound
  subst hfound
  have hsorted := h.pairwise_ids.sublist hids
  obtain ⟨i, j, a, b, hi, hj, ha, hb, hspan⟩ := hframes
  rw [Array.getElem?_toList] at ha hb
  refine ⟨i, j, a, b, hseats.owns_iff.mpr (List.mem_of_mem_head? hi),
    hseats.owns_iff.mpr (List.mem_of_getLast? hj), ha, hb, hspan, fun token howns => ?_⟩
  have htoken := hseats.owns_iff.mp howns
  obtain ⟨t, ht⟩ : ∃ t, stream.tokens[token]? = some t :=
    ⟨_, Array.getElem?_eq_getElem (h.lt_size_of_mem_ids (hids.subset htoken))⟩
  exact ⟨le_of_head? hsorted hi htoken, le_of_getLast? hsorted hj htoken, t, ht,
    (h.mem_ids_iff ht).mp (hids.subset htoken)⟩

/-- The child of a document is its content. -/
theorem ReadTo.document_child (h : stream.ReadTo s) {d : Document} {b : NodeId} {m n : Nat}
    {child : NodeId} (hseats : stream.arena.SeatsDocument id d b)
    (hsound : d.Sound stream.tokens.toList) (hspans : d.Spans stream.tokens.toList m n)
    (hchild : d.content.id? b = some child) :
    child < id ∧ ∃ inner, stream.arena.nodes[child]? = some inner ∧
      d.span.start ≤ inner.span.start ∧ inner.span.stop ≤ d.span.stop := by
  obtain ⟨seated, hseated, hids, hevery⟩ := hseats.holds.seats hsound.formed.proper hchild
  obtain ⟨inner, hinner, -, i, j, a, c, hi, hj, ha, hc, hspan⟩ :=
    hseated.frames (hevery _ hsound.fits)
  have hbounds : ∀ k ∈ seated.ids, m ≤ k ∧ k < n := fun k hk =>
    hspans.ids_bounds k (d.content_ids_sublist.subset (hids.subset hk))
  have hfirst := hbounds i (List.mem_of_mem_head? hi)
  have hlast := hbounds j (List.mem_of_getLast? hj)
  refine ⟨?_, inner, hinner, ?_, ?_⟩
  · rw [Node.id?] at hchild
    split at hchild
    · cases hchild
    · rw [Option.some.injEq] at hchild
      have hid := hseats.id_eq
      unfold NodeId at *
      omega
  · rw [hspan]
    exact (hspans.within h.inOrder hfirst.1 hfirst.2 ha).1
  · rw [hspan]
    exact (hspans.within h.inOrder hlast.1 hlast.2 hc).2

theorem ReadTo.nests (h : stream.ReadTo s) (hnode : stream.arena.nodes[id]? = some listed) :
    stream.arena.Nests id listed := by
  by_cases hid : id ∈ stream.arena.documents
  · obtain ⟨d, b, m, n, hseats, hsound, hspans⟩ := h.exists_seatsDocument hid
    rw [hseats.getElem?_eq, Option.some.injEq] at hnode
    subst hnode
    have hchild : ∀ child ∈ (d.listed b).form.children, d.content.id? b = some child :=
      fun child hchild => Option.mem_toList.mp hchild
    constructor
    case nonempty => exact hspans.start_lt_stop h.inOrder
    case child_lt =>
      exact fun child hmem => (h.document_child hseats hsound hspans (hchild child hmem)).1
    case within =>
      exact fun child hmem => (h.document_child hseats hsound hspans (hchild child hmem)).2
    case siblings =>
      change (d.content.id? b).toList.Pairwise _
      cases d.content.id? b <;> simp
  · obtain ⟨seated, b, hseats, hfits, hids⟩ := h.exists_seats hnode hid
    obtain ⟨found, hfound, hchildren, hframes⟩ := hseats.frames hfits
    rw [hnode, Option.some.injEq] at hfound
    subst hfound
    have hsorted := h.pairwise_ids.sublist hids
    constructor
    case nonempty => exact hframes.start_lt_stop h.inOrder hsorted
    case child_lt => exact fun child hmem => hseats.child_lt (hchildren ▸ hmem)
    case within =>
      exact fun child hmem => hseats.within h.inOrder hfits hsorted hframes (hchildren ▸ hmem)
    case siblings =>
      rw [hchildren]
      exact hseats.pairwise_precedes h.inOrder hfits hsorted

/-- The nodes of a stream that has been read form a forest, and their spans are those of
their tokens. -/
theorem wellFormed_arena {text : List Char} (hparse : parse text = .ok stream) :
    stream.arena.WellFormed stream.tokens := by
  obtain ⟨-, s, h⟩ := exists_readTo hparse
  have hperm : (stream.arena.nodes.flatMap (·.form.children) ++ stream.arena.documents).Perm
      (List.range' 0 stream.arena.nodes.length) := Arena.perm_ofDocuments 0 stream.documents
  constructor
  case parent => exact fun id hlt hid => Arena.existsUnique_parent hperm hlt hid
  case root =>
    exact fun id hid => ⟨Arena.lt_of_mem_documents hperm hid, Arena.not_mem_children hperm hid⟩
  case nodup => exact Arena.nodup_children hperm
  case nests => exact fun id node hnode => h.nests hnode
  case owned => exact fun id node hnode hid => h.spansOwned hnode hid
  case documents =>
    refine stream.holds_arena.pairwise_documents ?_
    rw [← List.reverse_reverse stream.documents, List.pairwise_reverse]
    exact h.tiled.pairwise h.inOrder
  case covered =>
    intro t ht
    obtain ⟨i, hi⟩ := Array.getElem?_of_mem ht
    have hlt := (Array.getElem?_eq_some_iff.mp hi).1
    rw [← Array.getElem?_toList] at hi
    obtain ⟨d, hd, hwithin⟩ := h.tiled.exists_within h.inOrder hlt hi
    obtain ⟨id, hid, b, hseats⟩ :=
      stream.holds_arena.exists_mem_documents (List.mem_reverse.mp hd)
    exact ⟨id, hid, _, hseats.getElem?_eq, hwithin⟩

theorem wellFormed_arena_mixed :
    ∃ stream, parse "- a: [b, c: d] # e\n--- f\n".toList = .ok stream ∧
      stream.arena.documents = [9, 11] ∧
      stream.arena.nodes.map (·.form.children) =
        [[], [], [], [], [2, 3], [1, 4], [0, 5], [6], [7], [8], [], [10]] ∧
      stream.arena.WellFormed stream.tokens := by
  have h : (parse "- a: [b, c: d] # e\n--- f\n".toList).toOption.map (fun stream =>
      (stream.arena.documents, stream.arena.nodes.map (·.form.children))) =
      some ([9, 11], [[], [], [], [], [2, 3], [1, 4], [0, 5], [6], [7], [8], [], [10]]) := by
    decide +kernel
  cases hparse : parse "- a: [b, c: d] # e\n--- f\n".toList with
  | error e => rw [hparse] at h; cases h
  | ok stream =>
    rw [hparse] at h
    obtain ⟨hdocuments, hchildren⟩ := Prod.mk.inj (Option.some.inj h)
    exact ⟨stream, rfl, hdocuments, hchildren, wellFormed_arena hparse⟩

end Stream

end YamlLayout
