import YamlLayout.Proofs.Reading.Pieces

/-!
# The numbers of the tokens read

The tokens of the pieces are numbered in the order in which they are read, and they are
all tokens read on the way but comments.
-/
namespace YamlLayout

section HoldsAt

variable {α : Type} {all part more : List α} {a : α} {base : Nat}

/-- The part stands in the whole list from the number `base` on. -/
def HoldsAt (all : List α) (base : Nat) (part : List α) : Prop := part <+: all.drop base

theorem HoldsAt.left (h : HoldsAt all base (part ++ more)) : HoldsAt all base part :=
  (List.prefix_append ..).trans h

theorem HoldsAt.right (h : HoldsAt all base (part ++ more)) :
    HoldsAt all (base + part.length) more := by
  obtain ⟨rest, hrest⟩ := h
  refine ⟨rest, ?_⟩
  rw [← List.drop_drop, ← hrest, List.append_assoc, List.drop_left]

theorem HoldsAt.tail (h : HoldsAt all base (a :: part)) : HoldsAt all (base + 1) part :=
  (List.singleton_append ▸ h : HoldsAt all base ([a] ++ part)).right

theorem HoldsAt.getElem?_eq (h : HoldsAt all base (a :: part)) : all[base]? = some a := by
  obtain ⟨rest, hrest⟩ := h
  have hhead := congrArg List.head? hrest
  rw [List.head?_drop] at hhead
  exact hhead.symm

end HoldsAt

/-- The numbers of the tokens of a piece. -/
def Piece.ids : Piece → List TokenId
  | token id => [id]
  | block content => content.header :: content.body.toList

namespace Piece

@[simp] theorem flatMap_ids_map_token (tokens : List TokenId) :
    (tokens.map token).flatMap ids = tokens := by
  induction tokens with
  | nil => rfl
  | cons id tokens ih => rw [List.map_cons, List.flatMap_cons, ih, ids, List.singleton_append]

@[simp] theorem flatMap_ids_mark (token : Option TokenId) :
    (mark token).flatMap ids = token.toList := flatMap_ids_map_token _

@[simp] theorem flatMap_ids_properties (anchor tag : Option TokenId) :
    (properties anchor tag).flatMap ids =
      (Node.earlier anchor tag).toList ++ (Node.later anchor tag).toList := by
  simp [properties]

end Piece

namespace ParseState

variable {s t u : ParseState} {ps : List Piece} {b : BlockScalar} {i : TokenId} {a : Token}

/-- Passing over spaces and comments adds no tokens but comments. -/
theorem Passes.isComment (h : s.Passes t) (hu : t.Moves u) (hi : s.next ≤ i) (hlt : i < t.next)
    (ha : u.emitted.reverse[i]? = some a) : a.isComment = true := by
  induction h with
  | refl => exact absurd hi (Nat.not_le.mpr hlt)
  | @tail v w _ hpass ih =>
    cases hpass with
    | space n hspace => exact ih (.head (.pass (.space n hspace)) hu) hlt
    | comment hpeek =>
      by_cases hnew : i = v.next
      · rw [hnew, getElem?_of_moves_push hu, Option.some.injEq] at ha
        rw [← ha]
        rfl
      · have hold : i < v.next := by
          rw [next_push] at hlt
          unfold TokenId at *
          omega
        exact ih (.head (.pass (.comment hpeek)) hu) hold

theorem ReadsBlock.ids_bounds (h : s.ReadsBlock b t) :
    (Piece.block b).ids.Pairwise (· < ·) ∧
      ∀ i ∈ (Piece.block b).ids, s.next ≤ i ∧ i < t.next := by
  cases h with
  | bare hopens hpasses hbody =>
    have hle := hpasses.moves.next_le
    obtain ⟨c, cs, -, -, -, -, rfl⟩ := hopens.mark
    rw [next_push] at hle
    rw [Piece.ids, hbody, hopens.header_eq]
    refine ⟨by simp, ?_⟩
    intro i hi
    have heq : i = s.next := by simpa using hi
    rw [heq]
    exact ⟨Nat.le_refl _, hle⟩
  | @filled _ u _ _ _ hopens hpasses hends hfound hbody =>
    have hle := hpasses.moves.next_le
    obtain ⟨c, cs, -, -, -, -, rfl⟩ := hopens.mark
    rw [next_push] at hle ⊢
    rw [Piece.ids, hbody, hopens.header_eq, next_skip]
    refine ⟨?_, ?_⟩
    · rw [Option.toList_some, List.pairwise_pair]
      exact hle
    · intro i hi
      have heq : i = s.next ∨ i = u.next := by simpa using hi
      unfold TokenId at *
      rcases heq with rfl | rfl <;> omega

/-- The tokens of the pieces are numbered in the order in which they are read. -/
theorem Reads.ids_bounds (h : s.Reads ps t) :
    (ps.flatMap Piece.ids).Pairwise (· < ·) ∧
      ∀ i ∈ ps.flatMap Piece.ids, s.next ≤ i ∧ i < t.next := by
  induction h with
  | done => exact ⟨.nil, by simp⟩
  | pass h _ ih =>
    refine ⟨ih.1, fun i hi => ?_⟩
    exact ⟨Nat.le_trans (Move.pass h).next_le (ih.2 i hi).1, (ih.2 i hi).2⟩
  | @token s u ps kind n hkind hahead r ih =>
    have hnext := r.moves.next_le
    rw [next_push] at ih hnext
    rw [List.flatMap_cons, Piece.ids, List.singleton_append]
    refine ⟨List.pairwise_cons.mpr ⟨fun i hi => (ih.2 i hi).1, ih.1⟩, ?_⟩
    intro i hi
    rcases List.mem_cons.mp hi with rfl | hi
    · exact ⟨Nat.le_refl _, hnext⟩
    · exact ⟨Nat.le_of_succ_le (ih.2 i hi).1, (ih.2 i hi).2⟩
  | @block s v u ps b hblock r ih =>
    have hfirst := hblock.moves.next_le
    have hnext := r.moves.next_le
    obtain ⟨hsorted, hbounds⟩ := hblock.ids_bounds
    rw [List.flatMap_cons]
    refine ⟨List.pairwise_append.mpr ⟨hsorted, ih.1, fun i hi j hj => ?_⟩, fun i hi => ?_⟩
    · exact Nat.lt_of_lt_of_le (hbounds i hi).2 (ih.2 j hj).1
    · rcases List.mem_append.mp hi with hi | hi
      · exact ⟨(hbounds i hi).1, Nat.lt_of_lt_of_le (hbounds i hi).2 hnext⟩
      · exact ⟨Nat.le_trans hfirst (ih.2 i hi).1, (ih.2 i hi).2⟩

/-- Of the tokens of a block scalar and the comments between them, those in its piece
are no comments. -/
theorem ReadsBlock.mem_ids_iff (h : s.ReadsBlock b t) (hu : t.Moves u) (hi : s.next ≤ i)
    (hlt : i < t.next) (ha : u.emitted.reverse[i]? = some a) :
    i ∈ (Piece.block b).ids ↔ a.isComment = false := by
  -- The header comes first, then comments, then the body if there is one.
  have hheader : ∀ opened, s.Opens b opened → opened.Moves u → i = s.next →
      a.isComment = false := by
    intro opened hopens hmoves heq
    obtain ⟨c, cs, -, -, -, -, rfl⟩ := hopens.mark
    rw [heq, getElem?_of_moves_push hmoves, Option.some.injEq] at ha
    rw [← ha]
    rfl
  have hopened : ∀ opened, s.Opens b opened → opened.next = s.next + 1 := by
    intro opened hopens
    obtain ⟨c, cs, -, -, -, -, rfl⟩ := hopens.mark
    exact next_push ..
  cases h with
  | bare hopens hpasses hbody =>
    have hids : (Piece.block b).ids = [s.next] := by simp [Piece.ids, hbody, hopens.header_eq]
    rw [hids, List.mem_singleton]
    constructor
    · exact hheader _ hopens (hpasses.moves.trans hu)
    · intro hcontent
      by_contra hne
      have hlater : s.next + 1 ≤ i := by
        unfold TokenId at *
        omega
      have hcomment := hpasses.isComment hu (hopened _ hopens ▸ hlater) hlt ha
      rw [hcontent] at hcomment
      cases hcomment
  | @filled _ v _ _ _ hopens hpasses hends hfound hbody =>
    have hbodyMove := Move.body hends hfound
    have hids : (Piece.block b).ids = [s.next, v.next] := by
      simp [Piece.ids, hbody, hopens.header_eq]
    rw [hids, List.mem_cons, List.mem_singleton]
    rw [next_push, next_skip] at hlt
    constructor
    · rintro (heq | heq)
      · exact hheader _ hopens ((hpasses.moves.tail hbodyMove).trans hu) heq
      · have hbody := getElem?_of_moves_push hu
        rw [next_skip, ← heq, ha, Option.some.injEq] at hbody
        rw [hbody]
        rfl
    · intro hcontent
      by_contra hne
      rw [not_or] at hne
      have hlater : s.next + 1 ≤ i := by
        unfold TokenId at *
        omega
      have hearlier : i < v.next := by
        unfold TokenId at *
        omega
      have hcomment :=
        hpasses.isComment (.head hbodyMove hu) (hopened _ hopens ▸ hlater) hearlier ha
      rw [hcontent] at hcomment
      cases hcomment

/-- The pieces hold all tokens that are read but comments. -/
theorem Reads.mem_ids_iff (h : s.Reads ps t) (hi : s.next ≤ i) (hlt : i < t.next)
    (ha : t.emitted.reverse[i]? = some a) :
    i ∈ ps.flatMap Piece.ids ↔ a.isComment = false := by
  induction h with
  | done => exact absurd hi (Nat.not_le.mpr hlt)
  | @pass s v u ps hpass r ih =>
    by_cases hnew : v.next ≤ i
    · exact ih hnew hlt ha
    · have hcomment := Passes.isComment (.single hpass) r.moves hi (Nat.not_le.mp hnew) ha
      have hnot : i ∉ ps.flatMap Piece.ids := fun hmem => hnew (r.ids_bounds.2 i hmem).1
      simp [hnot, hcomment]
  | @token s u ps kind n hkind hahead r ih =>
    rw [List.flatMap_cons, Piece.ids, List.singleton_append, List.mem_cons]
    by_cases hnew : i = s.next
    · rw [hnew, getElem?_of_moves_push r.moves, Option.some.injEq] at ha
      have hcontent : a.isComment = false := by
        rw [← ha]
        simpa [Token.isComment, ahead] using hkind
      simp [hnew, hcontent]
    · have hlater : (s.push kind n).next ≤ i := by
        rw [next_push]
        unfold TokenId at *
        omega
      simpa [hnew] using ih hlater hlt ha
  | @block s v u ps b hblock r ih =>
    rw [List.flatMap_cons, List.mem_append]
    by_cases hnew : v.next ≤ i
    · have hnot : i ∉ (Piece.block b).ids :=
        fun hmem => absurd (hblock.ids_bounds.2 i hmem).2 (Nat.not_lt.mpr hnew)
      simpa [hnot] using ih hnew hlt ha
    · have hnot : i ∉ ps.flatMap Piece.ids := fun hmem => hnew (r.ids_bounds.2 i hmem).1
      simpa [hnot] using hblock.mem_ids_iff r.moves hi (Nat.not_le.mp hnew) ha

end ParseState

namespace Node

/-- The numbers of the tokens of a node. -/
def ids (node : Node) : List TokenId := node.pieces.flatMap Piece.ids

/-- The numbers of the tokens of nodes with commas between them. -/
def idsOf (commas : List TokenId) (nodes : List Node) : List TokenId :=
  (piecesOf commas nodes).flatMap Piece.ids

theorem idsOf_cons (commas : List TokenId) (node : Node) (nodes : List Node) :
    idsOf commas (node :: nodes) = node.ids ++ (commas.take 1 ++ idsOf (commas.drop 1) nodes) := by
  rw [idsOf, piecesOf, List.flatMap_append, List.flatMap_append, Piece.flatMap_ids_map_token]
  rfl

theorem ids_sublist_idsOf {commas : List TokenId} {nodes : List Node} {node : Node}
    (h : node ∈ nodes) : node.ids.Sublist (idsOf commas nodes) := by
  induction nodes generalizing commas with
  | nil => cases h
  | cons first nodes ih =>
    rw [idsOf_cons]
    rcases List.mem_cons.mp h with rfl | h
    · exact List.sublist_append_left ..
    · exact (ih h).trans ((List.sublist_append_right ..).trans (List.sublist_append_right ..))

theorem commas_subset_idsOf (commas : List TokenId) (nodes : List Node) :
    commas ⊆ idsOf commas nodes := by
  induction nodes generalizing commas with
  | nil => simp [idsOf, piecesOf]
  | cons node nodes ih =>
    intro i hi
    rw [idsOf_cons]
    rw [← List.take_append_drop 1 commas] at hi
    rcases List.mem_append.mp hi with hi | hi
    · exact List.mem_append_right _ (List.mem_append_left _ hi)
    · exact List.mem_append_right _ (List.mem_append_right _ (ih _ hi))

/-- Of the tokens of two properties each is the anchor or the tag. -/
theorem mem_properties_iff {anchor tag : Option TokenId} {id : TokenId} :
    id ∈ (earlier anchor tag).toList ∨ id ∈ (later anchor tag).toList ↔
      anchor = some id ∨ tag = some id := by
  rcases anchor with _ | anchor <;> rcases tag with _ | tag
  · simp [earlier, later]
  · simp [earlier, later, eq_comm]
  · simp [earlier, later, eq_comm]
  · simp only [earlier, later, Option.toList_some, List.mem_singleton, Option.some.injEq]
    unfold TokenId at *
    omega

@[simp] theorem ids_decorated (span : Span) (anchor tag : Option TokenId) (inner : Node) :
    (decorated span anchor tag inner).ids =
      (earlier anchor tag).toList ++ ((later anchor tag).toList ++ inner.ids) := by
  simp [ids, pieces]

@[simp] theorem ids_pair (span : Span) (question : Option TokenId) (key : Node)
    (colon : Option TokenId) (value : Node) :
    (pair span question key colon value).ids =
      question.toList ++ (key.ids ++ (colon.toList ++ value.ids)) := by
  simp [ids, pieces]

@[simp] theorem ids_entry (dash : TokenId) (value : Node) :
    (entry dash value).ids = dash :: value.ids := rfl

@[simp] theorem ids_mapping_none (span : Span) (pairs : List Node) :
    (mapping span none pairs).ids = idsOf [] pairs := rfl

@[simp] theorem ids_sequence_none (span : Span) (items : List Node) :
    (sequence span none items).ids = idsOf [] items := rfl

/-- The tokens of a flow collection, brackets and commas included. -/
def bracketedIds (brackets : Brackets) (items : List Node) : List TokenId :=
  brackets.opening :: (idsOf brackets.commas items ++ [brackets.closing])

@[simp] theorem ids_mapping_some (span : Span) (brackets : Brackets) (pairs : List Node) :
    (mapping span (some brackets) pairs).ids = bracketedIds brackets pairs := by
  simp [ids, pieces, Piece.bracketed, bracketedIds, idsOf, Piece.ids]

@[simp] theorem ids_sequence_some (span : Span) (brackets : Brackets) (items : List Node) :
    (sequence span (some brackets) items).ids = bracketedIds brackets items := by
  simp [ids, pieces, Piece.bracketed, bracketedIds, idsOf, Piece.ids]

theorem idsOf_subset_bracketedIds (brackets : Brackets) (items : List Node) :
    idsOf brackets.commas items ⊆ bracketedIds brackets items := by
  intro i hi
  exact List.mem_cons_of_mem _ (List.mem_append_left _ hi)

end Node

theorem Properties.ids_ne_nil {p : Properties} (h : ¬p.isEmpty = true) :
    p.pieces.flatMap Piece.ids ≠ [] := by
  rw [Properties.pieces, Piece.flatMap_ids_properties]
  cases hanchor : p.anchor <;> cases htag : p.tag <;>
    simp_all [Properties.isEmpty, Node.earlier]

namespace Document

/-- The numbers of the tokens of a document. -/
def ids (d : Document) : List TokenId := d.pieces.flatMap Piece.ids

theorem ids_eq (d : Document) :
    d.ids = d.directives ++ (d.startMarker.toList ++ (d.content.ids ++ d.endMarker.toList)) := by
  simp [ids, pieces, Node.ids]

end Document

end YamlLayout
