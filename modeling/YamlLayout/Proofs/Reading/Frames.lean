import Mathlib.Data.List.Sort
import YamlLayout.Proofs.Reading.Numbers

/-!
# Nodes fit their tokens

The tokens of a node are of the kinds that its form calls for, and its span reaches from
the start of its first token to the end of its last one. Both are said of the tokens
that are known when reading goes on, so that they hold of all tokens in the end.
-/
namespace YamlLayout

/-- The token with the number is there and passes the test. -/
def Token.At (tokens : List Token) (test : Token → Bool) (id : TokenId) : Prop :=
  ∃ t, tokens[id]? = some t ∧ test t = true

/-- The span reaches from the start of the first of some tokens to the end of the last
of them. -/
def Span.Frames (span : Span) (tokens : List Token) (ids : List TokenId) : Prop :=
  ∃ (i j : TokenId) (a b : Token), ids.head? = some i ∧ ids.getLast? = some j ∧
    tokens[i]? = some a ∧ tokens[j]? = some b ∧ span = ⟨a.range.start, b.range.stop⟩

theorem Span.Frames.ne_nil {span : Span} {tokens : List Token} {ids : List TokenId}
    (h : span.Frames tokens ids) : ids ≠ [] := by
  obtain ⟨i, j, a, b, hi, -⟩ := h
  rintro rfl
  cases hi

/-- The brackets are the given ones, with commas between them. -/
structure Brackets.Fit (brackets : Brackets) (opening closing : String) (tokens : List Token) :
    Prop where
  opening : Token.At tokens (·.isPunctuator opening) brackets.opening
  closing : Token.At tokens (·.isPunctuator closing) brackets.closing
  commas : ∀ id ∈ brackets.commas, Token.At tokens (·.isPunctuator ",") id

namespace Node

def span? : Node → Option Span
  | empty => none
  | scalar span .. => some span
  | block span .. => some span
  | reference span .. => some span
  | decorated span .. => some span
  | pair span .. => some span
  | entry .. => none
  | mapping span .. => some span
  | sequence span .. => some span

/-- The tokens that the node itself names are of the right kinds. -/
def Named (tokens : List Token) : Node → Prop
  | empty => True
  | scalar _ _ token => Token.At tokens (·.kind == .scalar) token
  | block _ content => Token.At tokens (·.isBlockHeader) content.header ∧
      ∀ body, content.body = some body → Token.At tokens (·.kind == .scalar) body
  | reference _ token => Token.At tokens (·.kind == .reference) token
  | decorated _ anchor tag _ =>
      (∀ id, anchor = some id → Token.At tokens (·.kind == .anchor) id) ∧
        ∀ id, tag = some id → Token.At tokens (·.kind == .tag) id
  | pair _ question _ colon _ =>
      (∀ id, question = some id → Token.At tokens (·.isPunctuator "?") id) ∧
        ∀ id, colon = some id → Token.At tokens (·.isPunctuator ":") id
  | entry dash _ => Token.At tokens (·.isPunctuator "-") dash
  | mapping _ brackets _ => ∀ b, brackets = some b → b.Fit "\x7b" "\x7d" tokens
  | sequence _ brackets _ => ∀ b, brackets = some b → b.Fit "[" "]" tokens

structure Fits (tokens : List Token) (node : Node) : Prop where
  named : node.Named tokens
  framed : ∀ span, node.span? = some span → span.Frames tokens node.ids

mutual

/-- The property holds of the node and of all nodes inside it. -/
def Every (P : Node → Prop) : Node → Prop
  | empty => P empty
  | scalar span style token => P (scalar span style token)
  | block span content => P (block span content)
  | reference span token => P (reference span token)
  | decorated span anchor tag inner => P (decorated span anchor tag inner) ∧ inner.Every P
  | pair span question key colon value =>
      P (pair span question key colon value) ∧ key.Every P ∧ value.Every P
  | entry dash value => P (entry dash value) ∧ value.Every P
  | mapping span brackets pairs => P (mapping span brackets pairs) ∧ EveryOf P pairs
  | sequence span brackets items => P (sequence span brackets items) ∧ EveryOf P items

def EveryOf (P : Node → Prop) : List Node → Prop
  | [] => True
  | node :: nodes => node.Every P ∧ EveryOf P nodes

end

theorem fits_empty (tokens : List Token) : empty.Fits tokens :=
  ⟨trivial, fun span h => by cases h⟩

end Node

namespace ParseState

variable {first s t u v : ParseState} {ps : List Piece} {i id : TokenId} {a : Token}

theorem at_push {kind : TokenKind} {n : Nat} {test : Token → Bool}
    (h : test (s.ahead kind n) = true) (hmoves : (s.push kind n).Moves u) :
    Token.At u.emitted.reverse test s.next :=
  ⟨_, getElem?_of_moves_push hmoves, h⟩

theorem isPunctuator_ahead {c : Char} (h : s.cursor.peek? = some c) :
    (s.ahead .punctuator 1).isPunctuator (String.ofList [c]) = true := by
  obtain ⟨cs, hrest⟩ := List.head?_eq_some_iff.mp h
  simp [Token.isPunctuator, ahead, hrest]

theorem lt_next_of_getElem? (h : s.emitted.reverse[i]? = some a) : i < s.next := by
  have hlt := (List.getElem?_eq_some_iff.mp h).1
  simpa [next] using hlt

theorem Moves.getElem?_eq (h : s.Moves t) (hi : i < s.next) :
    t.emitted.reverse[i]? = s.emitted.reverse[i]? := by
  obtain ⟨later, hlater⟩ := h.emitted_suffix
  rw [← hlater, List.reverse_append, List.getElem?_append_left (by simpa [next] using hi)]

/-- Between the state `first` and the token `id` lie only comments, and all of them have
been read in `s`. -/
structure Leads (first : ParseState) (id : TokenId) (s : ParseState) : Prop where
  moves : first.Moves s
  ge : first.next ≤ id
  le : id ≤ s.next
  comments : ∀ i a, first.next ≤ i → i < id → s.emitted.reverse[i]? = some a →
    a.isComment = true

theorem leads_refl (s : ParseState) : s.Leads s.next s :=
  ⟨.refl, Nat.le_refl _, Nat.le_refl _, fun _ _ hi hlt => absurd hi (Nat.not_le.mpr hlt)⟩

theorem Leads.mono (h : first.Leads id s) (hmoves : s.Moves t) : first.Leads id t := by
  refine ⟨h.moves.trans hmoves, h.ge, Nat.le_trans h.le hmoves.next_le, fun i a hi hlt ha => ?_⟩
  rw [hmoves.getElem?_eq (Nat.lt_of_lt_of_le hlt h.le)] at ha
  exact h.comments i a hi hlt ha

/-- Reading goes on from the first of the tokens read. -/
theorem Reads.leads (h : first.Reads ps s) (hge : first.next ≤ id) (hle : id ≤ s.next)
    (hids : ∀ i ∈ ps.flatMap Piece.ids, id ≤ i) : first.Leads id s := by
  refine ⟨h.moves, hge, hle, fun i a hi hlt ha => ?_⟩
  rw [← Bool.not_eq_false]
  intro hcontent
  have hmem := (h.mem_ids_iff hi (Nat.lt_of_lt_of_le hlt hle) ha).mpr hcontent
  exact absurd (hids i hmem) (Nat.not_le.mpr hlt)

theorem Leads.le_of_mem_ids (h : first.Leads id s) (hmoves : s.Moves t) (hreads : first.Reads ps t)
    (hi : i ∈ ps.flatMap Piece.ids) : id ≤ i := by
  by_contra hnot
  have hlt := Nat.not_le.mp hnot
  obtain ⟨hge, hnext⟩ := hreads.ids_bounds.2 i hi
  have hlength : i < t.emitted.reverse.length := by simpa [next] using hnext
  have ha := List.getElem?_eq_getElem hlength
  have hcontent := (hreads.mem_ids_iff hge hnext ha).mp hi
  rw [(h.mono hmoves).comments i _ hge hlt ha] at hcontent
  cases hcontent

/-- The pieces hold the numbers of all tokens from `id` on but comments. -/
theorem Leads.ids_eq (h : first.Leads id s) (hmoves : s.Moves t) (hreads : first.Reads ps t) :
    ps.flatMap Piece.ids = (List.range' id (t.next - id)).filter fun i =>
      t.emitted.reverse[i]?.any (!·.isComment) := by
  obtain ⟨hsorted, hbounds⟩ := hreads.ids_bounds
  refine hsorted.eq_of_mem_iff ((List.pairwise_lt_range' 1).filter _) fun i => ?_
  have hle := (h.mono hmoves).le
  have hrange : i ∈ List.range' id (t.next - id) ↔ id ≤ i ∧ i < t.next := by
    rw [List.mem_range'_1]
    unfold TokenId at *
    omega
  rw [List.mem_filter, hrange]
  constructor
  · intro hi
    obtain ⟨hge, hlt⟩ := hbounds i hi
    obtain ⟨a, ha⟩ : ∃ a, t.emitted.reverse[i]? = some a :=
      ⟨_, List.getElem?_eq_getElem (by simpa [next] using hlt)⟩
    have hcontent := (hreads.mem_ids_iff hge hlt ha).mp hi
    rw [ha]
    exact ⟨⟨h.le_of_mem_ids hmoves hreads hi, hlt⟩, by simp [hcontent]⟩
  · rintro ⟨⟨hge, hlt⟩, hany⟩
    obtain ⟨a, ha, hcontent⟩ := Option.any_eq_true _ _ |>.mp hany
    exact (hreads.mem_ids_iff (Nat.le_trans h.ge hge) hlt ha).mpr (by simpa using hcontent)

/-- The tokens from `id` on that pass a test, by their numbers. -/
theorem map_getElem?_filter_range' (tokens : List Token) (test : Token → Bool) (id : Nat) :
    ((List.range' id (tokens.length - id)).filter fun i => tokens[i]?.any test).map (tokens[·]?) =
      ((tokens.drop id).filter test).map some := by
  have hall : (List.range' id (tokens.length - id)).map (tokens[·]?) =
      (tokens.drop id).map some := by
    refine List.ext_getElem (by simp) fun i hi hlt => ?_
    simp only [List.length_map, List.length_range'] at hi
    have hlen : id + i < tokens.length := by omega
    simp [hlen]
  have hany : (Option.any test ∘ some) = test := rfl
  rw [← hany, ← List.filter_map, ← hall, List.filter_map]
  rfl

/-- The span counted from the first of the tokens read frames them. -/
theorem Leads.frames_spanSince (h : first.Leads id s) (hmoves : s.Moves t)
    (hreads : first.Reads ps t) (hne : ps.flatMap Piece.ids ≠ []) (hu : t.Moves u) :
    (t.spanSince id).Frames u.emitted.reverse (ps.flatMap Piece.ids) := by
  have hle := (h.mono hmoves).le
  let found := (t.emitted.reverse.drop id).filter (!·.isComment)
  have hfound : (ps.flatMap Piece.ids).map (t.emitted.reverse[·]?) = found.map some := by
    rw [h.ids_eq hmoves hreads, ← map_getElem?_filter_range', List.length_reverse]
    rfl
  have htaken : (t.emitted.take (t.next - id)).filter (!·.isComment) = found.reverse := by
    have hdrop : t.emitted.reverse.drop id = (t.emitted.take (t.next - id)).reverse := by
      rw [List.reverse_take]
      congr 1
      unfold next TokenId at *
      omega
    rw [← List.filter_reverse, hdrop, List.reverse_reverse]
  have hi := List.head?_eq_some_head hne
  have hj := List.getLast?_eq_some_getLast hne
  have hfirst := congrArg List.head? hfound
  have hlast := congrArg List.getLast? hfound
  rw [List.head?_map, hi, List.head?_map] at hfirst
  rw [List.getLast?_map, hj, List.getLast?_map] at hlast
  obtain ⟨a, ha, hfirst⟩ := Option.map_eq_some_iff.mp hfirst.symm
  obtain ⟨b, hb, hlast⟩ := Option.map_eq_some_iff.mp hlast.symm
  refine ⟨_, _, a, b, hi, hj, ?_, ?_, ?_⟩
  · rw [hu.getElem?_eq (lt_next_of_getElem? hfirst.symm)]
    exact hfirst.symm
  · rw [hu.getElem?_eq (lt_next_of_getElem? hlast.symm)]
    exact hlast.symm
  · simp only [spanSince, htaken, List.getLast?_reverse, List.head?_reverse, ha, hb]

end ParseState

/-- Only the empty node has no tokens. -/
theorem Node.ids_ne_nil_of_fits {node : Node} {tokens : List Token} (hformed : node.Formed)
    (hfits : node.Every (Node.Fits tokens)) (hne : node.isEmpty = false) : node.ids ≠ [] := by
  cases node with
  | empty => cases hne
  | scalar => exact (hfits.framed _ rfl).ne_nil
  | block => exact (hfits.framed _ rfl).ne_nil
  | reference => exact (hfits.framed _ rfl).ne_nil
  | decorated => exact (hfits.1.framed _ rfl).ne_nil
  | pair => exact (hfits.1.framed _ rfl).ne_nil
  | entry => cases hformed
  | mapping => exact (hfits.1.framed _ rfl).ne_nil
  | sequence => exact (hfits.1.framed _ rfl).ne_nil

/-- The node fits its tokens, whatever is read after `t`. -/
structure ParseState.Holds (t : ParseState) (node : Node) : Prop where
  formed : node.Formed
  fits : ∀ u, t.Moves u → node.Every (Node.Fits u.emitted.reverse)

/-- The node is read from the one state to the other. -/
structure ParseState.ReadsNode (s : ParseState) (node : Node) (t : ParseState) : Prop
    extends t.Holds node where
  reads : s.Reads node.pieces t

/-- A node is read that is not the empty one. -/
structure ParseState.ReadsFull (s : ParseState) (node : Node) (t : ParseState) : Prop
    extends s.ReadsNode node t where
  isEmpty_eq : node.isEmpty = false

namespace ParseState

variable {first s t u : ParseState} {node key value : Node} {id : TokenId}
  {question colon : Option TokenId}

theorem holds_empty (s : ParseState) : s.Holds .empty := ⟨trivial, fun _ _ => Node.fits_empty _⟩

theorem Holds.mono (h : s.Holds node) (hmoves : s.Moves t) : t.Holds node :=
  ⟨h.formed, fun u hu => h.fits u (hmoves.trans hu)⟩

theorem Holds.ids_ne_nil (h : s.Holds node) (hne : node.isEmpty = false) : node.ids ≠ [] :=
  Node.ids_ne_nil_of_fits h.formed (h.fits s .refl) hne

/-- A pair is in order if its parts are and one of them is written. -/
theorem Leads.readsNode_pair (h : first.Leads id s) (hmoves : s.Moves t)
    (hreads : first.Reads (Piece.mark question ++ (key.pieces ++ (Piece.mark colon ++
      value.pieces))) t)
    (hkey : t.Holds key) (hvalue : t.Holds value) (hcolon : colon = none → value = .empty)
    (hwritten : question.toList ++ (key.ids ++ colon.toList) ≠ [])
    (hquestions : ∀ u, t.Moves u → ∀ id, question = some id →
      Token.At u.emitted.reverse (·.isPunctuator "?") id)
    (hcolons : ∀ u, t.Moves u → ∀ id, colon = some id →
      Token.At u.emitted.reverse (·.isPunctuator ":") id) :
    first.ReadsNode (.pair (t.spanSince id) question key colon value) t := by
  refine ⟨⟨⟨hkey.formed, hvalue.formed, ?_⟩, fun u hu => ?_⟩, hreads⟩
  · intro hnone
    rw [hcolon hnone]
    rfl
  · refine ⟨⟨⟨hquestions u hu, hcolons u hu⟩, fun span hspan => ?_⟩, hkey.fits u hu,
      hvalue.fits u hu⟩
    rw [← Option.some.inj hspan]
    refine h.frames_spanSince hmoves hreads ?_ hu
    intro hnil
    change (Node.pair _ question key colon value).ids = [] at hnil
    simp only [Node.ids_pair, List.append_eq_nil_iff] at hnil
    refine hwritten ?_
    rw [hnil.1, hnil.2.1, hnil.2.2.1]
    rfl

theorem readsNode_empty (s : ParseState) : s.ReadsNode .empty s := ⟨holds_empty s, .done s⟩

theorem ReadsNode.passes (h : s.ReadsNode node t) (k : t.Passes u) : s.ReadsNode node u :=
  ⟨h.toHolds.mono k.moves, h.reads.passes k⟩

theorem Reads.trans_readsNode (h : s.Reads [] t) (k : t.ReadsNode node u) : s.ReadsNode node u :=
  ⟨k.toHolds, h.trans k.reads⟩

theorem Passes.trans_readsNode (h : s.Passes t) (k : t.ReadsNode node u) : s.ReadsNode node u :=
  h.reads.trans_readsNode k

/-- The nodes of a block, of which there is at least one, are read one after the other. -/
structure ReadsRows (s : ParseState) (nodes : List Node) (t : ParseState) : Prop where
  reads : s.Reads (Node.piecesOf [] nodes) t
  written : Node.idsOf [] nodes ≠ []
  fits : ∀ u, t.Moves u → Node.EveryOf (Node.Fits u.emitted.reverse) nodes

theorem readsRows_singleton (h : s.Reads node.pieces t) (hwritten : node.ids ≠ [])
    (hfits : ∀ u, t.Moves u → node.Every (Node.Fits u.emitted.reverse)) :
    s.ReadsRows [node] t := by
  refine ⟨by simpa [Node.piecesOf] using h, ?_, fun u hu => ⟨hfits u hu, trivial⟩⟩
  rw [Node.idsOf_cons]
  exact List.append_ne_nil_of_left_ne_nil hwritten _

theorem ReadsRows.cons {nodes : List Node} (h : s.Reads node.pieces t)
    (hfits : ∀ u, t.Moves u → node.Every (Node.Fits u.emitted.reverse))
    (hnodes : t.ReadsRows nodes u) : s.ReadsRows (node :: nodes) u := by
  refine ⟨by simpa [Node.piecesOf] using h.trans hnodes.reads, ?_,
    fun v hv => ⟨hfits v (hnodes.reads.moves.trans hv), hnodes.fits v hv⟩⟩
  rw [Node.idsOf_cons]
  simp [hnodes.written]

theorem Leads.readsNode_mapping {pairs : List Node} (h : first.Leads id s) (hmoves : s.Moves t)
    (hrows : first.ReadsRows pairs t) (hformed : Node.FormedAll pairs) :
    first.ReadsNode (.mapping (t.spanSince id) none pairs) t := by
  refine ⟨⟨hformed, fun u hu => ⟨⟨fun b hb => (by cases hb), fun span hspan => ?_⟩,
    hrows.fits u hu⟩⟩, hrows.reads⟩
  rw [← Option.some.inj hspan]
  exact h.frames_spanSince hmoves hrows.reads hrows.written hu

theorem Leads.readsNode_sequence {items : List Node} (h : first.Leads id s) (hmoves : s.Moves t)
    (hrows : first.ReadsRows items t) (hformed : Node.FormedEntries items) :
    first.ReadsNode (.sequence (t.spanSince id) none items) t := by
  refine ⟨⟨hformed, fun u hu => ⟨⟨fun b hb => (by cases hb), fun span hspan => ?_⟩,
    hrows.fits u hu⟩⟩, hrows.reads⟩
  rw [← Option.some.inj hspan]
  exact h.frames_spanSince hmoves hrows.reads hrows.written hu

end ParseState

end YamlLayout
