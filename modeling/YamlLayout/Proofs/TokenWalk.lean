import YamlLayout.Proofs.Ownership

/-!
# Walking over the tokens of a stream

A walk lists the tokens that a stream names, construct by construct in the order of the
text. The commas of flow collections belong to no construct, and they and the comments
are the only tokens that a walk leaves out.
-/
namespace YamlLayout

namespace Node

mutual

/-- The tokens of a node in the order in which they stand. -/
def walk : Node → List TokenId
  | empty => []
  | scalar _ _ token => [token]
  | block _ content => content.header :: content.body.toList
  | reference _ token => [token]
  | decorated _ anchor tag inner =>
    (earlier anchor tag).toList ++ ((later anchor tag).toList ++ inner.walk)
  | pair _ question key colon value =>
    question.toList ++ (key.walk ++ (colon.toList ++ value.walk))
  | entry dash value => dash :: value.walk
  | mapping _ none pairs => walkOf pairs
  | mapping _ (some brackets) pairs =>
    brackets.opening :: (walkOf pairs ++ [brackets.closing])
  | sequence _ none items => walkOf items
  | sequence _ (some brackets) items =>
    brackets.opening :: (walkOf items ++ [brackets.closing])

def walkOf : List Node → List TokenId
  | [] => []
  | node :: nodes => node.walk ++ walkOf nodes

end

end Node

def Document.walk (d : Document) : List TokenId :=
  d.directives ++ (d.startMarker.toList ++ (d.content.walk ++ d.endMarker.toList))

def Stream.walk (s : Stream) : List TokenId := s.documents.flatMap Document.walk

/-- The token with the number is not a comma. -/
def isKept (tokens : List Token) (id : TokenId) : Bool :=
  !tokens[id]?.any (·.isPunctuator ",")

section Kept

variable {tokens : List Token} {id : TokenId} {test : Token → Bool}

theorem Token.At.isKept_eq (h : Token.At tokens test id)
    (htest : ∀ t, test t = true → t.isPunctuator "," = false) : isKept tokens id = true := by
  obtain ⟨t, ht, hpass⟩ := h
  simp [isKept, ht, htest t hpass]

theorem Token.At.filter_cons (h : Token.At tokens test id)
    (htest : ∀ t, test t = true → t.isPunctuator "," = false) (ids : List TokenId) :
    (id :: ids).filter (isKept tokens) = id :: ids.filter (isKept tokens) :=
  List.filter_cons_of_pos (h.isKept_eq htest)

theorem filter_toList {token : Option TokenId} (h : ∀ id, token = some id → Token.At tokens test id)
    (htest : ∀ t, test t = true → t.isPunctuator "," = false) :
    token.toList.filter (isKept tokens) = token.toList := by
  refine List.filter_eq_self.mpr fun id hid => ?_
  exact (h id (Option.mem_toList.mp hid)).isKept_eq htest

theorem isPunctuator_eq_false_of_kind {kind : TokenKind} (hkind : kind ≠ .punctuator) (t : Token)
    (h : (t.kind == kind) = true) : t.isPunctuator "," = false := by
  simp [Token.isPunctuator, beq_iff_eq.mp h, hkind]

theorem isPunctuator_eq_false_of_isPunctuator {value : String} (hvalue : value ≠ ",") (t : Token)
    (h : t.isPunctuator value = true) : t.isPunctuator "," = false := by
  simp only [Token.isPunctuator, Bool.and_eq_true, beq_iff_eq] at h
  simp [Token.isPunctuator, h.2, hvalue]

theorem isPunctuator_eq_false_of_isBlockHeader (t : Token) (h : t.isBlockHeader = true) :
    t.isPunctuator "," = false := by
  rw [← Bool.not_eq_true]
  intro hcomma
  simp only [Token.isPunctuator, Bool.and_eq_true, beq_iff_eq] at hcomma
  simp [Token.isBlockHeader, hcomma.2] at h

end Kept

namespace Node

variable {tokens : List Token}

theorem filter_bracketedIds {brackets : Brackets} {items : List Node} {opening closing : String}
    (h : brackets.Fit opening closing tokens) (hopening : opening ≠ ",") (hclosing : closing ≠ ",")
    (hitems : (idsOf brackets.commas items).filter (isKept tokens) = walkOf items) :
    (bracketedIds brackets items).filter (isKept tokens) =
      brackets.opening :: (walkOf items ++ [brackets.closing]) := by
  rw [bracketedIds, h.opening.filter_cons (isPunctuator_eq_false_of_isPunctuator hopening),
    List.filter_append, hitems,
    h.closing.filter_cons (isPunctuator_eq_false_of_isPunctuator hclosing)]
  rfl

mutual

/-- A walk passes by the tokens of a node but for the commas. -/
theorem filter_ids : (node : Node) → node.Every (Fits tokens) →
    node.ids.filter (isKept tokens) = node.walk
  | empty, _ => rfl
  | scalar .., h => h.named.filter_cons (isPunctuator_eq_false_of_kind (by decide)) []
  | reference .., h => h.named.filter_cons (isPunctuator_eq_false_of_kind (by decide)) []
  | block span content, h => by
    have hids : (block span content).ids = content.header :: content.body.toList := by
      simp [ids, pieces, Piece.ids]
    rw [hids, h.named.1.filter_cons isPunctuator_eq_false_of_isBlockHeader,
      filter_toList h.named.2 (isPunctuator_eq_false_of_kind (by decide)), walk]
  | decorated _ anchor tag inner, h => by
    have hkept : ∀ id, id ∈ (earlier anchor tag).toList ∨ id ∈ (later anchor tag).toList →
        isKept tokens id = true := by
      intro id hid
      rcases mem_properties_iff.mp hid with hid | hid
      · exact (h.1.named.1 id hid).isKept_eq (isPunctuator_eq_false_of_kind (by decide))
      · exact (h.1.named.2 id hid).isKept_eq (isPunctuator_eq_false_of_kind (by decide))
    rw [ids_decorated, List.filter_append, List.filter_append, filter_ids inner h.2,
      List.filter_eq_self.mpr fun id hid => hkept id (.inl hid),
      List.filter_eq_self.mpr fun id hid => hkept id (.inr hid), walk]
  | pair _ question key colon value, h => by
    rw [ids_pair, List.filter_append, List.filter_append, List.filter_append,
      filter_ids key h.2.1, filter_ids value h.2.2,
      filter_toList h.1.named.1 (isPunctuator_eq_false_of_isPunctuator (by decide)),
      filter_toList h.1.named.2 (isPunctuator_eq_false_of_isPunctuator (by decide)), walk]
  | entry dash value, h => by
    rw [ids_entry, h.1.named.filter_cons (isPunctuator_eq_false_of_isPunctuator (by decide)),
      filter_ids value h.2, walk]
  | mapping _ none pairs, h => by
    rw [ids_mapping_none, filter_idsOf [] pairs h.2 (by simp), walk]
  | mapping _ (some brackets) pairs, h => by
    have hfit := h.1.named brackets rfl
    rw [ids_mapping_some, filter_bracketedIds hfit (by decide) (by decide)
      (filter_idsOf _ pairs h.2 hfit.commas), walk]
  | sequence _ none items, h => by
    rw [ids_sequence_none, filter_idsOf [] items h.2 (by simp), walk]
  | sequence _ (some brackets) items, h => by
    have hfit := h.1.named brackets rfl
    rw [ids_sequence_some, filter_bracketedIds hfit (by decide) (by decide)
      (filter_idsOf _ items h.2 hfit.commas), walk]

theorem filter_idsOf (commas : List TokenId) : (nodes : List Node) → EveryOf (Fits tokens) nodes →
    (∀ id ∈ commas, Token.At tokens (·.isPunctuator ",") id) →
    (idsOf commas nodes).filter (isKept tokens) = walkOf nodes
  | [], _, hcommas => by
    have hids : idsOf commas [] = commas := by simp [idsOf, piecesOf]
    rw [hids, walkOf]
    refine List.filter_eq_nil_iff.mpr fun id hid => ?_
    obtain ⟨t, ht, hcomma⟩ := hcommas id hid
    simp [isKept, ht, hcomma]
  | node :: nodes, h, hcommas => by
    have hdropped : (commas.take 1).filter (isKept tokens) = [] := by
      refine List.filter_eq_nil_iff.mpr fun id hid => ?_
      obtain ⟨t, ht, hcomma⟩ := hcommas id (List.mem_of_mem_take hid)
      simp [isKept, ht, hcomma]
    rw [idsOf_cons, List.filter_append, List.filter_append, filter_ids node h.1, hdropped,
      filter_idsOf _ nodes h.2 fun id hid => hcommas id (List.mem_of_mem_drop hid),
      List.nil_append, walkOf]

end

end Node

theorem Document.filter_ids {d : Document} {tokens : List Token} (h : d.Sound tokens) :
    d.ids.filter (isKept tokens) = d.walk := by
  have hdirectives : d.directives.filter (isKept tokens) = d.directives := by
    refine List.filter_eq_self.mpr fun id hid => ?_
    exact (h.directives id hid).isKept_eq (isPunctuator_eq_false_of_kind (by decide))
  rw [ids_eq, List.filter_append, List.filter_append, List.filter_append, hdirectives,
    d.content.filter_ids h.fits,
    filter_toList h.startMarker (isPunctuator_eq_false_of_kind (by decide)),
    filter_toList h.endMarker (isPunctuator_eq_false_of_kind (by decide)), walk]

namespace Stream

variable {stream : Stream} {s : ParseState}

theorem ReadTo.filter_ids (h : stream.ReadTo s) :
    stream.ids.filter (isKept stream.tokens.toList) = stream.walk := by
  rw [ids_eq_flatMap, List.filter_flatMap, walk]
  exact List.flatMap_congr fun d hd => Document.filter_ids (h.sound d hd)

theorem ReadTo.ids_eq (h : stream.ReadTo s) :
    stream.ids = (List.range stream.tokens.size).filter fun i =>
      stream.tokens[i]?.any (!·.isComment) := by
  have hids := (ParseState.leads_refl _).ids_eq h.reads.moves h.reads
  rw [h.tokens_eq, List.range_eq_range']
  simpa [ids, ParseState.next, ParseState.ofText] using hids

/-- A walk over a stream lists all tokens but comments and commas, each once and in
order. -/
theorem walk_eq_filter_range {text : List Char} (h : parse text = .ok stream) :
    stream.walk = (List.range stream.tokens.size).filter fun id =>
      stream.tokens[id]?.any fun t => !t.isComment && !t.isPunctuator "," := by
  obtain ⟨-, s, hread⟩ := exists_readTo h
  rw [← hread.filter_ids, hread.ids_eq, List.filter_filter]
  refine List.filter_congr fun id hid => ?_
  rw [isKept, Array.getElem?_toList]
  cases stream.tokens[id]? with
  | none => rfl
  | some t => simp [Bool.and_comm]

/-- A decorated pair, a list in brackets with a comma and a comment, and a block scalar. -/
theorem walk_eq_filter_range_mixed :
    ∃ stream, parse "&a !t k: [x, y] # c\n? |\n  z\n: *a\n...\n".toList = .ok stream ∧
      stream.walk = [0, 1, 2, 3, 4, 5, 7, 8, 10, 11, 12, 13, 14, 15] ∧
      stream.walk = (List.range stream.tokens.size).filter fun id =>
        stream.tokens[id]?.any fun t => !t.isComment && !t.isPunctuator "," := by
  have hwalk : (parse "&a !t k: [x, y] # c\n? |\n  z\n: *a\n...\n".toList).toOption.map
      (fun stream => stream.walk) = some [0, 1, 2, 3, 4, 5, 7, 8, 10, 11, 12, 13, 14, 15] := by
    decide +kernel
  cases hparse : parse "&a !t k: [x, y] # c\n? |\n  z\n: *a\n...\n".toList with
  | error e =>
    rw [hparse] at hwalk
    cases hwalk
  | ok stream =>
    rw [hparse] at hwalk
    exact ⟨stream, rfl, Option.some.inj hwalk, walk_eq_filter_range hparse⟩

end Stream

end YamlLayout
