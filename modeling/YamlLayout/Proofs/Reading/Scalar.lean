import YamlLayout.Proofs.Reading.Frames
import YamlLayout.Proofs.Reading.Trivia

/-!
# Reading properties, scalars and references

Each reader leaves behind the pieces of what it answers with.
-/
namespace YamlLayout.Parse

open ParseState

variable {s t first : ParseState} {p : Properties}

/-- A token that starts here is read as one piece. -/
theorem reads_push {kind : TokenKind} {n : Nat} (hkind : kind ≠ .comment) (h : s.Ahead n) :
    s.Reads [.token s.next] (s.push kind n) :=
  .token hkind h (.done _)

theorem property_ensures {kind : TokenKind} {flow : Bool} {c : Char} (hkind : kind ≠ .comment)
    (hpeek : s.cursor.peek? = some c) (hc : isSpace c = false) :
    (property kind flow).Ensures s fun mark t => mark.token = s.next ∧
      s.Reads [.token s.next] t ∧
      ∀ u, t.Moves u → Token.At u.emitted.reverse (·.kind == kind) s.next := by
  have hahead : s.Ahead (Lexeme.property flow s.cursor.rest) := by
    obtain ⟨cs, hrest⟩ := List.head?_eq_some_iff.mp hpeek
    refine ⟨fun d hd => ?_, ?_, Lexeme.property_le ..⟩
    · rw [hpeek, Option.some.injEq] at hd
      exact hd ▸ hc
    · rw [hrest]
      exact Lexeme.property_pos ..
  exact .get_bind (.emit_bind (.pure
    ⟨rfl, reads_push hkind hahead, fun u hu => at_push (by simp [ahead]) hu⟩))

/-- From `first` on just these properties have been read, with the blanks after them. -/
structure HasRead (first : ParseState) (p : Properties) (s : ParseState) : Prop where
  reads : first.Reads p.pieces s
  clear : s.ClearOfBlanks
  isEmpty_of_first : p.first = none → p.isEmpty = true
  head_eq : ∀ mark, p.first = some mark →
    (p.pieces.flatMap Piece.ids).head? = some mark.token
  anchor : ∀ u, s.Moves u → ∀ id, p.anchor = some id →
    Token.At u.emitted.reverse (·.kind == .anchor) id
  tag : ∀ u, s.Moves u → ∀ id, p.tag = some id → Token.At u.emitted.reverse (·.kind == .tag) id

theorem HasRead.none (h : first.Passes s) (hclear : s.ClearOfBlanks) : HasRead first .none s where
  reads := h.reads
  clear := hclear
  isEmpty_of_first _ := rfl
  head_eq _ h := by cases h
  anchor _ _ _ h := by cases h
  tag _ _ _ h := by cases h

theorem HasRead.passes (h : HasRead first p s) (hpasses : s.Passes t) (hclear : t.ClearOfBlanks) :
    HasRead first p t where
  reads := h.reads.passes hpasses
  clear := hclear
  isEmpty_of_first := h.isEmpty_of_first
  head_eq := h.head_eq
  anchor u hu := h.anchor u (hpasses.moves.trans hu)
  tag u hu := h.tag u (hpasses.moves.trans hu)

/-- What follows the properties is counted from the first of them. -/
theorem HasRead.leads (h : HasRead first p s) :
    first.Leads ((p.first.map (·.token)).getD s.next) s := by
  obtain ⟨hsorted, hbounds⟩ := h.reads.ids_bounds
  cases hfirst : p.first with
  | none =>
    have hnil := Properties.pieces_of_isEmpty (h.isEmpty_of_first hfirst)
    exact h.reads.leads h.reads.moves.next_le (Nat.le_refl _) (by simp [hnil])
  | some mark =>
    obtain ⟨ids, hids⟩ := List.head?_eq_some_iff.mp (h.head_eq mark hfirst)
    rw [hids] at hsorted hbounds
    have hmark := hbounds mark.token (List.mem_cons_self ..)
    refine h.reads.leads hmark.1 (Nat.le_of_lt hmark.2) fun i hi => ?_
    rw [hids] at hi
    rcases List.mem_cons.mp hi with rfl | hi
    · exact Nat.le_refl _
    · exact Nat.le_of_lt (List.rel_of_pairwise_cons hsorted hi)

/-- The first property stays the first one when another is added. -/
theorem HasRead.head_append (h : HasRead first p s) {mark added : Landmark}
    (hmark : p.first.or (some added) = some mark) :
    (p.pieces.flatMap Piece.ids ++ [added.token]).head? = some mark.token := by
  rcases Option.or_eq_some_iff.mp hmark with hmark | ⟨hnone, hmark⟩
  · rw [List.head?_append, h.head_eq mark hmark]
    rfl
  · cases hmark
    rw [Properties.pieces_of_isEmpty (h.isEmpty_of_first hnone)]
    rfl

theorem HasRead.withAnchor (h : HasRead first p s) (hanchor : ¬p.anchor.isSome = true)
    {mark : Landmark} (hmark : mark.token = s.next) (ht : s.Reads [.token s.next] t)
    (hkind : ∀ u, t.Moves u → Token.At u.emitted.reverse (·.kind == .anchor) s.next) (line : Nat) :
    HasRead first (p.withAnchor mark line) t.skipBlanks := by
  have hpieces := Properties.pieces_withAnchor hanchor
    (fun i hi => hmark ▸ (h.reads.token_bounds hi).2) line
  have hblanks := passes_skipBlanks t
  constructor
  case reads =>
    have hread := (h.reads.trans ht).passes hblanks
    rwa [← hmark, ← hpieces] at hread
  case clear => exact clearOfBlanks_skipBlanks t
  case isEmpty_of_first => simp [Properties.withAnchor]
  case head_eq =>
    intro m hm
    rw [hpieces, List.flatMap_append]
    exact h.head_append hm
  case anchor =>
    intro u hu id hid
    rw [← Option.some.inj hid, hmark]
    exact hkind u (hblanks.moves.trans hu)
  case tag => exact fun u hu => h.tag u ((ht.passes hblanks).moves.trans hu)

theorem HasRead.withTag (h : HasRead first p s) (htag : ¬p.tag.isSome = true)
    {mark : Landmark} (hmark : mark.token = s.next) (ht : s.Reads [.token s.next] t)
    (hkind : ∀ u, t.Moves u → Token.At u.emitted.reverse (·.kind == .tag) s.next) (line : Nat) :
    HasRead first (p.withTag mark line) t.skipBlanks := by
  have hpieces := Properties.pieces_withTag htag
    (fun i hi => hmark ▸ (h.reads.token_bounds hi).2) line
  have hblanks := passes_skipBlanks t
  constructor
  case reads =>
    have hread := (h.reads.trans ht).passes hblanks
    rwa [← hmark, ← hpieces] at hread
  case clear => exact clearOfBlanks_skipBlanks t
  case isEmpty_of_first => simp [Properties.withTag]
  case head_eq =>
    intro m hm
    rw [hpieces, List.flatMap_append]
    exact h.head_append hm
  case anchor => exact fun u hu => h.anchor u ((ht.passes hblanks).moves.trans hu)
  case tag =>
    intro u hu id hid
    rw [← Option.some.inj hid, hmark]
    exact hkind u (hblanks.moves.trans hu)

/-- Where no property comes next, nothing is read. -/
theorem properties_ensures (flow : Bool) (p : Properties) (h : HasRead first p s) :
    (properties flow p).Ensures s fun q t => HasRead first q t ∧ s.Moves t ∧
      (q.isEmpty = true → p.isEmpty = true ∧ t = s) := by
  induction p using properties.induct generalizing s with
  | case1 p ihAnchor ihTag =>
    rw [properties]
    refine .get_bind ?_
    split
    · rename_i hpeek
      split
      · exact .fail
      · rename_i hanchor
        refine (property_ensures (by decide) hpeek rfl).bind fun mark t hmark =>
          .skipBlanks_bind ?_
        obtain ⟨htoken, ht, hkind⟩ := hmark
        refine (ihAnchor s hanchor mark (h.withAnchor hanchor htoken ht hkind _)).mono
          fun q u hq => ⟨hq.1, (ht.passes (passes_skipBlanks t)).moves.trans hq.2.1, fun h => ?_⟩
        obtain ⟨hadded, -⟩ := hq.2.2 h
        simp [Properties.isEmpty, Properties.withAnchor] at hadded
    · rename_i hpeek
      split
      · exact .fail
      · rename_i htag
        refine (property_ensures (by decide) hpeek rfl).bind fun mark t hmark =>
          .skipBlanks_bind ?_
        obtain ⟨htoken, ht, hkind⟩ := hmark
        refine (ihTag s htag mark (h.withTag htag htoken ht hkind _)).mono
          fun q u hq => ⟨hq.1, (ht.passes (passes_skipBlanks t)).moves.trans hq.2.1, fun h => ?_⟩
        obtain ⟨hadded, -⟩ := hq.2.2 h
        simp [Properties.isEmpty, Properties.withTag] at hadded
    · exact .pure ⟨h, .refl, fun hempty => ⟨hempty, rfl⟩⟩

/-- A node after its properties is read from the first of them on. -/
theorem decorate_ensures {id : TokenId} {node : Node} (h : HasRead first p s)
    (hleads : first.Leads id s) (hnode : s.ReadsNode node t) :
    (decorate p id node).Ensures t first.ReadsNode := by
  have hreads := h.reads.trans hnode.reads
  unfold decorate
  split
  · rename_i hempty
    rw [Properties.pieces_of_isEmpty hempty] at hreads
    exact .pure ⟨hnode.toHolds, hreads⟩
  · rename_i hsome
    refine .get_bind (.pure
      ⟨⟨hnode.formed, fun u hu => ⟨⟨?_, ?_⟩, hnode.fits u hu⟩⟩, hreads⟩)
    · have hmoves := hnode.reads.moves.trans hu
      exact ⟨h.anchor u hmoves, h.tag u hmoves⟩
    · intro span hspan
      rw [← Option.some.inj hspan]
      have hne : (p.pieces ++ node.pieces).flatMap Piece.ids ≠ [] := by
        rw [List.flatMap_append]
        exact List.append_ne_nil_of_left_ne_nil (Properties.ids_ne_nil hsome) _
      exact hleads.frames_spanSince hnode.reads.moves hreads hne hu

/-- The empty node is answered only where there is nothing to decorate and nothing to
decorate it with. -/
theorem decorate_isEmpty (p : Properties) (id : TokenId) (node : Node) :
    (decorate p id node).Ensures s fun d t => t = s ∧
      (d.isEmpty = true → p.isEmpty = true ∧ node.isEmpty = true) := by
  unfold decorate
  split
  · rename_i hempty
    exact .pure ⟨rfl, fun h => ⟨hempty, h⟩⟩
  · exact .get_bind (.pure ⟨rfl, fun h => by cases h⟩)

theorem scalar_ensures (style : ScalarStyle) {n : Nat} (h : s.Ahead n) :
    (scalar style n).Ensures s s.ReadsFull := by
  refine .get_bind (.emit_bind (.get_bind (.pure
    ⟨⟨⟨trivial, fun u hu => ⟨at_push (by simp [ahead]) hu, ?_⟩⟩, reads_push (by decide) h⟩, rfl⟩)))
  intro span hspan
  exact ⟨s.next, s.next, _, _, rfl, rfl, getElem?_of_moves_push hu, getElem?_of_moves_push hu,
    (Option.some.inj hspan).symm⟩

theorem reference_ensures (flow : Bool) {c : Char} (h : s.Clear)
    (hpeek : s.cursor.peek? = some c) :
    (reference flow).Ensures s s.ReadsFull := by
  obtain ⟨cs, hrest⟩ := List.head?_eq_some_iff.mp hpeek
  have hahead : s.Ahead (Lexeme.reference flow s.cursor.rest) := by
    refine ⟨h, ?_, Lexeme.reference_le ..⟩
    rw [hrest]
    exact Lexeme.reference_pos ..
  refine .get_bind (.emit_bind (.get_bind (.pure ⟨⟨⟨trivial,
    fun u hu => ⟨at_push (by simp [ahead]) hu, ?_⟩⟩, reads_push (by decide) hahead⟩, rfl⟩)))
  intro span hspan
  exact ⟨s.next, s.next, _, _, rfl, rfl, getElem?_of_moves_push hu, getElem?_of_moves_push hu,
    (Option.some.inj hspan).symm⟩

theorem quoted_ensures (h : s.Clear) :
    quoted.Ensures s s.ReadsFull := by
  unfold quoted
  refine .get_bind ?_
  split
  · exact .fail
  · rename_i quote rest hrest
    split
    · exact .fail
    · rename_i n hn
      have hahead : s.Ahead (n + 1) := by
        refine ⟨h, Nat.succ_pos n, ?_⟩
        rw [hrest, List.length_cons]
        exact Nat.succ_le_succ (Lexeme.quoted_le hn)
      split <;> extract_lets crossed
      · split
        · exact .fail_bind
        · exact scalar_ensures _ hahead
      · split
        · exact .fail_bind
        · exact scalar_ensures _ hahead

theorem plain_ensures (parent : Int) (flow : Bool) (cause : ParseCause) (h : s.Clear) :
    (plain parent flow cause).Ensures s s.ReadsFull := by
  unfold plain
  refine .get_bind ?_
  split
  · exact .fail
  · rename_i hpos
    exact scalar_ensures _ ⟨h, Nat.pos_of_ne_zero hpos, Lexeme.plain_le ..⟩

theorem readsNode_block {content : BlockScalar} (h : s.ReadsBlock content t)
    (hheader : ∀ u, t.Moves u → Token.At u.emitted.reverse (·.isBlockHeader) content.header)
    (hbody : ∀ u, t.Moves u → ∀ body, content.body = some body →
      Token.At u.emitted.reverse (·.kind == .scalar) body) :
    s.ReadsNode (.block (t.spanSince s.next) content) t := by
  have hreads : s.Reads [.block content] t := .block h (.done t)
  have hne : [Piece.block content].flatMap Piece.ids ≠ [] := by simp [Piece.ids]
  refine ⟨⟨trivial, fun u hu => ⟨⟨hheader u hu, hbody u hu⟩, fun span hspan => ?_⟩⟩, hreads⟩
  rw [← Option.some.inj hspan]
  exact (leads_refl s).frames_spanSince hreads.moves hreads hne hu

theorem blockScalar_ensures (parent : Int)
    (h : s.cursor.peek? = some '|' ∨ s.cursor.peek? = some '>') :
    (blockScalar parent).Ensures s s.ReadsNode := by
  obtain ⟨c, cs, hrest, hc⟩ : ∃ c cs, s.cursor.rest = c :: cs ∧ (c = '|' ∨ c = '>') := by
    rcases h with h | h
    · obtain ⟨cs, hrest⟩ := List.head?_eq_some_iff.mp h
      exact ⟨_, cs, hrest, .inl rfl⟩
    · obtain ⟨cs, hrest⟩ := List.head?_eq_some_iff.mp h
      exact ⟨_, cs, hrest, .inr rfl⟩
  unfold blockScalar
  refine .get_bind ?_
  rw [hrest, List.drop_succ_cons, List.drop_zero]
  extract_lets header named
  split
  · exact .set_bind .fail_bind
  rename_i hzero
  let opened := s.push .punctuator (header.length + 1)
  have hopens : ∀ b : BlockScalar, b.header = s.next → b.digit = header.digit →
      s.Opens b opened := by
    intro b hheader hdigit
    exact ⟨⟨c, cs, hrest, hc, by simpa using hzero, hdigit, rfl⟩, hheader⟩
  have hheader : (s.ahead .punctuator (header.length + 1)).isBlockHeader = true := by
    rcases hc with rfl | rfl <;> simp [Token.isBlockHeader, ahead, hrest]
  refine .emit_bind (.get_bind ?_)
  extract_lets blank answered bodied commented
  have hcommented : ∀ u, opened.Passes u → (commented ()).Ensures u s.ReadsNode := by
    intro u hu
    refine .get_bind ?_
    split
    swap
    · exact .fail_bind
    rename_i hbreak
    rw [Cursor.atBreak_eq] at hbreak
    refine .get_bind ?_
    split
    · refine .get_bind (.pure (readsNode_block (.bare (hopens _ rfl rfl) hu rfl)
        (fun v hv => at_push hheader (hu.moves.trans hv)) fun _ _ _ hbody => ?_))
      cases hbody
    · rename_i body hbody
      have hmoves := hu.moves.tail (.body hbreak hbody)
      refine .modify_bind (.map_bind (.emit_bind (.get_bind (.pure (readsNode_block
        (.filled (hopens _ rfl rfl) hu hbreak hbody rfl)
        (fun v hv => at_push hheader (hmoves.trans hv)) fun v hv id hid => ?_)))))
      rw [← Option.some.inj hid]
      exact at_push (by simp [ahead]) hv
  clear_value commented
  refine .skipBlanks_bind (.get_bind ?_)
  split
  · rename_i hnumber
    have hpeek : opened.skipBlanks.cursor.peek? = some '#' := by
      simp only [Bool.and_eq_true, beq_iff_eq] at hnumber
      exact hnumber.2
    exact .modify_bind
      (hcommented _ ((passes_skipBlanks opened).trans (passes_readComment hpeek)))
  · exact hcommented _ (passes_skipBlanks opened)

end YamlLayout.Parse
