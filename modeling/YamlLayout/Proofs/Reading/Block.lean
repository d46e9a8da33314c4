import YamlLayout.Grammar.Block
import YamlLayout.Proofs.Reading.Flow

/-!
# Reading block nodes

As for flow collections, the readers of block nodes are followed together, by
induction on their fuel. Properties in front of a key are read before the mapping is
known to be one, so the pairs of a mapping are followed from the state before them.
-/
namespace YamlLayout.Parse

open ParseState

variable {fuel : Nat} {s first : ParseState} {p : Properties}

theorem nodeStart_ensures (fuel : Nat) (parent : Int) (dashes : Bool) (h : HasRead first p s) :
    (nodeStart fuel parent dashes p).Ensures s fun start t => HasRead first start.properties t ∧
      (start.found = true → t.Clear) := by
  induction fuel generalizing s p with
  | zero => exact .fail
  | succ fuel ih =>
    rw [nodeStart]
    refine .get_bind ?_
    extract_lets content
    have hcontent : ∀ t, HasRead first p t → t.Clear → (content ()).Ensures t fun start t =>
        HasRead first start.properties t ∧ (start.found = true → t.Clear) := by
      intro t ht hclear
      refine .get_bind ?_
      split
      · exact (properties_ensures false p ht).bind fun q u hu => ih hu.1
      · exact (properties_ensures false p ht).bind fun q u hu => ih hu.1
      · exact .pure ⟨ht, fun _ => hclear⟩
    clear_value content
    split
    · refine (advance_ensures s).bind fun found t hadvance => ?_
      obtain ⟨hpass, hclear, -⟩ := hadvance
      have ht : HasRead first p t := h.passes hpass hclear.clearOfBlanks
      split
      · refine .get_bind ?_
        split
        · exact .pure ⟨ht, fun hfound => by cases hfound⟩
        · extract_lets column
          split
          · exact hcontent t ht hclear
          · exact .pure ⟨ht, fun hfound => by cases hfound⟩
      · exact .pure ⟨ht, fun hfound => by cases hfound⟩
    · rename_i hstop
      simp only [Bool.or_eq_true, not_or, Bool.not_eq_true] at hstop
      exact hcontent s h (clear_of_clearOfBlanks h.clear hstop.1)

theorem implicitKey_ensures (fuel : Nat) {id : TokenId} (h : HasRead first p s)
    (hleads : first.Leads id s) :
    (implicitKey fuel p id).Ensures s fun key t => first.ReadsNode key t ∧ s.Moves t := by
  unfold implicitKey
  refine (properties_ensures false p h).bind fun q t hread => .get_bind ?_
  obtain ⟨ht, hmoves, -⟩ := hread
  extract_lets decorated
  have hdecorated : ∀ (node : Node) (u : ParseState), t.ReadsNode node u →
      (decorated node).Ensures u fun key v => first.ReadsNode key v ∧ s.Moves v := by
    intro node u hu
    refine ((decorate_ensures ht (hleads.mono hmoves) hu).and (decorate_isEmpty q id node)).mono
      fun key v hv => ⟨hv.1, ?_⟩
    rw [hv.2.1]
    exact hmoves.trans hu.reads.moves
  have hfull : ∀ (node : Node) (u : ParseState), t.ReadsFull node u →
      (decorated node).Ensures u fun key v => first.ReadsNode key v ∧ s.Moves v :=
    fun node u hu => hdecorated node u hu.toReadsNode
  clear_value decorated
  split
  · exact .fail_bind
  rename_i c hpeek
  split
  · exact hdecorated .empty t (readsNode_empty t)
  split
  · rename_i hc
    have hclear : t.Clear := clear_of_peek? hpeek (by rw [beq_iff_eq.mp hc]; rfl)
    exact (reference_ensures false hclear hpeek).bind hfull
  split
  · rename_i hc
    have hclear : t.Clear := by
      refine clear_of_peek? hpeek ?_
      simp only [Lexeme.isQuote, Bool.or_eq_true, beq_iff_eq] at hc
      rcases hc with rfl | rfl <;> rfl
    exact (quoted_ensures hclear).bind hfull
  split
  · rename_i hc
    exact ((readsFlow fuel).collection t c hpeek (by simpa using hc)).bind hfull
  split
  · exact .fail_bind
  · rename_i hpos
    -- A line break would leave no plain scalar here.
    have hclear : t.Clear := by
      refine clear_of_clearOfBlanks ht.clear ?_
      obtain ⟨cs, hrest⟩ := List.head?_eq_some_iff.mp hpeek
      rw [Cursor.atBreak_eq, hrest, Lexeme.lineEnds, ← Bool.not_eq_true]
      intro hbreak
      rw [hrest] at hpos
      exact hpos (Lexeme.plainLine_eq_zero_of_isBreak cs hbreak)
    exact (scalar_ensures .plain
      ⟨hclear, Nat.pos_of_ne_zero hpos, Lexeme.plainLine_le ..⟩).bind hfull

theorem inlineNode_ensures (fuel : Nat) (parent : Int) (hclear : s.Clear) :
    (inlineNode fuel parent).Ensures s s.ReadsFull := by
  unfold inlineNode
  refine .get_bind ?_
  split
  · exact .fail
  rename_i c hpeek
  split
  · exact reference_ensures false hclear hpeek
  split
  · exact quoted_ensures hclear
  split
  · rename_i hc
    exact (readsFlow fuel).collection s c hpeek (by simpa using hc)
  split
  · exact .fail
  · exact plain_ensures parent false _ hclear

/-- What the readers of block nodes leave behind, given some fuel. -/
structure ReadsBlocks (fuel : Nat) : Prop where
  node : ∀ (s : ParseState) (parent : Int) (dashes : Bool),
    (blockNode fuel parent dashes).Ensures s s.ReadsNode
  entries : ∀ (s : ParseState) (floor : Int), s.atIndicator '-' = true →
    (blockEntries fuel floor).Ensures s fun items t =>
      s.ReadsRows items t ∧ Node.FormedEntries items
  pairs : ∀ (first s : ParseState) (parent column : Int) (p : Properties), HasRead first p s →
    (s.atIndicator '?' = true ∨ s.atIndicator ':' = true → p.isEmpty = true) →
    (blockPairs fuel parent column p).Ensures s fun pairs t =>
      first.ReadsRows pairs t ∧ Node.FormedAll pairs ∧ s.Moves t

theorem reads_indicator {mark : Char} (h : s.atIndicator mark = true)
    (hmark : isSpace mark = false) : s.Reads [.token s.next] (s.push .punctuator 1) :=
  reads_mark (clear_of_peek? (peek?_of_atIndicator h) hmark) (peek?_of_atIndicator h)

theorem blockNode_ensures (ih : ReadsBlocks fuel) (parent : Int) (dashes : Bool) :
    (blockNode (fuel + 1) parent dashes).Ensures s s.ReadsNode := by
  rw [blockNode]
  refine .get_bind ?_
  extract_lets id
  refine .skipBlanks_bind ((nodeStart_ensures fuel parent dashes
    (.none .refl (clearOfBlanks_skipBlanks s))).bind fun start t hbegin => ?_)
  obtain ⟨ht, hfound⟩ := hbegin
  have hstart := passes_skipBlanks s
  obtain ⟨p, found⟩ := start
  dsimp only at ht hfound ⊢
  have hdecorate : ∀ (node : Node) (u : ParseState), t.ReadsNode node u →
      (decorate p id node).Ensures u s.ReadsNode := by
    intro node u hu
    exact (decorate_ensures ht ((leads_refl _).mono ht.reads.moves) hu).mono
      fun d v hd => hstart.trans_readsNode hd
  split
  · exact hdecorate .empty t (readsNode_empty t)
  rename_i hsome
  have hclear := hfound (by simpa using hsome)
  have hbare : HasRead t .none t := .none .refl hclear.clearOfBlanks
  have hmapping : ∀ (pairs : List Node) (u : ParseState),
      t.ReadsRows pairs u ∧ Node.FormedAll pairs ∧ t.Moves u →
      t.ReadsNode (.mapping (u.spanSince t.next) none pairs) u :=
    fun pairs u hu => (leads_refl t).readsNode_mapping hu.2.2 hu.1 hu.2.1
  refine .get_bind ?_
  split
  · rename_i hdash
    exact (ih.entries t _ hdash).bind fun entries u hu => .get_bind (hdecorate _ u
      ((leads_refl t).readsNode_sequence hu.1.reads.moves hu.1 hu.2))
  split
  · exact (ih.pairs t t parent _ .none hbare fun _ => rfl).bind fun pairs u hu =>
      .get_bind (hdecorate _ u (hmapping pairs u hu))
  rename_i hindicator
  split
  · rename_i hblock
    exact (blockScalar_ensures parent (by simpa using hblock)).bind hdecorate
  split
  · split
    · rename_i mark hfirst
      split
      · refine (ih.pairs _ t parent _ p ht fun h => ?_).bind fun pairs u hu =>
          .get_bind (.pure ?_)
        · rcases h with h | h <;> simp [h] at hindicator
        · have hleads := ht.leads
          rw [hfirst] at hleads
          exact hstart.trans_readsNode (hleads.readsNode_mapping hu.2.2 hu.1 hu.2.1)
      · exact (ih.pairs t t parent _ .none hbare fun _ => rfl).bind fun pairs u hu =>
          .get_bind (hdecorate _ u (hmapping pairs u hu))
    · rename_i hfirst
      have hempty := Properties.pieces_of_isEmpty (ht.isEmpty_of_first hfirst)
      refine (ih.pairs t t parent _ .none hbare fun _ => rfl).bind fun pairs u hu =>
        .get_bind (.pure (hstart.trans_readsNode (Reads.trans_readsNode ?_ (hmapping pairs u hu))))
      simpa [hempty] using ht.reads
  · exact (inlineNode_ensures fuel parent hclear).bind fun node u hu =>
      hdecorate node u hu.toReadsNode

theorem blockEntries_ensures (ih : ReadsBlocks fuel) (floor : Int)
    (hdash : s.atIndicator '-' = true) :
    (blockEntries (fuel + 1) floor).Ensures s fun items t =>
      s.ReadsRows items t ∧ Node.FormedEntries items := by
  rw [blockEntries]
  refine .get_bind ?_
  extract_lets column
  refine .emit_bind ((ih.node _ column false).bind fun value t ht => ?_)
  extract_lets entry
  have hentry : s.Reads entry.pieces t := (reads_indicator hdash rfl).trans ht.reads
  have hwritten : entry.ids ≠ [] := by simp [entry]
  have hfits : ∀ u, t.Moves u → entry.Every (Node.Fits u.emitted.reverse) := by
    intro u hu
    refine ⟨⟨?_, fun span h => by cases h⟩, ht.fits u hu⟩
    exact at_mark (peek?_of_atIndicator hdash) (ht.reads.moves.trans hu)
  have hformed : ∀ items, Node.FormedEntries items → Node.FormedEntries (entry :: items) :=
    fun items hitems => ⟨ht.formed, hitems⟩
  clear_value entry
  refine (advance_ensures t).bind fun found u hu => ?_
  have hentry := hentry.passes hu.1
  have hfits : ∀ v, u.Moves v → entry.Every (Node.Fits v.emitted.reverse) :=
    fun v hv => hfits v (hu.1.moves.trans hv)
  have hlast : s.ReadsRows [entry] u ∧ Node.FormedEntries [entry] :=
    ⟨readsRows_singleton hentry hwritten hfits, hformed [] trivial⟩
  split
  · refine .get_bind ?_
    split
    · rename_i hmore
      have hdash : u.atIndicator '-' = true := by
        simp only [Bool.and_eq_true] at hmore
        exact hmore.1.2
      exact (ih.entries u floor hdash).bind fun items v hv =>
        .pure ⟨.cons hentry hfits hv.1, hformed items hv.2⟩
    · exact .pure hlast
  · exact .pure hlast

theorem blockPairs_ensures (ih : ReadsBlocks fuel) (parent column : Int) (h : HasRead first p s)
    (hmarked : s.atIndicator '?' = true ∨ s.atIndicator ':' = true → p.isEmpty = true) :
    (blockPairs (fuel + 1) parent column p).Ensures s fun pairs t =>
      first.ReadsRows pairs t ∧ Node.FormedAll pairs ∧ s.Moves t := by
  rw [blockPairs]
  refine .get_bind ?_
  extract_lets id pairColumn paired keyed
  have hleads : first.Leads id s := h.leads
  have hpaired : ∀ (pair : Node) (t : ParseState), first.ReadsNode pair t → pair.isEmpty = false →
      s.Moves t → (paired pair).Ensures t fun pairs u =>
        first.ReadsRows pairs u ∧ Node.FormedAll pairs ∧ s.Moves u := by
    intro pair t ht hfull hmoves
    refine (advance_ensures t).bind fun found u hadvance => ?_
    obtain ⟨hu, hclear, -⟩ := hadvance
    have hpair := ht.passes hu
    have hmoves := hmoves.trans hu.moves
    have hlast : first.ReadsRows [pair] u ∧ Node.FormedAll [pair] ∧ s.Moves u :=
      ⟨readsRows_singleton hpair.reads (hpair.ids_ne_nil hfull) hpair.fits,
        ⟨ht.formed, trivial⟩, hmoves⟩
    split
    · refine .get_bind ?_
      split
      · exact .pure hlast
      · extract_lets next
        split
        · exact (ih.pairs u u parent column .none (.none .refl hclear.clearOfBlanks)
            fun _ => rfl).bind fun pairs v hv => .pure
              ⟨.cons hpair.reads hpair.fits hv.1, ⟨ht.formed, hv.2.1⟩, hmoves.trans hv.2.2⟩
        · exact .pure hlast
    · exact .pure hlast
  clear_value paired
  have hkeyed : ∀ (key : Node) (t : ParseState), first.ReadsNode key t → s.Moves t →
      (keyed key).Ensures t fun pairs u =>
        first.ReadsRows pairs u ∧ Node.FormedAll pairs ∧ s.Moves u := by
    intro key t ht hmoves
    refine .get_bind ?_
    extract_lets coloned
    split
    · rename_i hcolon
      have hpeek : t.cursor.peek? = some ':' := by
        rcases (Bool.or_eq_true _ _).mp hcolon with hcolon | hcolon
        · exact peek?_of_atIndicator hcolon
        · exact peek?_of_atAdjacentColon hcolon
      have hmark := reads_mark (clear_of_peek? hpeek rfl) hpeek
      refine .emit_bind ((ih.node _ pairColumn true).bind fun value u hu => .get_bind ?_)
      have hmoved := hmark.moves.trans hu.reads.moves
      have hsu := hmoves.trans hmoved
      refine hpaired _ u (hleads.readsNode_pair hsu ?_ (ht.toHolds.mono hmoved) hu.toHolds
        (fun h => by cases h) (by simp) (fun _ _ _ h => by cases h) ?_) rfl hsu
      · have hall := ht.reads.trans (hmark.trans hu.reads)
        simpa [Piece.mark] using hall
      · intro v hv id hid
        rw [← Option.some.inj hid]
        exact at_mark hpeek (hu.reads.moves.trans hv)
    · exact .fail_bind
  clear_value keyed
  split
  · rename_i hquestion
    have hnone : p.pieces = [] := Properties.pieces_of_isEmpty (hmarked (.inl hquestion))
    have hmark := reads_indicator hquestion rfl
    have hread : first.Reads [.token s.next] (s.push .punctuator 1) := by
      simpa [hnone] using h.reads.trans hmark
    refine .emit_bind ((ih.node _ pairColumn false).bind fun key t ht =>
      (advance_ensures t).bind fun more u hu => .get_bind ?_)
    have hkey := ht.toHolds.mono hu.1.moves
    have hkeyed := (hread.trans ht.reads).passes hu.1
    have hpushed := ht.reads.moves.trans hu.1.moves
    have hsu := hmark.moves.trans hpushed
    have hquestions : ∀ v, u.Moves v → ∀ id, some s.next = some id →
        Token.At v.emitted.reverse (·.isPunctuator "?") id := by
      intro v hv id hid
      rw [← Option.some.inj hid]
      exact at_mark (peek?_of_atIndicator hquestion) (hpushed.trans hv)
    split
    · rename_i hcolon
      have hcolon : u.atIndicator ':' = true := by
        simp only [Bool.and_eq_true] at hcolon
        exact hcolon.1.2
      have hmark := reads_indicator hcolon rfl
      refine .emit_bind ((ih.node _ pairColumn true).bind fun value v hv => .get_bind ?_)
      have hmoved := hmark.moves.trans hv.reads.moves
      refine hpaired _ v (hleads.readsNode_pair (hsu.trans hmoved) ?_ (hkey.mono hmoved)
        hv.toHolds (fun h => by cases h) (by simp) (fun w hw => hquestions w (hmoved.trans hw))
        ?_) rfl (hsu.trans hmoved)
      · have hall := hkeyed.trans (hmark.trans hv.reads)
        simpa [Piece.mark] using hall
      · intro w hw id hid
        rw [← Option.some.inj hid]
        exact at_mark (peek?_of_atIndicator hcolon) (hv.reads.moves.trans hw)
    · refine hpaired _ u (hleads.readsNode_pair hsu ?_ hkey (holds_empty u) (fun _ => rfl)
        (by simp) hquestions (fun _ _ _ h => by cases h)) rfl hsu
      simpa [Node.pieces, Piece.mark] using hkeyed
  · split
    · rename_i hcolon
      have hnone : p.pieces = [] := Properties.pieces_of_isEmpty (hmarked (.inr hcolon))
      refine hkeyed .empty s ⟨holds_empty s, ?_⟩ .refl
      simpa [hnone, Node.pieces] using h.reads
    · refine (implicitKey_ensures fuel h hleads).bind fun key t ht => .skipBlanks_bind ?_
      have hblanks := passes_skipBlanks t
      exact hkeyed key _ (ht.1.passes hblanks) (ht.2.trans hblanks.moves)

theorem readsBlocks (fuel : Nat) : ReadsBlocks fuel := by
  induction fuel with
  | zero =>
    constructor
    · intro s parent dashes
      rw [blockNode]
      exact .fail
    · intro s floor _
      rw [blockEntries]
      exact .fail
    · intro first s parent column p _ _
      rw [blockPairs]
      exact .fail
  | succ fuel ih =>
    constructor
    · intro s parent dashes
      exact blockNode_ensures ih parent dashes
    · intro s floor hdash
      exact blockEntries_ensures ih floor hdash
    · intro first s parent column p h hmarked
      exact blockPairs_ensures ih parent column h hmarked

end YamlLayout.Parse
