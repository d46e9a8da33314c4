import YamlLayout.Grammar.Flow
import YamlLayout.Proofs.Reading.Scalar

/-!
# Reading flow collections

The four readers of flow collections call each other with less fuel, so what they
leave behind is shown for all of them at once, by induction on the fuel.
-/
namespace YamlLayout

namespace ParseState

variable {s : ParseState} {mark : Char}

theorem peek?_of_atFlowMark (h : s.atFlowMark mark = true) : s.cursor.peek? = some mark := by
  unfold atFlowMark Lexeme.isFlowMark at h
  split at h
  · cases h
  · rename_i c cs hrest
    simp only [Bool.and_eq_true, beq_iff_eq] at h
    simp [Cursor.peek?, hrest, h.1]

theorem peek?_of_atIndicator (h : s.atIndicator mark = true) : s.cursor.peek? = some mark := by
  unfold atIndicator Lexeme.isIndicator at h
  split at h
  · cases h
  · rename_i c cs hrest
    simp only [Bool.and_eq_true, beq_iff_eq] at h
    simp [Cursor.peek?, hrest, h.1]

theorem peek?_of_atAdjacentColon (h : s.atAdjacentColon = true) : s.cursor.peek? = some ':' := by
  simp only [atAdjacentColon, Bool.and_eq_true, beq_iff_eq] at h
  exact h.1.1

theorem clear_of_peek? {c : Char} (hpeek : s.cursor.peek? = some c) (hc : isSpace c = false) :
    s.Clear := by
  intro d hd
  rw [hpeek, Option.some.injEq] at hd
  exact hd ▸ hc

/-- What comes next ends an item of a flow collection, or the text ends. -/
def EndsItem (s : ParseState) : Prop :=
  ∀ c, s.cursor.peek? = some c → c = ',' ∨ c = ']' ∨ c = '\x7d'

theorem EndsItem.peek?_ne (h : s.EndsItem) : s.cursor.peek? ≠ some '#' := by
  intro hpeek
  rcases h '#' hpeek with hc | hc | hc <;> cases hc

end ParseState

namespace Parse

open ParseState

/-- Items are read up to the closing bracket. -/
structure ReadsItems (isMapping : Bool) (s : ParseState) (inside : FlowItems) (t : ParseState) :
    Prop where
  reads : s.Reads (Node.piecesOf inside.commas inside.items ++ [.token inside.closing]) t
  formed : Node.FormedAll inside.items
  fits : ∀ u, t.Moves u → Node.EveryOf (Node.Fits u.emitted.reverse) inside.items
  commas : ∀ u, t.Moves u → ∀ id ∈ inside.commas,
    Token.At u.emitted.reverse (·.isPunctuator ",") id
  closing : ∀ u, t.Moves u → Token.At u.emitted.reverse
    (·.isPunctuator (String.ofList [if isMapping then '\x7d' else ']'])) inside.closing

/-- What the readers of flow collections leave behind, given some fuel. An item without
any token is answered only in front of something that cannot follow an item. -/
structure ReadsFlow (fuel : Nat) : Prop where
  collection : ∀ (s : ParseState) (c : Char), s.cursor.peek? = some c → c = '[' ∨ c = '\x7b' →
    (flowCollection fuel).Ensures s s.ReadsFull
  items : ∀ (s : ParseState) (isMapping : Bool),
    (flowItems fuel isMapping).Ensures s (ReadsItems isMapping s)
  item : ∀ (s : ParseState) (isMapping : Bool), s.Clear →
    (flowItem fuel isMapping).Ensures s fun node t =>
      s.ReadsNode node t ∨ t = s ∧ s.EndsItem
  node : ∀ s : ParseState, s.Clear →
    (flowNode fuel).Ensures s fun node t => s.ReadsNode node t ∧
      (node.isEmpty = true → t = s ∧ (s.EndsItem ∨ s.atFlowMark ':' = true))

variable {fuel : Nat} {s : ParseState} {c : Char}

theorem reads_mark (hclear : s.Clear) (hpeek : s.cursor.peek? = some c) :
    s.Reads [.token s.next] (s.push .punctuator 1) :=
  reads_push (by decide) (.of_peek hclear hpeek)

theorem at_mark {u : ParseState} (hpeek : s.cursor.peek? = some c)
    (hmoves : (s.push .punctuator 1).Moves u) :
    Token.At u.emitted.reverse (·.isPunctuator (String.ofList [c])) s.next :=
  at_push (isPunctuator_ahead hpeek) hmoves

theorem flowCollection_ensures (ih : ReadsFlow fuel) (hpeek : s.cursor.peek? = some c)
    (hc : c = '[' ∨ c = '\x7b') : (flowCollection (fuel + 1)).Ensures s s.ReadsFull := by
  have hclear : s.Clear := clear_of_peek? hpeek (by rcases hc with rfl | rfl <;> rfl)
  rw [flowCollection]
  refine .get_bind ?_
  extract_lets isMapping
  refine .emit_bind ((ih.items _ isMapping).bind fun inside t hitems => .get_bind ?_)
  have hread := (reads_mark hclear hpeek).trans hitems.reads
  have hmoves := hitems.reads.moves
  have hframes : ∀ u, t.Moves u → (t.spanSince s.next).Frames u.emitted.reverse _ :=
    fun u hu => (leads_refl s).frames_spanSince hread.moves hread (by simp [Piece.ids]) hu
  split
  · rename_i hmapping
    have hbrace : c = '\x7b' := by simpa [isMapping, hpeek] using hmapping
    refine .pure ⟨⟨⟨hitems.formed, fun u hu => ⟨⟨?_, ?_⟩, hitems.fits u hu⟩⟩, hread⟩, rfl⟩
    · intro b hb
      rw [← Option.some.inj hb]
      have hclosing := hitems.closing u hu
      rw [if_pos hmapping] at hclosing
      exact ⟨at_mark (hbrace ▸ hpeek) (hmoves.trans hu), hclosing, hitems.commas u hu⟩
    · intro span hspan
      rw [← Option.some.inj hspan]
      exact hframes u hu
  · rename_i hmapping
    have hbracket : c = '[' := by
      rcases hc with hc | hc
      · exact hc
      · simp [isMapping, hpeek, hc] at hmapping
    refine .pure ⟨⟨⟨hitems.formed, fun u hu => ⟨⟨?_, ?_⟩, hitems.fits u hu⟩⟩, hread⟩, rfl⟩
    · intro b hb
      rw [← Option.some.inj hb]
      have hclosing := hitems.closing u hu
      rw [if_neg hmapping] at hclosing
      exact ⟨at_mark (hbracket ▸ hpeek) (hmoves.trans hu), hclosing, hitems.commas u hu⟩
    · intro span hspan
      rw [← Option.some.inj hspan]
      exact hframes u hu

theorem flowItems_ensures (ih : ReadsFlow fuel) (isMapping : Bool) :
    (flowItems (fuel + 1) isMapping).Ensures s (ReadsItems isMapping s) := by
  rw [flowItems]
  generalize hmark : (if isMapping = true then '\x7d' else ']') = closing
  refine (skipFlowSpace_ensures s).bind fun _ t hspace => .get_bind ?_
  obtain ⟨ht, htclear, -⟩ := hspace
  split
  · exact .fail
  rename_i c hpeek
  split
  · rename_i hclosing
    rw [beq_iff_eq.mp hclosing, ← hmark] at hpeek
    exact .emit_bind (.pure ⟨ht.trans_reads (reads_mark htclear hpeek), trivial,
      fun _ _ => trivial, fun _ _ _ h => (by cases h), fun u hu => at_mark hpeek hu⟩)
  rename_i hopen
  extract_lets more
  split
  · exact .fail_bind
  rename_i hcomma
  refine (ih.item t isMapping htclear).bind fun item u hitem =>
    (skipFlowSpace_ensures u).bind fun _ v hspace => .get_bind ?_
  obtain ⟨hv, hvclear, hstay⟩ := hspace
  rcases hitem with hitem | ⟨rfl, hends⟩
  · have hread := ht.trans_reads (hitem.reads.passes hv)
    have hholds := hitem.toHolds.mono hv.moves
    split
    · exact .fail
    rename_i c hpeek
    split
    · rename_i hc
      rw [beq_iff_eq.mp hc] at hpeek
      have hcomma := reads_mark hvclear hpeek
      refine .emit_bind ((ih.items _ isMapping).bind fun more w hmore => .pure ?_)
      have hmoves := hmore.reads.moves
      refine ⟨?_, ⟨hholds.formed, hmore.formed⟩, fun x hx => ⟨?_, hmore.fits x hx⟩, ?_,
        hmore.closing⟩
      · have hall := hread.trans (hcomma.trans hmore.reads)
        simpa [Node.piecesOf] using hall
      · exact hholds.fits x ((hcomma.moves.trans hmoves).trans hx)
      · intro x hx id hid
        rcases List.mem_cons.mp hid with rfl | hid
        · exact at_mark hpeek (hmoves.trans hx)
        · exact hmore.commas x hx id hid
    · split
      · rename_i hclosing
        rw [beq_iff_eq.mp hclosing, ← hmark] at hpeek
        have hlast := reads_mark hvclear hpeek
        refine .emit_bind (.pure ⟨?_, ⟨hholds.formed, trivial⟩,
          fun x hx => ⟨hholds.fits x (hlast.moves.trans hx), trivial⟩,
          fun _ _ _ h => (by cases h), fun x hx => at_mark hpeek hx⟩)
        have hall := hread.trans hlast
        simpa [Node.piecesOf] using hall
      · exact .fail
  · -- Nothing was read, so what follows is neither a comma nor the closing bracket.
    obtain rfl : v = u := hstay htclear hends.peek?_ne
    rw [hpeek]
    dsimp only
    rw [if_neg hcomma, if_neg hopen]
    exact .fail

theorem flowItem_ensures (ih : ReadsFlow fuel) (isMapping : Bool) (hclear : s.Clear) :
    (flowItem (fuel + 1) isMapping).Ensures s fun node t =>
      s.ReadsNode node t ∨ t = s ∧ s.EndsItem := by
  rw [flowItem]
  refine .get_bind (.get_bind ?_)
  extract_lets questioned
  have hquestioned : ∀ (question : Option TokenId) (t : ParseState), t.Clear →
      s.Reads (Piece.mark question) t → (question = none → t = s) →
      (∀ u, t.Moves u → ∀ id, question = some id →
        Token.At u.emitted.reverse (·.isPunctuator "?") id) →
      (questioned question).Ensures t fun node u =>
        s.ReadsNode node u ∨ u = s ∧ s.EndsItem := by
    intro question t htclear ht hstart hmarks
    refine .get_bind ?_
    extract_lets keyed
    have hkeyed : ∀ (key : Node) (u : ParseState), s.Reads (Piece.mark question ++ key.pieces) u →
        t.Moves u → u.Holds key →
        (key.isEmpty = true → u = t ∧ (t.EndsItem ∨ t.atFlowMark ':' = true)) →
        (keyed key).Ensures u fun node v => s.ReadsNode node v ∨ v = s ∧ s.EndsItem := by
      intro key u hu hmoves hkey hempty
      refine (skipFlowSpace_ensures u).bind fun _ v hspace => .get_bind ?_
      obtain ⟨hpass, hvclear, hstay⟩ := hspace
      have hv := hu.passes hpass
      have hmoves := hmoves.trans hpass.moves
      have hkey := hkey.mono hpass.moves
      split
      · rename_i hcolon
        have hpeek : v.cursor.peek? = some ':' := by
          rcases (Bool.or_eq_true _ _).mp hcolon with hcolon | hcolon
          · exact peek?_of_atFlowMark hcolon
          · exact peek?_of_atAdjacentColon hcolon
        have hmark := reads_mark hvclear hpeek
        refine .emit_bind ((skipFlowSpace_ensures _).bind fun _ w hspace => .get_bind ?_)
        obtain ⟨hpass, hwclear, -⟩ := hspace
        have hw := (hv.trans hmark).passes hpass
        extract_lets valued
        have hvalued : ∀ (value : Node) (x : ParseState), w.ReadsNode value x →
            (valued value).Ensures x fun node y => s.ReadsNode node y ∨ y = s ∧ s.EndsItem := by
          intro value x hx
          have hpushed := hpass.moves.trans hx.reads.moves
          have hvx := hmark.moves.trans hpushed
          refine .get_bind (.pure (.inl ((leads_refl s).readsNode_pair
            (hw.trans hx.reads).moves ?_ (hkey.mono hvx) hx.toHolds (fun h => by cases h)
            (by simp) (fun y hy => hmarks y ((hmoves.trans hvx).trans hy)) ?_)))
          · have hall := hw.trans hx.reads
            simpa [Piece.mark] using hall
          · intro y hy id hid
            rw [← Option.some.inj hid]
            exact at_mark hpeek (hpushed.trans hy)
        clear_value valued
        split
        · exact hvalued .empty w (readsNode_empty w)
        · exact hvalued .empty w (readsNode_empty w)
        · exact hvalued .empty w (readsNode_empty w)
        · exact (ih.node w hwclear).bind fun value x hx => hvalued value x hx.1
      · rename_i hcolon
        split
        · rename_i hlone
          extract_lets answered
          split
          · exact .fail_bind
          · have hnone : question = none := by
              simp only [Bool.and_eq_true, Option.isNone_iff_eq_none] at hlone
              exact hlone.1
            refine .pure (.inl ⟨hkey, ?_⟩)
            simpa [hnone, Piece.mark] using hv
        · refine .pure ?_
          by_cases hwritten : question = none ∧ key.isEmpty = true
          · -- Neither a question mark nor a key nor a colon is there.
            obtain ⟨rfl, hends⟩ := hempty hwritten.2
            obtain rfl := hstart hwritten.1
            have hpeek : u.cursor.peek? ≠ some '#' := by
              rcases hends with hends | hends
              · exact hends.peek?_ne
              · rw [peek?_of_atFlowMark hends]
                decide
            obtain rfl := hstay htclear hpeek
            rcases hends with hends | hends
            · exact .inr ⟨rfl, hends⟩
            · simp [hends] at hcolon
          · refine .inl ((leads_refl s).readsNode_pair hv.moves ?_ hkey (holds_empty v)
              (fun _ => rfl) ?_ (fun y hy => hmarks y (hmoves.trans hy))
              (fun _ _ _ h => by cases h))
            · simpa [Node.pieces, Piece.mark] using hv
            · intro hnil
              refine hwritten ⟨?_, ?_⟩
              · simpa using (List.append_eq_nil_iff.mp hnil).1
              · by_contra hfull
                refine hkey.ids_ne_nil (by simpa using hfull) ?_
                simpa using (List.append_eq_nil_iff.mp hnil).2
    clear_value keyed
    split
    · rename_i hcolon
      refine hkeyed .empty t ?_ .refl (holds_empty t) fun _ => ⟨rfl, .inr hcolon⟩
      simpa [Node.pieces] using ht
    · exact (ih.node t htclear).bind fun key u hu =>
        hkeyed key u (ht.trans hu.1.reads) hu.1.reads.moves hu.1.toHolds hu.2
  clear_value questioned
  split
  · rename_i hmark
    have hpeek := peek?_of_atFlowMark hmark
    refine .emit_bind ((skipFlowSpace_ensures _).bind fun _ t hspace => ?_)
    obtain ⟨ht, htclear, -⟩ := hspace
    refine hquestioned (some s.next) t htclear ((reads_mark hclear hpeek).passes ht)
      (fun h => by cases h) fun u hu id hid => ?_
    rw [← Option.some.inj hid]
    exact at_mark hpeek (ht.moves.trans hu)
  · exact hquestioned none s hclear (.done s) (fun _ => rfl) fun _ _ _ h => by cases h

theorem flowNode_ensures (ih : ReadsFlow fuel) (hclear : s.Clear) :
    (flowNode (fuel + 1)).Ensures s fun node t => s.ReadsNode node t ∧
      (node.isEmpty = true → t = s ∧ (s.EndsItem ∨ s.atFlowMark ':' = true)) := by
  rw [flowNode]
  refine .get_bind ?_
  extract_lets first
  refine (properties_ensures true .none (.none .refl hclear.clearOfBlanks)).bind
    fun p t hread => ?_
  obtain ⟨ht, -, hnone⟩ := hread
  extract_lets decorated spaced
  have hdecorated : ∀ (node : Node) (u v : ParseState), HasRead s p u → u.ReadsNode node v →
      (p.isEmpty = true → node.isEmpty = true → v = s ∧ (s.EndsItem ∨ s.atFlowMark ':' = true)) →
      (decorated node).Ensures v fun node t => s.ReadsNode node t ∧
        (node.isEmpty = true → t = s ∧ (s.EndsItem ∨ s.atFlowMark ':' = true)) := by
    intro node u v hu hv hempty
    refine ((decorate_ensures hu ((leads_refl s).mono hu.reads.moves) hv).and
      (decorate_isEmpty p first node)).mono fun d w hd => ⟨hd.1, fun hd' => ?_⟩
    obtain ⟨rfl, hparts⟩ := hd.2
    exact hempty (hparts hd').1 (hparts hd').2
  clear_value decorated
  have hspaced : ∀ u : ParseState, HasRead s p u → u.Clear → (p.isEmpty = true → u = s) →
      (spaced ()).Ensures u fun node t => s.ReadsNode node t ∧
        (node.isEmpty = true → t = s ∧ (s.EndsItem ∨ s.atFlowMark ':' = true)) := by
    intro u hu huclear hstart
    -- A node that is written is not the empty one.
    have hfull : ∀ (node : Node) (v : ParseState), u.ReadsFull node v →
        (decorated node).Ensures v fun node t => s.ReadsNode node t ∧
          (node.isEmpty = true → t = s ∧ (s.EndsItem ∨ s.atFlowMark ':' = true)) := by
      intro node v hv
      refine hdecorated node u v hu hv.toReadsNode fun _ hempty => ?_
      rw [hv.isEmpty_eq] at hempty
      cases hempty
    refine .get_bind ?_
    split
    · rename_i hpeek
      refine hdecorated .empty u u hu (readsNode_empty u) fun hp _ => ?_
      obtain rfl := hstart hp
      exact ⟨rfl, .inl fun c hc => by simp [hpeek] at hc⟩
    rename_i c hpeek
    split
    · rename_i hstop
      refine hdecorated .empty u u hu (readsNode_empty u) fun hp _ => ?_
      obtain rfl := hstart hp
      refine ⟨rfl, ?_⟩
      simp only [Bool.or_eq_true, beq_iff_eq] at hstop
      rcases hstop with hstop | hstop
      · refine .inl fun d hd => ?_
        rw [hpeek, Option.some.injEq] at hd
        rw [← hd]
        rcases hstop with (hc | hc) | hc
        · exact .inl hc
        · exact .inr (.inl hc)
        · exact .inr (.inr hc)
      · exact .inr hstop
    split
    · exact (reference_ensures true huclear hpeek).bind hfull
    split
    · exact (quoted_ensures huclear).bind hfull
    split
    · rename_i hc
      exact (ih.collection u c hpeek (by simpa using hc)).bind hfull
    · exact (plain_ensures (-1) true _ huclear).bind hfull
  clear_value spaced
  split
  · rename_i hempty
    obtain ⟨-, rfl⟩ := hnone hempty
    exact hspaced t ht hclear fun _ => rfl
  · rename_i hsome
    exact (skipFlowSpace_ensures t).bind fun _ u hspace =>
      hspaced u (ht.passes hspace.1 hspace.2.1.clearOfBlanks) hspace.2.1 fun h => absurd h hsome

theorem readsFlow (fuel : Nat) : ReadsFlow fuel := by
  induction fuel with
  | zero =>
    constructor
    · intro s c _ _
      rw [flowCollection]
      exact .fail
    · intro s isMapping
      rw [flowItems]
      exact .fail
    · intro s isMapping _
      rw [flowItem]
      exact .fail
    · intro s _
      rw [flowNode]
      exact .fail
  | succ fuel ih =>
    constructor
    · intro s c hpeek hc
      exact flowCollection_ensures ih hpeek hc
    · intro s isMapping
      exact flowItems_ensures ih isMapping
    · intro s isMapping hclear
      exact flowItem_ensures ih isMapping hclear
    · intro s hclear
      exact flowNode_ensures ih hclear

end Parse

end YamlLayout
