import YamlLayout.Grammar.Stream
import YamlLayout.Proofs.Reading.Block

/-!
# Reading documents and streams

A text that can be read is read from its start to its end. The pieces of its
documents are what is read on the way, and every document reaches from the start of
a token to the end of a token.
-/
namespace YamlLayout

/-- The document is what a reader makes of some tokens. -/
structure Document.Sound (d : Document) (tokens : List Token) : Prop where
  formed : d.content.Formed
  fits : d.content.Every (Node.Fits tokens)
  directives : ∀ id ∈ d.directives, Token.At tokens (·.kind == .directive) id
  startMarker : ∀ id, d.startMarker = some id → Token.At tokens (·.kind == .marker) id
  endMarker : ∀ id, d.endMarker = some id → Token.At tokens (·.kind == .marker) id

/-- The document reaches from the token `m` to the one before `n`. -/
structure Document.Spans (d : Document) (tokens : List Token) (m n : Nat) : Prop where
  ids_bounds : ∀ i ∈ d.ids, m ≤ i ∧ i < n
  /-- The span ends with some token, and not before the last one. -/
  exists_ends : ∃ (j : Nat) (a b last : Token), m ≤ j ∧ j < n ∧ tokens[m]? = some a ∧
    tokens[j]? = some b ∧ tokens[n - 1]? = some last ∧ d.span = ⟨a.range.start, b.range.stop⟩ ∧
    last.range.stop ≤ b.range.stop

/-- The documents, latest first, divide the first `n` tokens among them. -/
inductive Document.Tiled (tokens : List Token) : List Document → Nat → Prop
  | nil : Tiled tokens [] 0
  | cons {d : Document} {ds : List Document} {m n : Nat} (hrest : Tiled tokens ds m)
      (hspans : d.Spans tokens m n) : Tiled tokens (d :: ds) n

theorem Document.Tiled.eq_zero {tokens : List Token} {n : Nat} (h : Tiled tokens [] n) :
    n = 0 := by
  cases h
  rfl

theorem Document.Tiled.exists_spans {d : Document} {ds : List Document} {tokens : List Token}
    {n : Nat} (h : Tiled tokens ds n) (hd : d ∈ ds) : ∃ i j, d.Spans tokens i j ∧ j ≤ n := by
  induction h with
  | nil => cases hd
  | cons _ hspans ih =>
    rcases List.mem_cons.mp hd with rfl | hd
    · exact ⟨_, _, hspans, Nat.le_refl _⟩
    · obtain ⟨i, j, hij, hle⟩ := ih hd
      obtain ⟨k, -, -, -, hmk, hkn, -⟩ := hspans.exists_ends
      exact ⟨i, j, hij, by omega⟩

def Stream.pieces (s : Stream) : List Piece := s.documents.flatMap Document.pieces

namespace ParseState

variable {s t : ParseState}

/-- In front of content nothing happens without a token. -/
theorem Moves.eq_of_next (h : s.Moves t) (hclear : s.Clear) (hrest : s.cursor.rest ≠ [])
    (hnext : t.next ≤ s.next) : t = s := by
  induction h using Relation.ReflTransGen.head_induction_on with
  | refl => rfl
  | head hmove hmoves ih =>
    rename_i s u
    have hle := Moves.next_le hmoves
    cases hmove with
    | pass hpass =>
      cases hpass with
      | space n hspace =>
        have hstay : s.skip n = s := by
          obtain ⟨c, cs, hcons⟩ := List.exists_cons_of_ne_nil hrest
          cases n with
          | zero => simp [skip]
          | succ n =>
            have hsolid := hclear c (by simp [Cursor.peek?, hcons])
            have hc := hspace c (by simp [hcons])
            rw [hsolid] at hc
            cases hc
        rw [hstay] at ih
        exact ih hclear hrest hnext
      | comment =>
        rw [next_push] at hle
        exact absurd (Nat.le_trans hle hnext) (Nat.not_succ_le_self _)
    | token =>
      rw [next_push] at hle
      exact absurd (Nat.le_trans hle hnext) (Nat.not_succ_le_self _)
    | body =>
      rw [next_push, next_skip] at hle
      exact absurd (Nat.le_trans hle hnext) (Nat.not_succ_le_self _)

theorem spans_fullSpanSince {d : Document} {first : Nat} (h : first < s.next)
    (hids : ∀ i ∈ d.ids, first ≤ i ∧ i < s.next) (hspan : d.span = s.fullSpanSince first)
    (hmoves : s.Moves t) : d.Spans t.emitted.reverse first s.next := by
  let taken := s.emitted.take (s.emitted.length - first)
  change first < s.emitted.length at h
  have hlast : s.emitted.reverse[s.emitted.length - 1]? = taken.head? := by
    rw [List.getElem?_reverse (by omega), List.head?_take, if_neg (by omega),
      List.head?_eq_getElem?]
    congr 1
    omega
  have hfirst : s.emitted.reverse[first]? = taken.getLast? := by
    rw [List.getElem?_reverse h, List.getLast?_eq_getElem?, List.length_take,
      List.getElem?_take, if_pos (by omega)]
    congr 1
    omega
  have hne : taken ≠ [] := by
    intro hnil
    have hlength := congrArg List.length hnil
    rw [List.length_take, List.length_nil] at hlength
    omega
  have hend : s.emitted.length - 1 < s.next := Nat.sub_one_lt_of_lt h
  rw [List.head?_eq_some_head hne, ← hmoves.getElem?_eq hend] at hlast
  rw [List.getLast?_eq_some_getLast hne, ← hmoves.getElem?_eq h] at hfirst
  have hall : s.fullSpanSince first =
      ⟨(taken.getLast hne).range.start, (taken.head hne).range.stop⟩ := by
    have htaken : s.emitted.take (s.next - first) = taken := rfl
    simp only [fullSpanSince, htaken, List.getLast?_eq_some_getLast hne,
      List.head?_eq_some_head hne]
  exact ⟨hids, s.emitted.length - 1, _, _, _, Nat.le_sub_one_of_lt h, hend,
    hfirst, hlast, hlast, hspan.trans hall, Nat.le_refl _⟩

end ParseState

namespace Parse

open ParseState

variable {s : ParseState}

theorem directives_ensures (fuel : Nat) :
    (directives fuel).Ensures s fun ids t => s.Reads (ids.map .token) t ∧
      ∀ u, t.Moves u → ∀ id ∈ ids, Token.At u.emitted.reverse (·.kind == .directive) id := by
  induction fuel generalizing s with
  | zero => exact .fail
  | succ fuel ih =>
    rw [directives]
    refine .get_bind ?_
    split
    · rename_i hstart
      have hpeek : s.cursor.peek? = some '%' := by
        simp only [Bool.and_eq_true, beq_iff_eq] at hstart
        exact hstart.2
      have hahead : s.Ahead (Lexeme.directive s.cursor.rest) := by
        obtain ⟨cs, hrest⟩ := List.head?_eq_some_iff.mp hpeek
        refine ⟨clear_of_peek? hpeek rfl, ?_, Lexeme.directive_le _⟩
        rw [hrest]
        exact Lexeme.directive_pos cs
      refine .emit_bind ((advance_ensures _).bind fun found t hadvance => ?_)
      obtain ⟨ht, -⟩ := hadvance
      extract_lets more
      split
      · refine ih.bind fun ids u hu => .pure
          ⟨((reads_push (by decide) hahead).passes ht).trans hu.1, fun v hv id hid => ?_⟩
        rcases List.mem_cons.mp hid with rfl | hid
        · exact at_push (by simp [ahead]) ((ht.moves.trans hu.1.moves).trans hv)
        · exact hu.2 v hv id hid
      · exact .fail_bind
    · exact .pure ⟨.done s, fun _ _ _ h => by cases h⟩

theorem markedContent_ensures (fuel : Nat) :
    (markedContent fuel).Ensures s s.ReadsNode := by
  unfold markedContent
  have hblanks := passes_skipBlanks s
  refine .skipBlanks_bind (.get_bind ?_)
  split
  · exact .pure (hblanks.trans_readsNode (readsNode_empty _))
  · exact ((readsBlocks fuel).node _ _ _).mono fun node t ht => hblanks.trans_readsNode ht

theorem laterContent_ensures (fuel : Nat) :
    (laterContent fuel).Ensures s s.ReadsNode := by
  unfold laterContent
  refine (advance_ensures s).bind fun found t hadvance => ?_
  obtain ⟨ht, -⟩ := hadvance
  split
  · refine .get_bind ?_
    split
    · exact .pure (ht.trans_readsNode (readsNode_empty t))
    · exact ((readsBlocks fuel).node _ _ _).mono fun node u hu => ht.trans_readsNode hu
  · exact .pure (ht.trans_readsNode (readsNode_empty t))

theorem reads_marker (h : s.atEndMarker = true ∨ s.atStartMarker = true) :
    s.Reads [.token s.next] (s.push .marker 3) := by
  obtain ⟨c, cs, hrest, hc⟩ : ∃ c cs, s.cursor.rest = c :: c :: c :: cs ∧ isSpace c = false := by
    rcases h with h | h
    · simp only [atEndMarker, Bool.and_eq_true] at h
      obtain ⟨-, h⟩ := h
      unfold Lexeme.isEndMarker at h
      split at h
      · rename_i cs hrest
        exact ⟨_, cs, hrest, rfl⟩
      · cases h
    · simp only [atStartMarker, Bool.and_eq_true] at h
      obtain ⟨-, h⟩ := h
      unfold Lexeme.isStartMarker at h
      split at h
      · rename_i cs hrest
        exact ⟨_, cs, hrest, rfl⟩
      · cases h
  refine reads_push (by decide) ⟨clear_of_peek? (c := c) ?_ hc, by decide, ?_⟩
  · simp [Cursor.peek?, hrest]
  · simp [hrest]

/-- A marker is read, if there is one. -/
structure ReadsMarker (s : ParseState) (marker : Option TokenId) (t : ParseState) : Prop where
  reads : s.Reads (Piece.mark marker) t
  kind : ∀ u, t.Moves u → ∀ id, marker = some id →
    Token.At u.emitted.reverse (·.kind == .marker) id

theorem readsMarker_none {t : ParseState} (h : s.Passes t) : ReadsMarker s none t :=
  ⟨h.reads, fun _ _ _ h => by cases h⟩

theorem readsMarker_push (h : s.atEndMarker = true ∨ s.atStartMarker = true) :
    ReadsMarker s (some s.next) (s.push .marker 3) := by
  refine ⟨reads_marker h, fun u hu id hid => ?_⟩
  rw [← Option.some.inj hid]
  exact at_push (by simp [ahead]) hu

theorem ReadsMarker.passes {t u : ParseState} {marker : Option TokenId}
    (h : ReadsMarker s marker t) (hpasses : t.Passes u) : ReadsMarker s marker u :=
  ⟨h.reads.passes hpasses, fun v hv => h.kind v (hpasses.moves.trans hv)⟩

/-- A document ends with a marker of its own, in front of the next one, or with the
text. -/
theorem documentEnd_ensures :
    documentEnd.Ensures s fun marker t => ReadsMarker s marker t ∧
      (t.cursor.rest = [] ∨ t.atStartMarker = true ∨ s.next < t.next) := by
  unfold documentEnd
  refine (advance_ensures s).bind fun found t hadvance => ?_
  obtain ⟨ht, -, hfound⟩ := hadvance
  split
  swap
  · rename_i hend
    exact .pure ⟨readsMarker_none ht, .inl (by simpa [hfound] using hend)⟩
  refine .get_bind ?_
  split
  · rename_i hmarker
    have hread := readsMarker_push (.inl hmarker)
    have hlt : s.next < (t.push .marker 3).next := Nat.lt_succ_of_le ht.moves.next_le
    refine .emit_bind (.skipBlanks_bind (.get_bind ?_))
    extract_lets answered ended
    have hended : ∀ u, (t.push .marker 3).Passes u → (ended ()).Ensures u fun marker v =>
        ReadsMarker s marker v ∧
          (v.cursor.rest = [] ∨ v.atStartMarker = true ∨ s.next < v.next) := by
      intro u hu
      refine .get_bind ?_
      split
      · exact .pure ⟨⟨ht.trans_reads (hread.passes hu).reads, (hread.passes hu).kind⟩,
          .inr (.inr (Nat.lt_of_lt_of_le hlt hu.moves.next_le))⟩
      · exact .fail_bind
    clear_value ended
    have hblanks := passes_skipBlanks (t.push .marker 3)
    split
    · rename_i hnumber
      exact .modify_bind (hended _ (hblanks.trans (passes_readComment (by simpa using hnumber))))
    · exact hended _ hblanks
  · extract_lets answered
    split
    · rename_i hmarker
      exact .pure ⟨readsMarker_none ht, .inr (.inl hmarker)⟩
    · exact .fail_bind

/-- A document whose tokens start at `first` is read. -/
structure ReadsDocument (first : TokenId) (s : ParseState) (d : Document) (t : ParseState) :
    Prop where
  reads : s.Reads d.pieces t
  lt : s.next < t.next
  span_eq : d.span = t.fullSpanSince first
  sound : ∀ u, t.Moves u → d.Sound u.emitted.reverse

theorem document_ensures (fuel : Nat) (first : TokenId) (hclear : s.Clear)
    (hrest : s.cursor.rest ≠ []) :
    (document fuel first).Ensures s (ReadsDocument first s) := by
  unfold document
  refine (directives_ensures fuel).bind fun ids t hdirectives => .get_bind ?_
  obtain ⟨ht, hids⟩ := hdirectives
  extract_lets started
  have hstarted : ∀ (marker : Option TokenId) (u : ParseState), ReadsMarker t marker u →
      (t.next < u.next ∨ t.atStartMarker = false) →
      (started marker).Ensures u (ReadsDocument first s) := by
    intro marker u hstart hmarker
    have hu := hstart.reads
    dsimp -zeta only [started]
    extract_lets ended inlined
    have hended : ∀ (content : Node) (v : ParseState), u.ReadsNode content v →
        (ended content).Ensures v (ReadsDocument first s) := by
      intro content v hcontent
      have hv := hcontent.reads
      refine documentEnd_ensures.bind fun endMarker w hend => .get_bind (.pure ?_)
      obtain ⟨hend, hstop⟩ := hend
      have hw := hend.reads
      refine ⟨ht.trans (hu.trans (hv.trans hw)), ?_, rfl, fun x hx => ?_⟩
      · have htu := hu.moves.next_le
        have huw := (hv.trans hw).moves.next_le
        have hst := ht.moves.next_le
        have hsv := (ht.trans (hu.trans hv)).moves.next_le
        by_contra hnot
        have hle := Nat.not_lt.mp hnot
        have hws : w = s :=
          (ht.trans (hu.trans (hv.trans hw))).moves.eq_of_next hclear hrest hle
        have hts : t = s := ht.moves.eq_of_next hclear hrest
          (Nat.le_trans htu (Nat.le_trans huw hle))
        rcases hstop with hstop | hstop | hstop
        · exact hrest (hws ▸ hstop)
        · rcases hmarker with hmarker | hmarker
          · exact absurd (Nat.lt_of_lt_of_le hmarker (Nat.le_trans huw hle))
              (Nat.not_lt.mpr hst)
          · rw [hts, ← hws, hstop] at hmarker
            cases hmarker
        · exact hnot (Nat.lt_of_le_of_lt hsv hstop)
      · have hvx := hw.moves.trans hx
        have hux := hv.moves.trans hvx
        exact ⟨hcontent.formed, hcontent.fits x hvx, hids x (hu.moves.trans hux),
          hstart.kind x hux, hend.kind x hx⟩
    clear_value ended
    have hinlined : ∀ (inline : Node) (v : ParseState), u.ReadsNode inline v →
        (inlined inline).Ensures v (ReadsDocument first s) := by
      intro inline v hv
      dsimp -zeta only [inlined]
      split
      · rename_i hempty
        have hnil : inline.pieces = [] := by
          cases inline <;> first | rfl | cases hempty
        have hread := hv.reads
        rw [hnil] at hread
        exact (laterContent_ensures fuel).bind fun content w hw =>
          hended content w (hread.trans_readsNode hw)
      · exact hended inline v hv
    clear_value inlined
    split
    · exact (markedContent_ensures fuel).bind hinlined
    · exact hinlined .empty u (readsNode_empty u)
  clear_value started
  split
  · rename_i hmarker
    exact .map_bind (.emit_bind (hstarted (some t.next) _ (readsMarker_push (.inr hmarker))
      (.inl (Nat.lt_succ_self _))))
  · rename_i hmarker
    split
    · exact hstarted none t (readsMarker_none .refl) (.inr (by simpa using hmarker))
    · exact .fail_bind

/-- Comments after the last document are added to it. -/
theorem spans_extend {t : ParseState} {d : Document} {last : Token} {m n : Nat}
    (h : d.Spans t.emitted.reverse m n) (hlast : t.emitted.head? = some last) (hn : n ≤ t.next) :
    { d with span := ⟨d.span.start, max d.span.stop last.range.stop⟩ : Document }.Spans
      t.emitted.reverse m t.next := by
  obtain ⟨hids, j, a, b, _, hmj, hjn, ha, hb, -, hspan, -⟩ := h
  have hend : t.emitted.reverse[t.next - 1]? = some last := by
    obtain ⟨earlier, hearlier⟩ := List.head?_eq_some_iff.mp hlast
    simp [next, hearlier]
  refine ⟨fun i hi => ⟨(hids i hi).1, Nat.lt_of_lt_of_le (hids i hi).2 hn⟩, ?_⟩
  rw [hspan]
  rcases Nat.le_total b.range.stop last.range.stop with hle | hle
  · exact ⟨t.next - 1, a, last, last, by omega, by omega, ha, hend, hend, by simp [hle],
      Nat.le_refl _⟩
  · exact ⟨j, a, b, last, hmj, Nat.lt_of_lt_of_le hjn hn, ha, hb, hend, by simp [hle], hle⟩

/-- Documents are read one after the other up to the end of the text. -/
theorem documents_ensures (fuel : Nat) (start : ParseState) (done : List Document)
    (hread : start.Reads (done.reverse.flatMap Document.pieces) s)
    (hsound : ∀ d ∈ done, ∀ u, s.Moves u → d.Sound u.emitted.reverse)
    (htiled : ∀ u, s.Moves u → Document.Tiled u.emitted.reverse done s.next) :
    (documents fuel done).Ensures s fun ds t => start.Reads (ds.flatMap Document.pieces) t ∧
      (∀ d ∈ ds, d.Sound t.emitted.reverse) ∧
      Document.Tiled t.emitted.reverse ds.reverse t.next ∧ t.cursor.rest = [] := by
  induction fuel generalizing s done with
  | zero => exact .fail
  | succ fuel ih =>
    rw [documents]
    refine .get_bind ?_
    extract_lets first advanced
    have hadvanced : ∀ t, s.Passes t → t.Clear → (advanced ()).Ensures t fun ds u =>
        start.Reads (ds.flatMap Document.pieces) u ∧ (∀ d ∈ ds, d.Sound u.emitted.reverse) ∧
          Document.Tiled u.emitted.reverse ds.reverse u.next ∧ u.cursor.rest = [] := by
      intro t ht hclear
      have hpassed := hread.passes ht
      have hnext := ht.moves.next_le
      have hkept : ∀ d ∈ done, d.Sound t.emitted.reverse := fun d hd => hsound d hd t ht.moves
      have htiles := htiled t ht.moves
      refine .get_bind ?_
      split
      · rename_i hend
        replace hend : t.cursor.rest = [] := by simpa using hend
        have hsame : t.next ≤ s.next → start.Reads (done.reverse.flatMap Document.pieces) t ∧
            (∀ d ∈ done.reverse, d.Sound t.emitted.reverse) ∧
            Document.Tiled t.emitted.reverse done.reverse.reverse t.next ∧ t.cursor.rest = [] := by
          intro hle
          rw [List.reverse_reverse, Nat.le_antisymm hle hnext]
          exact ⟨hpassed, fun d hd => hkept d (List.mem_reverse.mp hd), htiles, hend⟩
        split
        · rename_i last d ds hlast
          split
          · refine .pure ⟨by simpa [Document.pieces] using hpassed, ?_, ?_, hend⟩
            · intro e he
              rw [List.mem_reverse, List.mem_cons] at he
              rcases he with rfl | he
              · have hlater := hkept d (List.mem_cons_self ..)
                exact ⟨hlater.formed, hlater.fits, hlater.directives, hlater.startMarker,
                  hlater.endMarker⟩
              · exact hkept e (List.mem_cons_of_mem _ he)
            · rw [List.reverse_reverse]
              cases htiles with
              | cons hrest hspans => exact .cons hrest (spans_extend hspans hlast hnext)
          · rename_i hlt
            exact .pure (hsame (Nat.not_lt.mp hlt))
        · rename_i last hlast
          have hzero : s.next = 0 := htiles.eq_zero
          have hpos : 0 < t.next := List.length_pos_of_mem (List.mem_of_mem_head? hlast)
          refine .pure ⟨by simpa [Document.pieces, Node.pieces, Piece.mark] using hpassed, ?_, ?_,
            hend⟩
          · intro d hd
            rw [List.mem_singleton] at hd
            subst hd
            exact ⟨trivial, Node.fits_empty _, fun _ h => (by cases h), fun _ h => (by cases h),
              fun _ h => (by cases h)⟩
          · refine .cons .nil (spans_fullSpanSince hpos ?_ ?_ .refl)
            · simp [Document.ids_eq, Node.ids, Node.pieces]
            · exact congrArg t.fullSpanSince hzero
        · rename_i hnone
          have hzero : t.next = 0 := by simp [next, List.head?_eq_none_iff.mp hnone]
          exact .pure (hsame (hzero ▸ Nat.zero_le _))
      · rename_i hmore
        have hmore : t.cursor.rest ≠ [] := by simpa using hmore
        refine (document_ensures fuel first hclear hmore).bind fun d u hd => ?_
        have hmoves := ht.moves.trans hd.reads.moves
        refine ih (d :: done) (by simpa using hpassed.trans hd.reads) ?_ fun v hv => ?_
        · intro e he v hv
          rcases List.mem_cons.mp he with rfl | he
          · exact hd.sound v hv
          · exact hsound e he v (hmoves.trans hv)
        · refine .cons (htiled v (hmoves.trans hv)) (spans_fullSpanSince
            (Nat.lt_of_le_of_lt hnext hd.lt) (fun i hi => ?_) hd.span_eq hv)
          obtain ⟨hlow, hhigh⟩ := hd.reads.ids_bounds.2 i hi
          exact ⟨Nat.le_trans hnext hlow, hhigh⟩
    clear_value advanced
    refine .get_bind ?_
    split
    · rename_i hstart
      exact hadvanced s .refl (clear_of_atContentStart hstart)
    · obtain ⟨hpasses, hclear, -⟩ := skipLines_spec s
      exact .modify_bind (hadvanced _ hpasses hclear)

end Parse

/-- A text that can be read is read to its end, one piece after the other. -/
theorem exists_reads_of_parse {text : List Char} {stream : Stream}
    (h : parse text = .ok stream) :
    stream.text = text ∧ ∃ s, (ParseState.ofText text).Reads stream.pieces s ∧
      s.cursor.rest = [] ∧ stream.tokens = s.emitted.reverse.toArray ∧
      (∀ d ∈ stream.documents, d.Sound s.emitted.reverse) ∧
      Document.Tiled s.emitted.reverse stream.documents.reverse s.next := by
  unfold parse at h
  cases hrun : (Parse.documents (Parse.fuelFor text.length) []).run (.ofText text) with
  | error e =>
    simp only [hrun, Bind.bind, Except.bind] at h
    cases h
  | ok r =>
    obtain ⟨ds, s⟩ := r
    simp only [hrun, Bind.bind, Except.bind, Pure.pure, Except.pure, Except.ok.injEq] at h
    subst h
    obtain ⟨hread, hsound, htiled, hrest⟩ := Parse.documents_ensures (Parse.fuelFor text.length)
      (.ofText text) [] (.done _) (by simp) (fun _ _ => .nil) ds s hrun
    exact ⟨rfl, s, hread, hrest, rfl, hsound, htiled⟩

end YamlLayout
