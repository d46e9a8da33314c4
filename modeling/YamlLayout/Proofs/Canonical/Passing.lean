import YamlLayout.Proofs.Canonical.Glyphs
import YamlLayout.Proofs.Canonical.Lexemes
import YamlLayout.Proofs.TokenPlaces

/-!
# Passing over canonical texts

How the state moves over the spaces, line feeds and tokens of a canonical text, and
where it comes to rest after a node.
-/
namespace YamlLayout

/-! ## Places -/

/-- Line and column after the characters in `before`, latest first. -/
def placeAfter (before : List Char) : Position :=
  ⟨before.count '\n' + 1, (before.takeWhile (· != '\n')).length⟩

theorem placeAfter_append (text before : List Char) :
    placeAfter (text.reverse ++ before) = (placeAfter before).after text := by
  induction text generalizing before with
  | nil => rfl
  | cons c cs ih =>
    rw [List.reverse_cons, List.append_assoc, List.singleton_append, ih, Position.after]
    by_cases hc : c = '\n'
    · simp [hc, placeAfter]
    · simp [hc, placeAfter]

namespace ParseState

variable {s t u : ParseState} {text : List Char} {c : Char} {cs : List Char}

def place (s : ParseState) : Position := placeAfter s.cursor.before

theorem Between.place_eq (h : s.Between text t) : t.place = s.place.after text := by
  rw [place, h.before_eq, placeAfter_append]
  rfl

theorem position_eq_place (h : s.cursor.rest = [] → s.cursor.before.head? ≠ some '\n') :
    s.cursor.position = s.place := by
  unfold Cursor.position place placeAfter
  split
  · rename_i hrest hbefore
    exact absurd (by rw [hbefore]; rfl) (h hrest)
  · rfl

theorem position_of_cons (h : s.cursor.rest = c :: cs) : s.cursor.position = s.place :=
  position_eq_place fun hnil => by rw [h] at hnil; cases hnil

theorem column_of_cons (h : s.cursor.rest = c :: cs) : s.cursor.column = s.place.column :=
  congrArg Position.column (position_of_cons h)

/-! ## Tokens -/

/-- Reading `text` leads from `s` to `t` and leaves the tokens of `glyphs` behind. -/
structure Spells (s : ParseState) (text : List Char) (glyphs : List Glyph) (t : ParseState) :
    Prop where
  between : s.Between text t
  emitted : ∃ tokens, t.emitted = tokens.reverse ++ s.emitted ∧
    List.Forall₂ Glyph.Fits glyphs tokens

theorem Spells.trans {a b : List Char} {gs hs : List Glyph} (h : s.Spells a gs t)
    (k : t.Spells b hs u) : s.Spells (a ++ b) (gs ++ hs) u := by
  obtain ⟨left, hleft, hfits⟩ := h.emitted
  obtain ⟨right, hright, hfits'⟩ := k.emitted
  refine ⟨h.between.trans k.between, left ++ right, ?_, List.rel_append hfits hfits'⟩
  rw [hright, hleft, List.reverse_append, List.append_assoc]

theorem Spells.next_eq {gs : List Glyph} (h : s.Spells text gs t) :
    t.next = s.next + gs.length := by
  obtain ⟨tokens, hemitted, hfits⟩ := h.emitted
  rw [next, hemitted, List.length_append, List.length_reverse, hfits.length_eq, Nat.add_comm]
  rfl

theorem Spells.rest_eq {gs : List Glyph} {rest : List Char} (h : s.Spells text gs t)
    (hrest : s.cursor.rest = text ++ rest) : t.cursor.rest = rest :=
  List.append_cancel_left (h.between.rest_eq.symm.trans hrest)

theorem spells_skip {rest : List Char} (hrest : s.cursor.rest = text ++ rest) :
    s.Spells text [] (s.skip text.length) := by
  refine ⟨?_, [], rfl, .nil⟩
  have hbetween := s.between_skip text.length
  rwa [hrest, List.take_left] at hbetween

/-- A token is taken where it stands. -/
theorem spells_push {rest : List Char} (hrest : s.cursor.rest = text ++ rest) (hne : text ≠ [])
    (hfeed : '\n' ∉ text) {kind : TokenKind} (hkind : kind ≠ .comment) (column : Nat) :
    s.Spells text [⟨kind, hkind, text, s.place, column⟩] (s.push kind text.length) := by
  have hbetween := s.between_push kind text.length
  have htake : s.cursor.rest.take text.length = text := by rw [hrest, List.take_left]
  rw [htake] at hbetween
  refine ⟨hbetween, [s.ahead kind text.length], emitted_push .., .cons ?_ .nil⟩
  constructor
  case kind_eq => rfl
  case value_eq => exact congrArg String.ofList htake
  case first_eq =>
    obtain ⟨c, cs, rfl⟩ := List.exists_cons_of_ne_nil hne
    exact position_of_cons hrest
  case past_eq =>
    -- The last character of the token is no line feed, so the token does not end the text
    -- with one.
    have hlast : (s.push kind text.length).cursor.before.head? ≠ some '\n' := by
      rw [hbetween.before_eq, List.head?_append, List.head?_reverse,
        List.getLast?_eq_some_getLast hne]
      intro hlast
      rw [Option.some_or, Option.some.injEq] at hlast
      exact hfeed (hlast ▸ List.getLast_mem hne)
    have hpast : (s.push kind text.length).cursor.position = (s.push kind text.length).place :=
      position_eq_place fun _ => hlast
    exact hpast.trans (hbetween.place_eq.trans (Position.after_of_not_mem _ hfeed))

theorem spells_word {w : Word} {rest : List Char} (hrest : s.cursor.rest = w.letters ++ rest)
    (column : Nat) :
    s.Spells w.letters [.word w s.place column] (s.push .scalar w.letters.length) :=
  spells_push hrest w.ne_nil w.feed_not_mem (by decide) column

theorem spells_mark (hrest : s.cursor.rest = c :: cs) (hc : c ≠ '\n') (column : Nat) :
    s.Spells [c] [.mark c s.place column] (s.push .punctuator 1) :=
  spells_push (show s.cursor.rest = [c] ++ cs from hrest) (by simp) (by simpa using hc.symm)
    (by decide) column

/-! ## Spaces and line feeds -/

@[simp] theorem skip_zero (s : ParseState) : s.skip 0 = s :=
  congrArg (ParseState.mk · s.emitted) (Cursor.move_zero _)

theorem skip_skip (s : ParseState) (m n : Nat) : (s.skip m).skip n = s.skip (m + n) := by
  rw [skip, skip, skip, Cursor.move_move]

/-- Spaces are passed over up to the next character. -/
theorem skipBlanks_eq {n : Nat} (hrest : s.cursor.rest = List.replicate n ' ' ++ c :: cs)
    (hc : isBlank c = false) : s.skipBlanks = s.skip n := by
  have hspaces : ∀ d ∈ List.replicate n ' ', isBlank d = true := by
    intro d hd
    rw [(List.mem_replicate.mp hd).2]
    rfl
  rw [skipBlanks, Cursor.skipBlanks, hrest, List.takeWhile_append_of_pos hspaces,
    List.takeWhile_cons_of_neg (by simp [hc]), List.append_nil, List.length_replicate]
  rfl

theorem finishLine_eq {n : Nat} (hrest : s.cursor.rest = List.replicate n ' ' ++ c :: cs)
    (hc : isBlank c = false) (hnumber : c ≠ '#') : s.finishLine = s.skip n := by
  have hskipped : (s.skip n).cursor.peek? = some c := by
    simp [skip, Cursor.peek?, hrest]
  rw [finishLine, skipBlanks_eq hrest hc]
  simp [hskipped, hnumber]

theorem skipLines_of_nil (h : s.cursor.rest = []) : s.skipLines = s := by
  have hblanks : s.skipBlanks = s := by
    rw [skipBlanks, Cursor.skipBlanks, h]
    exact s.skip_zero
  have hended : s.finishLine = s := by
    rw [finishLine, hblanks]
    simp [Cursor.peek?, h]
  rw [skipLines]
  split
  · exact hended
  · rename_i hrest
    rw [hended, h] at hrest
    cases hrest

theorem skipLines_of_feed (h : s.cursor.rest = '\n' :: cs) :
    s.skipLines = (s.skip 1).skipLines := by
  have hended : s.finishLine = s := by
    rw [finishLine_eq (n := 0) (c := '\n') h rfl (by decide), skip_zero]
  have hbreak : s.skipBreak = s.skip 1 := by
    rw [skipBreak, Cursor.skipBreak, h]
    rfl
  rw [skipLines]
  split
  · rename_i hrest
    rw [hended, h] at hrest
    cases hrest
  · rename_i hrest
    rw [hended, h] at hrest
    cases hrest
    rw [if_pos (by decide), hended, hbreak]

theorem skipLines_of_opensRow {n : Nat} (hrest : s.cursor.rest = List.replicate n ' ' ++ text)
    (hopens : OpensRow text) : s.skipLines = s.skip n := by
  obtain ⟨c, cs, rfl, hc⟩ := hopens.exists_cons
  have hended := finishLine_eq hrest (by simp [isBlank, hc]) (by simp [hc])
  have hskipped : (s.skip n).cursor.rest = c :: cs := by
    simp [skip, hrest]
  rw [skipLines]
  split
  · exact hended
  · rename_i hrest
    rw [hended, hskipped] at hrest
    cases hrest
    rw [if_neg (by simp [isBreak, hc]), hended]

theorem skipLines_eq {column : Nat} (hrest : s.cursor.rest = newLine column ++ text)
    (hopens : OpensRow text) : s.skipLines = s.skip (newLine column).length := by
  have hskipped : (s.skip 1).cursor.rest = List.replicate column ' ' ++ text := by
    simp [skip, hrest, newLine]
  rw [skipLines_of_feed hrest, skipLines_of_opensRow hskipped hopens, skip_skip, newLine,
    List.length_cons, List.length_replicate, Nat.add_comm]

/-! ## Going on to the next line -/

theorem advance_of_atContentStart (h : s.cursor.atContentStart = true) :
    Parse.advance.Answers s fun more t => more = true ∧ t = s := by
  unfold Parse.advance
  refine .get_bind ?_
  extract_lets
  rw [if_pos h]
  exact .pure ⟨rfl, rfl⟩

theorem advance_of_atBreak (h : s.cursor.atBreak = true) :
    Parse.advance.Answers s fun more t => more = !t.cursor.rest.isEmpty ∧ t = s.skipLines := by
  have hblanks : s.skipBlanks = s := by
    refine ClearOfBlanks.skipBlanks_eq fun c hc => ?_
    obtain ⟨cs, hrest⟩ := List.head?_eq_some_iff.mp hc
    rw [Cursor.atBreak, hrest] at h
    exact Lexeme.isBlank_eq_false_of_isBreak h
  have hnumber : ¬(s.cursor.peek? == some '#') = true := by
    intro hpeek
    obtain ⟨cs, hrest⟩ := List.head?_eq_some_iff.mp (beq_iff_eq.mp hpeek)
    rw [Cursor.atBreak, hrest] at h
    cases h
  have hcontent : ¬s.cursor.atContentStart = true := by
    intro hstart
    cases hrest : s.cursor.rest with
    | nil => simp [Cursor.atContentStart, hrest] at hstart
    | cons c cs => simp_all [Cursor.atContentStart, Cursor.atBreak]
  unfold Parse.advance
  refine .get_bind ?_
  extract_lets last checked commented
  rw [if_neg hcontent]
  refine .skipBlanks_bind (.get_bind ?_)
  rw [hblanks, if_neg hnumber]
  refine .get_bind ?_
  rw [if_pos h]
  exact .modify_bind (.get_bind (.pure ⟨rfl, rfl⟩))

theorem atContentStart_of_opensRow (hopens : OpensRow s.cursor.rest)
    (hblanks : s.cursor.onlyBlanksBefore = true) : s.cursor.atContentStart = true := by
  obtain ⟨c, cs, hrest, hc⟩ := hopens.exists_cons
  simp [Cursor.atContentStart, hrest, isBreak, isBlank, hc, hblanks]

/-- From the end of a line the next row is reached, which starts with `text` at `column`. -/
structure Lands (s : ParseState) (column : Nat) (text : List Char) (t : ParseState) : Prop where
  spells : s.Spells (newLine column) [] t
  rest_eq : t.cursor.rest = text
  atContentStart : t.cursor.atContentStart = true
  place_eq : t.place = ⟨s.place.line + 1, column⟩

/-- No document marker comes next. -/
theorem atBoundary_eq (h : OpensRow s.cursor.rest) : s.atBoundary = false := by
  rw [atBoundary, h.isMarker_eq, Bool.and_false]

section Lands

variable {column : Nat} (h : s.Lands column text t) (hopens : OpensRow text)

include h hopens

theorem Lands.isEmpty_eq : t.cursor.rest.isEmpty = false := by
  obtain ⟨c, cs, rfl, -⟩ := hopens.exists_cons
  rw [h.rest_eq]
  rfl

theorem Lands.column_eq : t.cursor.column = column := by
  obtain ⟨c, cs, rfl, -⟩ := hopens.exists_cons
  rw [column_of_cons h.rest_eq, h.place_eq]

theorem Lands.atBoundary_eq : t.atBoundary = false := by
  rw [← h.rest_eq] at hopens
  exact ParseState.atBoundary_eq hopens

end Lands

theorem lands_skipLines {column : Nat} (hrest : s.cursor.rest = newLine column ++ text)
    (hopens : OpensRow text) : s.Lands column text s.skipLines := by
  rw [skipLines_eq hrest hopens]
  have hspells := spells_skip hrest
  constructor
  case spells => exact hspells
  case rest_eq => exact hspells.rest_eq hrest
  case place_eq => rw [hspells.between.place_eq, Position.after_newLine]
  case atContentStart =>
    refine atContentStart_of_opensRow (hspells.rest_eq hrest ▸ hopens) ?_
    rw [Cursor.onlyBlanksBefore, hspells.between.before_eq, newLine, List.reverse_cons,
      List.reverse_replicate, List.append_assoc, List.takeWhile_append_of_pos]
    · simp [isBlank]
    · intro c hc
      rw [(List.mem_replicate.mp hc).2]
      rfl

/-- What follows a node is nothing or a row that is not deeper than the node around it. -/
theorem skipLines_of_follows {parent : Int} (h : Follows parent s.cursor.rest) :
    s.skipLines.cursor.rest = [] ∨ ∃ column text, s.Lands column text s.skipLines ∧
      OpensRow text ∧ (column : Int) ≤ parent := by
  generalize hrest : s.cursor.rest = rest at h
  cases h with
  | done =>
    rw [skipLines_of_nil hrest]
    exact .inl hrest
  | feed =>
    have hskipped : (s.skip 1).cursor.rest = [] := by simp [skip, hrest]
    rw [skipLines_of_feed hrest, skipLines_of_nil hskipped]
    exact .inl hskipped
  | row hcolumn hopens => exact .inr ⟨_, _, lands_skipLines hrest hopens, hopens, hcolumn⟩

/-- No token is read on the way to what follows. -/
theorem emitted_skipLines {parent : Int} (h : Follows parent s.cursor.rest) :
    s.skipLines.emitted = s.emitted := by
  generalize hrest : s.cursor.rest = rest at h
  cases h with
  | done => rw [skipLines_of_nil hrest]
  | feed =>
    have hskipped : (s.skip 1).cursor.rest = [] := by simp [skip, hrest]
    rw [skipLines_of_feed hrest, skipLines_of_nil hskipped]
    rfl
  | row hcolumn hopens =>
    rw [skipLines_eq hrest hopens]
    rfl

/-- After a node the state stands right behind it, or in front of what follows. -/
def Rests (s t : ParseState) : Prop := t = s ∨ t = s.skipLines

theorem Rests.advance {parent : Int} (h : s.Rests t) (hfollows : Follows parent s.cursor.rest) :
    Parse.advance.Answers t fun more u => more = !u.cursor.rest.isEmpty ∧ u = s.skipLines := by
  rcases h with rfl | rfl
  · refine advance_of_atBreak ?_
    rw [Cursor.atBreak_eq]
    generalize t.cursor.rest = rest at hfollows
    cases hfollows <;> rfl
  · rcases skipLines_of_follows hfollows with hnil | ⟨column, text, hlands, hopens, -⟩
    · have hbreak : s.skipLines.cursor.atBreak = true := by rw [Cursor.atBreak_eq, hnil]; rfl
      refine (advance_of_atBreak hbreak).mono fun more u hu => ⟨hu.1, ?_⟩
      rw [hu.2, skipLines_of_nil hnil]
    · refine (advance_of_atContentStart hlands.atContentStart).mono fun more u hu => ⟨?_, hu.2⟩
      rw [hu.1, hu.2, hlands.isEmpty_eq hopens]
      rfl

end ParseState

end YamlLayout
