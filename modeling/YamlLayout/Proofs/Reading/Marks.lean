import YamlLayout.Proofs.Reading.Block
import YamlLayout.Proofs.Reading.Inline

/-!
# What stands around the marks of block collections

A dash or a question mark is set off from what follows it, and so is a colon, unless it
touches the token before it. Where a mark introduces nothing, nothing but comments
follows on its line: the reader goes on with the next line.
-/
namespace YamlLayout

namespace Token

/-- A space or the end of the text follows the token. -/
def Spaced (text : List Char) (tokens : List Token) (i : TokenId) : Prop :=
  ∃ a before value after, tokens[i]? = some a ∧ a.Stands text before value after ∧
    ∀ c, after.head? = some c → isSpace c = true

/-- The token starts where the one before it ends. -/
def Touches (tokens : List Token) (i : TokenId) : Prop :=
  ∃ k a b, i = k + 1 ∧ tokens[k]? = some a ∧ tokens[i]? = some b ∧ a.range.stop = b.range.start

/-- Only comments follow the token on its line. -/
def EndsLine (tokens : List Token) (i : TokenId) : Prop :=
  ∀ j a b, i < j → tokens[i]? = some a → tokens[j]? = some b → b.isComment = false →
    a.startLine < b.startLine

/-- The last token in front of a number that is no comment. -/
def previous? (tokens : List Token) (i : TokenId) : Option Token :=
  (tokens.take i).reverse.find? (!·.isComment)

/-- The token starts on the line on which the one before it ends, comments apart. -/
def Continues (tokens : List Token) (i : TokenId) : Prop :=
  ∃ a b, previous? tokens i = some a ∧ tokens[i]? = some b ∧ a.endLine = b.startLine

end Token

namespace ParseState

variable {s t u : ParseState} {c : Char}

/-- Content or the end of the text comes next. -/
def Stopped (s : ParseState) : Prop := s.Clear ∧ s.cursor.peek? ≠ some '#'

/-- The cursor is at the start of a line or at the end of the text, blanks apart. -/
def Fresh (s : ParseState) : Prop := s.cursor.rest = [] ∨ s.cursor.onlyBlanksBefore = true

/-- The line on which the last token ends, comments apart. -/
def lastLine? (s : ParseState) : Option Nat := (s.emitted.find? (!·.isComment)).map (·.endLine)

theorem getElem?_of_suffix {a : Token} (h : a :: s.emitted <:+ u.emitted) :
    u.emitted.reverse[s.next]? = some a := by
  obtain ⟨later, hlater⟩ := h
  rw [← hlater]
  simp [next]

theorem previous?_of_suffix (h : s.emitted <:+ u.emitted) :
    Token.previous? u.emitted.reverse s.next = s.emitted.find? (!·.isComment) := by
  obtain ⟨later, hlater⟩ := h
  rw [Token.previous?, ← hlater, List.reverse_append,
    List.take_left' (by simp [next]), List.reverse_reverse]

theorem Passes.lastLine?_eq (h : s.Passes t) : t.lastLine? = s.lastLine? := by
  induction h with
  | refl => rfl
  | tail _ h ih =>
    rw [← ih]
    cases h with
    | space => rfl
    | comment => simp [lastLine?, emitted_push, Token.isComment, ahead]

theorem JustRead.lastLine?_eq (h : t.JustRead) : t.lastLine? = some t.cursor.line := by
  obtain ⟨a, earlier, hemitted, hcontent, hpast⟩ := h
  have hline : a.endLine = t.cursor.line := by rw [Token.endLine, hpast, Cursor.line]
  simp [lastLine?, hemitted, hcontent, hline]

theorem Moves.rest_eq_nil (h : s.Moves t) (hrest : s.cursor.rest = []) : t.cursor.rest = [] := by
  obtain ⟨mid, hmid⟩ := h.exists_between
  have hall := hmid.rest_eq
  rw [hrest] at hall
  exact (List.nil_eq_append_iff.mp hall).2

theorem rest_ne_nil_of_skipBlanks (h : s.skipBlanks.cursor.rest ≠ []) : s.cursor.rest ≠ [] :=
  fun hnil => h ((passes_skipBlanks s).moves.rest_eq_nil hnil)

/-- Blanks do not end a line. -/
theorem line_skipBlanks (h : s.skipBlanks.cursor.rest ≠ []) :
    s.skipBlanks.cursor.line = s.cursor.line := by
  have hfeed : '\n' ∉ s.cursor.rest.take (s.cursor.rest.takeWhile isBlank).length := by
    intro hmem
    rw [← List.prefix_iff_eq_take.mp (List.takeWhile_prefix isBlank)] at hmem
    have hblank := List.all_eq_true.mp (List.all_takeWhile (p := isBlank)) '\n' hmem
    cases hblank
  rw [Cursor.line_of_rest_ne_nil h, Cursor.line_of_rest_ne_nil (rest_ne_nil_of_skipBlanks h)]
  simp [skipBlanks, Cursor.skipBlanks, Cursor.move, List.count_eq_zero_of_not_mem hfeed]

/-! ## Marks -/

theorem spaced_push (h : s.atIndicator c = true) (hc : isSpace c = false)
    (hu : (s.push .punctuator 1).Moves u) :
    Token.Spaced u.cursor.text u.emitted.reverse s.next := by
  have hpeek := peek?_of_atIndicator h
  have htakes : s.Takes (s.ahead .punctuator 1) [] (s.cursor.rest.take 1) (s.push .punctuator 1) :=
    takes_push (.of_peek (clear_of_peek? hpeek hc) hpeek) fun hkind => by cases hkind
  have hstands := htakes.stands
  rw [← text_push s .punctuator 1, ← hu.text_eq] at hstands
  refine ⟨_, _, _, _, getElem?_of_moves_push hu, hstands, fun d hd => ?_⟩
  obtain ⟨cs, hrest⟩ := List.head?_eq_some_iff.mp hpeek
  rw [rest_push, hrest, List.drop_succ_cons, List.drop_zero] at hd
  obtain ⟨ds, rfl⟩ := List.head?_eq_some_iff.mp hd
  simpa [atIndicator, Lexeme.isIndicator, hrest, Lexeme.separated, isSpace] using h

theorem touches_push (h : s.atAdjacentColon = true) (hu : (s.push .punctuator 1).Moves u) :
    Token.Touches u.emitted.reverse s.next := by
  simp only [atAdjacentColon, Bool.and_eq_true] at h
  obtain ⟨a, ha, hstop⟩ := (Option.any_eq_true _ _).mp h.1.2
  obtain ⟨earlier, hemitted⟩ := List.head?_eq_some_iff.mp ha
  refine ⟨earlier.length, a, _, by simp [next, hemitted], ?_, getElem?_of_moves_push hu,
    beq_iff_eq.mp hstop⟩
  obtain ⟨later, hlater⟩ := hu.emitted_suffix
  rw [emitted_push, hemitted] at hlater
  rw [← hlater]
  simp

theorem continues_of_suffix {kind : TokenKind} {n : Nat} (h : s.lastLine? = some s.cursor.line)
    (hu : s.ahead kind n :: s.emitted <:+ u.emitted) :
    Token.Continues u.emitted.reverse s.next := by
  obtain ⟨a, ha, hline⟩ := Option.map_eq_some_iff.mp h
  refine ⟨a, _, ?_, getElem?_of_suffix hu, hline⟩
  rw [previous?_of_suffix ((List.suffix_cons ..).trans hu), ha]

/-- A token that does not start its line has no line feed between it and the last line start. -/
theorem feed_mem_of_onlyBlanksBefore {mid : List Char} (hpeek : s.cursor.peek? = some c)
    (hc : isSpace c = false) (hmid : (s.push .punctuator 1).Between mid t)
    (h : t.cursor.onlyBlanksBefore = true) : '\n' ∈ mid := by
  obtain ⟨cs, hrest⟩ := List.head?_eq_some_iff.mp hpeek
  have hbefore : t.cursor.before = mid.reverse ++ c :: s.cursor.before := by
    rw [hmid.before_eq]
    simp [push, Cursor.move, hrest]
  have hne : c ≠ '\n' := by
    rintro rfl
    cases hc
  by_contra hfeed
  have hgoes : ∀ d ∈ mid.reverse, (d != '\n') = true := by
    intro d hd
    have hdne : d ≠ '\n' := fun heq => hfeed (heq ▸ List.mem_reverse.mp hd)
    simpa using hdne
  rw [Cursor.onlyBlanksBefore, hbefore, List.takeWhile_append_of_pos hgoes,
    List.takeWhile_cons_of_pos (by simpa using hne), List.all_eq_true] at h
  have hblank := h c (List.mem_append_right _ (List.mem_cons_self ..))
  rw [isSpace, hblank, Bool.true_or] at hc
  cases hc

/-- After a mark that introduces nothing, reading goes on with another line. -/
theorem endsLine_push (hpeek : s.cursor.peek? = some c) (hc : isSpace c = false)
    (hreads : (s.push .punctuator 1).Reads [] t) (hfresh : t.Fresh) (hu : t.Moves u) :
    Token.EndsLine u.emitted.reverse s.next := by
  intro j a b hlt ha hb hcontent
  rw [getElem?_of_moves_push (hreads.moves.trans hu), Option.some.injEq] at ha
  have hsrest : s.cursor.rest ≠ [] := by
    intro hnil
    simp [Cursor.peek?, hnil] at hpeek
  have hline : a.startLine = s.cursor.before.count '\n' + 1 := by
    rw [← ha, ← Cursor.line_of_rest_ne_nil hsrest]
    rfl
  by_cases hj : j < t.next
  · -- Up to here only comments have been read.
    rw [hu.getElem?_eq hj] at hb
    have hmem := (hreads.mem_ids_iff (by rw [next_push]; exact hlt) hj hb).mpr hcontent
    cases hmem
  obtain ⟨v, w, token, lead, value, hv, -, htakes, hw, hnext⟩ :=
    hu.exists_takes (Nat.not_lt.mp hj) (lt_next_of_getElem? hb)
  have htoken := htakes.getElem?_eq hw
  rw [hnext, hb, Option.some.injEq] at htoken
  subst htoken
  rcases hfresh with hend | hblanks
  · have hrest := htakes.between.rest_eq
    rw [hv.rest_eq_nil hend, List.append_assoc, List.nil_eq_append_iff,
      List.append_eq_nil_iff] at hrest
    exact absurd hrest.2.1 htakes.stands.ne_nil
  · obtain ⟨mid, hmid⟩ := hreads.moves.exists_between
    obtain ⟨more, hmore⟩ := hv.exists_between
    have hpos := List.count_pos_iff.mpr (feed_mem_of_onlyBlanksBefore hpeek hc hmid hblanks)
    have hcount := congrArg (List.count '\n') hmid.before_eq
    have hmoved := congrArg (List.count '\n') hmore.before_eq
    have hpushed : s.cursor.before.count '\n' ≤
        (s.push .punctuator 1).cursor.before.count '\n' := by
      simp [push, Cursor.move]
    simp only [List.count_append, List.count_reverse] at hcount hmoved
    rw [hline, htakes.stands.startLine_eq, List.count_append, List.count_reverse]
    omega

end ParseState

namespace Parse

open ParseState

variable {s : ParseState} {p : Properties}

/-- Where content or nothing comes next, `advance` finds it only at the start of a line. -/
theorem advance_stops (s : ParseState) :
    advance.Ensures s fun _ t => t.Stopped ∧ (s.Stopped → t.Fresh) := by
  unfold advance
  refine .get_bind ?_
  extract_lets last checked commented
  have hlast : ∀ t, s.Passes t → (s.Stopped → s.cursor.rest = []) →
      (last ()).Ensures t fun _ t => t.Stopped ∧ (s.Stopped → t.Fresh) := by
    intro t ht hend
    obtain ⟨hpasses, hclear, hnumber⟩ := skipLines_spec t
    refine .modify_bind (.get_bind (.pure ⟨⟨hclear, hnumber⟩, fun hstopped => .inl ?_⟩))
    exact hpasses.moves.rest_eq_nil (ht.moves.rest_eq_nil (hend hstopped))
  clear_value last
  split
  · rename_i hstart
    refine .pure ⟨⟨clear_of_atContentStart hstart, fun hnumber => ?_⟩, fun _ => .inr ?_⟩
    · obtain ⟨cs, hrest⟩ := List.head?_eq_some_iff.mp hnumber
      simp [Cursor.atContentStart, hrest] at hstart
    · cases hrest : s.cursor.rest with
      | nil => simp [Cursor.atContentStart, hrest] at hstart
      | cons c cs =>
        simp only [Cursor.atContentStart, hrest, Bool.and_eq_true] at hstart
        exact hstart.2
  · rename_i hstart
    refine .skipBlanks_bind (.get_bind ?_)
    have hblanks := passes_skipBlanks s
    have hstay : s.Stopped → s.skipBlanks = s := fun h => h.1.clearOfBlanks.skipBlanks_eq
    split
    · rename_i hnumber
      have hnever : ¬s.Stopped := by
        intro hstopped
        rw [hstay hstopped, beq_iff_eq] at hnumber
        exact hstopped.2 hnumber
      split
      · refine .modify_bind (.get_bind ?_)
        split
        · exact hlast _ (hblanks.trans (passes_readComment (by simpa using hnumber)))
            fun hstopped => absurd hstopped hnever
        · exact .fail_bind
      · exact .fail_bind
    · refine .get_bind ?_
      split
      · rename_i hbreak
        refine hlast _ hblanks fun hstopped => ?_
        rw [hstay hstopped] at hbreak
        cases hrest : s.cursor.rest with
        | nil => rfl
        | cons c cs =>
          have hc := hstopped.1 c (by simp [Cursor.peek?, hrest])
          simp only [Cursor.atBreak, hrest] at hbreak
          rw [isSpace, hbreak, Bool.or_true] at hc
          cases hc
      · exact .fail_bind

end Parse

end YamlLayout
