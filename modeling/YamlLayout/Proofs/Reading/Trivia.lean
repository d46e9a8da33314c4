import YamlLayout.Grammar.Trivia
import YamlLayout.Proofs.Ensures
import YamlLayout.Proofs.Reading

/-!
# Passing over spaces and comments

Every way to get past blanks, line breaks and comments is a sequence of passes, and
those that look for content stop in front of it or at the end of the text.
-/
namespace YamlLayout

theorem Cursor.atBreak_eq (c : Cursor) : c.atBreak = Lexeme.lineEnds c.rest := by
  unfold Cursor.atBreak Lexeme.lineEnds
  cases c.rest <;> rfl

namespace ParseState

variable {s t : ParseState}

/-- No blank comes next. -/
def ClearOfBlanks (s : ParseState) : Prop := ∀ c, s.cursor.peek? = some c → isBlank c = false

theorem Clear.clearOfBlanks (h : s.Clear) : s.ClearOfBlanks := by
  intro c hc
  have hspace := h c hc
  simp only [isSpace, Bool.or_eq_false_iff] at hspace
  exact hspace.1

theorem clear_of_clearOfBlanks (hblank : s.ClearOfBlanks) (hbreak : s.cursor.atBreak = false) :
    s.Clear := by
  intro c hc
  have hne : isBreak c = false := by
    simp only [Cursor.peek?] at hc
    rcases hrest : s.cursor.rest with _ | ⟨d, ds⟩
    · simp [hrest] at hc
    · simp only [hrest, List.head?_cons, Option.some.injEq] at hc
      simpa [Cursor.atBreak, hrest, hc] using hbreak
  simp [isSpace, hblank c hc, hne]

theorem clear_of_atContentStart (h : s.cursor.atContentStart = true) : s.Clear := by
  intro c hc
  obtain ⟨cs, hrest⟩ := List.head?_eq_some_iff.mp hc
  simp only [Cursor.atContentStart, hrest, Bool.and_eq_true, Bool.not_eq_true'] at h
  simp [isSpace, h.1.1.1, h.1.1.2]

theorem Ahead.of_peek {c : Char} (h : s.Clear) (hc : s.cursor.peek? = some c) : s.Ahead 1 := by
  refine ⟨h, Nat.one_pos, ?_⟩
  obtain ⟨cs, hrest⟩ := List.head?_eq_some_iff.mp hc
  simp [hrest]

theorem passes_skipBlanks (s : ParseState) : s.Passes s.skipBlanks := by
  refine .single (.space (s.cursor.rest.takeWhile isBlank).length fun c hc => ?_)
  have hpre := List.takeWhile_prefix (l := s.cursor.rest) isBlank
  rw [← List.prefix_iff_eq_take.mp hpre] at hc
  have hblank := List.all_eq_true.mp (List.all_takeWhile (p := isBlank)) c hc
  simp [isSpace, hblank]

theorem clearOfBlanks_skipBlanks (s : ParseState) : s.skipBlanks.ClearOfBlanks := by
  intro c hc
  have hhead := List.head?_dropWhile_not isBlank s.cursor.rest
  simp only [skipBlanks, Cursor.peek?, Cursor.rest_skipBlanks] at hc
  rw [hc] at hhead
  simpa using hhead

theorem ClearOfBlanks.skipBlanks_eq (h : s.ClearOfBlanks) : s.skipBlanks = s := by
  have hnone : s.cursor.rest.takeWhile isBlank = [] := by
    cases hrest : s.cursor.rest with
    | nil => rfl
    | cons c cs => simp [h c (by simp [Cursor.peek?, hrest])]
  simp [skipBlanks, Cursor.skipBlanks, hnone]

theorem passes_skipBreak (s : ParseState) : s.Passes s.skipBreak := by
  unfold skipBreak Cursor.skipBreak
  split
  · rename_i hrest
    refine .single (.space 2 fun c hc => ?_)
    rw [hrest] at hc
    simp only [List.take_succ_cons, List.take_zero, List.mem_cons, List.not_mem_nil, or_false] at hc
    rcases hc with rfl | rfl <;> rfl
  · rename_i hrest
    refine .single (.space 1 fun c hc => ?_)
    rw [hrest] at hc
    simp only [List.take_succ_cons, List.take_zero, List.mem_singleton] at hc
    exact hc ▸ rfl
  · rename_i hrest
    refine .single (.space 1 fun c hc => ?_)
    rw [hrest] at hc
    simp only [List.take_succ_cons, List.take_zero, List.mem_singleton] at hc
    exact hc ▸ rfl
  · exact .refl

theorem passes_readComment (h : s.cursor.peek? = some '#') : s.Passes s.readComment :=
  .head (.comment h) (passes_skipBlanks _)

/-- The line ends after a comment. -/
theorem atBreak_readComment (s : ParseState) : s.readComment.cursor.atBreak = true := by
  have hends := Lexeme.lineEnds_after_comment s.cursor.rest
  have hrest : s.readComment.cursor.rest =
      (s.cursor.rest.drop (Lexeme.comment s.cursor.rest)).dropWhile isBlank := by
    simp [readComment, skipBlanks]
  rw [Cursor.atBreak_eq, hrest, hends]

theorem passes_finishLine (s : ParseState) : s.Passes s.finishLine := by
  unfold finishLine
  dsimp only
  split
  · rename_i h
    exact (passes_skipBlanks s).trans (passes_readComment (by simpa using h))
  · exact passes_skipBlanks s

/-- Where a line is finished, it ends or its content starts. -/
theorem clear_finishLine (h : s.finishLine.cursor.atBreak = false) :
    s.finishLine.Clear ∧ s.finishLine.cursor.peek? ≠ some '#' := by
  unfold finishLine at h ⊢
  dsimp only at h ⊢
  split at h
  · rw [atBreak_readComment] at h
    cases h
  · rename_i hnumber
    simp only [hnumber]
    exact ⟨clear_of_clearOfBlanks (clearOfBlanks_skipBlanks s) h, by simpa using hnumber⟩

theorem skipLines_spec (s : ParseState) :
    s.Passes s.skipLines ∧ s.skipLines.Clear ∧ s.skipLines.cursor.peek? ≠ some '#' := by
  fun_induction skipLines s with
  | case1 s ended hrest =>
    refine ⟨passes_finishLine s, fun c hc => ?_, ?_⟩
    · simp [Cursor.peek?, hrest] at hc
    · simp [Cursor.peek?, hrest]
  | case2 s ended c cs hrest hbreak ih =>
    exact ⟨(passes_finishLine s).trans ((passes_skipBreak _).trans ih.1), ih.2⟩
  | case3 s ended c cs hrest hbreak =>
    refine ⟨passes_finishLine s, clear_finishLine ?_⟩
    rw [Cursor.atBreak_eq, hrest]
    simpa [Lexeme.lineEnds] using hbreak

theorem skipFlowSpace_spec (h : s.skipFlowSpace = .ok t) : s.Passes t ∧ t.Clear := by
  fun_induction skipFlowSpace s with
  | case1 s after hrest =>
    obtain rfl : after = t := by simpa using h
    exact ⟨passes_skipBlanks s, fun c hc => by simp [Cursor.peek?, hrest] at hc⟩
  | case2 s after c cs hrest hbreak broken hmarker => cases h
  | case3 s after c cs hrest hbreak broken hmarker ih =>
    obtain ⟨hpasses, hclear⟩ := ih h
    exact ⟨(passes_skipBlanks s).trans ((passes_skipBreak _).trans hpasses), hclear⟩
  | case4 s after c cs hrest hbreak hcomment ih =>
    obtain ⟨hpasses, hclear⟩ := ih h
    have hpeek : after.cursor.peek? = some '#' := by
      simp only [Bool.and_eq_true, beq_iff_eq] at hcomment
      simp [Cursor.peek?, hrest, hcomment.1]
    exact ⟨(passes_skipBlanks s).trans ((passes_readComment hpeek).trans hpasses), hclear⟩
  | case5 s after c cs hrest hbreak hcomment =>
    obtain rfl : after = t := by simpa using h
    refine ⟨passes_skipBlanks s, clear_of_clearOfBlanks (clearOfBlanks_skipBlanks s) ?_⟩
    rw [Cursor.atBreak_eq, hrest]
    simpa [Lexeme.lineEnds] using hbreak

/-- In front of content there is no space to pass over. -/
theorem Clear.skipFlowSpace_eq (h : s.Clear) (hnumber : s.cursor.peek? ≠ some '#') :
    s.skipFlowSpace = .ok s := by
  have hblanks := h.clearOfBlanks.skipBlanks_eq
  unfold skipFlowSpace
  dsimp only
  split
  · rw [hblanks]
  · rename_i c cs hrest
    rw [hblanks] at hrest
    have hpeek : s.cursor.peek? = some c := by simp [Cursor.peek?, hrest]
    have hc := h c hpeek
    simp only [isSpace, Bool.or_eq_false_iff] at hc
    have hne : c ≠ '#' := fun heq => hnumber (heq ▸ hpeek)
    simp [hc.2, hne, hblanks]

end ParseState

namespace Parse

open ParseState

theorem skipFlowSpace_ensures (s : ParseState) :
    skipFlowSpace.Ensures s fun _ t => s.Passes t ∧ t.Clear ∧
      (s.Clear → s.cursor.peek? ≠ some '#' → t = s) := by
  intro a t hrun
  cases hs : s.skipFlowSpace with
  | error e =>
    have hfails : skipFlowSpace s = .error e := by
      simp only [skipFlowSpace, hs, Bind.bind, Except.bind]
    rw [hfails] at hrun
    cases hrun
  | ok u =>
    have hgoes : skipFlowSpace s = .ok ((), u) := by
      simp only [skipFlowSpace, hs, Bind.bind, Except.bind]
      rfl
    rw [hgoes] at hrun
    cases hrun
    obtain ⟨hpasses, hclear⟩ := skipFlowSpace_spec hs
    refine ⟨hpasses, hclear, fun hstart hnumber => ?_⟩
    rw [hstart.skipFlowSpace_eq hnumber] at hs
    exact (Except.ok.inj hs).symm

/-- Where `advance` finds more, content comes next. -/
theorem advance_ensures (s : ParseState) :
    advance.Ensures s fun found t =>
      s.Passes t ∧ t.Clear ∧ (found = true ↔ t.cursor.rest ≠ []) := by
  unfold advance
  refine .get_bind ?_
  extract_lets last checked commented
  have hlast : ∀ t, s.Passes t → (last ()).Ensures t fun found t =>
      s.Passes t ∧ t.Clear ∧ (found = true ↔ t.cursor.rest ≠ []) := by
    intro t ht
    obtain ⟨hpasses, hclear, -⟩ := skipLines_spec t
    refine .modify_bind (.get_bind (.pure ⟨ht.trans hpasses, hclear, ?_⟩))
    simp
  clear_value last
  have hchecked : ∀ t, s.Passes t → (checked ()).Ensures t fun found t =>
      s.Passes t ∧ t.Clear ∧ (found = true ↔ t.cursor.rest ≠ []) := by
    intro t ht
    refine .get_bind ?_
    split
    · exact hlast t ht
    · exact .fail_bind
  clear_value checked
  split
  · rename_i hstart
    have hrest : s.cursor.rest ≠ [] := by
      intro hnil
      simp [Cursor.atContentStart, hnil] at hstart
    refine .pure ⟨.refl, clear_of_atContentStart hstart, ?_⟩
    simpa using hrest
  · refine .skipBlanks_bind (.get_bind ?_)
    split
    · rename_i hnumber
      split
      · have hcomment := passes_readComment (s := s.skipBlanks) (by simpa using hnumber)
        exact .modify_bind (hchecked _ ((passes_skipBlanks s).trans hcomment))
      · exact .fail_bind
    · exact hchecked _ (passes_skipBlanks s)

end Parse

end YamlLayout
