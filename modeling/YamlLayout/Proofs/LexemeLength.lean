import YamlLayout.Lexeme
import Mathlib.Tactic.SplitIfs

/-!
# Lexemes stay within the text

No reader of `Lexeme` reaches past the characters it is given, and what a comment or
a plain line leaves behind starts with blanks and then with the character that
stopped it.
-/
namespace YamlLayout.Lexeme

theorem trimmed_le (stops : Bool → Char → List Char → Bool) (blank : Bool) (text : List Char) :
    trimmed stops blank text ≤ text.length := by
  induction text generalizing blank with
  | nil => simp [trimmed]
  | cons c cs ih =>
    have hmore := ih (isBlank c)
    simp only [trimmed, List.length_cons]
    split
    · omega
    · split <;> omega

/-- After a trimmed stretch come blanks, and then the end of the text or a character
that stops the stretch. -/
theorem drop_trimmed (stops : Bool → Char → List Char → Bool) (blank : Bool) (text : List Char) :
    ∃ blanks rest, text.drop (trimmed stops blank text) = blanks ++ rest ∧
      (∀ c ∈ blanks, isBlank c = true) ∧
      (rest = [] ∨ ∃ b c cs, rest = c :: cs ∧ stops b c cs = true) := by
  induction text generalizing blank with
  | nil => exact ⟨[], [], by simp [trimmed], by simp, .inl rfl⟩
  | cons c cs ih =>
    by_cases hstop : stops blank c cs = true
    · exact ⟨[], c :: cs, by simp [trimmed, hstop], by simp, .inr ⟨blank, c, cs, rfl, hstop⟩⟩
    obtain ⟨blanks, rest, heq, hblanks, hrest⟩ := ih (isBlank c)
    by_cases hblank : trimmed stops (isBlank c) cs = 0 ∧ isBlank c = true
    · have hcount : trimmed stops blank (c :: cs) = 0 := by
        simp only [trimmed, hstop, Bool.false_eq_true, if_false]
        rw [if_pos]
        simpa using hblank
      rw [hblank.1, List.drop_zero] at heq
      refine ⟨c :: blanks, rest, ?_, ?_, hrest⟩
      · rw [hcount, List.drop_zero, heq, List.cons_append]
      · intro d hd
        rcases List.mem_cons.mp hd with rfl | hd
        · exact hblank.2
        · exact hblanks d hd
    · have hcount : trimmed stops blank (c :: cs) = trimmed stops (isBlank c) cs + 1 := by
        simp only [trimmed, hstop, Bool.false_eq_true, if_false]
        rw [if_neg]
        simpa using hblank
      refine ⟨blanks, rest, ?_, hblanks, hrest⟩
      rw [hcount, List.drop_succ_cons, heq]

theorem comment_le (text : List Char) : comment text ≤ text.length := trimmed_le ..

theorem isBlank_eq_false_of_isBreak {c : Char} (h : isBreak c = true) : isBlank c = false := by
  simp only [isBreak, Bool.or_eq_true, beq_iff_eq] at h
  rcases h with rfl | rfl <;> rfl

/-- Nothing but blanks stands between a comment and the end of its line. -/
theorem lineEnds_after_comment (text : List Char) :
    lineEnds ((text.drop (comment text)).dropWhile isBlank) = true := by
  obtain ⟨blanks, rest, heq, hblanks, hrest⟩ :=
    drop_trimmed (fun _ c _ => isBreak c) false text
  have hskip : (text.drop (comment text)).dropWhile isBlank = rest.dropWhile isBlank := by
    rw [comment, heq, List.dropWhile_append_of_pos hblanks]
  rw [hskip]
  rcases hrest with rfl | ⟨_, c, cs, rfl, hc⟩
  · rfl
  · rw [List.dropWhile_cons_of_neg (by simp [isBlank_eq_false_of_isBreak hc])]
    exact hc

theorem plainLine_le (flow : Bool) (text : List Char) : plainLine flow text ≤ text.length :=
  trimmed_le ..

theorem directive_le (text : List Char) : directive text ≤ text.length := trimmed_le ..

theorem directive_pos (cs : List Char) : 0 < directive ('%' :: cs) := trimmed_cons_pos rfl rfl

/-- A plain line does not start at a line break. -/
theorem plainLine_eq_zero_of_isBreak {flow : Bool} {c : Char} (cs : List Char)
    (h : isBreak c = true) : plainLine flow (c :: cs) = 0 := by
  simp [plainLine, trimmed, h]

theorem quoted_le {oneLine : Bool} {quote : Char} {text : List Char} {n : Nat}
    (h : quoted oneLine quote text = some n) : n ≤ text.length := by
  fun_induction quoted oneLine quote text generalizing n with
  | case1 => cases h
  | case2 => cases h
  | case3 => cases h
  | case4 c _ _ d rest ih =>
    obtain ⟨m, hm, rfl⟩ := Option.map_eq_some_iff.mp h
    have := ih hm
    simp only [List.length_cons]
    omega
  | case5 c _ _ _ d rest _ ih =>
    obtain ⟨m, hm, rfl⟩ := Option.map_eq_some_iff.mp h
    have := ih hm
    simp only [List.length_cons]
    omega
  | case6 => cases h; simp
  | case7 => cases h; simp
  | case8 c cs _ _ _ ih =>
    obtain ⟨m, hm, rfl⟩ := Option.map_eq_some_iff.mp h
    have := ih hm
    simp only [List.length_cons]
    omega

theorem verbatim_le (text : List Char) : verbatim text ≤ text.length := by
  induction text with
  | nil => simp [verbatim]
  | cons c cs ih =>
    simp only [verbatim, List.length_cons]
    split <;> omega

theorem word_le (flow : Bool) (text : List Char) : word flow text ≤ text.length :=
  (List.takeWhile_prefix _).length_le

theorem property_le (flow : Bool) (text : List Char) : property flow text ≤ text.length := by
  unfold property
  split
  · rename_i rest
    have := verbatim_le ('<' :: rest)
    simp only [List.length_cons] at this ⊢
    omega
  · simp
  · rename_i rest _
    have := word_le flow rest
    simp only [List.length_cons]
    omega

theorem property_pos (flow : Bool) (c : Char) (cs : List Char) : 0 < property flow (c :: cs) := by
  unfold property
  split <;> first | omega | simp_all

theorem reference_le (flow : Bool) (text : List Char) : reference flow text ≤ text.length := by
  cases text with
  | nil => simp [reference]
  | cons c cs =>
    simp only [reference, List.length_cons]
    exact Nat.succ_le_succ (List.takeWhile_prefix _).length_le

theorem reference_pos (flow : Bool) (c : Char) (cs : List Char) :
    0 < reference flow (c :: cs) := Nat.succ_pos _

theorem plainTail_le (parent : Int) (flow : Bool) (text : List Char) :
    plainTail parent flow text ≤ text.length := by
  fun_induction plainTail parent flow text with
  | case1 => simp
  | case2 text _ next hfound width hcontinues rest ih =>
    have hcontent := length_content_nextLine_le hfound
    have hrest : rest.length ≤ next.content.length := by simp [rest]
    omega
  | case3 => simp
  | case4 => simp

theorem plain_le (parent : Int) (flow : Bool) (text : List Char) :
    plain parent flow text ≤ text.length := by
  have hline := plainLine_le flow text
  have htail := plainTail_le parent flow (text.drop (plainLine flow text))
  simp only [plain, List.length_drop] at htail ⊢
  omega

theorem blockIndicators_length_le (n : Nat) (digit : Option Nat) (chomping : Chomping)
    (text : List Char) : (blockIndicators n digit chomping text).length ≤ text.length := by
  induction n generalizing digit chomping text with
  | zero => simp [blockIndicators]
  | succ n ih =>
    cases text with
    | nil => simp [blockIndicators]
    | cons c cs =>
      simp only [blockIndicators, List.length_cons]
      split_ifs
      · exact Nat.succ_le_succ (ih ..)
      · exact Nat.zero_le _
      · exact Nat.succ_le_succ (ih ..)
      · exact Nat.succ_le_succ (ih ..)
      · exact Nat.zero_le _

end YamlLayout.Lexeme
