import YamlLayout.Proofs.BodyLines
import YamlLayout.Proofs.Measured

/-!
# Texts without their margin

Pushing every line of a text to the left drops the spaces it starts with and keeps all
else. Two texts that are the same then differ in the depth of their lines only: line
by line they hold the same characters, and what stands in front of the same place of
the one and of the other is the same again.
-/
namespace YamlLayout.Text

/-- Only spaces have passed since a line started, if that was so before the text
exactly when `margin`. -/
def atMargin (margin : Bool) : List Char → Bool
  | [] => margin
  | c :: cs => atMargin (margin && c == ' ' || c == '\n') cs

/-- The text without the spaces that its lines start with. It starts a line itself if
`margin`. -/
def flush (margin : Bool) : List Char → List Char
  | [] => []
  | c :: cs =>
    let rest := flush (margin && c == ' ' || c == '\n') cs
    if margin && c == ' ' then rest else c :: rest

theorem atMargin_nil (margin : Bool) : atMargin margin [] = margin :=
  rfl

theorem atMargin_cons (margin : Bool) (c : Char) (cs : List Char) :
    atMargin margin (c :: cs) = atMargin (margin && c == ' ' || c == '\n') cs :=
  rfl

theorem flush_nil (margin : Bool) : flush margin [] = [] :=
  rfl

theorem flush_cons (margin : Bool) (c : Char) (cs : List Char) :
    flush margin (c :: cs) =
      if margin && c == ' ' then flush (margin && c == ' ' || c == '\n') cs
      else c :: flush (margin && c == ' ' || c == '\n') cs :=
  rfl

theorem atMargin_append (margin : Bool) (a b : List Char) :
    atMargin margin (a ++ b) = atMargin (atMargin margin a) b := by
  induction a generalizing margin with
  | nil => rfl
  | cons c cs ih => exact ih _

theorem flush_append (margin : Bool) (a b : List Char) :
    flush margin (a ++ b) = flush margin a ++ flush (atMargin margin a) b := by
  induction a generalizing margin with
  | nil => rfl
  | cons c cs ih =>
    rw [List.cons_append, flush_cons, flush_cons, atMargin_cons, ih]
    split <;> rfl

theorem flush_cons_of_ne {c : Char} (h : c ≠ ' ') (margin : Bool) (cs : List Char) :
    flush margin (c :: cs) = c :: flush (c == '\n') cs := by
  have hc : (c == ' ') = false := beq_eq_false_iff_ne.mpr h
  simp [flush_cons, hc]

theorem flush_false_of_not_mem {text : List Char} (h : '\n' ∉ text) : flush false text = text := by
  induction text with
  | nil => rfl
  | cons c cs ih =>
    rw [List.mem_cons, not_or] at h
    have hc : (c == '\n') = false := beq_eq_false_iff_ne.mpr (Ne.symm h.1)
    simp [flush_cons, hc, ih h.2]

/-- A line that starts with another character than a space stays as it is. -/
theorem flush_eq_self {text : List Char} (h : '\n' ∉ text) (hhead : text.head? ≠ some ' ')
    (margin : Bool) : flush margin text = text := by
  cases text with
  | nil => rfl
  | cons c cs =>
    rw [List.mem_cons, not_or] at h
    have hc : (c == '\n') = false := beq_eq_false_iff_ne.mpr (Ne.symm h.1)
    rw [flush_cons_of_ne (by simpa using hhead), hc, flush_false_of_not_mem h.2]

theorem flush_spaces_append (n : Nat) (text : List Char) :
    flush true (List.replicate n ' ' ++ text) = flush true text := by
  induction n with
  | zero => rfl
  | succ n ih =>
    rw [List.replicate_succ, List.cons_append, flush_cons, ← ih]
    rfl

/-- A text whose first line starts with another character is not at a margin. -/
theorem flush_eq_of_head? {text : List Char} (h : text.head? ≠ some ' ') (margin : Bool) :
    flush margin text = flush true text := by
  cases text with
  | nil => rfl
  | cons c cs =>
    have hc : c ≠ ' ' := by simpa using h
    rw [flush_cons_of_ne hc, flush_cons_of_ne hc]

theorem mem_of_mem_flush {margin : Bool} {text : List Char} {c : Char}
    (h : c ∈ flush margin text) : c ∈ text := by
  induction text generalizing margin with
  | nil => cases h
  | cons d ds ih =>
    rw [flush_cons] at h
    split at h
    · exact List.mem_cons_of_mem d (ih h)
    · rcases List.mem_cons.mp h with rfl | h
      · exact List.mem_cons_self
      · exact List.mem_cons_of_mem d (ih h)

/-- The line feeds stay. -/
theorem count_flush (margin : Bool) (text : List Char) :
    (flush margin text).count '\n' = text.count '\n' := by
  induction text generalizing margin with
  | nil => rfl
  | cons c cs ih =>
    rw [flush_cons]
    split
    · rename_i hspace
      have hc : c = ' ' := by simpa using (Bool.and_eq_true_iff.mp hspace).2
      rw [ih, hc, List.count_cons_of_ne (by decide)]
    · rw [List.count_cons, List.count_cons, ih]

/-- Only spaces have passed since the last line feed exactly where nothing stays. -/
theorem atMargin_iff {text : List Char} :
    atMargin true text = true ↔ WholeLines (flush true text) := by
  induction text using List.reverseRecOn with
  | nil => exact iff_of_true rfl wholeLines_nil
  | append_singleton cs c ih =>
    rw [atMargin_append, flush_append]
    by_cases hspace : atMargin true cs = true ∧ c = ' '
    · have hnone : flush true [' '] = [] := rfl
      rw [hspace.1, hspace.2, hnone, List.append_nil, ← ih, hspace.1]
      decide
    · have hkeep : (atMargin true cs && c == ' ') = false := by simpa using hspace
      simp [atMargin_cons, atMargin_nil, flush_cons, flush_nil, hkeep, WholeLines]

theorem WholeLines.atMargin {text : List Char} (h : WholeLines text) :
    atMargin true text = true := by
  rcases h with rfl | hlast
  · rfl
  · obtain ⟨lines, rfl⟩ := List.getLast?_eq_some_iff.mp hlast
    simp [atMargin_append, atMargin_cons, atMargin_nil]

theorem flush_spaces (n : Nat) : flush true (List.replicate n ' ') = [] := by
  have hnil := flush_spaces_append n []
  rwa [List.append_nil] at hnil

theorem WholeLines.atMargin_append_spaces {text : List Char} (h : WholeLines text) (n : Nat) :
    Text.atMargin true (text ++ List.replicate n ' ') = true := by
  rw [atMargin_append, h.atMargin, atMargin_iff, flush_spaces]
  exact wholeLines_nil

theorem WholeLines.flush {text : List Char} (h : WholeLines text) : WholeLines (flush true text) :=
  atMargin_iff.mp h.atMargin

/-- Whether only spaces have passed can be seen from what stays. -/
theorem atMargin_congr {a b : List Char} (h : flush true a = flush true b) :
    atMargin true a = atMargin true b := by
  rw [Bool.eq_iff_iff, atMargin_iff, atMargin_iff, h]

/-- After as many whole lines two texts that are the same go on the same. -/
theorem WholeLines.append_inj {a b c d : List Char} (ha : WholeLines a) (hc : WholeLines c)
    (hcount : a.count '\n' = c.count '\n') (h : a ++ b = c ++ d) : a = c := by
  have hshort : ∀ {l r : List Char}, WholeLines (l ++ r) → (l ++ r).count '\n' = l.count '\n' →
      r = [] := by
    intro l r hwhole hfeeds
    by_contra hne
    rcases hwhole with hnil | hlast
    · exact hne (List.append_eq_nil_iff.mp hnil).2
    · rw [List.getLast?_append_of_ne_nil _ hne] at hlast
      have hpos := List.count_pos_iff.mpr (List.mem_of_mem_getLast? hlast)
      rw [List.count_append] at hfeeds
      omega
  rcases List.append_eq_append_iff.mp h with ⟨r, rfl, -⟩ | ⟨r, rfl, -⟩
  · rw [hshort hc hcount.symm, List.append_nil]
  · rw [hshort ha hcount, List.append_nil]

theorem exists_spaces_append_flush {row : List Char} (h : '\n' ∉ row) :
    ∃ n, row = List.replicate n ' ' ++ flush true row := by
  induction row with
  | nil => exact ⟨0, rfl⟩
  | cons c cs ih =>
    rw [List.mem_cons, not_or] at h
    by_cases hc : c = ' '
    · obtain ⟨n, hn⟩ := ih h.2
      refine ⟨n + 1, ?_⟩
      subst hc
      rw [List.replicate_succ, List.cons_append, List.cons.injEq]
      exact ⟨rfl, hn⟩
    · refine ⟨0, ?_⟩
      rw [flush_eq_self (by simp [h]) (by simpa using hc)]
      rfl

/-- The lines of a text are pushed to the left one by one. -/
theorem Row.flush {text before row after : List Char} {line : Nat}
    (h : Row text line before row after) :
    Row (flush true text) line (flush true before) (flush true row)
      (flush (atMargin true row) after) := by
  constructor
  case text_eq => rw [h.text_eq, flush_append, h.whole.atMargin, flush_append]
  case whole => exact h.whole.flush
  case line_eq => rw [count_flush, h.line_eq]
  case not_mem => exact fun hmem => h.not_mem (mem_of_mem_flush hmem)
  case after_eq =>
    rcases h.after_eq with rfl | ⟨rest, rfl⟩
    · exact .inl rfl
    · exact .inr ⟨_, flush_cons_of_ne (by decide) _ rest⟩

end YamlLayout.Text

namespace YamlLayout.LineTable

/-- Past the last line there are no characters. -/
theorem isBlankLine_of_count_lt {text : List Char} {line : Nat} (h : (ofText text).count < line) :
    (ofText text).isBlankLine line = true := by
  have hnone : (ofText text).rows[line - 1]? = none :=
    List.getElem?_eq_none (by rw [count] at h; omega)
  rw [isBlankLine, content, row, if_neg (by omega), hnone]
  rfl

/-- A line is blank at every depth. -/
theorem isBlankLine_flush (text : List Char) (line : Nat) :
    (ofText (Text.flush true text)).isBlankLine line = (ofText text).isBlankLine line := by
  by_cases hpast : text.count '\n' + 1 < line
  · have hcount := count_le text
    have hflush := count_le (Text.flush true text)
    rw [Text.count_flush] at hflush
    rw [isBlankLine_of_count_lt (by omega), isBlankLine_of_count_lt (by omega)]
  · cases line with
    | zero => rfl
    | succ n =>
      obtain ⟨before, row, after, hrow⟩ := @Text.exists_row text n (by omega)
      obtain ⟨k, hspaces⟩ := Text.exists_spaces_append_flush hrow.not_mem
      rw [isBlankLine, isBlankLine, hrow.flush.content_eq, hrow.content_eq]
      nth_rewrite 2 [hspaces]
      rw [Text.stripBreak_spaces_append, Text.all_isBlank_spaces_append]

end YamlLayout.LineTable
