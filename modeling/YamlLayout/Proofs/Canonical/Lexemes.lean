import YamlLayout.Proofs.Canonical.Outline
import YamlLayout.Proofs.LexemeLength

/-!
# Lexemes of canonical texts

A canonical text is made of words, colons, dashes, spaces and line feeds. A word ends
where its letters end, a key is told by the colon after it, and a line that is not
deeper than a node around a word does not go on with the word.
-/
namespace YamlLayout

/-- A small letter is no other character. -/
theorem ne_of_lower {c d : Char} (hc : 'a' ≤ c ∧ c ≤ 'z') (hd : ¬('a' ≤ d ∧ d ≤ 'z')) : c ≠ d :=
  fun h => hd (h ▸ hc)

theorem not_beq_of_lower {c : Char} (hc : 'a' ≤ c ∧ c ≤ 'z') (d : Char)
    (hd : ¬('a' ≤ d ∧ d ≤ 'z')) : ¬(c == d) = true := by
  simpa using ne_of_lower hc hd

theorem isBlank_of_lower {c : Char} (hc : 'a' ≤ c ∧ c ≤ 'z') : isBlank c = false := by
  simp [isBlank, ne_of_lower hc (d := ' ') (by decide), ne_of_lower hc (d := '\t') (by decide)]

theorem isBreak_of_lower {c : Char} (hc : 'a' ≤ c ∧ c ≤ 'z') : isBreak c = false := by
  simp [isBreak, ne_of_lower hc (d := '\n') (by decide), ne_of_lower hc (d := '\r') (by decide)]

theorem Lexeme.isQuote_of_lower {c : Char} (hc : 'a' ≤ c ∧ c ≤ 'z') : isQuote c = false := by
  simp [isQuote, ne_of_lower hc (d := '"') (by decide), ne_of_lower hc (d := '\'') (by decide)]

/-- The text starts with a word or with a dash set off by a space. -/
inductive OpensRow : List Char → Prop
  | letter {c : Char} {cs : List Char} (h : 'a' ≤ c ∧ c ≤ 'z') : OpensRow (c :: cs)
  | dash (cs : List Char) : OpensRow ('-' :: ' ' :: cs)

/-- What can follow a node inside a node at column `parent`: the end of the text, or a line
that is not deeper than `parent`. -/
inductive Follows (parent : Int) : List Char → Prop
  | done : Follows parent []
  | feed : Follows parent ['\n']
  | row {column : Nat} {text : List Char} (hcolumn : (column : Int) ≤ parent)
      (hopens : OpensRow text) : Follows parent (newLine column ++ text)

theorem Follows.mono {parent other : Int} {rest : List Char} (h : Follows parent rest)
    (hle : parent ≤ other) : Follows other rest := by
  cases h with
  | done => exact .done
  | feed => exact .feed
  | row hcolumn hopens => exact .row (Int.le_trans hcolumn hle) hopens

namespace OpensRow

variable {text : List Char}

theorem append (h : OpensRow text) (more : List Char) : OpensRow (text ++ more) := by
  cases h with
  | letter h => exact .letter h
  | dash cs => exact .dash _

/-- Of the characters with a meaning of their own only a dash can come first. -/
theorem exists_cons (h : OpensRow text) :
    ∃ c cs, text = c :: cs ∧ ∀ d, ¬('a' ≤ d ∧ d ≤ 'z') → d ≠ '-' → c ≠ d := by
  cases h with
  | letter h => exact ⟨_, _, rfl, fun d hd _ => ne_of_lower h hd⟩
  | dash => exact ⟨_, _, rfl, fun d _ hd => hd.symm⟩

theorem ne_nil (h : OpensRow text) : text ≠ [] := by
  cases h <;> exact List.cons_ne_nil _ _

theorem isMarker_eq (h : OpensRow text) : Lexeme.isMarker text = false := by
  cases h with
  | letter h =>
    have hdash := ne_of_lower h (d := '-') (by decide)
    have hdot := ne_of_lower h (d := '.') (by decide)
    unfold Lexeme.isMarker Lexeme.isStartMarker Lexeme.isEndMarker
    split
    · simp_all
    · split <;> simp_all
  | dash => rfl

end OpensRow

theorem Word.exists_cons (w : Word) :
    ∃ c cs, w.letters = c :: cs ∧ ('a' ≤ c ∧ c ≤ 'z') := by
  obtain ⟨c, cs, hcons⟩ := List.exists_cons_of_ne_nil w.ne_nil
  exact ⟨c, cs, hcons, w.lower c (by rw [hcons]; exact List.mem_cons_self ..)⟩

theorem Word.opensRow (w : Word) (rest : List Char) : OpensRow (w.letters ++ rest) := by
  obtain ⟨c, cs, hcons, hc⟩ := w.exists_cons
  rw [hcons]
  exact .letter hc

namespace Lexeme

/-- A stretch without stops and blanks reaches to the next stop. -/
theorem trimmed_append {stops : Bool → Char → List Char → Bool} {rest : List Char}
    (hrest : ∀ blank, trimmed stops blank rest = 0) (blank : Bool) (letters : List Char)
    (hgoes : ∀ c ∈ letters, isBlank c = false ∧ ∀ blank cs, stops blank c cs = false) :
    trimmed stops blank (letters ++ rest) = letters.length := by
  induction letters generalizing blank with
  | nil => exact hrest blank
  | cons c cs ih =>
    obtain ⟨hblank, hstops⟩ := hgoes c (List.mem_cons_self ..)
    have hmore := ih (isBlank c) fun d hd => hgoes d (List.mem_cons_of_mem _ hd)
    rw [List.cons_append, trimmed, hstops, hmore, hblank]
    simp

/-- A word is followed by the end of its line or by the colon of a key. -/
def EndsWord : List Char → Bool
  | [] => true
  | c :: cs => c == '\n' || c == ':' && separated cs

theorem plainLine_word (w : Word) {rest : List Char} (h : EndsWord rest = true) :
    plainLine false (w.letters ++ rest) = w.letters.length := by
  refine trimmed_append (fun blank => ?_) _ _ fun c hc => ?_
  · cases rest with
    | nil => rfl
    | cons c cs =>
      simp only [EndsWord, Bool.or_eq_true, Bool.and_eq_true, beq_iff_eq] at h
      rcases h with rfl | ⟨rfl, hsep⟩
      · rfl
      · simp [trimmed, endsKey, hsep]
  · have hlower := w.lower c hc
    have hnumber := ne_of_lower hlower (d := '#') (by decide)
    have hcolon := ne_of_lower hlower (d := ':') (by decide)
    exact ⟨isBlank_of_lower hlower, fun blank cs => by
      simp [isBreak_of_lower hlower, hnumber, hcolon]⟩

theorem afterProperties_of_lower {c : Char} (cs : List Char) (h : 'a' ≤ c ∧ c ≤ 'z') :
    afterProperties (c :: cs) = c :: cs := by
  rw [afterProperties]
  simp [ne_of_lower h (d := '&') (by decide), ne_of_lower h (d := '!') (by decide)]

theorem isKey_of_lower {c : Char} (cs : List Char) (h : 'a' ≤ c ∧ c ≤ 'z') :
    isKey (c :: cs) =
      match ((c :: cs).drop (plainLine false (c :: cs))).dropWhile isBlank with
      | ':' :: more => endsKey false more
      | _ => false := by
  have hne := not_beq_of_lower h
  rw [isKey, afterProperties_of_lower _ h]
  refine (if_neg ?_).trans ((if_neg ?_).trans ((if_neg ?_).trans ((if_neg ?_).trans (if_neg ?_))))
  · simp [hne '#' (by decide), isBreak_of_lower h]
  · simp [hne '-' (by decide), hne '?' (by decide), hne ':' (by decide)]
  · simp [isQuote_of_lower h]
  · simp [hne '[' (by decide), hne '\x7b' (by decide)]
  · exact hne '*' (by decide)

/-- A line that starts with a word starts with a key if the word ends in a colon. -/
theorem isKey_word (w : Word) {rest : List Char} (h : EndsWord rest = true) :
    isKey (w.letters ++ rest) = (rest.head? == some ':') := by
  have hline := plainLine_word w h
  obtain ⟨c, cs, hcons, hc⟩ := w.exists_cons
  have hdrop : (w.letters ++ rest).drop w.letters.length = rest := List.drop_left
  rw [← hline, hcons, List.cons_append] at hdrop
  rw [hcons, List.cons_append, isKey_of_lower _ hc, hdrop]
  cases rest with
  | nil => rfl
  | cons d ds =>
    simp only [EndsWord, Bool.or_eq_true, Bool.and_eq_true, beq_iff_eq] at h
    rcases h with rfl | ⟨rfl, hsep⟩
    · rfl
    · simp [isBlank, endsKey, hsep]

theorem endsWord_of_follows {parent : Int} {rest : List Char} (h : Follows parent rest) :
    EndsWord rest = true := by
  cases h <;> rfl

/-- The next line starts after a line feed and the spaces of its indentation. -/
theorem nextLine_newLine {start : List Char} {indent column : Nat} {text : List Char}
    (h : OpensRow text) :
    nextLine start indent (newLine column ++ text) =
      some ⟨List.replicate column ' ' ++ text, column, text⟩ := by
  obtain ⟨c, cs, rfl, hc⟩ := h.exists_cons
  have hspaces : ∀ (line : List Char) (passed n : Nat),
      nextLine line passed (List.replicate n ' ' ++ c :: cs) =
        some ⟨line, passed + n, c :: cs⟩ := by
    intro line passed n
    induction n generalizing passed with
    | zero => simp [nextLine, isBreak, isBlank, hc]
    | succ n ih =>
      rw [List.replicate_succ, List.cons_append, nextLine]
      rw [if_neg (by decide), if_pos (by decide), ih, Nat.add_right_comm, Nat.add_assoc]
  have hline := hspaces (List.replicate column ' ' ++ c :: cs) 0 column
  rw [Nat.zero_add] at hline
  rw [← hline]
  rfl

/-- What follows a node does not go on with a word inside it. -/
theorem plainTail_eq_zero {parent : Int} {rest : List Char} (h : Follows parent rest) :
    plainTail parent false rest = 0 := by
  rw [plainTail]
  split
  · split
    · rfl
    · rename_i next hnext
      have hstops : continuesPlain parent false next = false := by
        cases h with
        | done => cases hnext
        | feed => cases hnext
        | row hcolumn hopens =>
          rw [nextLine_newLine hopens, Option.some.injEq] at hnext
          subst hnext
          obtain ⟨c, cs, rfl, -⟩ := hopens.exists_cons
          simp [continuesPlain, Int.not_lt.mpr hcolumn]
      simp [hstops]
  · rfl

theorem plain_word (w : Word) {parent : Int} {rest : List Char} (h : Follows parent rest) :
    plain parent false (w.letters ++ rest) = w.letters.length := by
  rw [plain, plainLine_word w (endsWord_of_follows h), List.drop_left, plainTail_eq_zero h]
  rfl

end Lexeme

end YamlLayout
