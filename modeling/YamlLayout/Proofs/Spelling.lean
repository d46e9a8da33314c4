import YamlLayout.Proofs.BodyRows
import YamlLayout.Proofs.FixedText

/-!
# What tokens spell

Reading moves over every character of a text, and only spaces are passed over without
becoming part of a token. So the tokens of a text spell all of it but its spaces, and
the tokens of a fixed text spell the same as those of the text before.
-/
namespace YamlLayout

/-- The characters of a text that are no spaces. -/
def dense (text : List Char) : List Char := text.filter (!isSpace ·)

@[simp] theorem dense_append (a b : List Char) : dense (a ++ b) = dense a ++ dense b :=
  List.filter_append ..

theorem dense_of_spaces {text : List Char} (h : ∀ c ∈ text, isSpace c = true) :
    dense text = [] := by
  rw [dense, List.filter_eq_nil_iff]
  intro c hc
  simp [h c hc]

theorem dense_eq_filter_solid (text : List Char) :
    dense text = (solid text).filter (!isBreak ·) := by
  rw [dense, solid, List.filter_filter]
  congr 1
  funext c
  rw [isSpace, Bool.not_or, Bool.and_comm]

/-- The characters of some tokens, one token after the other, without spaces. -/
def spelled (tokens : List Token) : List Char := dense (tokens.flatMap (·.value.toList))

theorem spelled_append (a b : List Token) : spelled (a ++ b) = spelled a ++ spelled b := by
  rw [spelled, List.flatMap_append, dense_append]
  rfl

/-- Where a line ends, only spaces come before the body of a block scalar. -/
theorem Lexeme.BodyParts.Locates.isSpace_of_mem_margin {p : BodyParts} {parent : Int}
    {digit : Option Nat} {text : List Char} {body : Body} (h : p.Locates parent digit text body)
    (hends : lineEnds text = true) (hpaired : Text.ReturnsPaired text) :
    ∀ c ∈ p.margin, isSpace c = true := by
  have hheader : ∀ c ∈ p.header, isSpace c = true := by
    intro c hc
    rw [h.text_eq] at hends hpaired
    cases hsplit : p.header with
    | nil =>
      rw [hsplit] at hc
      cases hc
    | cons d ds =>
      rw [hsplit] at hc hends hpaired
      have hfeed := h.header_feed
      rw [hsplit] at hfeed
      -- The line ends with a carriage return, and its line feed is the end of the header.
      have hd : d = '\r' := by
        have hne : d ≠ '\n' := fun heq => hfeed (by simp [heq])
        have hbreak : isBreak d = true := hends
        simpa [isBreak, hne] using hbreak
      have hnil : ds = [] := by
        cases ds with
        | nil => rfl
        | cons e es =>
          have he : e = '\n' := by simpa using hpaired.1 hd
          exact absurd (by simp [he]) hfeed
      rw [hnil, List.mem_singleton] at hc
      rw [hc, hd]
      rfl
  intro c hc
  rcases List.mem_append.mp hc with hc | hc
  · exact hheader c hc
  · exact h.isSpace_of_mem_gap hc

namespace ParseState

variable {s t : ParseState}

theorem spelled_push (s : ParseState) (kind : TokenKind) (n : Nat) :
    spelled (s.push kind n).emitted.reverse =
      spelled s.emitted.reverse ++ dense (s.cursor.rest.take n) := by
  rw [emitted_push, List.reverse_cons, spelled_append]
  simp [spelled, ahead]

/-- One move spells the characters it moves over, spaces apart. -/
theorem Move.exists_spelled (h : s.Move t) (hpaired : Text.ReturnsPaired s.cursor.rest) :
    ∃ mid, s.Between mid t ∧
      spelled t.emitted.reverse = spelled s.emitted.reverse ++ dense mid := by
  cases h with
  | pass h =>
    cases h with
    | space n hspaces =>
      refine ⟨_, between_skip s n, ?_⟩
      rw [dense_of_spaces hspaces, List.append_nil]
      rfl
    | comment => exact ⟨_, between_push .., spelled_push ..⟩
  | token => exact ⟨_, between_push .., spelled_push ..⟩
  | @body parent digit body hends hfound =>
    obtain ⟨p, hp, -⟩ := takes_body hfound
    obtain ⟨ending, htext, -, -, hskipped, -⟩ := hp.exists_tail
    have hmargin : s.cursor.rest.take body.skipped = p.margin := by
      rw [htext, ← hskipped, List.take_left]
    refine ⟨_, (between_skip s body.skipped).trans (between_push ..), ?_⟩
    rw [spelled_push, dense_append, hmargin,
      dense_of_spaces (hp.isSpace_of_mem_margin hends hpaired), List.nil_append]
    rfl

/-- So do any number of moves. -/
theorem Moves.exists_spelled (h : s.Moves t) (hpaired : Text.ReturnsPaired s.cursor.rest) :
    ∃ mid, s.Between mid t ∧
      spelled t.emitted.reverse = spelled s.emitted.reverse ++ dense mid := by
  induction h with
  | refl => exact ⟨[], ⟨by simp, by simp⟩, by simp [dense]⟩
  | tail _ hmove ih =>
    obtain ⟨mid, hmid, hspelled⟩ := ih
    have hrest := hpaired
    rw [hmid.rest_eq] at hrest
    obtain ⟨more, hmore, hstep⟩ := hmove.exists_spelled hrest.of_append
    refine ⟨mid ++ more, hmid.trans hmore, ?_⟩
    rw [hstep, hspelled, dense_append, List.append_assoc]

end ParseState

/-- The tokens of a text spell all its characters but spaces. -/
theorem Stream.spelled_tokens {text : List Char} {stream : Stream}
    (hpaired : Text.ReturnsPaired text) (hparse : parse text = .ok stream) :
    spelled stream.tokens.toList = dense text := by
  obtain ⟨rfl, s, hread⟩ := exists_readTo hparse
  obtain ⟨mid, hmid, hspelled⟩ := hread.reads.moves.exists_spelled hpaired
  have hall : stream.text = mid := by
    have hrest := hmid.rest_eq
    rw [hread.rest_eq, List.append_nil] at hrest
    exact hrest
  rw [hread.tokens_eq, hspelled, ← hall]
  rfl

section Fixing

variable {style : Style} {text : List Char}

/-- Every text that passes lead to can be read. -/
theorem exists_parse_fixPasses (n : Nat) {stream : Stream} (hparse : parse text = .ok stream) :
    ∃ result, parse (fixPasses style n text) = .ok result := by
  induction n generalizing text stream with
  | zero => exact ⟨stream, hparse⟩
  | succ n ih =>
    cases hnext : fixPass? style text with
    | none =>
      rw [fixPasses_of_settled _ hnext]
      exact ⟨stream, hparse⟩
    | some next =>
      obtain ⟨-, result, -, hresult, -⟩ := exists_of_fixPass? hnext
      rw [fixPasses_succ_of_some n hnext]
      exact ih hresult

theorem returnsPaired_fixText (hpaired : Text.ReturnsPaired text) :
    Text.ReturnsPaired (fixText text style) := by
  unfold fixText
  split
  · exact hpaired
  · exact (solid_fixPasses maxPasses hpaired).2

theorem isBreak_eq_of_matches {a b : Char} (h : Matches a b) : isBreak a = isBreak b := by
  have hdigit : ∀ c, isIndentDigit c = true → isBreak c = false := by
    intro c hc
    rw [← Bool.not_eq_true]
    intro hbreak
    simp only [isBreak, Bool.or_eq_true, beq_iff_eq] at hbreak
    rcases hbreak with rfl | rfl <;> cases hc
  rcases h with rfl | ⟨ha, hb⟩
  · rfl
  · rw [hdigit a ha, hdigit b hb]

theorem dense_matches {a b : List Char} (h : List.Forall₂ Matches (solid a) (solid b)) :
    List.Forall₂ Matches (dense a) (dense b) := by
  rw [dense_eq_filter_solid, dense_eq_filter_solid]
  refine List.rel_filter ?_ h
  intro c d hcd
  simp only [isBreak_eq_of_matches hcd]

/-- A text that can be read can be read after fixing, and its tokens spell the same as
before, digits of block scalar headers apart. How the characters are shared out among
the tokens may change. -/
theorem exists_parse_fixText (text : List Char) (style : Style) {stream : Stream}
    (hparse : parse text = .ok stream) :
    ∃ result, parse (fixText text style) = .ok result ∧
      (Text.ReturnsPaired text →
        List.Forall₂ Matches (spelled stream.tokens.toList) (spelled result.tokens.toList)) := by
  obtain ⟨result, hresult⟩ : ∃ result, parse (fixText text style) = .ok result := by
    unfold fixText
    split
    · exact ⟨stream, hparse⟩
    · exact exists_parse_fixPasses maxPasses hparse
  refine ⟨result, hresult, ?_⟩
  intro hpaired
  have hsame : List.Forall₂ Matches (solid text) (solid (fixText text style)) := by
    unfold fixText
    split
    · exact forall₂_matches_refl _
    · exact (solid_fixPasses maxPasses hpaired).1
  rw [Stream.spelled_tokens hpaired hparse,
    Stream.spelled_tokens (returnsPaired_fixText hpaired) hresult]
  exact dense_matches hsame

end Fixing

/-- Three dots are a word until they move to the first column, where they end a document. -/
theorem exists_parse_fixText_dots :
    ∃ stream result, parse [' ', '.', '.', '.', '\n'] = .ok stream ∧
      parse (fixText [' ', '.', '.', '.', '\n'] .default) = .ok result ∧
      stream.tokens.toList.map (·.kind) = [.scalar] ∧
      result.tokens.toList.map (·.kind) = [.marker] ∧
      List.Forall₂ Matches (spelled stream.tokens.toList) (spelled result.tokens.toList) := by
  have hbefore : (parse [' ', '.', '.', '.', '\n']).toOption.map
      (fun stream => stream.tokens.toList.map (·.kind)) = some [.scalar] := by
    decide +kernel
  have hafter : (parse (fixText [' ', '.', '.', '.', '\n'] .default)).toOption.map
      (fun stream => stream.tokens.toList.map (·.kind)) = some [.marker] := by
    decide +kernel
  cases hparse : parse [' ', '.', '.', '.', '\n'] with
  | error e =>
    rw [hparse] at hbefore
    cases hbefore
  | ok stream =>
    obtain ⟨result, hresult, hspelled⟩ := exists_parse_fixText _ .default hparse
    rw [hparse] at hbefore
    rw [hresult] at hafter
    refine ⟨stream, result, rfl, hresult, ?_, ?_, hspelled (by decide)⟩
    · simpa [Except.toOption] using hbefore
    · simpa [Except.toOption] using hafter

end YamlLayout
