import YamlLayout.Lexeme.Body
import YamlLayout.Proofs.Lines

/-!
# Where the body of a block scalar lies

The lines after a header fall into blank lines, the body, and what follows it. The
body starts and ends with a line that is not blank, and each of its lines is blank
or as deep as the body.
-/
namespace YamlLayout

theorem takeWhile_append_of_stop {α : Type} {p : α → Bool} {a b : List α} (ha : ∀ x ∈ a, p x = true)
    (hb : ∀ x, b.head? = some x → p x = false) : (a ++ b).takeWhile p = a := by
  rw [List.takeWhile_append_of_pos ha]
  cases b with
  | nil => exact List.append_nil a
  | cons x xs => rw [List.takeWhile_cons_of_neg (by simp [hb x rfl]), List.append_nil]

/-- Two lists that start with whole runs of elements with `p` start with the same run. -/
theorem append_inj_of_stop {α : Type} {p : α → Bool} {a b c d : List α} (h : a ++ b = c ++ d)
    (ha : ∀ x ∈ a, p x = true) (hb : ∀ x, b.head? = some x → p x = false)
    (hc : ∀ x ∈ c, p x = true) (hd : ∀ x, d.head? = some x → p x = false) : a = c ∧ b = d := by
  have hrun : a = c := by
    rw [← takeWhile_append_of_stop ha hb, h, takeWhile_append_of_stop hc hd]
  refine ⟨hrun, ?_⟩
  rw [hrun, List.append_cancel_left_eq] at h
  exact h

namespace Text

theorem stripBreak_eq_or (line : List Char) :
    ∃ ending, line = stripBreak line ++ ending ∧ ∀ c ∈ ending, isBreak c = true := by
  have hstrip : ∀ (c : Char), isBreak c = true → ∀ l : List Char, ∃ ending,
      l = (if l.getLast? == some c then l.dropLast else l) ++ ending ∧
        ∀ d ∈ ending, isBreak d = true := by
    intro c hc l
    by_cases h : l.getLast? = some c
    · refine ⟨[c], ?_, by simpa using hc⟩
      obtain ⟨front, rfl⟩ := List.getLast?_eq_some_iff.mp h
      simp
    · exact ⟨[], by simp [h], by simp⟩
  obtain ⟨feed, hfeed, hfeeds⟩ := hstrip '\n' rfl line
  obtain ⟨ret, hret, hrets⟩ := hstrip '\r' rfl
    (if line.getLast? == some '\n' then line.dropLast else line)
  refine ⟨ret ++ feed, ?_, ?_⟩
  · rw [← List.append_assoc]
    change line = ((if (if line.getLast? == some '\n' then line.dropLast else line).getLast? ==
      some '\r' then (if line.getLast? == some '\n' then line.dropLast else line).dropLast
      else (if line.getLast? == some '\n' then line.dropLast else line)) ++ ret) ++ feed
    rw [← hret, ← hfeed]
  · intro d hd
    rcases List.mem_append.mp hd with hd | hd
    · exact hrets d hd
    · exact hfeeds d hd

theorem not_mem_stripBreak_of_mem_splitLines {text row : List Char} (h : row ∈ splitLines text) :
    '\n' ∉ stripBreak row := by
  obtain ⟨content, hcontent, hrow⟩ := exists_content_of_mem_splitLines h
  have hsub : ∀ l : List Char, '\n' ∉ l →
      '\n' ∉ (if l.getLast? == some '\r' then l.dropLast else l) := by
    intro l hl
    split
    · exact fun hmem => hl (List.dropLast_subset _ hmem)
    · exact hl
  have hline : '\n' ∉ (if row.getLast? == some '\n' then row.dropLast else row) := by
    rcases hrow with rfl | ⟨rfl, -⟩
    · simpa using hcontent
    · split
      · exact fun hmem => hcontent (List.dropLast_subset _ hmem)
      · exact hcontent
  exact hsub _ hline

theorem take_of_le_leadingSpaces {n : Nat} {line : List Char} (h : n ≤ leadingSpaces line) :
    line.take n = List.replicate n ' ' := by
  have hpre := List.takeWhile_prefix (l := line) (· == ' ')
  have hspaces : line.takeWhile (· == ' ') = List.replicate (leadingSpaces line) ' ' := by
    rw [List.eq_replicate_iff]
    refine ⟨rfl, fun c hc => ?_⟩
    have := List.all_takeWhile (p := (· == ' ')) (l := line)
    simpa using List.all_eq_true.mp this c hc
  obtain ⟨rest, hrest⟩ := hpre
  rw [← hrest, hspaces, List.take_append_of_le_length (by simpa using h), List.take_replicate,
    Nat.min_eq_left h]

end Text

namespace Lexeme

/-- Every character of a blank line is a blank or part of its line break. -/
theorem isBlank_or_isBreak_of_isBlankLine {line : List Char} (h : isBlankLine line = true) :
    ∀ c ∈ line, isBlank c = true ∨ isBreak c = true := by
  obtain ⟨ending, hline, hending⟩ := Text.stripBreak_eq_or line
  intro c hc
  rw [hline] at hc
  rcases List.mem_append.mp hc with hc | hc
  · exact .inl (List.all_eq_true.mp h c hc)
  · exact .inr (hending c hc)

/-- The leading spaces of a line with content end before its content does. -/
theorem leadingSpaces_lt_of_not_isBlankLine {line : List Char} (h : isBlankLine line = false) :
    Text.leadingSpaces line < (Text.stripBreak line).length := by
  obtain ⟨ending, hline, hending⟩ := Text.stripBreak_eq_or line
  obtain ⟨c, hc, hblank⟩ := List.all_eq_false.mp h
  by_contra hle
  have htake := Text.take_of_le_leadingSpaces (Nat.not_lt.mp hle)
  have hinit : line.take (Text.stripBreak line).length = Text.stripBreak line :=
    (List.prefix_iff_eq_take.mp ⟨ending, hline.symm⟩).symm
  rw [← hinit, htake] at hc
  have hspace : c = ' ' := List.eq_of_mem_replicate hc
  exact hblank (by rw [hspace]; rfl)

/-- The lines after a header, cut around the body. -/
structure BodyParts where
  /-- What is left of the header's line. -/
  header : List Char
  /-- The blank lines before the body. -/
  lead : List (List Char)
  first : List Char
  /-- The lines of the body after the first one. -/
  more : List (List Char)
  after : List (List Char)
  indent : Nat

namespace BodyParts

def core (p : BodyParts) : List (List Char) := p.first :: p.more

def lines (p : BodyParts) : List (List Char) := p.lead ++ p.core ++ p.after

/-- The last line of the body. -/
def last (p : BodyParts) : List Char := p.core.getLast (by simp [core])

/-- The parts say where `body?` finds the body. -/
structure Locates (p : BodyParts) (parent : Int) (digit : Option Nat) (text : List Char)
    (body : Body) : Prop where
  text_eq : text = p.header ++ '\n' :: p.lines.flatten
  lines_eq : Text.splitLines p.lines.flatten = p.lines
  header_feed : '\n' ∉ p.header
  lead_blank : ∀ l ∈ p.lead, isBlankLine l = true
  first_solid : isBlankLine p.first = false
  last_solid : isBlankLine p.last = false
  deep : ∀ l ∈ p.core, isBlankLine l = false → p.indent ≤ Text.leadingSpaces l
  indent_eq : bodyIndent parent digit p.lines = some p.indent
  skipped_eq : body.skipped = p.header.length + 1 + p.lead.flatten.length + p.indent
  length_eq : body.length = p.core.dropLast.flatten.length +
    (Text.stripBreak p.last).length - p.indent

end BodyParts

/-- A list cut around what is left when elements with `p` are dropped at both ends. -/
theorem exists_core_of_dropWhile_reverse {α : Type} {p : α → Bool} {xs earlier : List α} {last : α}
    (h : ((xs.dropWhile p).reverse.dropWhile p) = last :: earlier) :
    ∃ trail, xs = xs.takeWhile p ++ (earlier.reverse ++ [last]) ++ trail ∧ p last = false ∧
      (earlier.reverse ++ [last]).head?.any p = false := by
  have hback := List.takeWhile_append_dropWhile (p := p) (l := (xs.dropWhile p).reverse)
  rw [h] at hback
  have hmiddle : xs.dropWhile p =
      (earlier.reverse ++ [last]) ++ ((xs.dropWhile p).reverse.takeWhile p).reverse := by
    have := congrArg List.reverse hback
    simpa using this.symm
  refine ⟨((xs.dropWhile p).reverse.takeWhile p).reverse, ?_, ?_, ?_⟩
  · rw [List.append_assoc, ← hmiddle, List.takeWhile_append_dropWhile]
  · have := List.head?_dropWhile_not p (xs.dropWhile p).reverse
    simpa [h] using this
  · have hhead := List.head?_dropWhile_not p xs
    rw [hmiddle] at hhead
    rcases hrev : earlier.reverse with _ | ⟨a, as⟩
    · simpa [hrev] using hhead
    · simpa [hrev] using hhead

theorem eq_append_feed_of_drop_ne_nil {text : List Char}
    (h : text.drop ((text.takeWhile (· != '\n')).length + 1) ≠ []) :
    text = text.takeWhile (· != '\n') ++
      '\n' :: text.drop ((text.takeWhile (· != '\n')).length + 1) := by
  have hrest := Text.drop_length_takeWhile (· != '\n') text
  rw [← List.drop_drop, hrest] at h ⊢
  have hhead := List.head?_dropWhile_not (· != '\n') text
  rcases hd : text.dropWhile (· != '\n') with _ | ⟨c, cs⟩
  · simp [hd] at h
  · have hc : c = '\n' := by simpa [hd] using hhead
    subst hc
    nth_rewrite 1 [← List.takeWhile_append_dropWhile (p := (· != '\n')) (l := text)]
    rw [hd, List.drop_succ_cons, List.drop_zero]

/-- Whatever `body?` finds is cut out of the lines after the header. -/
theorem exists_bodyParts {parent : Int} {digit : Option Nat} {text : List Char} {body : Body}
    (h : body? parent digit text = some body) :
    ∃ p : BodyParts, p.Locates parent digit text body := by
  unfold body? at h
  dsimp only at h
  split at h
  · cases h
  rename_i indent hindent
  split at h
  · cases h
  rename_i last earlier hcore
  simp only [Option.some.injEq] at h
  let header := text.takeWhile (· != '\n')
  let lines := Text.splitLines (text.drop (header.length + 1))
  let reached := bodyLines indent lines
  change bodyIndent parent digit lines = some indent at hindent
  change (reached.dropWhile isBlankLine).reverse.dropWhile isBlankLine = last :: earlier at hcore
  obtain ⟨trail, hreached, hlast, hfirst⟩ := exists_core_of_dropWhile_reverse hcore
  obtain ⟨first, more, hmore⟩ : ∃ first more, earlier.reverse ++ [last] = first :: more :=
    List.exists_cons_of_ne_nil (by simp)
  rw [hmore] at hreached hfirst
  have hlines : lines = reached.takeWhile isBlankLine ++ (first :: more) ++
      (trail ++ lines.drop reached.length) := by
    have hpre : lines = reached ++ lines.drop reached.length :=
      (List.prefix_iff_eq_append.mp (List.takeWhile_prefix _)).symm
    rw [← List.append_assoc, ← hreached, ← hpre]
  have hne : text.drop (header.length + 1) ≠ [] := by
    intro hnil
    have : lines = [] := by simp [lines, hnil]
    rw [this] at hlines
    simp at hlines
  have hlast_eq : (first :: more).getLast (by simp) = last := by
    simp [← hmore]
  refine ⟨⟨header, reached.takeWhile isBlankLine, first, more, trail ++ lines.drop reached.length,
    indent⟩, ?_⟩
  constructor
  case text_eq =>
    simp only [BodyParts.lines, BodyParts.core]
    rw [← hlines, Text.flatten_splitLines]
    exact eq_append_feed_of_drop_ne_nil hne
  case lines_eq =>
    simp only [BodyParts.lines, BodyParts.core]
    rw [← hlines, Text.flatten_splitLines]
  case header_feed =>
    intro hmem
    have := List.all_eq_true.mp (List.all_takeWhile (p := (· != '\n')) (l := text)) _ hmem
    simp at this
  case lead_blank =>
    intro l hl
    exact List.all_eq_true.mp (List.all_takeWhile (p := isBlankLine) (l := reached)) l hl
  case first_solid => simpa using hfirst
  case last_solid =>
    simp only [BodyParts.last, BodyParts.core]
    rw [hlast_eq]
    exact hlast
  case deep =>
    intro l hl hsolid
    have hmem : l ∈ reached := by
      rw [hreached]
      exact List.mem_append_left _ (List.mem_append_right _ hl)
    have hkept := List.all_eq_true.mp (List.all_takeWhile (p := fun line =>
      isBlankLine line || (decide (indent ≤ Text.leadingSpaces line) && !isMarker line))
      (l := lines)) l hmem
    simp only [hsolid, Bool.false_or, Bool.and_eq_true, decide_eq_true_eq] at hkept
    exact hkept.1
  case indent_eq =>
    simp only [BodyParts.lines, BodyParts.core]
    rw [← hlines]
    exact hindent
  case skipped_eq => rw [← h]
  case length_eq =>
    simp only [BodyParts.last, BodyParts.core]
    rw [hlast_eq, ← hmore, List.dropLast_concat, ← h]
    simp [List.length_flatten, List.sum_reverse]

namespace BodyParts

/-- The characters between the header and the body. -/
def margin (p : BodyParts) : List Char :=
  p.header ++ '\n' :: (p.lead.flatten ++ List.replicate p.indent ' ')

/-- The lines of the body up to the end of its content. -/
def reach (p : BodyParts) : List Char := p.core.dropLast.flatten ++ Text.stripBreak p.last

/-- The characters of the body. -/
def value (p : BodyParts) : List Char := p.reach.drop p.indent

variable {p : BodyParts} {parent : Int} {digit : Option Nat} {text : List Char} {body : Body}

theorem flatten_core (p : BodyParts) : ∃ ending, p.core.flatten = p.reach ++ ending ∧
    p.last = Text.stripBreak p.last ++ ending ∧ ∀ c ∈ ending, isBreak c = true := by
  obtain ⟨ending, hlast, hending⟩ := Text.stripBreak_eq_or p.last
  refine ⟨ending, ?_, hlast, hending⟩
  have hcore : p.core = p.core.dropLast ++ [p.last] :=
    (List.dropLast_concat_getLast (by simp [core])).symm
  rw [reach, List.append_assoc, ← hlast]
  nth_rewrite 1 [hcore]
  simp

theorem stripBreak_first_prefix (p : BodyParts) : Text.stripBreak p.first <+: p.reach := by
  rcases hmore : p.more with _ | ⟨second, others⟩
  · have hlast : p.last = p.first := by simp [last, core, hmore]
    simp [reach, core, hmore, hlast]
  · obtain ⟨ending, hfirst, -⟩ := Text.stripBreak_eq_or p.first
    have hreach : p.reach = p.first ++ ((second :: others).dropLast.flatten ++
        Text.stripBreak p.last) := by
      simp [reach, core, hmore]
    have hinit : Text.stripBreak p.first <+: p.first := ⟨ending, hfirst.symm⟩
    rw [hreach]
    exact hinit.trans (List.prefix_append ..)

theorem Locates.first_mem (h : p.Locates parent digit text body) :
    p.first ∈ Text.splitLines p.lines.flatten := by
  rw [h.lines_eq]
  simp [lines, core]

/-- The body starts with the content of its first line. -/
theorem Locates.exists_value (h : p.Locates parent digit text body) :
    ∃ c cs more, p.value = c :: (cs ++ more) ∧ c ≠ '\n' ∧
      Text.stripBreak p.first = List.replicate p.indent ' ' ++ c :: cs ∧
      p.reach = List.replicate p.indent ' ' ++ p.value := by
  have hdeep := h.deep p.first (by simp [core]) h.first_solid
  have hlong := leadingSpaces_lt_of_not_isBlankLine h.first_solid
  obtain ⟨ending, hfirst, -⟩ := Text.stripBreak_eq_or p.first
  obtain ⟨more, hmore⟩ := p.stripBreak_first_prefix
  have htake : (Text.stripBreak p.first).take p.indent = List.replicate p.indent ' ' := by
    have hspaces := Text.take_of_le_leadingSpaces hdeep
    rw [hfirst, List.take_append_of_le_length (by omega)] at hspaces
    exact hspaces
  obtain ⟨c, cs, hrest⟩ : ∃ c cs, (Text.stripBreak p.first).drop p.indent = c :: cs :=
    List.exists_cons_of_ne_nil (by simp; omega)
  have hstrip : Text.stripBreak p.first = List.replicate p.indent ' ' ++ c :: cs := by
    rw [← htake, ← hrest, List.take_append_drop]
  have hvalue : p.value = c :: (cs ++ more) := by
    rw [value, ← hmore, hstrip, List.append_assoc, List.drop_left']
    · rfl
    · simp
  refine ⟨c, cs, more, hvalue, ?_, hstrip, ?_⟩
  · rintro rfl
    refine Text.not_mem_stripBreak_of_mem_splitLines h.first_mem ?_
    simp [hstrip]
  · rw [hvalue, ← hmore, hstrip]
    simp

/-- The text is the margin, the body and what comes after it. -/
theorem Locates.exists_tail (h : p.Locates parent digit text body) :
    ∃ ending, text = p.margin ++ (p.value ++ (ending ++ p.after.flatten)) ∧
      p.last = Text.stripBreak p.last ++ ending ∧ (∀ c ∈ ending, isBreak c = true) ∧
      p.margin.length = body.skipped ∧ p.value.length = body.length := by
  obtain ⟨c, cs, more, hvalue, -, -, hreach⟩ := h.exists_value
  obtain ⟨ending, hcore, hlast, hending⟩ := p.flatten_core
  refine ⟨ending, ?_, hlast, hending, ?_, ?_⟩
  · rw [h.text_eq, margin]
    simp only [lines, List.flatten_append, hcore, hreach]
    simp
  · rw [h.skipped_eq, margin]
    simp only [List.length_append, List.length_cons, List.length_replicate]
    omega
  · have hlength := congrArg List.length hreach
    rw [reach, List.length_append, List.length_append, List.length_replicate] at hlength
    rw [h.length_eq]
    omega

end BodyParts

end Lexeme

end YamlLayout
