import YamlLayout.Proofs.CommentRuns
import YamlLayout.Proofs.TokenPlaces

/-!
# What the measured lines are

A measured line knows its number and the spaces it starts with, and its gaps lie
between tokens in a row on that line. Placing lines changes none of this.
-/
namespace YamlLayout

namespace LineTable

theorem getElem?_startsFrom (offset : Nat) (rows : List (List Char)) (i : Nat) :
    (startsFrom offset rows)[i]? =
      rows[i]?.map fun _ => offset + Text.byteLength (rows.take i).flatten := by
  induction rows generalizing offset i with
  | nil => simp [startsFrom]
  | cons row rows ih =>
    cases i with
    | zero => simp [startsFrom, Text.byteLength]
    | succ i => simp [startsFrom, ih, Nat.add_assoc]

theorem count_le (text : List Char) : (ofText text).count ≤ text.count '\n' + 1 := by
  obtain ⟨whole, line, rfl, hwhole, hline⟩ := Text.exists_wholeLines_append text
  have hlast : (Text.splitLines line).length ≤ 1 := by
    by_cases hnil : line = []
    · rw [hnil]
      exact Nat.zero_le 1
    · rw [Text.splitLines_of_not_mem hline hnil]
      exact Nat.le_refl 1
  have hlength : (Text.splitLines (whole ++ line)).length ≤ (whole ++ line).count '\n' + 1 := by
    rw [Text.splitLines_append hwhole, List.length_append, hwhole.length_splitLines,
      List.count_append]
    omega
  unfold count ofText
  split
  · simp
  · exact hlength

/-- The text around a line. -/
theorem exists_row (text : List Char) {line : Nat} (hpos : 0 < line)
    (hle : line ≤ (ofText text).count) :
    ∃ before row after, Text.Row text line before row after ∧
      (ofText text).starts[line - 1]? = some (Text.byteLength before) := by
  have hcount := count_le text
  obtain ⟨before, row, after, hrow⟩ : ∃ before row after, Text.Row text (line - 1 + 1) before row
      after := Text.exists_row (by omega)
  rw [Nat.sub_add_cancel hpos] at hrow
  refine ⟨before, row, after, hrow, ?_⟩
  have hlt : line - 1 < (ofText text).rows.length := by
    unfold count at hle
    omega
  rw [starts, getElem?_startsFrom, List.getElem?_eq_getElem hlt, Option.map_some, Nat.zero_add]
  obtain ⟨hsplit, hlength⟩ := hrow.take_splitLines
  by_cases hnil : Text.splitLines text = []
  · have htext : text = [] := Text.splitLines_eq_nil_iff.mp hnil
    have hbefore : before = [] := by
      have hempty := hrow.text_eq
      rw [htext, List.nil_eq_append_iff] at hempty
      exact hempty.1
    have hrows : (ofText text).rows = [[]] := by simp [ofText, hnil]
    rw [hrows, List.length_singleton] at hlt
    simp [hrows, hbefore, Nat.lt_one_iff.mp hlt]
  · rw [Text.rows_ofText hnil, hsplit, ← hlength, List.take_left, Text.flatten_splitLines]

theorem startsFrom_append (offset : Nat) (rows more : List (List Char)) :
    startsFrom offset (rows ++ more) =
      startsFrom offset rows ++ startsFrom (offset + Text.byteLength rows.flatten) more := by
  induction rows generalizing offset with
  | nil => simp [startsFrom, Text.byteLength]
  | cons row rows ih => simp [startsFrom, ih, Nat.add_assoc]

theorem bounds_of_mem_startsFrom {offset n : Nat} {rows : List (List Char)}
    (h : n ∈ startsFrom offset rows) :
    offset ≤ n ∧ n ≤ offset + Text.byteLength rows.flatten := by
  induction rows generalizing offset with
  | nil => cases h
  | cons row rows ih =>
    rw [List.flatten_cons, Text.byteLength_append]
    rcases List.mem_cons.mp h with rfl | h
    · omega
    · have hrest := ih h
      omega

@[simp] theorem length_startsFrom (offset : Nat) (rows : List (List Char)) :
    (startsFrom offset rows).length = rows.length := by
  induction rows generalizing offset with
  | nil => rfl
  | cons row rows ih => simp [startsFrom, ih]

theorem lineOf_le_count (lines : LineTable) (offset : Nat) : lines.lineOf offset ≤ lines.count := by
  have hle : lines.starts.countP (· ≤ offset) ≤ lines.starts.length := List.countP_le_length
  rwa [starts, length_startsFrom] at hle

/-- A line that goes on with a character holds that character. -/
theorem exists_splitLines_cons {line : List Char} (c : Char) (after : List Char) (h : '\n' ∉ line) :
    ∃ rest more, Text.splitLines (line ++ c :: after) = (line ++ c :: rest) :: more := by
  induction line with
  | nil =>
    by_cases hc : c = '\n'
    · exact ⟨[], Text.splitLines after, by simp [Text.splitLines, hc]⟩
    · rw [List.nil_append, Text.splitLines, if_neg (by simpa using hc)]
      split
      · exact ⟨[], [], rfl⟩
      · exact ⟨_, _, rfl⟩
  | cons d ds ih =>
    rw [List.mem_cons, not_or] at h
    obtain ⟨rest, more, hrest⟩ := ih h.2
    refine ⟨rest, more, ?_⟩
    rw [List.cons_append, Text.splitLines, if_neg (by simpa using Ne.symm h.1), hrest]
    rfl

/-- The bytes of a character lie on the line of the character. -/
theorem lineOf_eq (before after : List Char) {c : Char} {k : Nat} (hk : k < c.utf8Size) :
    (ofText (before ++ c :: after)).lineOf (Text.byteLength before + k) =
      before.count '\n' + 1 := by
  obtain ⟨whole, line, rfl, hwhole, hline⟩ := Text.exists_wholeLines_append before
  obtain ⟨rest, more, hrows⟩ := exists_splitLines_cons c after hline
  have hsplit : Text.splitLines (whole ++ line ++ c :: after) =
      Text.splitLines whole ++ (line ++ c :: rest) :: more := by
    rw [List.append_assoc, Text.splitLines_append hwhole, hrows]
  have htable : (ofText (whole ++ line ++ c :: after)).rows =
      Text.splitLines whole ++ (line ++ c :: rest) :: more := by
    rw [Text.rows_ofText, hsplit]
    rw [hsplit]
    simp
  -- The lines up to this one have started, and those after it have not.
  have hpast : (startsFrom 0 (Text.splitLines whole)).countP
      (· ≤ Text.byteLength (whole ++ line) + k) = whole.count '\n' := by
    rw [List.countP_eq_length.mpr, length_startsFrom, hwhole.length_splitLines]
    intro n hn
    have hbounds := bounds_of_mem_startsFrom hn
    rw [Text.flatten_splitLines] at hbounds
    rw [Text.byteLength_append, decide_eq_true_eq]
    omega
  have hahead : (startsFrom (Text.byteLength whole + Text.byteLength (line ++ c :: rest))
      more).countP (· ≤ Text.byteLength (whole ++ line) + k) = 0 := by
    rw [List.countP_eq_zero]
    intro n hn
    have hbounds := bounds_of_mem_startsFrom hn
    simp only [Text.byteLength_append, Text.byteLength] at hbounds ⊢
    rw [decide_eq_true_eq]
    omega
  have hhere : Text.byteLength whole ≤ Text.byteLength (whole ++ line) + k := by
    rw [Text.byteLength_append]
    omega
  rw [lineOf, starts, htable, startsFrom_append, List.countP_append, hpast,
    Text.flatten_splitLines, Nat.zero_add, startsFrom,
    List.countP_cons_of_pos (by simpa using hhere), hahead, List.count_append,
    List.count_eq_zero_of_not_mem hline]

end LineTable

/-- A row starts with the spaces that its content starts with. -/
theorem Text.exists_append_of_leadingSpaces (row : List Char) :
    ∃ rest, row = List.replicate (leadingSpaces (stripBreak row)) ' ' ++ rest := by
  obtain ⟨ending, hrow, -⟩ := stripBreak_eq_or row
  have htake := take_of_le_leadingSpaces (Nat.le_refl (leadingSpaces (stripBreak row)))
  refine ⟨(stripBreak row).drop (leadingSpaces (stripBreak row)) ++ ending, ?_⟩
  rw [← List.append_assoc, ← htake, List.take_append_drop]
  exact hrow

/-- A measure without the column at which its line belongs. -/
def LineMeasure.unplaced (m : LineMeasure) : LineMeasure :=
  { m with expected := none, actual := 0, pinned := false }

theorem LineMeasure.unplaced_inj {m n : LineMeasure} (h : m.unplaced = n.unplaced) :
    m.line = n.line ∧ m.role = n.role ∧ m.leading = n.leading ∧ m.gaps = n.gaps := by
  simp only [unplaced, LineMeasure.mk.injEq] at h
  exact ⟨h.1, h.2.1, h.2.2.2.2.1, h.2.2.2.2.2.1⟩

namespace Placement

theorem unplaced_continuation (tokens : Array Token) (column : TokenId → Option Int)
    (align : Bool) (m : LineMeasure) :
    (continuation tokens column align m).unplaced = m.unplaced := by
  unfold continuation
  split <;> rfl

theorem unplaced_bodyLine (tokens : Array Token) (layout : Layout)
    (column : TokenId → Option Int) (measures : List LineMeasure) (m : LineMeasure) :
    (bodyLine tokens layout column measures m).unplaced = m.unplaced := by
  unfold bodyLine
  split
  · dsimp only
    split <;> rfl
  · rfl

theorem map_unplaced_comments (unit : Int) (before rest : List LineMeasure) :
    (comments unit before rest).map (·.unplaced) =
      (before.reverse ++ rest).map (·.unplaced) := by
  obtain ⟨out, hout, hplaced⟩ := exists_placed unit before rest
  rw [hout, List.map_append, List.map_append, hplaced.map_eq fun _ _ _ => rfl]

end Placement

/-- Placing lines changes nothing but the columns at which they belong. -/
theorem Stream.map_unplaced_place (s : Stream) (layout : Layout) (style : Style)
    (measures : List LineMeasure) :
    (s.place layout style measures).map (·.unplaced) = measures.map (·.unplaced) := by
  unfold Stream.place
  dsimp only
  rw [Placement.map_unplaced_comments, List.reverse_nil, List.nil_append, List.map_map,
    List.map_map]
  refine List.map_congr_left fun m _ => ?_
  simp only [Function.comp, Placement.unplaced_bodyLine, Placement.unplaced_continuation]

namespace Measure

/-- The tokens that start on a line, comments apart. -/
def contentOn (tokens : Array Token) (line : Nat) : List Numbered :=
  ((numbered tokens).filter fun (_, t) => t.startLine == line).filter fun (_, t) => !t.isComment

theorem getElem?_numbered (tokens : Array Token) (i : Nat) :
    (numbered tokens)[i]? = tokens[i]?.map fun t => (i, t) := by
  simp [numbered, Function.comp_def]

theorem mem_numbered_iff {tokens : Array Token} {j : Nat} {a : Token} :
    (j, a) ∈ numbered tokens ↔ tokens[j]? = some a := by
  constructor
  · intro h
    obtain ⟨k, hk⟩ := List.mem_iff_getElem?.mp h
    rw [getElem?_numbered] at hk
    obtain ⟨b, hb, heq⟩ := Option.map_eq_some_iff.mp hk
    rw [Prod.mk.injEq] at heq
    obtain ⟨rfl, rfl⟩ := heq
    exact hb
  · intro h
    refine List.mem_of_getElem? (i := j) ?_
    rw [getElem?_numbered, h]
    rfl

/-- Every gap lies between two neighbours, an indicator and a token that belongs to the
right of it. -/
theorem exists_of_mem_gaps {layout : Layout} {column : TokenId → Option Int}
    {tokens : List Numbered} {g : Gap} (h : g ∈ gaps layout column tokens) :
    ∃ pre a b post, tokens = pre ++ (g.indicator, a) :: (g.next, b) :: post ∧
      layout.isIndicator g.indicator = true ∧ g.actual = (b.first.column : Int) - a.past.column ∧
      ∃ x y, column g.indicator = some x ∧ column g.next = some y ∧ x < y ∧
        g.expected = y - x - 1 := by
  induction tokens with
  | nil => simp [gaps] at h
  | cons x rest ih =>
    obtain ⟨i, a⟩ := x
    rcases rest with _ | ⟨⟨j, b⟩, rest⟩
    · simp [gaps] at h
    · simp only [gaps] at h
      split at h
      · rename_i hindicator
        split at h
        · rename_i x y hx hy
          split at h
          · rename_i hlt
            rcases List.mem_cons.mp h with rfl | h
            · exact ⟨[], a, b, rest, rfl, hindicator, rfl, x, y, hx, hy, hlt, rfl⟩
            · obtain ⟨pre, c, d, post, hrest, hgap⟩ := ih h
              exact ⟨(i, a) :: pre, c, d, post, by rw [hrest, List.cons_append], hgap⟩
          · cases h
        · cases h
      · cases h

end Measure

/-- The measure of a line that is not placed yet. -/
structure LineMeasure.Fresh (stream : Stream) (layout : Layout) (m : LineMeasure) : Prop where
  line_pos : 0 < m.line
  line_le : m.line ≤ stream.lines.count
  leading_eq : m.leading = stream.lines.leading m.line
  pinned_eq : m.pinned = false
  gaps_mem : ∀ g ∈ m.gaps,
    g ∈ Measure.gaps layout (fun t => (layout.columns stream.tokens)[t]?.join)
      (Measure.contentOn stream.tokens m.line)

/-- The measure says what stands on its line. -/
structure LineMeasure.Sound (stream : Stream) (m : LineMeasure) : Prop where
  line_pos : 0 < m.line
  line_le : m.line ≤ stream.lines.count
  leading_eq : m.leading = stream.lines.leading m.line
  gaps_between : ∀ g ∈ m.gaps, ∃ pre a b post,
    Measure.contentOn stream.tokens m.line = pre ++ (g.indicator, a) :: (g.next, b) :: post

namespace Measure

theorem eq_of_numbered {tokens : Array Token} {front back : List Numbered} {k : Nat} {t : Token}
    (h : numbered tokens = front ++ (k, t) :: back) : front.length = k ∧ tokens[k]? = some t := by
  have hget := getElem?_numbered tokens front.length
  rw [h, List.getElem?_append_right (Nat.le_refl _), Nat.sub_self, List.getElem?_cons_zero] at hget
  obtain ⟨u, hu, heq⟩ := Option.map_eq_some_iff.mp hget.symm
  rw [Prod.mk.injEq] at heq
  obtain ⟨rfl, rfl⟩ := heq
  exact ⟨rfl, hu⟩

/-- Between two neighbours among the tokens of a line, comments apart, lies no other token
of the line but comments. -/
theorem exists_of_contentOn {tokens : Array Token} {line : Nat} {i j : Nat} {a b : Token}
    {pre post : List Numbered} (h : contentOn tokens line = pre ++ (i, a) :: (j, b) :: post) :
    tokens[i]? = some a ∧ tokens[j]? = some b ∧ i < j ∧ a.startLine = line ∧ b.startLine = line ∧
      ∀ (k : Nat) (c : Token), i < k → k < j → tokens[k]? = some c → c.startLine = line →
        c.isComment = true := by
  rw [contentOn, List.filter_filter, List.filter_eq_append_iff] at h
  obtain ⟨front, back, hnumbered, -, hback⟩ := h
  obtain ⟨skipped, back, rfl, -, hleft, hback⟩ := List.filter_eq_cons_iff.mp hback
  obtain ⟨between, rest, rfl, hbetween, hright, -⟩ := List.filter_eq_cons_iff.mp hback
  simp only [Bool.and_eq_true, Bool.not_eq_true', beq_iff_eq] at hleft hright hbetween
  -- The positions in the list of all tokens are their numbers.
  have hall : numbered tokens = front ++ skipped ++ (i, a) :: (between ++ (j, b) :: rest) := by
    rw [hnumbered]
    simp
  obtain ⟨hi, ha⟩ := eq_of_numbered hall
  have hafter : numbered tokens = (front ++ skipped ++ (i, a) :: between) ++ (j, b) :: rest := by
    rw [hall]
    simp
  obtain ⟨hj, hb⟩ := eq_of_numbered hafter
  have hlength : j = i + 1 + between.length := by
    rw [← hj, ← hi]
    simp
    omega
  refine ⟨ha, hb, by omega, hleft.2, hright.2, ?_⟩
  intro k c hik hkj hc hline
  have hmem : (k, c) ∈ between := by
    have hget := getElem?_numbered tokens k
    rw [hall, hc, Option.map_some, List.getElem?_append_right (by omega), hi,
      List.getElem?_cons, if_neg (by omega), List.getElem?_append_left (by omega)] at hget
    exact List.mem_of_getElem? hget
  by_contra hcontent
  exact hbetween (k, c) hmem ⟨by simpa using hcontent, hline⟩

/-- The token that a line starts with, comments apart, comes before the others. -/
theorem first_of_contentOn {tokens : Array Token} {line i : Nat} {t : Token}
    {rest : List Numbered} (h : contentOn tokens line = (i, t) :: rest) :
    tokens[i]? = some t ∧ t.startLine = line ∧
      ∀ (k : Nat) (c : Token), k < i → tokens[k]? = some c → c.startLine = line →
        c.isComment = true := by
  rw [contentOn, List.filter_filter, List.filter_eq_cons_iff] at h
  obtain ⟨front, back, hnumbered, hfront, hfirst, -⟩ := h
  simp only [Bool.and_eq_true, Bool.not_eq_true', beq_iff_eq] at hfirst hfront
  obtain ⟨hi, ht⟩ := eq_of_numbered hnumbered
  refine ⟨ht, hfirst.2, fun k c hk hc hline => ?_⟩
  have hmem : (k, c) ∈ front := by
    have hget := getElem?_numbered tokens k
    rw [hnumbered, hc, Option.map_some, List.getElem?_append_left (by omega)] at hget
    exact List.mem_of_getElem? hget
  by_contra hcontent
  exact hfront (k, c) hmem ⟨by simpa using hcontent, hline⟩

section Lines

variable {lines : LineTable} {tokens : Array Token} {layout : Layout}
  {column : TokenId → Option Int} {interiors : List Interior} {line : Nat}

theorem exists_of_bodyOn? {role : LineRole} (h : bodyOn? tokens layout line = some role) :
    ∃ (i : TokenId) (t : Token), tokens[i]? = some t ∧ t.startLine = line := by
  obtain ⟨block, -, hblock⟩ := List.exists_of_findSome?_eq_some h
  obtain ⟨body, -, hbody⟩ := Option.bind_eq_some_iff.mp hblock
  obtain ⟨t, ht, hline⟩ := Option.bind_eq_some_iff.mp hbody
  split at hline
  · rename_i hstart
    exact ⟨body, t, ht, hstart⟩
  · cases hline

/-- A line is measured where a scalar runs through it or a token starts on it. -/
theorem isSome_line?_iff :
    (line? lines tokens layout column interiors line).isSome = true ↔
      (∃ i ∈ interiors, i.first ≤ line ∧ line ≤ i.last ∧ lines.isBlankLine line = false) ∨
        ∃ (i : TokenId) (t : Token), tokens[i]? = some t ∧ t.startLine = line := by
  have hcovering : ∀ i, i ∈ interiors.filter (fun i =>
      decide (i.first ≤ line) && decide (line ≤ i.last) && !lines.isBlankLine line) ↔
      i ∈ interiors ∧ i.first ≤ line ∧ line ≤ i.last ∧ lines.isBlankLine line = false := by
    simp [and_assoc]
  have hstarts : ∀ i t, (i, t) ∈ (numbered tokens).filter (·.2.startLine == line) ↔
      tokens[i]? = some t ∧ t.startLine = line := by
    simp [mem_numbered_iff]
  unfold line?
  dsimp only
  split
  · rename_i role heq
    obtain ⟨i, hi, -⟩ := Option.map_eq_some_iff.mp heq
    exact ⟨fun _ => .inl ⟨i, (hcovering i).mp (List.mem_of_getLast? hi)⟩, fun _ => rfl⟩
  · rename_i role _ heq
    exact ⟨fun _ => .inr (exists_of_bodyOn? heq), fun _ => rfl⟩
  · rename_i hnone _
    split
    · rename_i hempty
      rw [Option.map_eq_none_iff, List.getLast?_eq_none_iff] at hnone
      refine ⟨fun h => (by cases h), ?_⟩
      rintro (⟨i, hi⟩ | ⟨i, t, ht⟩)
      · have hmem := (hcovering i).mpr hi
        rw [hnone] at hmem
        cases hmem
      · have hmem := (hstarts i t).mpr ht
        exact absurd hempty (List.ne_nil_of_mem hmem)
    · rename_i on hne
      obtain ⟨⟨i, t⟩, hmem⟩ := List.exists_mem_of_ne_nil _ hne
      exact ⟨fun _ => .inr ⟨i, t, (hstarts i t).mp hmem⟩, fun _ => rfl⟩

end Lines

end Measure

namespace Stream

variable {stream : Stream} {layout : Layout} {m : LineMeasure}

/-- A line is measured before it is placed: it is not pinned, and its gaps are those after
the indicators it starts with. -/
theorem fresh_of_mem_measures (h : m ∈ stream.measures layout) : m.Fresh stream layout := by
  obtain ⟨i, hi, hline⟩ := List.mem_filterMap.mp h
  rw [List.mem_range] at hi
  have hbare : ∀ role, (LineMeasure.bare (i + 1) role (stream.lines.leading (i + 1))).Fresh
      stream layout :=
    fun role => ⟨Nat.succ_pos i, hi, rfl, rfl, by simp [LineMeasure.bare]⟩
  unfold Measure.line? at hline
  dsimp only at hline
  split at hline
  · rw [Option.some.injEq] at hline
    exact hline ▸ hbare _
  · rw [Option.some.injEq] at hline
    exact hline ▸ hbare _
  · split at hline
    · cases hline
    · rw [Option.some.injEq] at hline
      unfold Measure.ofTokens at hline
      dsimp only at hline
      split at hline
      · exact hline ▸ hbare _
      · subst hline
        exact ⟨Nat.succ_pos i, hi, rfl, rfl, fun g hg => hg⟩

theorem sound_of_mem_measures (h : m ∈ stream.measures layout) : m.Sound stream := by
  have hfresh := fresh_of_mem_measures h
  refine ⟨hfresh.line_pos, hfresh.line_le, hfresh.leading_eq, fun g hg => ?_⟩
  obtain ⟨pre, a, b, post, hbetween, -⟩ := Measure.exists_of_mem_gaps (hfresh.gaps_mem g hg)
  exact ⟨pre, a, b, post, hbetween⟩

/-- A line is measured in the same way once it is placed. -/
theorem exists_of_mem_place {style : Style} {measures : List LineMeasure}
    (h : m ∈ stream.place layout style measures) :
    ∃ n ∈ measures, n.line = m.line ∧ n.role = m.role ∧ n.leading = m.leading ∧
      n.gaps = m.gaps := by
  have hmem := List.mem_map_of_mem (f := (·.unplaced)) h
  rw [map_unplaced_place] at hmem
  obtain ⟨n, hn, heq⟩ := List.mem_map.mp hmem
  exact ⟨n, hn, LineMeasure.unplaced_inj heq⟩

theorem sound_of_mem_place {style : Style}
    (h : m ∈ stream.place layout style (stream.measures layout)) : m.Sound stream := by
  obtain ⟨n, hn, hline, -, hleading, hgaps⟩ := exists_of_mem_place h
  have hsound := sound_of_mem_measures hn
  exact ⟨hline ▸ hsound.line_pos, hline ▸ hsound.line_le,
    hleading ▸ hline ▸ hsound.leading_eq, hgaps ▸ hline ▸ hsound.gaps_between⟩

/-- Two neighbours among the tokens of a line, comments apart, have neighbouring
numbers, and only blanks lie between them. -/
theorem ReadTo.exists_gap {s : ParseState} {line : Nat} {i j : Nat} {a b : Token}
    {pre post : List Measure.Numbered} (h : stream.ReadTo s)
    (hpaired : Text.ReturnsPaired stream.text)
    (hgap : Measure.contentOn stream.tokens line = pre ++ (i, a) :: (j, b) :: post) :
    stream.tokens[i]? = some a ∧ stream.tokens[j]? = some b ∧
      ∃ before x mid y after, Apart stream.text a b before x mid y after ∧
        ∀ c ∈ mid, isBlank c = true := by
  obtain ⟨ha, hb, hij, hleft, hright, hcomments⟩ := Measure.exists_of_contentOn hgap
  refine ⟨ha, hb, ?_⟩
  by_cases hnext : j = i + 1
  · subst hnext
    obtain ⟨before, x, mid, y, after, hapart, hmid⟩ := h.exists_between hpaired ha hb
    refine ⟨before, x, mid, y, after, hapart, ?_⟩
    rcases hmid with hfeed | ⟨-, hblanks⟩
    · have hlt := hapart.startLine_lt hfeed
      omega
    · exact hblanks
  · -- A token between them would be a comment on their line, which nothing can follow.
    exfalso
    have hsize : j < stream.tokens.size := (Array.getElem?_eq_some_iff.mp hb).1
    have hat : ∀ k, k < j → ∃ c, stream.tokens[k]? = some c ∧ c.startLine ≤ line := by
      intro k hk
      have hlt : k < stream.tokens.size := by omega
      obtain ⟨_, _, _, _, _, hapart⟩ :=
        h.exists_apart (Array.getElem?_eq_getElem hlt) hb hk
      exact ⟨_, Array.getElem?_eq_getElem hlt, hright ▸ hapart.startLine_le⟩
    obtain ⟨c, hc, hle⟩ := hat (i + 1) (by omega)
    obtain ⟨_, _, _, _, _, hac⟩ := h.exists_apart ha hc (Nat.lt_succ_self i)
    have hge := hac.startLine_le
    have hcomment := hcomments (i + 1) c (Nat.lt_succ_self i) (by omega) hc (by omega)
    obtain ⟨d, hd, hdline⟩ : ∃ d, stream.tokens[i + 1 + 1]? = some d ∧ d.startLine ≤ line := by
      by_cases hlast : j = i + 1 + 1
      · subst hlast
        exact ⟨b, hb, Nat.le_of_eq hright⟩
      · exact hat (i + 1 + 1) (by omega)
    obtain ⟨_, _, mid, _, _, hcd, hmid⟩ := h.exists_between hpaired hc hd
    rcases hmid with hfeed | ⟨hcontent, -⟩
    · have hlt := hcd.startLine_lt hfeed
      omega
    · rw [hcomment] at hcontent
      cases hcontent

end Stream

end YamlLayout
