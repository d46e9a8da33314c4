import YamlLayout.Grammar.Stream
import YamlLayout.Proofs.Canonical.Passing

/-!
# Reading canonical texts

The reader takes a canonical text for what it was written for: each row of a collection
is read as one pair or entry, and the collection ends where the outline says. The
induction is over the outline; what comes after a node is no deeper than the node around
it, which keeps it out of the node.
-/
namespace YamlLayout

variable {s t u v : ParseState} {unit column : Nat} {parent : Int} {dashes : Bool}
  {text rest : List Char}

/-! ## Where nodes start -/

theorem Outline.separated_lead (value : Outline) (column : Nat) (more : List Char) :
    Lexeme.separated (value.lead column ++ more) = true := by
  cases value <;> rfl

/-- A mapping starts with a key. -/
theorem Outline.Pairs.exists_text (pairs : Outline.Pairs) (unit column : Nat) :
    ∃ (key : Word) (more : List Char), pairs.text unit column = key.letters ++ ':' :: more ∧
      Lexeme.separated more = true := by
  cases pairs with
  | one key value => exact ⟨key, _, rfl, value.separated_lead ..⟩
  | more key value rest =>
    rw [text_more, text, List.append_assoc, List.append_assoc, List.cons_append, List.append_assoc]
    exact ⟨key, _, rfl, value.separated_lead ..⟩

/-- A sequence starts with a dash. -/
theorem Outline.Items.exists_text (hunit : 2 ≤ unit) (items : Outline.Items) (column : Nat) :
    ∃ more, items.text unit column = '-' :: ' ' :: more := by
  obtain ⟨n, rfl⟩ := Nat.exists_eq_add_of_le' hunit
  cases items with
  | one item => exact ⟨_, rfl⟩
  | more item rest => exact ⟨_, rfl⟩

theorem Outline.opensRow_text (hunit : 2 ≤ unit) (column : Nat) (tree : Outline) :
    OpensRow (tree.text unit column) := by
  cases tree with
  | word w => simpa [text] using w.opensRow []
  | mapping pairs =>
    obtain ⟨key, more, htext, -⟩ := pairs.exists_text unit column
    rw [text, htext]
    exact key.opensRow _
  | sequence items =>
    obtain ⟨more, htext⟩ := items.exists_text hunit column
    rw [text, htext]
    exact .dash more

namespace ParseState

/-- From `s` the node inside a node at column `parent` is found to start at `v`. -/
def Reaches (s : ParseState) (parent : Int) (dashes : Bool) (v : ParseState) : Prop :=
  ∀ fuel, (Parse.nodeStart (fuel + 1) parent dashes .none).Answers s.skipBlanks fun start t =>
    start = ⟨.none, true⟩ ∧ t = v

/-- Where a row starts there are no properties to collect. -/
theorem start_of_opensRow (h : OpensRow s.cursor.rest) (more : Parse NodeStart) :
    (do
      match (← get).cursor.peek? with
      | some '&' | some '!' => more
      | _ => return ⟨.none, true⟩ : Parse NodeStart).Answers s fun start t =>
        start = ⟨.none, true⟩ ∧ t = s := by
  obtain ⟨c, cs, hcons, hc⟩ := h.exists_cons
  refine .get_bind ?_
  simp only [Cursor.peek?, hcons, List.head?_cons]
  split
  · rename_i heq
    exact absurd (Option.some.inj heq) (hc _ (by decide) (by decide))
  · rename_i heq
    exact absurd (Option.some.inj heq) (hc _ (by decide) (by decide))
  · exact .pure ⟨rfl, rfl⟩

theorem reaches_inline {n : Nat} (hrest : s.cursor.rest = List.replicate n ' ' ++ text)
    (hopens : OpensRow text) : s.Reaches parent dashes (s.skip n) := by
  intro fuel
  obtain ⟨c, cs, rfl, hc⟩ := hopens.exists_cons
  have hskipped : (s.skip n).cursor.rest = c :: cs := by simp [skip, hrest]
  rw [skipBlanks_eq hrest (by simp [isBlank, hc]), Parse.nodeStart]
  refine .get_bind ?_
  extract_lets content
  rw [if_neg (by simp [Cursor.atBreak, Cursor.peek?, hskipped, isBreak, hc])]
  exact start_of_opensRow (hskipped ▸ hopens) _

theorem reaches_below (hrest : s.cursor.rest = newLine column ++ text) (hopens : OpensRow text)
    (hparent : parent < column) : s.Reaches parent dashes s.skipLines := by
  intro fuel
  have hlands := lands_skipLines hrest hopens
  have hopens' : OpensRow s.skipLines.cursor.rest := hlands.rest_eq ▸ hopens
  obtain ⟨c, cs, hcons, hc⟩ := hopens'.exists_cons
  have hcolumn : s.skipLines.cursor.column = column := by
    rw [column_of_cons hcons, hlands.place_eq]
  have hblanks : s.skipBlanks = s := by
    refine ClearOfBlanks.skipBlanks_eq fun c hpeek => ?_
    rw [Cursor.peek?, hrest] at hpeek
    cases hpeek
    rfl
  have hbreak : s.cursor.atBreak = true := by rw [Cursor.atBreak, hrest]; rfl
  rw [hblanks, Parse.nodeStart]
  refine .get_bind ?_
  extract_lets content
  rw [if_pos (by simp [hbreak])]
  refine (advance_of_atBreak hbreak).bind fun more t hadvance => ?_
  obtain ⟨hmore, rfl⟩ := hadvance
  rw [if_pos (by rw [hmore, hcons]; rfl)]
  refine .get_bind ?_
  rw [if_neg (by simp [atBoundary_eq hopens'])]
  extract_lets here
  rw [if_pos (by simp [here, hcolumn, hparent])]
  exact start_of_opensRow hopens' _

theorem mayStartMapping_of_atContentStart (h : s.cursor.atContentStart = true) :
    s.mayStartMapping = true := by
  simp [mayStartMapping, h]

/-- A mapping may start right after a dash. -/
theorem mayStartMapping_of_dash {dash : Token} {others : List Token}
    (hemitted : s.emitted = dash :: others) (hdash : dash.isPunctuator "-" = true) :
    s.mayStartMapping = true := by
  have hkind : dash.kind = .punctuator := by
    simp only [Token.isPunctuator, Bool.and_eq_true, beq_iff_eq] at hdash
    exact hdash.1
  simp [mayStartMapping, hemitted, Token.isComment, hkind, hdash]

end ParseState

namespace Parse

theorem scalar_answers (style : ScalarStyle) (n : Nat) (s : ParseState) :
    (scalar style n).Answers s fun node t =>
      (∃ span, node = .scalar span style s.next) ∧ t = s.push .scalar n :=
  .get_bind (.emit_bind (.get_bind (.pure ⟨⟨_, rfl⟩, rfl⟩)))

theorem decorate_none (first : TokenId) (node : Node) (s : ParseState) :
    (decorate .none first node).Answers s fun decorated t => decorated = node ∧ t = s := by
  unfold decorate
  rw [if_pos (show Properties.none.isEmpty = true from rfl)]
  exact .pure ⟨rfl, rfl⟩

theorem properties_of_opensRow (h : OpensRow s.cursor.rest) :
    (properties false .none).Answers s fun p t => p = .none ∧ t = s := by
  obtain ⟨c, cs, hcons, hc⟩ := h.exists_cons
  rw [properties]
  refine .get_bind ?_
  simp only [Cursor.peek?, hcons, List.head?_cons]
  split
  · rename_i heq
    exact absurd (Option.some.inj heq) (hc _ (by decide) (by decide))
  · rename_i heq
    exact absurd (Option.some.inj heq) (hc _ (by decide) (by decide))
  · exact .pure ⟨rfl, rfl⟩

/-- A key is read as a scalar. -/
theorem implicitKey_answers (fuel : Nat) (first : TokenId) (key : Word)
    (hrest : s.cursor.rest = key.letters ++ rest) (hends : Lexeme.EndsWord rest = true) :
    (implicitKey fuel .none first).Answers s fun node t =>
      (∃ span, node = .scalar span .plain s.next) ∧ t = s.push .scalar key.letters.length := by
  have hline : Lexeme.plainLine false s.cursor.rest = key.letters.length := by
    rw [hrest, Lexeme.plainLine_word key hends]
  obtain ⟨c, cs, hcons, hc⟩ := key.exists_cons
  have hpeek : s.cursor.peek? = some c := by rw [Cursor.peek?, hrest, hcons]; rfl
  unfold implicitKey
  refine (properties_of_opensRow (hrest ▸ key.opensRow rest)).bind fun p t hp => .get_bind ?_
  obtain ⟨rfl, rfl⟩ := hp
  extract_lets decorated
  have hlength : key.letters.length = cs.length + 1 := by rw [hcons]; rfl
  have hne := not_beq_of_lower hc
  have hquote : ¬Lexeme.isQuote c = true := by simp [Lexeme.isQuote_of_lower hc]
  simp only [hpeek]
  rw [if_neg (hne ':' (by decide)), if_neg (hne '*' (by decide)), if_neg hquote,
    if_neg (by simp [hne '[' (by decide), hne '\x7b' (by decide)]), hline, hlength]
  refine (scalar_answers .plain _ t).bind fun node u hscalar => ?_
  obtain ⟨hnode, rfl⟩ := hscalar
  refine (decorate_none first node _).mono fun decorated v hd => ?_
  obtain ⟨rfl, rfl⟩ := hd
  exact ⟨hnode, rfl⟩

/-- A word is read as a scalar, and nothing that follows it is part of it. -/
theorem inlineNode_answers (fuel : Nat) (w : Word) (hrest : s.cursor.rest = w.letters ++ rest)
    (hfollows : Follows parent rest) :
    (inlineNode fuel parent).Answers s fun node t =>
      (∃ span, node = .scalar span .plain s.next) ∧ t = s.push .scalar w.letters.length := by
  have hplain : Lexeme.plain parent false s.cursor.rest = w.letters.length := by
    rw [hrest, Lexeme.plain_word w hfollows]
  obtain ⟨c, cs, hcons, hc⟩ := w.exists_cons
  have hpeek : s.cursor.peek? = some c := by rw [Cursor.peek?, hrest, hcons]; rfl
  unfold inlineNode
  refine .get_bind ?_
  have hlength : w.letters.length = cs.length + 1 := by rw [hcons]; rfl
  have hne := not_beq_of_lower hc
  have hquote : ¬Lexeme.isQuote c = true := by simp [Lexeme.isQuote_of_lower hc]
  simp only [hpeek]
  rw [if_neg (hne '*' (by decide)), if_neg hquote,
    if_neg (by simp [hne '[' (by decide), hne '\x7b' (by decide)]),
    if_neg (by simp [hne '@' (by decide), hne '\x60' (by decide)])]
  refine .get_bind ?_
  rw [hplain, hlength]
  exact scalar_answers .plain _ s

end Parse

/-! ## Reading outlines -/

/-- A word can stand anywhere. A collection starts at the column at which it belongs, where
a mapping may start. -/
def Outline.Placed (tree : Outline) (column : Nat) (s : ParseState) : Prop :=
  (∃ w, tree = .word w) ∨ s.place.column = column ∧ s.mayStartMapping = true

/-- Reading `text` from `s` leaves the tokens of `glyphs` behind and ends in `t`. -/
def ParseState.Ends (s : ParseState) (text : List Char) (glyphs : List Glyph) (t : ParseState) :
    Prop :=
  ∃ u, s.Spells text glyphs u ∧ u.Rests t

/-- The rows of a collection spell it one after the other. -/
theorem ParseState.Spells.ends {a b : List Char} {gs hs : List Glyph} (hrow : s.Spells a gs t)
    (hlands : t.Lands column text u) (hrest : u.Ends b hs v) :
    s.Ends (a ++ newLine column ++ b) (gs ++ hs) v := by
  obtain ⟨w, hspells, hrests⟩ := hrest
  exact ⟨w, by simpa using (hrow.trans hlands.spells).trans hspells, hrests⟩

/-- Wherever the text of the outline stands, it is read as a node of its shape. -/
def Outline.ReadsBack (unit : Nat) (tree : Outline) : Prop :=
  ∀ {s v : ParseState} {fuel column : Nat} {parent : Int} {dashes : Bool} {rest : List Char},
    s.Reaches parent dashes v → tree.Placed column v → parent < column →
    v.cursor.rest = tree.text unit column ++ rest → Follows parent rest →
    2 * tree.size ≤ fuel →
    (Parse.blockNode fuel parent dashes).Answers s fun node t =>
      tree.Numbers v.next node ∧ v.Ends (tree.text unit column) (tree.glyphs unit v.place column) t

/-- Wherever the text of the pairs stands, they are read as pairs of their shape. -/
def Outline.Pairs.ReadsBack (unit : Nat) (pairs : Outline.Pairs) : Prop :=
  ∀ {s : ParseState} {fuel column : Nat} {parent : Int} {rest : List Char},
    s.place.column = column → parent < column →
    s.cursor.rest = pairs.text unit column ++ rest → Follows parent rest →
    2 * pairs.size ≤ fuel + 1 →
    (Parse.blockPairs fuel parent column .none).Answers s fun nodes t =>
      pairs.Numbers s.next nodes ∧
        s.Ends (pairs.text unit column) (pairs.glyphs unit s.place column) t

/-- Wherever the text of the items stands, they are read as entries of their shape. -/
def Outline.Items.ReadsBack (unit : Nat) (items : Outline.Items) : Prop :=
  ∀ {s : ParseState} {fuel column : Nat} {parent : Int} {rest : List Char},
    s.place.column = column → parent < column →
    s.cursor.rest = items.text unit column ++ rest → Follows parent rest →
    2 * items.size ≤ fuel + 1 →
    (Parse.blockEntries fuel parent).Answers s fun nodes t =>
      items.Numbers s.next nodes ∧
        s.Ends (items.text unit column) (items.glyphs unit s.place column) t

namespace Parse

/-- The value of a key starts behind the colon or on the next line. -/
theorem exists_reaches_value (hunit : 2 ≤ unit) (value : Outline) (hparent : parent < column)
    (hrest : s.cursor.rest = value.lead column ++ (value.text unit column ++ rest)) :
    ∃ v, s.Reaches parent dashes v ∧ value.Placed column v ∧ s.Spells (value.lead column) [] v ∧
      v.cursor.rest = value.text unit column ++ rest := by
  have hopens := (value.opensRow_text hunit column).append rest
  have hbelow : s.cursor.rest = newLine column ++ (value.text unit column ++ rest) →
      s.Reaches parent dashes s.skipLines ∧ value.Placed column s.skipLines ∧
        s.Spells (newLine column) [] s.skipLines ∧
        s.skipLines.cursor.rest = value.text unit column ++ rest := by
    intro hrest
    have hlands := s.lands_skipLines hrest hopens
    exact ⟨s.reaches_below hrest hopens hparent, .inr ⟨by rw [hlands.place_eq],
      ParseState.mayStartMapping_of_atContentStart hlands.atContentStart⟩, hlands.spells,
      hlands.rest_eq⟩
  cases value with
  | word w =>
    have hspells := ParseState.spells_skip hrest
    exact ⟨s.skip 1, ParseState.reaches_inline (n := 1) hrest hopens, .inl ⟨w, rfl⟩, hspells,
      hspells.rest_eq hrest⟩
  | mapping | sequence => exact ⟨_, hbelow hrest⟩

/-- After a pair the mapping ends, or goes on with the next key. -/
theorem afterPair_answers {pair : Node} {fuel : Nat} {Q : List Node → ParseState → Prop}
    (hrests : u.Rests t) (hfollows : Follows column u.cursor.rest)
    (hnext : Follows parent u.cursor.rest ∧ parent < column ∧ Q [pair] u.skipLines ∨
      ∃ c text, u.cursor.rest = newLine column ++ c :: text ∧ ('a' ≤ c ∧ c ≤ 'z') ∧
        (blockPairs fuel parent column .none).Answers u.skipLines fun pairs => Q (pair :: pairs)) :
    (do
      unless ← advance do
        return [pair]
      let s ← get
      if s.atBoundary || s.atIndicator '-' then return [pair]
      let next : Int := s.cursor.column
      if next == column || (parent < next && Lexeme.isEntry s.cursor.rest) then
        return pair :: (← blockPairs fuel parent column .none)
      return [pair] : Parse (List Node)).Answers t Q := by
  refine (hrests.advance hfollows).bind fun more v hadvance => ?_
  obtain ⟨hmore, rfl⟩ := hadvance
  rcases hnext with ⟨hstops, hparent, hQ⟩ | ⟨c, text, hgoes, hc, hQ⟩
  · rcases ParseState.skipLines_of_follows hstops with hnil | ⟨k, text, hlands, hopens, hk⟩
    · rw [if_neg (by simp [hmore, hnil])]
      exact .pure hQ
    · rw [if_pos (by rw [hmore, hlands.isEmpty_eq hopens]; rfl)]
      refine .get_bind ?_
      split
      · exact .pure hQ
      · -- A key that is not deeper than the node around the mapping is not its next key.
        have hcolumn := hlands.column_eq hopens
        extract_lets next
        rw [if_neg (by simp [next, hcolumn]; omega)]
        exact .pure hQ
  · have hlands := u.lands_skipLines hgoes (.letter hc)
    have hcolumn := hlands.column_eq (.letter hc)
    rw [if_pos (by rw [hmore, hlands.isEmpty_eq (.letter hc)]; rfl)]
    refine .get_bind ?_
    have hdash : u.skipLines.atIndicator '-' = false := by
      simp [ParseState.atIndicator, hlands.rest_eq, Lexeme.isIndicator,
        ne_of_lower hc (d := '-') (by decide)]
    rw [if_neg (by simp [hlands.atBoundary_eq (.letter hc), hdash])]
    extract_lets next
    rw [if_pos (by simp [next, hcolumn])]
    exact hQ.bind fun pairs v hv => .pure hv

theorem spells_pair {key : Word} {value : Outline} {colon behind : ParseState}
    (hkey : s.Spells key.letters [.word key s.place column] colon)
    (hcolon : colon.Spells [':'] [.mark ':' colon.place (column + unit)] behind)
    (hlead : behind.Spells (value.lead (column + unit)) [] v)
    (hvalue : v.Spells (value.text unit (column + unit))
      (value.glyphs unit v.place (column + unit)) u) :
    s.Spells ((Outline.Pairs.one key value).text unit column)
      ((Outline.Pairs.one key value).glyphs unit s.place column) u := by
  have hall := hkey.trans (hcolon.trans (hlead.trans hvalue))
  have hplace := (hkey.trans (hcolon.trans hlead)).between.place_eq
  rw [hkey.between.place_eq, hplace] at hall
  simpa [Outline.Pairs.text, Outline.Pairs.glyphs] using hall

/-- Reads one pair and what comes after it. -/
theorem blockPairs_answers (hunit : 2 ≤ unit) {key : Word} {value : Outline} {fuel : Nat}
    {Q : List Node → ParseState → Prop} (hvalue : value.ReadsBack unit)
    (hrest : s.cursor.rest = (Outline.Pairs.one key value).text unit column ++ rest)
    (hcolumn : s.place.column = column) (hfollows : Follows column rest)
    (hfuel : 2 * value.size ≤ fuel)
    (hnext : ∀ pair u, (Outline.Pairs.one key value).Numbers s.next [pair] →
      s.Spells ((Outline.Pairs.one key value).text unit column)
        ((Outline.Pairs.one key value).glyphs unit s.place column) u →
      Follows parent rest ∧ parent < column ∧ Q [pair] u.skipLines ∨
      ∃ c text, rest = newLine column ++ c :: text ∧ ('a' ≤ c ∧ c ≤ 'z') ∧
        (blockPairs fuel parent column .none).Answers u.skipLines fun pairs => Q (pair :: pairs)) :
    (blockPairs (fuel + 1) parent column .none).Answers s Q := by
  have hkey : s.cursor.rest = key.letters ++ ':' :: (value.lead (column + unit) ++
      (value.text unit (column + unit) ++ rest)) := by
    rw [hrest]
    simp [Outline.Pairs.text]
  have hsep := value.separated_lead (column + unit) (value.text unit (column + unit) ++ rest)
  obtain ⟨c, cs, hcons, hc⟩ := key.exists_cons
  have hfirst : s.cursor.rest = c :: (cs ++ ':' :: (value.lead (column + unit) ++
      (value.text unit (column + unit) ++ rest))) := by
    rw [hkey, hcons]
    rfl
  have hmark : ∀ d, ¬('a' ≤ d ∧ d ≤ 'z') → ¬s.atIndicator d = true := fun d hd => by
    simp [ParseState.atIndicator, hfirst, Lexeme.isIndicator, ne_of_lower hc hd]
  rw [blockPairs]
  refine .get_bind ?_
  extract_lets first pairColumn tail keyed
  have hpairColumn : pairColumn = column := by
    simp [pairColumn, Properties.none, ParseState.column_of_cons hfirst, hcolumn]
  rw [if_neg (hmark '?' (by decide)), if_neg (hmark ':' (by decide))]
  refine (implicitKey_answers fuel first key hkey (by simp [Lexeme.EndsWord, hsep])).bind
    fun node t hread => .skipBlanks_bind ?_
  obtain ⟨⟨keySpan, rfl⟩, rfl⟩ := hread
  have hword := s.spells_word hkey column
  have hcolon := hword.rest_eq hkey
  have hnumber := hword.next_eq
  rw [ParseState.skipBlanks_eq (n := 0) hcolon rfl, ParseState.skip_zero, pure_bind]
  generalize s.push .scalar key.letters.length = t at hword hcolon hnumber
  refine .get_bind ?_
  extract_lets colon
  rw [if_pos (by simp [ParseState.atIndicator, hcolon, Lexeme.isIndicator, hsep])]
  refine .emit_bind ?_
  have hmarked := t.spells_mark hcolon (by decide) (column + unit)
  have hafter := hmarked.rest_eq hcolon
  rw [hpairColumn]
  obtain ⟨v, hreaches, hplaced, hlead, hv⟩ := exists_reaches_value hunit value
    (show (column : Int) < (column + unit : Nat) by omega) hafter
  refine (hvalue hreaches hplaced (by omega) hv hfollows hfuel).bind fun inner w hinner =>
    .get_bind ?_
  obtain ⟨hnumbers, u, hspells, hrests⟩ := hinner
  have hrow := spells_pair hword hmarked hlead hspells
  have hend := hrow.rest_eq hrest
  rw [pure_bind]
  refine afterPair_answers hrests (hend ▸ hfollows) (hend ▸ hnext _ u ⟨_, rfl, ?_⟩ hrow)
  have hinside : v.next = s.next + 2 := (hword.trans (hmarked.trans hlead)).next_eq
  exact ⟨_, keySpan, inner, by rw [hnumber]; rfl, hinside ▸ hnumbers⟩

/-- After an entry the sequence ends, or goes on with the next dash. -/
theorem afterEntry_answers {entry : Node} {fuel : Nat} {Q : List Node → ParseState → Prop}
    (hrests : u.Rests t) (hfollows : Follows column u.cursor.rest)
    (hnext : Follows parent u.cursor.rest ∧ Q [entry] u.skipLines ∨
      ∃ text, u.cursor.rest = newLine column ++ '-' :: ' ' :: text ∧ parent < column ∧
        (blockEntries fuel parent).Answers u.skipLines fun entries => Q (entry :: entries)) :
    (do
      unless ← advance do
        return [entry]
      let s ← get
      if !s.atBoundary && s.atIndicator '-' && parent < s.cursor.column then
        return entry :: (← blockEntries fuel parent)
      return [entry] : Parse (List Node)).Answers t Q := by
  refine (hrests.advance hfollows).bind fun more v hadvance => ?_
  obtain ⟨hmore, rfl⟩ := hadvance
  rcases hnext with ⟨hstops, hQ⟩ | ⟨text, hgoes, hparent, hQ⟩
  · rcases ParseState.skipLines_of_follows hstops with hnil | ⟨k, text, hlands, hopens, hk⟩
    · rw [if_neg (by simp [hmore, hnil])]
      exact .pure hQ
    · rw [if_pos (by rw [hmore, hlands.isEmpty_eq hopens]; rfl)]
      refine .get_bind ?_
      rw [if_neg (by simp [hlands.column_eq hopens, Int.not_lt.mpr hk])]
      exact .pure hQ
  · have hlands := u.lands_skipLines hgoes (.dash text)
    rw [if_pos (by rw [hmore, hlands.isEmpty_eq (.dash text)]; rfl)]
    refine .get_bind ?_
    have hdash : u.skipLines.atIndicator '-' = true := by
      rw [ParseState.atIndicator, hlands.rest_eq]
      rfl
    rw [if_pos (by simp [hlands.atBoundary_eq (.dash text), hdash,
      hlands.column_eq (.dash text), hparent])]
    exact hQ.bind fun entries v hv => .pure hv

/-- Reads one entry and what comes after it. -/
theorem blockEntries_answers (hunit : 2 ≤ unit) {item : Outline} {fuel : Nat}
    {Q : List Node → ParseState → Prop} (hitem : item.ReadsBack unit)
    (hrest : s.cursor.rest = (Outline.Items.one item).text unit column ++ rest)
    (hcolumn : s.place.column = column) (hfollows : Follows column rest)
    (hfuel : 2 * item.size ≤ fuel)
    (hnext : ∀ entry u, (Outline.Items.one item).Numbers s.next [entry] →
      s.Spells ((Outline.Items.one item).text unit column)
        ((Outline.Items.one item).glyphs unit s.place column) u →
      Follows parent rest ∧ Q [entry] u.skipLines ∨
      ∃ text, rest = newLine column ++ '-' :: ' ' :: text ∧ parent < column ∧
        (blockEntries fuel parent).Answers u.skipLines fun entries => Q (entry :: entries)) :
    (blockEntries (fuel + 1) parent).Answers s Q := by
  have hdash : s.cursor.rest = ['-'] ++ (List.replicate (unit - 1) ' ' ++
      (item.text unit (column + unit) ++ rest)) := by
    rw [hrest]
    simp [Outline.Items.text]
  have hopens := (item.opensRow_text hunit (column + unit)).append rest
  have hmarked := s.spells_mark hdash (by decide) column
  have hbehind := hmarked.rest_eq hdash
  have hspaces := ParseState.spells_skip hbehind
  rw [List.length_replicate] at hspaces
  have hplaced : item.Placed (column + unit) ((s.push .punctuator 1).skip (unit - 1)) := by
    refine .inr ⟨?_, ParseState.mayStartMapping_of_dash (ParseState.emitted_push ..) ?_⟩
    · rw [(hmarked.trans hspaces).between.place_eq,
        Position.after_of_not_mem _ (by simp [List.mem_replicate])]
      simp
      omega
    · simp [Token.isPunctuator, ParseState.ahead, hdash]
  rw [blockEntries]
  refine .get_bind ?_
  extract_lets here
  have hhere : here = column := by
    simp [here, ParseState.column_of_cons hdash, hcolumn]
  rw [hhere]
  refine .emit_bind ((hitem (ParseState.reaches_inline hbehind hopens) hplaced (by omega)
    (hspaces.rest_eq hbehind) hfollows hfuel).bind fun value w hvalue => ?_)
  obtain ⟨hnumbers, u, hspells, hrests⟩ := hvalue
  have hrow : s.Spells ((Outline.Items.one item).text unit column)
      ((Outline.Items.one item).glyphs unit s.place column) u := by
    have hall := hmarked.trans (hspaces.trans hspells)
    rw [(hmarked.trans hspaces).between.place_eq] at hall
    simpa [Outline.Items.text, Outline.Items.glyphs] using hall
  have hend := hrow.rest_eq hrest
  exact afterEntry_answers hrests (hend ▸ hfollows)
    (hend ▸ hnext _ u ⟨value, rfl, hnumbers⟩ hrow)

/-- A node that starts with a row is a sequence, a mapping or a word. -/
theorem blockNode_answers {fuel : Nat} {Q : Node → ParseState → Prop}
    (hreaches : s.Reaches parent dashes v) (hopens : OpensRow v.cursor.rest)
    (hsequence : v.atIndicator '-' = true →
      (blockEntries (fuel + 1) (min parent (v.cursor.column - 1))).Answers v fun entries t =>
        Q (.sequence (t.spanSince v.next) none entries) t)
    (hmapping : v.atIndicator '-' = false → Lexeme.isKey v.cursor.rest = true →
      (blockPairs (fuel + 1) parent v.cursor.column .none).Answers v fun pairs t =>
        Q (.mapping (t.spanSince v.next) none pairs) t)
    (hword : v.atIndicator '-' = false → (Lexeme.isKey v.cursor.rest && v.mayStartMapping) = false →
      (inlineNode (fuel + 1) parent).Answers v Q) :
    (blockNode (fuel + 2) parent dashes).Answers s Q := by
  obtain ⟨c, cs, hcons, hc⟩ := hopens.exists_cons
  have hmark : ∀ d, ¬('a' ≤ d ∧ d ≤ 'z') → d ≠ '-' → v.atIndicator d = false := fun d hd hdash => by
    simp [ParseState.atIndicator, hcons, Lexeme.isIndicator, hc d hd hdash]
  have hpeek : v.cursor.peek? = some c := by rw [Cursor.peek?, hcons]; rfl
  rw [blockNode]
  refine .get_bind (.skipBlanks_bind ((hreaches fuel).bind fun start t hstart => ?_))
  obtain ⟨rfl, rfl⟩ := hstart
  dsimp only
  rw [if_neg (by simp)]
  refine .get_bind ?_
  by_cases hdash : t.atIndicator '-' = true
  · rw [if_pos hdash]
    exact (hsequence hdash).bind fun entries u hu =>
      .get_bind ((decorate_none _ _ u).mono fun node w hw => by rw [hw.1, hw.2]; exact hu)
  rw [if_neg hdash, if_neg (by simp [hmark '?' (by decide), hmark ':' (by decide)]),
    if_neg (by simp [hpeek, hc])]
  rw [Bool.not_eq_true] at hdash
  split
  · rename_i hkey
    rw [Bool.and_eq_true] at hkey
    exact (hmapping hdash hkey.1).bind fun pairs u hu => .get_bind (.pure hu)
  · rename_i hkey
    exact (hword hdash (by simpa using hkey)).bind fun node u hu =>
      (decorate_none _ _ u).mono fun node w hw => by rw [hw.1, hw.2]; exact hu

end Parse

namespace Outline

theorem size_pos (tree : Outline) : 0 < tree.size :=
  Outline.induction (P := (0 < ·.size)) (Q := (0 < ·.size)) (R := (0 < ·.size))
    (fun _ => Nat.one_pos) (fun _ h => h) (fun _ h => h) (fun _ _ _ => Nat.succ_pos _)
    (fun _ _ _ h _ => Nat.add_pos_left h _) (fun _ _ => Nat.succ_pos _)
    (fun _ _ h _ => Nat.add_pos_left h _) tree

theorem readsBack_word (w : Word) : (word w).ReadsBack unit := by
  intro s v fuel column parent dashes rest hreaches _ _ hrest hfollows hfuel
  obtain ⟨fuel, rfl⟩ : ∃ n, fuel = n + 2 := ⟨fuel - 2, by simp [size] at hfuel; omega⟩
  have hkey : Lexeme.isKey v.cursor.rest = false := by
    rw [hrest, text, Lexeme.isKey_word w (Lexeme.endsWord_of_follows hfollows)]
    cases hfollows <;> rfl
  refine Parse.blockNode_answers hreaches (hrest ▸ w.opensRow rest) (fun hdash => ?_)
    (fun _ h => by rw [hkey] at h; cases h) fun _ _ => ?_
  · obtain ⟨c, cs, hcons, hc⟩ := w.exists_cons
    simp [ParseState.atIndicator, hrest, text, hcons, Lexeme.isIndicator,
      ne_of_lower hc (d := '-') (by decide)] at hdash
  · refine (Parse.inlineNode_answers (fuel + 1) w hrest hfollows).mono fun node t hread => ?_
    obtain ⟨hnode, rfl⟩ := hread
    exact ⟨hnode, _, v.spells_word hrest column, .inl rfl⟩

theorem readsBack_mapping {pairs : Pairs} (hpairs : pairs.ReadsBack unit) :
    (mapping pairs).ReadsBack unit := by
  intro s v fuel column parent dashes rest hreaches hplaced hparent hrest hfollows hfuel
  have hpos := (mapping pairs).size_pos
  obtain ⟨fuel, rfl⟩ : ∃ n, fuel = n + 2 := ⟨fuel - 2, by omega⟩
  obtain ⟨hplace, hmay⟩ := hplaced.resolve_left (by rintro ⟨w, hw⟩; cases hw)
  obtain ⟨key, more, htext, hsep⟩ := pairs.exists_text unit column
  obtain ⟨c, cs, hcons, hc⟩ := key.exists_cons
  have hstart : v.cursor.rest = key.letters ++ ':' :: (more ++ rest) := by
    rw [hrest, text, htext]
    simp
  have hfirst : v.cursor.rest = c :: (cs ++ ':' :: (more ++ rest)) := by
    rw [hstart, hcons]
    rfl
  have hends : Lexeme.EndsWord (':' :: (more ++ rest)) = true := by
    cases more with
    | nil => cases hfollows <;> rfl
    | cons d ds => simpa [Lexeme.EndsWord, Lexeme.separated] using hsep
  have hkey : Lexeme.isKey v.cursor.rest = true := by
    rw [hstart, Lexeme.isKey_word key hends]
    rfl
  refine Parse.blockNode_answers hreaches (hstart ▸ key.opensRow _) (fun hdash => ?_)
    (fun _ _ => ?_) fun _ hword => by simp [hkey, hmay] at hword
  · simp [ParseState.atIndicator, hfirst, Lexeme.isIndicator,
      ne_of_lower hc (d := '-') (by decide)] at hdash
  · rw [ParseState.column_of_cons hfirst, hplace]
    rw [size] at hfuel
    refine (hpairs hplace hparent hrest hfollows (by omega)).mono fun nodes t hread => ?_
    exact ⟨⟨_, nodes, rfl, hread.1⟩, hread.2⟩

theorem readsBack_sequence (hunit : 2 ≤ unit) {items : Items} (hitems : items.ReadsBack unit) :
    (sequence items).ReadsBack unit := by
  intro s v fuel column parent dashes rest hreaches hplaced hparent hrest hfollows hfuel
  have hpos := (sequence items).size_pos
  obtain ⟨fuel, rfl⟩ : ∃ n, fuel = n + 2 := ⟨fuel - 2, by omega⟩
  obtain ⟨hplace, -⟩ := hplaced.resolve_left (by rintro ⟨w, hw⟩; cases hw)
  obtain ⟨more, htext⟩ := items.exists_text hunit column
  have hstart : v.cursor.rest = '-' :: ' ' :: (more ++ rest) := by
    rw [hrest, text, htext]
    rfl
  have hdash : v.atIndicator '-' = true := by
    rw [ParseState.atIndicator, hstart]
    rfl
  refine Parse.blockNode_answers hreaches (hstart ▸ .dash _) (fun _ => ?_)
    (fun h => by simp [hdash] at h) fun h => by simp [hdash] at h
  rw [ParseState.column_of_cons hstart, hplace, Int.min_eq_left (by omega)]
  rw [size] at hfuel
  refine (hitems hplace hparent hrest hfollows (by omega)).mono fun nodes t hread => ?_
  exact ⟨⟨_, nodes, rfl, hread.1⟩, hread.2⟩

theorem Pairs.readsBack_one (hunit : 2 ≤ unit) (key : Word) {value : Outline}
    (hvalue : value.ReadsBack unit) : (Pairs.one key value).ReadsBack unit := by
  intro s fuel column parent rest hcolumn hparent hrest hfollows hfuel
  rw [size] at hfuel
  obtain ⟨fuel, rfl⟩ : ∃ n, fuel = n + 1 := ⟨fuel - 1, by omega⟩
  refine Parse.blockPairs_answers hunit hvalue hrest hcolumn (hfollows.mono (by omega)) (by omega)
    fun pair u hpair hspells => .inl ⟨hfollows, hparent, hpair, u, hspells, .inr rfl⟩

theorem Pairs.readsBack_more (hunit : 2 ≤ unit) (key : Word) {value : Outline} {others : Pairs}
    (hvalue : value.ReadsBack unit) (hothers : others.ReadsBack unit) :
    (Pairs.more key value others).ReadsBack unit := by
  intro s fuel column parent rest hcolumn hparent hrest hfollows hfuel
  rw [size] at hfuel
  obtain ⟨fuel, rfl⟩ : ∃ n, fuel = n + 1 := ⟨fuel - 1, by omega⟩
  rw [text_more, List.append_assoc, List.append_assoc] at hrest
  obtain ⟨next, more, hnext, -⟩ := others.exists_text unit column
  obtain ⟨c, cs, hcons, hc⟩ := next.exists_cons
  have hletter : others.text unit column ++ rest = c :: (cs ++ (':' :: (more ++ rest))) := by
    rw [hnext, hcons]
    simp
  have hopens : OpensRow (others.text unit column ++ rest) := hletter ▸ .letter hc
  refine Parse.blockPairs_answers hunit hvalue hrest hcolumn (.row (Int.le_refl _) hopens)
    (by omega) fun pair u hpair hspells => .inr ⟨c, _, by rw [hletter], hc, ?_⟩
  have hlands := u.lands_skipLines (hspells.rest_eq hrest) hopens
  refine (hothers (by rw [hlands.place_eq]) hparent hlands.rest_eq hfollows (by omega)).mono
    fun nodes t hread => ?_
  obtain ⟨hnumbers, hends⟩ := hread
  have hrow := hspells.trans hlands.spells
  have hnumber := hrow.next_eq
  rw [List.append_nil, length_glyphs] at hnumber
  rw [hrow.between.place_eq] at hends
  exact ⟨numbers_more_iff.mpr ⟨pair, nodes, rfl, hpair, hnumber ▸ hnumbers⟩,
    hspells.ends hlands hends⟩

theorem Items.readsBack_one (hunit : 2 ≤ unit) {item : Outline} (hitem : item.ReadsBack unit) :
    (Items.one item).ReadsBack unit := by
  intro s fuel column parent rest hcolumn hparent hrest hfollows hfuel
  have hpos := item.size_pos
  rw [size] at hfuel
  obtain ⟨fuel, rfl⟩ : ∃ n, fuel = n + 1 := ⟨fuel - 1, by omega⟩
  exact Parse.blockEntries_answers hunit hitem hrest hcolumn (hfollows.mono (by omega)) (by omega)
    fun entry u hentry hspells => .inl ⟨hfollows, hentry, u, hspells, .inr rfl⟩

theorem Items.readsBack_more (hunit : 2 ≤ unit) {item : Outline} {others : Items}
    (hitem : item.ReadsBack unit) (hothers : others.ReadsBack unit) :
    (Items.more item others).ReadsBack unit := by
  intro s fuel column parent rest hcolumn hparent hrest hfollows hfuel
  have hpos := item.size_pos
  rw [size] at hfuel
  obtain ⟨fuel, rfl⟩ : ∃ n, fuel = n + 1 := ⟨fuel - 1, by omega⟩
  rw [text_more, List.append_assoc, List.append_assoc] at hrest
  obtain ⟨more, hnext⟩ := others.exists_text hunit column
  have hdash : others.text unit column ++ rest = '-' :: ' ' :: (more ++ rest) := by
    rw [hnext]
    rfl
  have hopens : OpensRow (others.text unit column ++ rest) := hdash ▸ .dash _
  refine Parse.blockEntries_answers hunit hitem hrest hcolumn (.row (Int.le_refl _) hopens)
    (by omega) fun entry u hentry hspells => .inr ⟨_, by rw [hdash], hparent, ?_⟩
  have hlands := u.lands_skipLines (hspells.rest_eq hrest) hopens
  refine (hothers (by rw [hlands.place_eq]) hparent hlands.rest_eq hfollows (by omega)).mono
    fun nodes t hread => ?_
  obtain ⟨hnumbers, hends⟩ := hread
  have hrow := hspells.trans hlands.spells
  have hnumber := hrow.next_eq
  rw [List.append_nil, length_glyphs] at hnumber
  rw [hrow.between.place_eq] at hends
  exact ⟨numbers_more_iff.mpr ⟨entry, nodes, rfl, hentry, hnumber ▸ hnumbers⟩,
    hspells.ends hlands hends⟩

/-- What is written for an outline is read as a node of its shape. -/
theorem readsBack (hunit : 2 ≤ unit) (tree : Outline) : tree.ReadsBack unit :=
  @Outline.rec (·.ReadsBack unit) (·.ReadsBack unit) (·.ReadsBack unit) readsBack_word
    (fun _ => readsBack_mapping) (fun _ => readsBack_sequence hunit)
    (fun key _ => Pairs.readsBack_one hunit key) (fun key _ _ => Pairs.readsBack_more hunit key)
    (fun _ => Items.readsBack_one hunit) (fun _ _ => Items.readsBack_more hunit) tree

/-- Each token takes up a character. -/
theorem size_le_length (unit : Nat) (tree : Outline) :
    ∀ column, tree.size ≤ (tree.text unit column).length := by
  refine Outline.induction (P := fun tree => ∀ column, tree.size ≤ (tree.text unit column).length)
    (Q := fun pairs => ∀ column, pairs.size ≤ (pairs.text unit column).length)
    (R := fun items => ∀ column, items.size ≤ (items.text unit column).length)
    (fun w _ => List.length_pos_iff.mpr w.ne_nil) (fun _ h => h) (fun _ h => h)
    ?pair ?pairs ?item ?items tree
  case pair =>
    intro key value hvalue column
    have hkey := List.length_pos_iff.mpr key.ne_nil
    have htext := hvalue (column + unit)
    simp only [Pairs.size, Pairs.text, List.length_append, List.length_cons]
    omega
  case pairs =>
    intro key value rest hrow hrest column
    have hsum := Nat.add_le_add (hrow column) (hrest column)
    rw [Pairs.text_more, List.length_append, List.length_append]
    simp only [Pairs.size] at hsum ⊢
    omega
  case item =>
    intro item hitem column
    have htext := hitem (column + unit)
    simp only [Items.size, Items.text, List.length_append, List.length_cons]
    omega
  case items =>
    intro item rest hrow hrest column
    have hsum := Nat.add_le_add (hrow column) (hrest column)
    rw [Items.text_more, List.length_append, List.length_append]
    simp only [Items.size] at hsum ⊢
    omega

end Outline

/-! ## Documents -/

namespace Parse

theorem directives_of_opensRow (fuel : Nat) (h : OpensRow s.cursor.rest) :
    (directives (fuel + 1)).Answers s fun tokens t => tokens = [] ∧ t = s := by
  obtain ⟨c, cs, hcons, hc⟩ := h.exists_cons
  rw [directives]
  refine .get_bind ?_
  rw [if_neg (by simp [Cursor.peek?, hcons, hc])]
  exact .pure ⟨rfl, rfl⟩

/-- Nothing is left of the text after a document. -/
theorem rest_skipLines_eq_nil (h : Follows (-1) s.cursor.rest) : s.skipLines.cursor.rest = [] := by
  rcases ParseState.skipLines_of_follows h with hnil | ⟨column, text, -, -, hcolumn⟩
  · exact hnil
  · omega

theorem documentEnd_of_rests (hrests : u.Rests t) (hends : Follows (-1) u.cursor.rest) :
    documentEnd.Answers t fun marker v => marker = none ∧ v = u.skipLines := by
  unfold documentEnd
  refine (hrests.advance hends).bind fun more v hadvance => ?_
  obtain ⟨hmore, rfl⟩ := hadvance
  rw [if_neg (by simp [hmore, rest_skipLines_eq_nil hends])]
  exact .pure ⟨rfl, rfl⟩

theorem laterContent_answers (hunit : 2 ≤ unit) (tree : Outline) {fuel : Nat}
    (hstart : s.cursor.atContentStart = true) (hplace : s.place = ⟨1, 0⟩)
    (hrest : s.cursor.rest = tree.text unit 0 ++ rest) (hends : Follows (-1) rest)
    (hfuel : 2 * tree.size ≤ fuel) :
    (laterContent fuel).Answers s fun node t => tree.Numbers s.next node ∧
      s.Ends (tree.text unit 0) (tree.glyphs unit ⟨1, 0⟩ 0) t := by
  have hopens := (tree.opensRow_text hunit 0).append rest
  have hreaches : s.Reaches (-1) false s := by
    simpa using ParseState.reaches_inline (n := 0) hrest hopens
  have hplaced : tree.Placed 0 s :=
    .inr ⟨by rw [hplace], ParseState.mayStartMapping_of_atContentStart hstart⟩
  unfold laterContent
  refine (ParseState.advance_of_atContentStart hstart).bind fun more t hadvance => ?_
  obtain ⟨rfl, rfl⟩ := hadvance
  rw [if_pos rfl]
  refine .get_bind ?_
  rw [if_neg (by simp [ParseState.atBoundary_eq (hrest ▸ hopens)])]
  rw [← hplace]
  exact tree.readsBack hunit hreaches hplaced (by decide) hrest hends hfuel

/-- A canonical text that fills the stream is one document. -/
theorem document_answers (hunit : 2 ≤ unit) (tree : Outline) {fuel : Nat} (first : TokenId)
    (hbefore : s.cursor.before = []) (hrest : s.cursor.rest = tree.text unit 0 ++ rest)
    (hends : Follows (-1) rest) (hfuel : 2 * tree.size ≤ fuel) :
    (document fuel first).Answers s fun d t => d.directives = [] ∧ d.startMarker = none ∧
      d.endMarker = none ∧ tree.Numbers s.next d.content ∧
      ∃ u, s.Spells (tree.text unit 0) (tree.glyphs unit ⟨1, 0⟩ 0) u ∧ t = u.skipLines := by
  have hopens : OpensRow s.cursor.rest := hrest ▸ (tree.opensRow_text hunit 0).append rest
  have hstart : s.cursor.atContentStart = true :=
    ParseState.atContentStart_of_opensRow hopens (by simp [Cursor.onlyBlanksBefore, hbefore])
  have hplace : s.place = ⟨1, 0⟩ := by
    rw [ParseState.place, hbefore]
    rfl
  have hpos := tree.size_pos
  obtain ⟨fuel, rfl⟩ : ∃ n, fuel = n + 1 := ⟨fuel - 1, by omega⟩
  unfold document
  refine (directives_of_opensRow fuel hopens).bind fun tokens t hdirectives => .get_bind ?_
  obtain ⟨rfl, rfl⟩ := hdirectives
  have hmarker : t.atStartMarker = false := by
    have hboundary := ParseState.atBoundary_eq hopens
    rw [ParseState.atBoundary, Lexeme.isMarker] at hboundary
    rw [ParseState.atStartMarker]
    simp_all
  extract_lets marked
  rw [if_neg (by simp [hmarker]), if_pos List.isEmpty_nil, pure_bind]
  dsimp only [marked]
  rw [if_neg (by simp), pure_bind, if_pos (show Node.empty.isEmpty = true from rfl)]
  refine (laterContent_answers hunit tree hstart hplace hrest hends hfuel).bind
    fun node w hcontent => ?_
  obtain ⟨hnumbers, u, hspells, hrests⟩ := hcontent
  refine (documentEnd_of_rests hrests (hspells.rest_eq hrest ▸ hends)).bind fun marker v hend =>
    .get_bind (.pure ?_)
  exact ⟨rfl, rfl, hend.1, hnumbers, u, hspells, hend.2⟩

/-- After the last document nothing more is read. -/
theorem documents_of_nil (fuel : Nat) (d : Document) (hrest : s.cursor.rest = [])
    (hemitted : s.emitted ≠ []) :
    (documents (fuel + 1) [d]).Answers s fun ds t => ds = [d] ∧ t = s := by
  obtain ⟨last, others, hcons⟩ := List.exists_cons_of_ne_nil hemitted
  rw [documents]
  refine .get_bind (.get_bind ?_)
  extract_lets ended
  rw [if_neg (by simp [Cursor.atContentStart, hrest])]
  refine .modify_bind ?_
  rw [ParseState.skipLines_of_nil hrest]
  refine .get_bind ?_
  rw [if_pos (by simp [hrest])]
  simp only [hcons, List.head?_cons, Nat.lt_irrefl, if_false]
  exact .pure ⟨rfl, rfl⟩

end Parse

namespace Outline

/-- A stream that holds one document without directives and markers, of the shape of the
outline, and the tokens of its canonical text. -/
structure Fills (tree : Outline) (unit : Nat) (stream : Stream) (d : Document) : Prop where
  documents_eq : stream.documents = [d]
  directives_eq : d.directives = []
  startMarker_eq : d.startMarker = none
  endMarker_eq : d.endMarker = none
  numbers : tree.Numbers 0 d.content
  fits : List.Forall₂ Glyph.Fits (tree.glyphs unit ⟨1, 0⟩ 0) stream.tokens.toList

/-- A canonical text is read as one document of the shape of the outline. -/
theorem documents_answers (hunit : 2 ≤ unit) (tree : Outline) (hfollows : Follows (-1) rest) :
    (Parse.documents (Parse.fuelFor (tree.text unit 0 ++ rest).length) []).Answers
      (.ofText (tree.text unit 0 ++ rest)) fun ds t => ∃ d, tree.Fills unit
        ⟨tree.text unit 0 ++ rest, t.emitted.reverse.toArray, ds⟩ d := by
  have hopens := (tree.opensRow_text hunit 0).append rest
  have hstart : (ParseState.ofText (tree.text unit 0 ++ rest)).cursor.atContentStart = true :=
    ParseState.atContentStart_of_opensRow hopens rfl
  have hsolid : ¬(ParseState.ofText (tree.text unit 0 ++ rest)).cursor.rest.isEmpty = true :=
    fun hnil => hopens.ne_nil (List.isEmpty_iff.mp hnil)
  have hfuel : 2 * tree.size ≤ 4 * (tree.text unit 0 ++ rest).length + 7 := by
    have := tree.size_le_length unit 0
    rw [List.length_append]
    omega
  rw [Parse.fuelFor, Parse.documents]
  refine .get_bind (.get_bind ?_)
  extract_lets ended
  rw [if_pos hstart]
  refine .get_bind ?_
  rw [if_neg hsolid]
  refine (Parse.document_answers hunit tree _ rfl rfl hfollows hfuel).bind fun d t hread => ?_
  obtain ⟨hdirectives, hstartMarker, hendMarker, hnumbers, u, hspells, rfl⟩ := hread
  have hafter : Follows (-1) u.cursor.rest := hspells.rest_eq rfl ▸ hfollows
  obtain ⟨tokens, hemitted, hfits⟩ := hspells.emitted
  have htokens : u.skipLines.emitted = tokens.reverse := by
    rw [ParseState.emitted_skipLines hafter, hemitted]
    exact List.append_nil _
  have hsome : u.skipLines.emitted ≠ [] := by
    have hlength := hfits.length_eq
    rw [tree.length_glyphs] at hlength
    rw [htokens]
    simpa using List.ne_nil_of_length_pos (hlength ▸ tree.size_pos)
  refine (Parse.documents_of_nil _ d (Parse.rest_skipLines_eq_nil hafter) hsome).mono
    fun ds t hlast => ⟨d, ?_⟩
  obtain ⟨rfl, rfl⟩ := hlast
  exact ⟨rfl, hdirectives, hstartMarker, hendMarker, hnumbers, by simpa [htokens] using hfits⟩

/-- A line feed may end a canonical text. -/
theorem exists_fills (hunit : 2 ≤ unit) (tree : Outline) (hends : rest = [] ∨ rest = ['\n']) :
    ∃ stream d, parse (tree.text unit 0 ++ rest) = .ok stream ∧ tree.Fills unit stream d := by
  have hfollows : Follows (-1) rest := by
    rcases hends with rfl | rfl
    · exact .done
    · exact .feed
  obtain ⟨ds, t, hrun, d, hfills⟩ := documents_answers hunit tree hfollows
  refine ⟨_, d, ?_, hfills⟩
  rw [parse, StateT.run, hrun]
  rfl

end Outline

end YamlLayout
