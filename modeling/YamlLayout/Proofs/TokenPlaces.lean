import YamlLayout.Proofs.Reading.Stream

/-!
# Where tokens stand

Every token of a text that can be read is cut out of it. Between two tokens in a row
lie only spaces, unless a line feed does, and a comment is the last token of its line.
-/
namespace YamlLayout

/-- The token is `value`, which stands between `before` and `after` in the text. -/
structure Token.Stands (t : Token) (text before value after : List Char) : Prop where
  text_eq : text = before ++ (value ++ after)
  value_eq : t.value = String.ofList value
  range_eq : t.range =
    ⟨Text.byteLength before, Text.byteLength before + Text.byteLength value⟩
  startLine_eq : t.startLine = before.count '\n' + 1
  endLine_le : t.endLine ≤ (before ++ value).count '\n' + 1
  head_ne : value.head? ≠ some '\n'
  ne_nil : value ≠ []

theorem Token.Stands.start_lt_stop {t : Token} {text before value after : List Char}
    (h : t.Stands text before value after) : t.range.start < t.range.stop := by
  obtain ⟨c, cs, hvalue⟩ := List.exists_cons_of_ne_nil h.ne_nil
  have hsize := c.utf8Size_pos
  rw [h.range_eq, hvalue, Text.byteLength]
  dsimp only
  omega

theorem Cursor.line_of_rest_ne_nil {c : Cursor} (h : c.rest ≠ []) :
    c.line = c.before.count '\n' + 1 := by
  obtain ⟨d, ds, hrest⟩ := List.exists_cons_of_ne_nil h
  simp [line, position, hrest]

theorem Cursor.line_le (c : Cursor) : c.line ≤ c.before.count '\n' + 1 := by
  unfold line position
  split
  · rename_i hbefore
    rw [hbefore]
    simp
  · exact Nat.le_refl _

namespace ParseState

variable {s t u : ParseState}

theorem Move.text_eq (h : s.Move t) : t.cursor.text = s.cursor.text := by
  cases h with
  | pass h =>
    cases h with
    | space => exact Cursor.text_move ..
    | comment => exact text_push ..
  | token => exact text_push ..
  | body =>
    rw [text_push]
    exact Cursor.text_move ..

theorem Moves.text_eq (h : s.Moves t) : t.cursor.text = s.cursor.text := by
  induction h with
  | refl => rfl
  | tail _ h ih => rw [h.text_eq, ih]

/-- The characters between two states. -/
structure Between (s : ParseState) (mid : List Char) (t : ParseState) : Prop where
  rest_eq : s.cursor.rest = mid ++ t.cursor.rest
  before_eq : t.cursor.before = mid.reverse ++ s.cursor.before

theorem between_skip (s : ParseState) (n : Nat) :
    s.Between (s.cursor.rest.take n) (s.skip n) :=
  ⟨(List.take_append_drop ..).symm, rfl⟩

theorem between_push (s : ParseState) (kind : TokenKind) (n : Nat) :
    s.Between (s.cursor.rest.take n) (s.push kind n) :=
  ⟨(List.take_append_drop ..).symm, rfl⟩

theorem Between.trans {a b : List Char} (h : s.Between a t) (k : t.Between b u) :
    s.Between (a ++ b) u :=
  ⟨by simp [h.rest_eq, k.rest_eq], by simp [h.before_eq, k.before_eq]⟩

/-- What one move that reads a token does: it passes over `lead` and takes `value`. -/
structure Takes (s : ParseState) (token : Token) (lead value : List Char) (t : ParseState) :
    Prop where
  emitted_eq : t.emitted = token :: s.emitted
  between : s.Between (lead ++ value) t
  stands : token.Stands s.cursor.text (s.cursor.before.reverse ++ lead) value t.cursor.rest
  /-- Only the body of a block scalar starts on a later line. -/
  lead_eq : lead = [] ∨ '\n' ∈ lead
  clear : lead = [] → ∀ c, value.head? = some c → isSpace c = false
  ends : token.isComment = true → Lexeme.lineEnds (t.cursor.rest.dropWhile isBlank) = true

theorem takes_push {kind : TokenKind} {n : Nat} (h : s.Ahead n)
    (hends : kind = .comment → Lexeme.lineEnds ((s.cursor.rest.drop n).dropWhile isBlank) = true) :
    s.Takes (s.ahead kind n) [] (s.cursor.rest.take n) (s.push kind n) := by
  have hrest : s.cursor.rest ≠ [] := by
    intro hnil
    have := h.le
    rw [hnil] at this
    exact absurd h.pos (by simpa using this)
  obtain ⟨c, cs, hcons⟩ := List.exists_cons_of_ne_nil hrest
  have htake : (s.cursor.rest.take n).head? = some c := by
    rw [hcons, List.head?_take, if_neg (Nat.ne_of_gt h.pos)]
    rfl
  have hc : isSpace c = false := h.clear c (by simp [Cursor.peek?, hcons])
  constructor
  case emitted_eq => exact emitted_push ..
  case between => exact between_push ..
  case lead_eq => exact .inl rfl
  case clear =>
    intro _ d hd
    rw [htake, Option.some.injEq] at hd
    exact hd ▸ hc
  case ends =>
    intro hcomment
    exact hends (by simpa [Token.isComment, ahead] using hcomment)
  case stands =>
    constructor
    case text_eq => simp [Cursor.text]
    case value_eq => rfl
    case range_eq => simp [ahead, Cursor.offset, Cursor.move, Nat.add_comm]
    case startLine_eq =>
      change s.cursor.line = _
      rw [Cursor.line_of_rest_ne_nil hrest]
      simp
    case endLine_le =>
      change (s.cursor.move n).line ≤ _
      apply Nat.le_trans (Cursor.line_le _)
      simp [Cursor.move, Nat.add_comm]
    case head_ne =>
      rw [htake]
      intro hfeed
      rw [Option.some.injEq] at hfeed
      rw [hfeed] at hc
      cases hc
    case ne_nil =>
      intro hnil
      rw [hnil] at htake
      cases htake

theorem takes_comment (h : s.cursor.peek? = some '#') :
    s.Takes (s.ahead .comment (Lexeme.comment s.cursor.rest)) []
      (s.cursor.rest.take (Lexeme.comment s.cursor.rest))
      (s.push .comment (Lexeme.comment s.cursor.rest)) := by
  obtain ⟨cs, hrest⟩ := List.head?_eq_some_iff.mp h
  have hahead : s.Ahead (Lexeme.comment s.cursor.rest) := by
    refine ⟨fun c hc => ?_, ?_, Lexeme.comment_le _⟩
    · rw [h, Option.some.injEq] at hc
      exact hc ▸ rfl
    · rw [hrest]
      exact Lexeme.comment_pos cs
  exact takes_push hahead fun _ => Lexeme.lineEnds_after_comment _

theorem takes_body {parent : Int} {digit : Option Nat} {body : Lexeme.Body}
    (h : Lexeme.body? parent digit s.cursor.rest = some body) :
    ∃ p : Lexeme.BodyParts, p.Locates parent digit s.cursor.rest body ∧
      s.Takes ((s.skip body.skipped).ahead .scalar body.length) p.margin p.value
        ((s.skip body.skipped).push .scalar body.length) := by
  obtain ⟨p, hp⟩ := Lexeme.exists_bodyParts h
  refine ⟨p, hp, ?_⟩
  obtain ⟨ending, htext, -, -, hskipped, hlength⟩ := hp.exists_tail
  obtain ⟨c, cs, more, hvalue, hc, -, -⟩ := hp.exists_value
  have hmargin : s.cursor.rest.take body.skipped = p.margin := by
    rw [htext, ← hskipped, List.take_left]
  have hskip : (s.skip body.skipped).cursor.rest = p.value ++ (ending ++ p.after.flatten) := by
    change s.cursor.rest.drop body.skipped = _
    rw [htext, ← hskipped, List.drop_left]
  have htake : (s.skip body.skipped).cursor.rest.take body.length = p.value := by
    rw [hskip, ← hlength, List.take_left]
  have hbefore : (s.skip body.skipped).cursor.before.reverse =
      s.cursor.before.reverse ++ p.margin := by
    rw [(between_skip s body.skipped).before_eq, hmargin]
    simp
  have hpush := between_push (s.skip body.skipped) .scalar body.length
  rw [htake] at hpush
  have hskipped := between_skip s body.skipped
  rw [hmargin] at hskipped
  have hfeed : '\n' ∈ p.margin := by simp [Lexeme.BodyParts.margin]
  constructor
  case emitted_eq => exact emitted_push ..
  case between => exact hskipped.trans hpush
  case lead_eq => exact .inr hfeed
  case clear =>
    intro hnil
    rw [hnil] at hfeed
    cases hfeed
  case ends =>
    intro hcomment
    simp [Token.isComment, ahead] at hcomment
  case stands =>
    constructor
    case text_eq =>
      rw [← hpush.rest_eq, ← hbefore]
      exact (Cursor.text_move ..).symm
    case value_eq => simp only [ahead, htake]
    case range_eq =>
      simp only [ahead, Cursor.offset_move, htake]
      rw [← hbefore, Text.byteLength_reverse, Cursor.offset]
    case startLine_eq =>
      change (s.skip body.skipped).cursor.line = _
      rw [Cursor.line_of_rest_ne_nil (by simp [hskip, hvalue]), ← hbefore, List.count_reverse]
    case endLine_le =>
      change ((s.skip body.skipped).cursor.move body.length).line ≤ _
      apply Nat.le_trans (Cursor.line_le _)
      rw [← hbefore, ← htake]
      simp [Cursor.move, Nat.add_comm]
    case head_ne =>
      rw [hvalue]
      intro hhead
      exact hc (by simpa using hhead)
    case ne_nil => simp [hvalue]

/-- A move either takes a token or passes over spaces. -/
theorem Move.takes_or_spaces (h : s.Move t) :
    (∃ token lead value, s.Takes token lead value t) ∨
      ∃ mid, s.Between mid t ∧ t.emitted = s.emitted ∧ ∀ c ∈ mid, isSpace c = true := by
  cases h with
  | pass h =>
    cases h with
    | space n h => exact .inr ⟨_, between_skip s n, rfl, h⟩
    | comment h => exact .inl ⟨_, _, _, takes_comment h⟩
  | token hkind h =>
    exact .inl ⟨_, _, _, takes_push h fun hcomment => absurd hcomment hkind⟩
  | body _ hfound =>
    obtain ⟨p, -, htakes⟩ := takes_body hfound
    exact .inl ⟨_, _, _, htakes⟩

theorem Takes.next_eq {token : Token} {lead value : List Char} (h : s.Takes token lead value t) :
    t.next = s.next + 1 := by
  simp [next, h.emitted_eq]

/-- Between two states lies the text that is read from the one to the other. -/
theorem Moves.exists_between (h : s.Moves t) : ∃ mid, s.Between mid t := by
  induction h with
  | refl => exact ⟨[], by simp, by simp⟩
  | tail _ h ih =>
    obtain ⟨mid, hmid⟩ := ih
    rcases h.takes_or_spaces with ⟨_, _, _, htakes⟩ | ⟨_, hspaces, -⟩
    · exact ⟨_, hmid.trans htakes.between⟩
    · exact ⟨_, hmid.trans hspaces⟩

/-- Without a token only spaces are passed over. -/
theorem Moves.exists_spaces (h : s.Moves t) (hnext : t.next ≤ s.next) :
    ∃ mid, s.Between mid t ∧ ∀ c ∈ mid, isSpace c = true := by
  induction h with
  | refl => exact ⟨[], ⟨by simp, by simp⟩, by simp⟩
  | tail hmoves h ih =>
    have hle := Moves.next_le hmoves
    rcases h.takes_or_spaces with ⟨_, _, _, htakes⟩ | ⟨more, hmore, hemitted, hspaces⟩
    · rw [htakes.next_eq] at hnext
      exact absurd (Nat.le_trans hnext hle) (Nat.not_succ_le_self _)
    · rw [next, hemitted] at hnext
      obtain ⟨mid, hmid, hall⟩ := ih hnext
      refine ⟨mid ++ more, hmid.trans hmore, fun c hc => ?_⟩
      rcases List.mem_append.mp hc with hc | hc
      · exact hall c hc
      · exact hspaces c hc

/-- Every token of the last state has been taken by some move on the way. -/
theorem Moves.exists_takes {i : TokenId} (h : s.Moves t) (hi : s.next ≤ i) (hlt : i < t.next) :
    ∃ u v token lead value, s.Moves u ∧ u.Move v ∧ u.Takes token lead value v ∧ v.Moves t ∧
      u.next = i := by
  induction h with
  | refl => exact absurd (Nat.lt_of_le_of_lt hi hlt) (Nat.lt_irrefl _)
  | @tail u v hmoves hmove ih =>
    by_cases hprev : i < u.next
    · obtain ⟨u', v', token, lead, value, hu, huv, htakes, hv, heq⟩ := ih hprev
      exact ⟨u', v', token, lead, value, hu, huv, htakes, hv.tail hmove, heq⟩
    · have hge := Nat.not_lt.mp hprev
      rcases hmove.takes_or_spaces with ⟨token, lead, value, htakes⟩ | ⟨mid, -, hemitted, -⟩
      · rw [htakes.next_eq] at hlt
        exact ⟨u, v, token, lead, value, hmoves, hmove, htakes, .refl,
          Nat.le_antisymm hge (Nat.le_of_lt_succ hlt)⟩
      · rw [next, hemitted] at hlt
        exact absurd hlt hprev

/-- The token taken in a state is the one with the number of that state. -/
theorem Takes.getElem?_eq {token : Token} {lead value : List Char}
    (h : s.Takes token lead value t) (hmoves : t.Moves u) :
    u.emitted.reverse[s.next]? = some token := by
  obtain ⟨later, hlater⟩ := hmoves.emitted_suffix
  rw [h.emitted_eq] at hlater
  rw [← hlater]
  simp [next]

end ParseState

namespace Stream

variable {stream : Stream} {s : ParseState} {i j : TokenId} {a b : Token}

/-- The stream is what has been read of its text when the end is reached in `s`. -/
structure ReadTo (stream : Stream) (s : ParseState) : Prop where
  reads : (ParseState.ofText stream.text).Reads stream.pieces s
  rest_eq : s.cursor.rest = []
  tokens_eq : stream.tokens = s.emitted.reverse.toArray
  sound : ∀ d ∈ stream.documents, d.Sound stream.tokens.toList
  tiled : Document.Tiled stream.tokens.toList stream.documents.reverse stream.tokens.size

theorem exists_readTo {text : List Char} (h : parse text = .ok stream) :
    stream.text = text ∧ ∃ s, stream.ReadTo s := by
  obtain ⟨htext, s, hreads, hrest, htokens, hsound, htiled⟩ := exists_reads_of_parse h
  subst htext
  refine ⟨rfl, s, hreads, hrest, htokens, ?_, ?_⟩
  · rw [htokens]
    exact hsound
  · rw [htokens, List.size_toArray, List.length_reverse]
    exact htiled

theorem ReadTo.exists_takes (h : stream.ReadTo s) {start : ParseState}
    (hstart : (ParseState.ofText stream.text).Moves start) (hmoves : start.Moves s)
    (hi : start.next ≤ i) (ha : stream.tokens[i]? = some a) :
    ∃ u v lead value, start.Moves u ∧ u.Move v ∧ u.Takes a lead value v ∧ v.Moves s ∧
      u.next = i ∧ u.cursor.text = stream.text := by
  rw [h.tokens_eq, List.getElem?_toArray] at ha
  have hlt : i < s.next := by
    have := (List.getElem?_eq_some_iff.mp ha).1
    simpa [ParseState.next] using this
  obtain ⟨u, v, token, lead, value, hu, huv, htakes, hv, hnext⟩ := hmoves.exists_takes hi hlt
  have htoken := htakes.getElem?_eq hv
  rw [hnext, ha, Option.some.injEq] at htoken
  subst htoken
  refine ⟨u, v, lead, value, hu, huv, htakes, hv, hnext, ?_⟩
  exact ParseState.Moves.text_eq (hstart.trans hu)

/-- Every token is cut out of the text. -/
theorem ReadTo.exists_stands (h : stream.ReadTo s) (ha : stream.tokens[i]? = some a) :
    ∃ before value after, a.Stands stream.text before value after := by
  obtain ⟨u, v, lead, value, -, -, htakes, -, -, htext⟩ :=
    h.exists_takes .refl h.reads.moves (Nat.zero_le i) ha
  have hstands := htakes.stands
  rw [htext] at hstands
  exact ⟨_, _, _, hstands⟩

/-- One token stands in front of another, with `mid` between them. -/
structure Apart (text : List Char) (a b : Token) (before x mid y after : List Char) : Prop where
  left : a.Stands text before x (mid ++ (y ++ after))
  right : b.Stands text (before ++ (x ++ mid)) y after

theorem Apart.startLine_le {text before x mid y after : List Char}
    (h : Apart text a b before x mid y after) : a.startLine ≤ b.startLine := by
  rw [h.left.startLine_eq, h.right.startLine_eq, List.count_append]
  omega

theorem Apart.startLine_lt {text before x mid y after : List Char}
    (h : Apart text a b before x mid y after) (hfeed : '\n' ∈ mid) :
    a.startLine < b.startLine := by
  have hpos := List.count_pos_iff.mpr hfeed
  rw [h.left.startLine_eq, h.right.startLine_eq, List.count_append, List.count_append]
  omega

theorem apart_of_takes {text : List Char} {u v u' v' : ParseState}
    {lead x mid lead' y : List Char} (ha : u.Takes a lead x v) (hb : u'.Takes b lead' y v')
    (hmid : v.Between mid u') (hu : u.cursor.text = text) (hu' : u'.cursor.text = text) :
    Apart text a b (u.cursor.before.reverse ++ lead) x (mid ++ lead') y v'.cursor.rest := by
  have hrest : v.cursor.rest = mid ++ lead' ++ (y ++ v'.cursor.rest) := by
    rw [hmid.rest_eq, hb.between.rest_eq]
    simp
  have hbefore : u'.cursor.before.reverse ++ lead' =
      u.cursor.before.reverse ++ lead ++ (x ++ (mid ++ lead')) := by
    rw [hmid.before_eq, ha.between.before_eq]
    simp
  have hleft := ha.stands
  have hright := hb.stands
  rw [hu, hrest] at hleft
  rw [hu', hbefore] at hright
  exact ⟨hleft, hright⟩

/-- Tokens stand in the order of their numbers. -/
theorem ReadTo.exists_apart (h : stream.ReadTo s) (ha : stream.tokens[i]? = some a)
    (hb : stream.tokens[j]? = some b) (hij : i < j) :
    ∃ before x mid y after, Apart stream.text a b before x mid y after := by
  obtain ⟨u, v, lead, x, hu, huv, hx, hv, hnext, htext⟩ :=
    h.exists_takes .refl h.reads.moves (Nat.zero_le i) ha
  have hle : v.next ≤ j := by
    rw [hx.next_eq, hnext]
    exact hij
  obtain ⟨u', v', lead', y, hu', -, hy, -, -, htext'⟩ :=
    h.exists_takes (hu.tail huv) hv hle hb
  obtain ⟨mid, hmid⟩ := hu'.exists_between
  exact ⟨_, _, _, _, _, apart_of_takes hx hy hmid htext htext'⟩

theorem Apart.stop_le_start {text before x mid y after : List Char}
    (h : Apart text a b before x mid y after) : a.range.stop ≤ b.range.start := by
  rw [h.left.range_eq, h.right.range_eq]
  simp only [Text.byteLength_append]
  omega

/-- A token ends before any later one starts. -/
theorem ReadTo.stop_le_start (h : stream.ReadTo s) (ha : stream.tokens[i]? = some a)
    (hb : stream.tokens[j]? = some b) (hij : i < j) : a.range.stop ≤ b.range.start := by
  obtain ⟨_, _, _, _, _, hapart⟩ := h.exists_apart ha hb hij
  exact hapart.stop_le_start

theorem ReadTo.start_lt_stop (h : stream.ReadTo s) (hij : i ≤ j)
    (ha : stream.tokens[i]? = some a) (hb : stream.tokens[j]? = some b) :
    a.range.start < b.range.stop := by
  obtain ⟨_, _, _, hleft⟩ := h.exists_stands ha
  obtain ⟨_, _, _, hright⟩ := h.exists_stands hb
  rcases Nat.lt_or_eq_of_le hij with hlt | rfl
  · have hafter := h.stop_le_start ha hb hlt
    have hfirst := hleft.start_lt_stop
    have hlast := hright.start_lt_stop
    omega
  · rw [ha, Option.some.injEq] at hb
    exact hb ▸ hleft.start_lt_stop

/-- Between two tokens in a row lie only blanks, unless a line feed does. No token
follows a comment on its line. -/
theorem ReadTo.exists_between (h : stream.ReadTo s) (hpaired : Text.ReturnsPaired stream.text)
    (ha : stream.tokens[i]? = some a) (hb : stream.tokens[i + 1]? = some b) :
    ∃ before x mid y after, Apart stream.text a b before x mid y after ∧
      ('\n' ∈ mid ∨ (a.isComment = false ∧ ∀ c ∈ mid, isBlank c = true)) := by
  obtain ⟨u, v, lead, x, hu, huv, hx, hv, hnext, htext⟩ :=
    h.exists_takes .refl h.reads.moves (Nat.zero_le i) ha
  have hvnext : v.next = i + 1 := by rw [hx.next_eq, hnext]
  obtain ⟨u', v', lead', y, hu', -, hy, -, hnext', htext'⟩ :=
    h.exists_takes (hu.tail huv) hv (Nat.le_of_eq hvnext) hb
  obtain ⟨mid, hmid, hspaces⟩ := hu'.exists_spaces (Nat.le_of_eq (hnext'.trans hvnext.symm))
  have hapart := apart_of_takes hx hy hmid htext htext'
  refine ⟨_, _, _, _, _, hapart, ?_⟩
  rcases hy.lead_eq with rfl | hlead
  swap
  · exact .inl (List.mem_append_right _ hlead)
  by_cases hfeed : '\n' ∈ mid
  · exact .inl (List.mem_append_left _ hfeed)
  obtain ⟨c, cs, hcons⟩ := List.exists_cons_of_ne_nil hy.stands.ne_nil
  have hblanks : ∀ c ∈ mid, isBlank c = true := by
    intro c hc
    have hreturn : '\r' ∉ mid := by
      have hall := hapart.left.text_eq
      rw [List.append_nil, ← List.append_assoc] at hall
      rw [hall] at hpaired
      refine hpaired.not_mem hfeed ?_
      have hhead := hy.stands.head_ne
      rw [hcons] at hhead ⊢
      simpa using hhead
    have hspace := hspaces c hc
    simp only [isSpace, isBreak, Bool.or_eq_true, beq_iff_eq] at hspace
    rcases hspace with hblank | rfl | rfl
    · exact hblank
    · exact absurd hc hfeed
    · exact absurd hc hreturn
  refine .inr ⟨?_, by simpa using hblanks⟩
  rw [← Bool.not_eq_true]
  intro hcomment
  -- After a comment and its blanks the line ends, but the next token starts here.
  have hends := hx.ends hcomment
  have hsolid := hy.clear rfl c (by simp [hcons])
  simp only [isSpace, Bool.or_eq_false_iff] at hsolid
  have hrest : v.cursor.rest = mid ++ (c :: cs ++ v'.cursor.rest) := by
    rw [hmid.rest_eq, hy.between.rest_eq, hcons]
    simp
  rw [hrest, List.dropWhile_append_of_pos hblanks] at hends
  simp [hsolid.1, hsolid.2, Lexeme.lineEnds] at hends

end Stream

end YamlLayout
