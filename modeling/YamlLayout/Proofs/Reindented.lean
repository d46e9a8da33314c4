import YamlLayout.Proofs.FlushLeft
import YamlLayout.Proofs.NodeShape
import YamlLayout.Proofs.RepairEdits
import YamlLayout.Proofs.ResolvedColumns
import YamlLayout.Proofs.TokenWalk

/-!
# Texts at another depth

Where a token stands on its line is the same in two texts that differ in the depth of
their lines only: the text in front of it is the same without its margin. So columns
on one line are as far apart in the one text as in the other, and the layout, the
columns it asks for and the measures of the lines are the same.
-/
namespace YamlLayout

namespace ParseState

variable {s t u : ParseState} {ps : List Piece} {b : BlockScalar} {i : TokenId}

/-- On the way from `s` to `t` the token number `i` is taken, with nothing passed over. -/
def TakesDirectly (s : ParseState) (i : TokenId) (t : ParseState) : Prop :=
  ∃ u v token value, s.Moves u ∧ u.Move v ∧ u.Takes token [] value v ∧ v.Moves t ∧ u.next = i

theorem TakesDirectly.extend (h : s.TakesDirectly i t) {start stop : ParseState}
    (hstart : start.Moves s) (hstop : t.Moves stop) : start.TakesDirectly i stop := by
  obtain ⟨u, v, token, value, hu, huv, htakes, hv, hnext⟩ := h
  exact ⟨u, v, token, value, hstart.trans hu, huv, htakes, hv.trans hstop, hnext⟩

theorem takesDirectly_push {kind : TokenKind} {n : Nat} (hkind : kind ≠ .comment)
    (h : s.Ahead n) : s.TakesDirectly s.next (s.push kind n) :=
  ⟨s, _, _, _, .refl, .token hkind h, takes_push h fun hc => absurd hc hkind, .refl, rfl⟩

/-- What is passed over holds no tokens but comments. -/
theorem Passes.takesDirectly (h : s.Passes t) (hi : s.next ≤ i) (hlt : i < t.next) :
    s.TakesDirectly i t := by
  induction h with
  | refl => exact absurd hi (Nat.not_le.mpr hlt)
  | @tail u v hpasses hpass ih =>
    have hmove : u.Move v := .pass hpass
    by_cases hprev : i < u.next
    · exact (ih hprev).extend .refl (.single hmove)
    cases hpass with
    | space n hspace => exact absurd hlt hprev
    | comment hpeek =>
      rw [next_push] at hlt
      have heq : u.next = i := Nat.le_antisymm (Nat.not_lt.mp hprev) (Nat.le_of_lt_succ hlt)
      exact ⟨u, _, _, _, Passes.moves hpasses, hmove, takes_comment hpeek, .refl, heq⟩

theorem ReadsBlock.body_or_takesDirectly (h : s.ReadsBlock b t) (hi : s.next ≤ i)
    (hlt : i < t.next) : b.body = some i ∨ s.TakesDirectly i t := by
  have hopening : ∀ {opened v : ParseState}, s.Opens b opened → opened.Passes v → v.Moves t →
      i < v.next → s.TakesDirectly i t := by
    intro opened v hopens hpasses hv hbefore
    have hmove := hopens.move
    obtain ⟨n, hahead, rfl⟩ := hopens.exists_ahead
    by_cases hheader : i = s.next
    · rw [hheader]
      exact (takesDirectly_push (by decide) hahead).extend .refl (hpasses.moves.trans hv)
    · have hlater : (s.push .punctuator n).next ≤ i := by
        rw [next_push]
        exact Nat.lt_of_le_of_ne hi (Ne.symm hheader)
      exact (hpasses.takesDirectly hlater hbefore).extend (.single hmove) hv
  cases h with
  | bare hopens hpasses hbody => exact .inr (hopening hopens hpasses .refl hlt)
  | @filled _ v _ _ _ hopens hpasses hends hfound hbody =>
    rw [next_push, next_skip] at hlt
    by_cases hbefore : i < v.next
    · exact .inr (hopening hopens hpasses (.single (.body hends hfound)) hbefore)
    · have heq : i = v.next := Nat.le_antisymm (Nat.le_of_lt_succ hlt) (Nat.not_lt.mp hbefore)
      exact .inl (heq ▸ hbody)

/-- Every token but the bodies of block scalars is taken with nothing passed over. -/
theorem Reads.body_or_takesDirectly (h : s.Reads ps t) (hi : s.next ≤ i) (hlt : i < t.next) :
    (∃ b, .block b ∈ ps ∧ b.body = some i) ∨ s.TakesDirectly i t := by
  induction h with
  | done => exact absurd hi (Nat.not_le.mpr hlt)
  | @pass s v u ps hpass r ih =>
    by_cases hnew : v.next ≤ i
    · exact (ih hnew hlt).imp_right (·.extend (.single (.pass hpass)) .refl)
    · have htakes := Passes.takesDirectly (.single hpass) hi (Nat.not_le.mp hnew)
      exact .inr (htakes.extend .refl r.moves)
  | @token s u ps kind n hkind hahead r ih =>
    by_cases hnew : i = s.next
    · rw [hnew]
      exact .inr ((takesDirectly_push hkind hahead).extend .refl r.moves)
    · have hlater : (s.push kind n).next ≤ i := by
        rw [next_push]
        exact Nat.lt_of_le_of_ne hi (Ne.symm hnew)
      rcases ih hlater hlt with ⟨b, hb, hbody⟩ | htakes
      · exact .inl ⟨b, List.mem_cons_of_mem _ hb, hbody⟩
      · exact .inr (htakes.extend (.single (.token hkind hahead)) .refl)
  | @block s v u ps b hblock r ih =>
    by_cases hnew : v.next ≤ i
    · rcases ih hnew hlt with ⟨b', hb, hbody⟩ | htakes
      · exact .inl ⟨b', List.mem_cons_of_mem _ hb, hbody⟩
      · exact .inr (htakes.extend hblock.moves .refl)
    · rcases hblock.body_or_takesDirectly hi (Nat.not_le.mp hnew) with hbody | htakes
      · exact .inl ⟨b, List.mem_cons_self .., hbody⟩
      · exact .inr (htakes.extend .refl r.moves)

end ParseState

theorem head?_ne_of_isSpace {c : Char} {cs : List Char} (h : isSpace c = false) :
    (c :: cs).head? ≠ some ' ' := by
  intro heq
  obtain rfl : c = ' ' := by simpa using heq
  cases h

theorem Token.Stands.unique {t : Token} {text before value after before' value' after' : List Char}
    (h : t.Stands text before value after) (h' : t.Stands text before' value' after') :
    before = before' ∧ value = value' := by
  have hrange := h.range_eq.symm.trans h'.range_eq
  rw [Span.mk.injEq] at hrange
  obtain ⟨rfl, hrest⟩ := Text.eq_of_byteLength_eq (h.text_eq.symm.trans h'.text_eq) hrange.1
  obtain ⟨rfl, -⟩ := Text.eq_of_byteLength_eq hrest (by omega)
  exact ⟨rfl, rfl⟩

theorem Token.Stands.startLine_le_count {t : Token} {text before value after : List Char}
    (h : t.Stands text before value after) : t.startLine ≤ (LineTable.ofText text).count := by
  rw [← h.lineOf_start]
  exact LineTable.lineOf_le_count ..

theorem Token.Stands.toList_value {t : Token} {text before value after : List Char}
    (h : t.Stands text before value after) : t.value.toList = value := by
  rw [h.value_eq, String.toList_ofList]

theorem Cursor.column_of_head?_ne {c : Cursor} (h : c.before.head? ≠ some '\n') :
    c.column = (c.before.takeWhile (· != '\n')).length := by
  unfold column position
  split
  · rename_i hbefore
    rw [hbefore] at h
    exact absurd rfl h
  · rfl

/-- A token within a line ends behind its start by the number of its characters. -/
theorem Token.InPlace.past_column_eq {t : Token} {text before value after : List Char}
    (h : t.InPlace text) (hstands : t.Stands text before value after) (hfeed : '\n' ∉ value) :
    t.past.column = t.first.column + value.length := by
  let c : Cursor := ⟨(before ++ value).reverse, after⟩
  have htext : c.text = text := by
    rw [Cursor.text, List.reverse_reverse, List.append_assoc]
    exact hstands.text_eq.symm
  have hoffset : c.offset = t.range.stop := by
    rw [hstands.range_eq, Cursor.offset, Text.byteLength_reverse, Text.byteLength_append]
  have hhead : c.before.head? ≠ some '\n' := by
    intro hlast
    rw [List.head?_reverse, List.getLast?_append_of_ne_nil _ hstands.ne_nil] at hlast
    exact hfeed (List.mem_of_mem_getLast? hlast)
  have hgoes : ∀ d ∈ value.reverse, (d != '\n') = true := by
    intro d hd
    have hne : d ≠ '\n' := fun heq => hfeed (heq ▸ List.mem_reverse.mp hd)
    simpa using hne
  have hbefore : c.before = value.reverse ++ before.reverse := List.reverse_append
  have hcolumn := Cursor.column_of_head?_ne hhead
  rw [Cursor.column, c.position_eq, htext, hoffset, ← h.past_eq, hbefore] at hcolumn
  rw [hcolumn, h.column_eq hstands, List.takeWhile_append_of_pos hgoes,
    List.length_append, List.length_reverse, Nat.add_comm]

namespace Stream

variable {stream other : Stream} {s : ParseState} {i j : TokenId} {a b : Token}

/-- The token is the body of a block scalar. -/
def IsBody (stream : Stream) (i : TokenId) : Prop :=
  ∃ b, .block b ∈ stream.pieces ∧ b.body = some i

theorem isBody_iff :
    stream.IsBody i ↔
      ∃ b ∈ stream.documents.flatMap (·.content.blockScalars), b.body = some i := by
  constructor
  · rintro ⟨b, hb, hbody⟩
    obtain ⟨d, hd, hpiece⟩ := List.mem_flatMap.mp hb
    refine ⟨b, List.mem_flatMap.mpr ⟨d, hd, ?_⟩, hbody⟩
    rw [Node.blockScalars_eq]
    have hcontent : .block b ∈ d.content.pieces := by
      simpa [Document.pieces, Piece.mark] using hpiece
    exact List.mem_filterMap.mpr ⟨_, hcontent, rfl⟩
  · rintro ⟨b, hb, hbody⟩
    exact ⟨b, @block_mem_pieces stream b default hb, hbody⟩

/-- The text up to the end of the token in front of number `i`. -/
def EndsBefore (stream : Stream) (i : TokenId) (front : List Char) : Prop :=
  (i = 0 ∧ front = []) ∨
    ∃ k b before x after, i = k + 1 ∧ stream.tokens[k]? = some b ∧
      b.Stands stream.text before x after ∧ front = before ++ x

/-- A body stands behind whole lines and spaces. -/
theorem ReadTo.exists_stands_body (h : stream.ReadTo s) (hbody : stream.IsBody i) :
    ∃ a whole n value after, stream.tokens[i]? = some a ∧
      a.Stands stream.text (whole ++ List.replicate n ' ') value after ∧
      Text.WholeLines whole := by
  obtain ⟨b, hb, hi⟩ := hbody
  obtain ⟨u, v, parent, p, body, a, hu, hreads, -, -, -, ha⟩ := h.exists_readsBody hb hi
  have hstands := hreads.takes.stands
  rw [hu.text_eq, p.margin_eq, ← List.append_assoc] at hstands
  exact ⟨a, _, _, _, _, ha, hstands, hreads.wholeLines_before⟩

/-- Every other token stands behind spaces, and it starts with another character. -/
theorem ReadTo.exists_stands_of_not_isBody (h : stream.ReadTo s)
    (ha : stream.tokens[i]? = some a) (hbody : ¬stream.IsBody i) :
    ∃ front mid c cs after, stream.EndsBefore i front ∧
      a.Stands stream.text (front ++ mid) (c :: cs) after ∧
      (∀ d ∈ mid, isSpace d = true) ∧ isSpace c = false := by
  rw [h.tokens_eq, List.getElem?_toArray] at ha
  have hlt : i < s.next := by
    have := (List.getElem?_eq_some_iff.mp ha).1
    simpa [ParseState.next] using this
  obtain ⟨u, v, token, value, hu, huv, htakes, hv, hnext⟩ :=
    (h.reads.body_or_takesDirectly (Nat.zero_le i) hlt).resolve_left hbody
  have htoken := htakes.getElem?_eq hv
  rw [hnext, ha, Option.some.injEq] at htoken
  subst htoken
  have hstands := htakes.stands
  rw [hu.text_eq, List.append_nil] at hstands
  obtain ⟨c, cs, rfl⟩ := List.exists_cons_of_ne_nil hstands.ne_nil
  have hc : isSpace c = false := htakes.clear rfl c rfl
  cases i with
  | zero =>
    obtain ⟨mid, hmid, hspaces⟩ := hu.exists_spaces (Nat.le_of_eq hnext)
    have hbefore : u.cursor.before.reverse = [] ++ mid := by
      rw [hmid.before_eq]
      simp [ParseState.ofText, Cursor.ofText]
    exact ⟨[], mid, c, cs, _, .inl ⟨rfl, rfl⟩, hbefore ▸ hstands, hspaces, hc⟩
  | succ k =>
    obtain ⟨u', v', b, lead, x, hu', -, hx, hv', hk⟩ :=
      hu.exists_takes (Nat.zero_le k) (hnext ▸ Nat.lt_succ_self k)
    have hb := hx.getElem?_eq ((hv'.tail huv).trans hv)
    rw [hk, ← List.getElem?_toArray, ← h.tokens_eq] at hb
    have hlast := hx.stands
    rw [hu'.text_eq] at hlast
    obtain ⟨mid, hmid, hspaces⟩ := hv'.exists_spaces (by rw [hx.next_eq, hk, hnext])
    have hbefore : u.cursor.before.reverse = (u'.cursor.before.reverse ++ lead ++ x) ++ mid := by
      rw [hmid.before_eq, hx.between.before_eq]
      simp
    exact ⟨_, mid, c, cs, _, .inr ⟨k, b, _, x, _, rfl, hb, hlast, rfl⟩, hbefore ▸ hstands,
      hspaces, hc⟩

theorem ReadTo.exists_cons_of_not_isBody {before x after : List Char} (h : stream.ReadTo s)
    (ha : stream.tokens[i]? = some a) (hbody : ¬stream.IsBody i)
    (hstands : a.Stands stream.text before x after) : ∃ c cs, x = c :: cs ∧ isSpace c = false := by
  obtain ⟨front, mid, c, cs, rest, -, hbehind, -, hc⟩ := h.exists_stands_of_not_isBody ha hbody
  exact ⟨c, cs, (hstands.unique hbehind).2, hc⟩

theorem ReadTo.head?_ne_of_not_isBody {before x after : List Char} (h : stream.ReadTo s)
    (ha : stream.tokens[i]? = some a) (hbody : ¬stream.IsBody i)
    (hstands : a.Stands stream.text before x after) : x.head? ≠ some ' ' := by
  obtain ⟨c, cs, rfl, hc⟩ := h.exists_cons_of_not_isBody ha hbody hstands
  exact head?_ne_of_isSpace hc

/-- No other token starts on the line of a body. -/
theorem ReadTo.not_isBody_of_line (h : stream.ReadTo s) (ha : stream.tokens[i]? = some a)
    (hb : stream.tokens[j]? = some b) (hne : i ≠ j) (hline : a.startLine = b.startLine) :
    ¬stream.IsBody i := by
  rintro ⟨c, hc, hi⟩
  obtain ⟨t, hat, -⟩ := h.exists_bodyAt hc hi
  obtain rfl : a = t := Option.some.inj (ha.symm.trans hat.token_eq)
  have hle := hat.start_le
  rcases Nat.lt_or_gt_of_ne hne with hlt | hlt
  · have hafter := hat.after j b hlt hb
    omega
  · have hbefore := (hat.before j b hlt hb).1
    omega

end Stream

/-- Tokens that are the same but for their columns and the depth of their later lines. -/
structure Token.Reindented (a b : Token) : Prop where
  kind_eq : a.kind = b.kind
  startLine_eq : a.startLine = b.startLine
  endLine_eq : a.endLine = b.endLine
  value_eq : Text.flush true a.value.toList = Text.flush true b.value.toList

instance (a b : Token) : Decidable (a.Reindented b) :=
  decidable_of_iff (a.kind = b.kind ∧ a.startLine = b.startLine ∧ a.endLine = b.endLine ∧
      Text.flush true a.value.toList = Text.flush true b.value.toList)
    ⟨fun h => ⟨h.1, h.2.1, h.2.2.1, h.2.2.2⟩,
      fun h => ⟨h.kind_eq, h.startLine_eq, h.endLine_eq, h.value_eq⟩⟩

/-- Two texts that differ only in the depth of their lines, and that are read in the
same way. -/
structure Stream.Reindented (stream other : Stream) : Prop where
  parse_eq : parse stream.text = .ok stream
  parse_eq' : parse other.text = .ok other
  text_eq : Text.flush true stream.text = Text.flush true other.text
  tokens : List.Forall₂ Token.Reindented stream.tokens.toList other.tokens.toList
  documents_eq : stream.documents.map (Document.shape false) =
    other.documents.map (Document.shape false)

namespace Text

variable {text text' front front' mid mid' after after' : List Char} {c c' : Char}

/-- Behind the same text, spaces up to another character are the same. -/
theorem flush_eq_of_spaces (htext : flush true text = flush true text')
    (h : text = front ++ (mid ++ c :: after)) (h' : text' = front' ++ (mid' ++ c' :: after'))
    (hfront : flush true front = flush true front')
    (hmid : ∀ d ∈ mid, isSpace d = true) (hmid' : ∀ d ∈ mid', isSpace d = true)
    (hc : isSpace c = false) (hc' : isSpace c' = false) :
    flush true (front ++ mid) = flush true (front' ++ mid') := by
  have hcut : ∀ {mid after : List Char} {c : Char} (margin : Bool),
      (∀ d ∈ mid, isSpace d = true) → isSpace c = false →
      (flush margin (mid ++ c :: after)).takeWhile isSpace = flush margin mid := by
    intro mid after c margin hmid hc
    have hne : c ≠ ' ' := by
      rintro rfl
      cases hc
    have hgoes : ∀ d ∈ flush margin mid, isSpace d = true := fun d hd =>
      hmid d (mem_of_mem_flush hd)
    rw [flush_append, flush_cons_of_ne hne, List.takeWhile_append_of_pos hgoes,
      List.takeWhile_cons_of_neg (by simp [hc]), List.append_nil]
  have hmargin := atMargin_congr hfront
  rw [h, h', flush_append, flush_append true front', hfront, List.append_cancel_left_eq,
    ← hmargin] at htext
  have hspaces := congrArg (List.takeWhile isSpace) htext
  rw [hcut _ hmid hc, hcut _ hmid' hc'] at hspaces
  rw [flush_append, flush_append, hfront, ← hmargin, hspaces]

/-- As many whole lines and spaces are the same. -/
theorem flush_eq_of_wholeLines {n n' : Nat} (htext : flush true text = flush true text')
    (h : text = front ++ (List.replicate n ' ' ++ after))
    (h' : text' = front' ++ (List.replicate n' ' ' ++ after'))
    (hfront : WholeLines front) (hfront' : WholeLines front')
    (hcount : front.count '\n' = front'.count '\n') :
    flush true (front ++ List.replicate n ' ') = flush true (front' ++ List.replicate n' ' ') := by
  rw [h, h', flush_append, flush_append true front'] at htext
  have hlines := hfront.flush.append_inj hfront'.flush (by rw [count_flush, count_flush, hcount])
    htext
  rw [flush_append, flush_append, hlines, hfront.atMargin, hfront'.atMargin, flush_spaces,
    flush_spaces]

end Text

namespace Stream.Reindented

variable {stream other : Stream} {i j : TokenId} {a b a' b' : Token}

theorem size_eq (h : stream.Reindented other) : stream.tokens.size = other.tokens.size :=
  h.tokens.length_eq

theorem token (h : stream.Reindented other) (ha : stream.tokens[i]? = some a)
    (hb : other.tokens[i]? = some b) : a.Reindented b := by
  obtain ⟨hi, rfl⟩ := Array.getElem?_eq_some_iff.mp ha
  obtain ⟨hi', rfl⟩ := Array.getElem?_eq_some_iff.mp hb
  exact List.Forall₂.get h.tokens hi hi'

theorem exists_token (h : stream.Reindented other) (ha : stream.tokens[i]? = some a) :
    ∃ b, other.tokens[i]? = some b ∧ a.Reindented b := by
  have hlt : i < other.tokens.size := h.size_eq ▸ (Array.getElem?_eq_some_iff.mp ha).1
  have hb := Array.getElem?_eq_getElem hlt
  exact ⟨_, hb, h.token ha hb⟩

theorem getElem?_eq_none (h : stream.Reindented other) (ha : stream.tokens[i]? = none) :
    other.tokens[i]? = none := by
  rw [Array.getElem?_eq_none_iff] at ha ⊢
  exact h.size_eq ▸ ha

theorem isBody_iff (h : stream.Reindented other) : stream.IsBody i ↔ other.IsBody i := by
  have hblocks := congrArg (List.flatMap (·.content.blockScalars)) h.documents_eq
  simp only [List.flatMap_map, Document.shape, Node.blockScalars_shape] at hblocks
  rw [Stream.isBody_iff, Stream.isBody_iff, hblocks]

/-- Without their margin, the texts are the same up to the start of a token and up to
its end. -/
theorem flush_eq (h : stream.Reindented other) {before x after before' x' after' : List Char}
    (ha : stream.tokens[i]? = some a) (hb : other.tokens[i]? = some b)
    (hstands : a.Stands stream.text before x after)
    (hstands' : b.Stands other.text before' x' after') :
    Text.flush true before = Text.flush true before' ∧
      Text.flush true (before ++ x) = Text.flush true (before' ++ x') := by
  induction i using Nat.strongRecOn generalizing a b before x after before' x' after' with
  | ind i ih =>
    obtain ⟨-, s, hread⟩ := exists_readTo h.parse_eq
    obtain ⟨-, s', hread'⟩ := exists_readTo h.parse_eq'
    have htoken := h.token ha hb
    have hvalue : Text.flush true x = Text.flush true x' := by
      rw [← hstands.toList_value, ← hstands'.toList_value]
      exact htoken.value_eq
    have hfronts : ∀ {front front'}, stream.EndsBefore i front → other.EndsBefore i front' →
        Text.flush true front = Text.flush true front' := by
      rintro front front' (⟨rfl, rfl⟩ | ⟨k, c, l, m, r, rfl, hc, hm, rfl⟩)
        (⟨hzero, rfl⟩ | ⟨k', c', l', m', r', hk, hc', hm', rfl⟩)
      · rfl
      · cases hk
      · cases hzero
      · obtain rfl : k = k' := Nat.succ.inj hk
        exact (ih k (Nat.lt_succ_self k) hc hc' hm hm').2
    by_cases hbody : stream.IsBody i
    · obtain ⟨c, whole, n, value, rest, hc, hbehind, hwhole⟩ := hread.exists_stands_body hbody
      obtain ⟨c', whole', n', value', rest', hc', hbehind', hwhole'⟩ :=
        hread'.exists_stands_body (h.isBody_iff.mp hbody)
      obtain rfl : a = c := Option.some.inj (ha.symm.trans hc)
      obtain rfl : b = c' := Option.some.inj (hb.symm.trans hc')
      obtain ⟨rfl, rfl⟩ := hstands.unique hbehind
      obtain ⟨rfl, rfl⟩ := hstands'.unique hbehind'
      have hcount : whole.count '\n' = whole'.count '\n' := by
        have hline := htoken.startLine_eq
        rw [hstands.startLine_eq, hstands'.startLine_eq, List.count_append, List.count_append,
          List.count_replicate, List.count_replicate] at hline
        simpa using hline
      have hbefore := Text.flush_eq_of_wholeLines h.text_eq
        (by rw [hstands.text_eq, List.append_assoc]) (by rw [hstands'.text_eq, List.append_assoc])
        hwhole hwhole' hcount
      refine ⟨hbefore, ?_⟩
      rw [Text.flush_append, Text.flush_append true (whole' ++ _), hbefore,
        hwhole.atMargin_append_spaces, hwhole'.atMargin_append_spaces, hvalue]
    · obtain ⟨front, mid, c, cs, rest, hends, hbehind, hmid, hc⟩ :=
        hread.exists_stands_of_not_isBody ha hbody
      obtain ⟨front', mid', c', cs', rest', hends', hbehind', hmid', hc'⟩ :=
        hread'.exists_stands_of_not_isBody hb (mt h.isBody_iff.mpr hbody)
      obtain ⟨rfl, rfl⟩ := hstands.unique hbehind
      obtain ⟨rfl, rfl⟩ := hstands'.unique hbehind'
      have hbefore := Text.flush_eq_of_spaces h.text_eq
        (by rw [hstands.text_eq, List.append_assoc, List.cons_append])
        (by rw [hstands'.text_eq, List.append_assoc, List.cons_append])
        (hfronts hends hends') hmid hmid' hc hc'
      refine ⟨hbefore, ?_⟩
      rw [Text.flush_append, Text.flush_append true (front' ++ mid'), hbefore,
        Text.flush_eq_of_head? (head?_ne_of_isSpace hc),
        Text.flush_eq_of_head? (head?_ne_of_isSpace hc'), hvalue]

/-- On one line tokens are as far apart at any depth. -/
theorem column_sub_eq (h : stream.Reindented other) (ha : stream.tokens[i]? = some a)
    (hb : stream.tokens[j]? = some b) (ha' : other.tokens[i]? = some a')
    (hb' : other.tokens[j]? = some b') (hij : i < j) (hline : a.startLine = b.startLine) :
    (b.first.column : Int) - a.first.column = b'.first.column - a'.first.column ∧
      (b.first.column : Int) - a.past.column = b'.first.column - a'.past.column := by
  have hplace := inPlace_of_parse h.parse_eq
  have hplace' := inPlace_of_parse h.parse_eq'
  obtain ⟨-, s, hread⟩ := exists_readTo h.parse_eq
  obtain ⟨-, s', hread'⟩ := exists_readTo h.parse_eq'
  have hline' : a'.startLine = b'.startLine := by
    rw [← (h.token ha ha').startLine_eq, ← (h.token hb hb').startLine_eq, hline]
  obtain ⟨before, x, mid, y, after, hapart⟩ := hread.exists_apart ha hb hij
  obtain ⟨before', x', mid', y', after', hapart'⟩ := hread'.exists_apart ha' hb' hij
  have hfeed := hapart.feed_not_mem hline
  have hfeed' := hapart'.feed_not_mem hline'
  have hbody := hread.not_isBody_of_line ha hb (Nat.ne_of_lt hij) hline
  have hbody' := hread'.not_isBody_of_line ha' hb' (Nat.ne_of_lt hij) hline'
  have hsolid := hread.head?_ne_of_not_isBody ha hbody hapart.left
  have hsolid' := hread'.head?_ne_of_not_isBody ha' hbody' hapart'.left
  have hx : x = x' := by
    have hvalue := (h.token ha ha').value_eq
    rw [hapart.left.toList_value, hapart'.left.toList_value] at hvalue
    rwa [Text.flush_eq_self (fun hmem => hfeed (List.mem_append_left _ hmem)) hsolid,
      Text.flush_eq_self (fun hmem => hfeed' (List.mem_append_left _ hmem)) hsolid'] at hvalue
  have hwidth : x ++ mid = x' ++ mid' := by
    have hstart := (h.flush_eq ha ha' hapart.left hapart'.left).1
    have hstop := (h.flush_eq hb hb' hapart.right hapart'.right).1
    have hhead : ∀ {l r : List Char}, l ≠ [] → l.head? ≠ some ' ' → (l ++ r).head? ≠ some ' ' := by
      intro l r hne hl
      rwa [List.head?_append_of_ne_nil _ hne]
    rwa [Text.flush_append, Text.flush_append true before', hstart, List.append_cancel_left_eq,
      Text.flush_eq_self hfeed (hhead hapart.left.ne_nil hsolid),
      Text.flush_eq_self hfeed' (hhead hapart'.left.ne_nil hsolid')] at hstop
  have hin := hplace.tokens a (Array.mem_of_getElem? ha)
  have hin' := hplace'.tokens a' (Array.mem_of_getElem? ha')
  have hcolumn := hapart.column_eq hin (hplace.tokens b (Array.mem_of_getElem? hb)) hline
  have hcolumn' := hapart'.column_eq hin' (hplace'.tokens b' (Array.mem_of_getElem? hb')) hline'
  have hpast := hin.past_column_eq hapart.left fun hmem => hfeed (List.mem_append_left _ hmem)
  have hpast' := hin'.past_column_eq hapart'.left fun hmem => hfeed' (List.mem_append_left _ hmem)
  rw [hwidth] at hcolumn
  rw [hx] at hpast
  omega

theorem gap?_eq (h : stream.Reindented other) (style : Style) (i j : TokenId) :
    (LayoutContext.ofStyle stream.tokens style).gap? i j =
      (LayoutContext.ofStyle other.tokens style).gap? i j := by
  unfold LayoutContext.gap?
  simp only [LayoutContext.ofStyle, Option.bind_eq_bind]
  cases ha : stream.tokens[i]? with
  | none => rw [h.getElem?_eq_none ha, Option.bind_none, Option.bind_none]
  | some a =>
    obtain ⟨a', ha', hleft⟩ := h.exists_token ha
    rw [ha', Option.bind_some, Option.bind_some]
    cases hb : stream.tokens[j]? with
    | none => rw [h.getElem?_eq_none hb, Option.bind_none, Option.bind_none]
    | some b =>
      obtain ⟨b', hb', hright⟩ := h.exists_token hb
      rw [hb', Option.bind_some, Option.bind_some, ← hleft.startLine_eq, ← hright.startLine_eq]
      split
      · rename_i hline
        rw [Option.some.injEq]
        rcases Nat.lt_trichotomy i j with hij | rfl | hij
        · exact (h.column_sub_eq ha hb ha' hb' hij hline).1
        · rw [ha, Option.some.injEq] at hb
          rw [ha', Option.some.injEq] at hb'
          rw [hb, hb', Int.sub_self, Int.sub_self]
        · have hback := (h.column_sub_eq hb ha hb' ha' hij hline.symm).1
          omega
      · rfl

theorem isFirstOnLine_eq (h : stream.Reindented other) (i : TokenId) :
    isFirstOnLine stream.tokens i = isFirstOnLine other.tokens i := by
  cases i with
  | zero => rfl
  | succ k =>
    unfold isFirstOnLine
    dsimp only
    cases hb : stream.tokens[k + 1]? with
    | none =>
      rw [h.getElem?_eq_none hb]
      cases stream.tokens[k]? <;> cases other.tokens[k]? <;> rfl
    | some b =>
      obtain ⟨b', hb', hright⟩ := h.exists_token hb
      rw [hb']
      cases ha : stream.tokens[k]? with
      | none => rw [h.getElem?_eq_none ha]
      | some a =>
        obtain ⟨a', ha', hleft⟩ := h.exists_token ha
        rw [ha']
        simp only [hleft.endLine_eq, hright.startLine_eq]

/-- Only scalars can differ in the depth of their lines. -/
theorem value_eq (h : stream.Reindented other) (ha : stream.tokens[i]? = some a)
    (hb : other.tokens[i]? = some b) (hkind : a.kind ≠ .scalar) : a.value = b.value := by
  have hline : ∀ {stream : Stream} {t : Token}, parse stream.text = .ok stream →
      stream.tokens[i]? = some t → t.kind ≠ .scalar →
      Text.flush true t.value.toList = t.value.toList := by
    intro stream t hparse ht hkind
    have hin := (inPlace_of_parse hparse).tokens t (Array.mem_of_getElem? ht)
    obtain ⟨-, s, hread⟩ := exists_readTo hparse
    obtain ⟨before, x, after, hstands⟩ := hread.exists_stands ht
    have hbody : ¬stream.IsBody i := by
      rintro ⟨c, hc, hi⟩
      obtain ⟨u, hat, -⟩ := hread.exists_bodyAt hc hi
      obtain rfl : t = u := Option.some.inj (ht.symm.trans hat.token_eq)
      exact hkind hat.kind_eq
    have hsolid := hread.head?_ne_of_not_isBody ht hbody hstands
    rw [← hstands.toList_value] at hsolid
    exact Text.flush_eq_self (fun hfeed => hkind (hin.kind_eq (.inr hfeed))) hsolid true
  have htoken := h.token ha hb
  have hvalue := htoken.value_eq
  rw [hline h.parse_eq ha hkind, hline h.parse_eq' hb (htoken.kind_eq ▸ hkind)] at hvalue
  exact String.toList_inj.mp hvalue

theorem isMark_eq (h : stream.Reindented other) (ha : stream.tokens[i]? = some a)
    (hb : other.tokens[i]? = some b) : a.isMark = b.isMark := by
  have hkind := (h.token ha hb).kind_eq
  by_cases hmark : a.kind = .punctuator
  · have hvalue := h.value_eq ha hb (by simp [hmark])
    simp only [Token.isMark, Token.isPunctuator, hkind, hvalue]
  · have hnone : (a.kind == .punctuator) = false := beq_eq_false_iff_ne.mpr hmark
    simp only [Token.isMark, Token.isPunctuator, ← hkind, hnone, Bool.false_and]

theorem lineHeadFrom_eq (h : stream.Reindented other) (line : Nat) (head : TokenId) (n : Nat) :
    LayoutContext.lineHeadFrom stream.tokens line head n =
      LayoutContext.lineHeadFrom other.tokens line head n := by
  induction n generalizing head with
  | zero => rfl
  | succ n ih =>
    rw [LayoutContext.lineHeadFrom, LayoutContext.lineHeadFrom]
    cases ha : stream.tokens[n]? with
    | none => rw [h.getElem?_eq_none ha]
    | some a =>
      obtain ⟨b, hb, htoken⟩ := h.exists_token ha
      have hcomment : a.isComment = b.isComment := by
        rw [Token.isComment, Token.isComment, htoken.kind_eq]
      rw [hb]
      simp only [htoken.startLine_eq, h.isMark_eq ha hb, hcomment, ih]

/-- Nodes get the same rules at any depth. -/
theorem agrees (h : stream.Reindented other) (style : Style) :
    (LayoutContext.ofStyle stream.tokens style).Agrees (.ofStyle other.tokens style) := by
  constructor
  case unit_eq => rfl
  case valueIndent_eq => rfl
  case indentSequences_eq => rfl
  case entryOffset_eq =>
    intro dash value
    cases value with
    | none => rfl
    | some v =>
      have hfirst : isFirstOnLine (LayoutContext.ofStyle stream.tokens style).tokens dash =
          isFirstOnLine (LayoutContext.ofStyle other.tokens style).tokens dash :=
        h.isFirstOnLine_eq dash
      simp only [LayoutContext.entryOffset, hfirst, h.gap?_eq style dash v]
      rfl
  case lineHead_eq =>
    intro opening
    rw [LayoutContext.lineHead, LayoutContext.lineHead]
    simp only [LayoutContext.ofStyle]
    cases ha : stream.tokens[opening]? with
    | none => rw [h.getElem?_eq_none ha]
    | some a =>
      obtain ⟨b, hb, htoken⟩ := h.exists_token ha
      rw [hb]
      simp only [htoken.startLine_eq, h.lineHeadFrom_eq]

theorem layout_eq (h : stream.Reindented other) (style : Style) :
    Layout.ofStream stream style = Layout.ofStream other style := by
  apply Layout.ofStream_congr (h.agrees style) h.size_eq
  obtain ⟨-, s, hread⟩ := exists_readTo h.parse_eq
  obtain ⟨-, s', hread'⟩ := exists_readTo h.parse_eq'
  -- The tokens of the structure are all tokens but comments, so they are the same.
  have hids : stream.ids = other.ids := by
    rw [hread.ids_eq, hread'.ids_eq, h.size_eq]
    apply List.filter_congr
    intro i hi
    cases ha : stream.tokens[i]? with
    | none => rw [h.getElem?_eq_none ha]
    | some a =>
      obtain ⟨b, hb, htoken⟩ := h.exists_token ha
      rw [hb, Option.any_some, Option.any_some, Token.isComment, Token.isComment, htoken.kind_eq]
  have hnodup : stream.ids.Nodup := hread.pairwise_ids.imp Nat.ne_of_lt
  have hwhole : stream.documents.flatMap Document.ids <:+: stream.ids :=
    Stream.ids_eq_flatMap stream ▸ List.infix_refl _
  have hwhole' : other.documents.flatMap Document.ids <:+: stream.ids :=
    hids ▸ Stream.ids_eq_flatMap other ▸ List.infix_refl _
  exact Document.map_shape_eq hnodup hwhole hwhole' h.documents_eq

theorem column?_eq (h : stream.Reindented other) (style : Style) (t : TokenId) :
    (Layout.ofStream stream style).column? stream.tokens t =
      (Layout.ofStream other style).column? other.tokens t := by
  rw [h.layout_eq style]
  induction t using Nat.strongRecOn with
  | ind t ih =>
    rw [Layout.column?, Layout.column?]
    cases hrule : (Layout.ofStream other style).rule? t with
    | none => rfl
    | some rule =>
      cases hbase : rule.base with
      | none => simp only [hbase]
      | some base =>
        simp only [hbase]
        split
        · rename_i hlt
          rw [ih base hlt, h.isFirstOnLine_eq]
        · rfl

end Stream.Reindented

end YamlLayout
