import YamlLayout.Proofs.BodyRows
import YamlLayout.Proofs.RepairEdits

/-!
# Which bytes the tokens cover

Reading moves over every byte of a text, and what does not become part of a token is a
space, a tab or part of a line break. There is one exception. The body of a block scalar
starts after the next line feed, and a carriage return in front of it is taken for the
end of the header's line, so what stands between the two is passed over unseen.
-/
namespace YamlLayout

namespace Text

/-- The bytes of a text in UTF-8. -/
def bytes (text : List Char) : List UInt8 := text.flatMap String.utf8EncodeChar

@[simp] theorem bytes_append (a b : List Char) : bytes (a ++ b) = bytes a ++ bytes b :=
  List.flatMap_append ..

@[simp] theorem length_bytes (text : List Char) : (bytes text).length = byteLength text := by
  induction text with
  | nil => rfl
  | cons c cs ih =>
    rw [bytes, List.flatMap_cons, List.length_append, String.length_utf8EncodeChar]
    exact congrArg (c.utf8Size + ·) ih

theorem getElem?_bytes_append (a b : List Char) (k : Nat) :
    (bytes (a ++ b))[byteLength a + k]? = (bytes b)[k]? := by
  rw [bytes_append, List.getElem?_append_right (by simp), length_bytes, Nat.add_sub_cancel_left]

/-- A byte below 128 is a character of its own. -/
theorem toNat_eq_of_mem_utf8EncodeChar {c : Char} {b : UInt8} (h : b ∈ String.utf8EncodeChar c)
    (hb : b.toNat < 128) : c.toNat = b.toNat := by
  have hwide : ∀ n : Nat, 128 ≤ n → n < 256 → b ≠ UInt8.ofNat n := by
    intro n hlow hhigh heq
    rw [heq, UInt8.toNat_ofNat'] at hb
    omega
  unfold String.utf8EncodeChar at h
  simp only at h
  split at h
  · rename_i hsmall
    rw [List.mem_singleton] at h
    rw [h, UInt8.toNat_ofNat']
    show c.val.toNat = _
    omega
  -- All bytes of a longer encoding have their highest bit set.
  split at h
  · simp only [List.mem_cons, List.not_mem_nil, or_false] at h
    rcases h with h | h <;> exact absurd h (hwide _ (by omega) (by omega))
  split at h
  · simp only [List.mem_cons, List.not_mem_nil, or_false] at h
    rcases h with h | h | h <;> exact absurd h (hwide _ (by omega) (by omega))
  · simp only [List.mem_cons, List.not_mem_nil, or_false] at h
    rcases h with h | h | h | h <;> exact absurd h (hwide _ (by omega) (by omega))

theorem eq_of_mem_utf8EncodeChar {c d : Char} {b : UInt8} (h : b ∈ String.utf8EncodeChar c)
    (hd : d.toNat < 128 ∧ b.toNat = d.toNat) : c = d := by
  have hc := toNat_eq_of_mem_utf8EncodeChar h (hd.2 ▸ hd.1)
  rw [← Char.ofNat_toNat c, hc, hd.2, Char.ofNat_toNat]

/-- Every byte belongs to a character. -/
theorem exists_of_getElem?_bytes {text : List Char} {k : Nat} {b : UInt8}
    (h : (bytes text)[k]? = some b) :
    ∃ before c after, text = before ++ c :: after ∧ byteLength before ≤ k ∧
      k < byteLength before + c.utf8Size ∧ b ∈ String.utf8EncodeChar c := by
  induction text generalizing k with
  | nil => cases h
  | cons c cs ih =>
    rw [bytes, List.flatMap_cons] at h
    by_cases hk : k < c.utf8Size
    · rw [List.getElem?_append_left (by rwa [String.length_utf8EncodeChar])] at h
      exact ⟨[], c, cs, rfl, Nat.zero_le k, by simpa [byteLength] using hk,
        List.mem_of_getElem? h⟩
    · have hge : c.utf8Size ≤ k := Nat.not_lt.mp hk
      rw [List.getElem?_append_right (by rwa [String.length_utf8EncodeChar]),
        String.length_utf8EncodeChar] at h
      obtain ⟨before, d, after, rfl, hlow, hhigh, hmem⟩ := ih h
      refine ⟨c :: before, d, after, rfl, ?_, ?_, hmem⟩
      · rw [byteLength]
        omega
      · rw [byteLength]
        omega

end Text

/-- The bytes that separate tokens. -/
def isSpaceByte (b : UInt8) : Bool := b == 0x20 || b == 0x09 || b == 0x0D || b == 0x0A

theorem isSpaceByte_eq_of_mem {c : Char} {b : UInt8} (h : b ∈ String.utf8EncodeChar c) :
    isSpaceByte b = isSpace c := by
  rw [Bool.eq_iff_iff]
  constructor
  · intro hb
    simp only [isSpaceByte, Bool.or_eq_true, beq_iff_eq] at hb
    have hc : c.toNat = b.toNat := Text.toNat_eq_of_mem_utf8EncodeChar h (by
      rcases hb with ((rfl | rfl) | rfl) | rfl <;> decide)
    rw [← Char.ofNat_toNat c, hc]
    rcases hb with ((rfl | rfl) | rfl) | rfl <;> decide
  · intro hc
    simp only [isSpace, isBlank, isBreak, Bool.or_eq_true, beq_iff_eq] at hc
    rcases hc with (rfl | rfl) | rfl | rfl <;> (rw [List.mem_singleton.mp h]; decide)

def Token.Covers (t : Token) (k : Nat) : Prop := t.range.start ≤ k ∧ k < t.range.stop

instance (t : Token) (k : Nat) : Decidable (t.Covers k) :=
  inferInstanceAs (Decidable (_ ∧ _))

namespace ParseState

variable {s t u : ParseState} {ps : List Piece} {k : Nat} {lost : Nat → Prop}

/-- Every byte between two states is part of a token, a space, or one that may be lost. -/
def Accounted (s t : ParseState) (lost : Nat → Prop) : Prop :=
  ∀ k, s.cursor.offset ≤ k → k < t.cursor.offset →
    (∃ a ∈ t.emitted, a.Covers k) ∨
      (∃ b, (Text.bytes s.cursor.text)[k]? = some b ∧ isSpaceByte b = true) ∨ lost k

theorem Accounted.trans (h : s.Accounted t lost) (k : t.Accounted u lost)
    (htext : t.cursor.text = s.cursor.text) (hsuffix : t.emitted <:+ u.emitted) :
    s.Accounted u lost := by
  intro i hlow hhigh
  by_cases hi : i < t.cursor.offset
  · rcases h i hlow hi with ⟨a, ha, hcovers⟩ | hrest
    · exact .inl ⟨a, hsuffix.subset ha, hcovers⟩
    · exact .inr hrest
  · have hlater := k i (Nat.not_lt.mp hi) hhigh
    rwa [htext] at hlater

theorem Accounted.mono {more : Nat → Prop} (h : s.Accounted t lost)
    (hmore : ∀ k, lost k → more k) : s.Accounted t more := by
  intro k hlow hhigh
  rcases h k hlow hhigh with hcovers | hspace | hlost
  · exact .inl hcovers
  · exact .inr (.inl hspace)
  · exact .inr (.inr (hmore k hlost))

/-- The bytes between two states are those of the characters between them. -/
theorem Between.exists_char {mid : List Char} (h : s.Between mid t)
    (hlow : s.cursor.offset ≤ k) (hhigh : k < t.cursor.offset) :
    ∃ before c after b, mid = before ++ c :: after ∧
      s.cursor.offset + Text.byteLength before ≤ k ∧
      k < s.cursor.offset + Text.byteLength before + c.utf8Size ∧
      (Text.bytes s.cursor.text)[k]? = some b ∧ b ∈ String.utf8EncodeChar c := by
  have hend : t.cursor.offset = s.cursor.offset + Text.byteLength mid := by
    simp [Cursor.offset, h.before_eq, Nat.add_comm]
  have hbytes : (Text.bytes s.cursor.text)[k]? = (Text.bytes mid)[k - s.cursor.offset]? := by
    rw [Cursor.text, h.rest_eq, Text.bytes_append, Text.bytes_append,
      List.getElem?_append_right (by simpa [Cursor.offset] using hlow), Text.length_bytes,
      Text.byteLength_reverse]
    refine List.getElem?_append_left ?_
    rw [Text.length_bytes]
    simp only [Cursor.offset] at *
    omega
  have hlt : k - s.cursor.offset < (Text.bytes mid).length := by
    rw [Text.length_bytes]
    omega
  obtain ⟨before, c, after, hmid, hbefore, hafter, hmem⟩ :=
    Text.exists_of_getElem?_bytes (List.getElem?_eq_getElem hlt)
  refine ⟨before, c, after, _, hmid, by omega, by omega, ?_, hmem⟩
  rw [hbytes, List.getElem?_eq_getElem hlt]

theorem accounted_skip {n : Nat} (h : ∀ c ∈ s.cursor.rest.take n, isSpace c = true) :
    s.Accounted (s.skip n) lost := by
  intro k hlow hhigh
  obtain ⟨before, c, after, b, hmid, -, -, hb, hmem⟩ := (between_skip s n).exists_char hlow hhigh
  refine .inr (.inl ⟨b, hb, ?_⟩)
  rw [isSpaceByte_eq_of_mem hmem]
  exact h c (by simp [hmid])

theorem accounted_push (kind : TokenKind) (n : Nat) : s.Accounted (s.push kind n) lost :=
  fun _ hlow hhigh => .inl ⟨s.ahead kind n, List.mem_cons_self .., hlow, hhigh⟩

theorem Pass.accounted (h : s.Pass t) : s.Accounted t lost := by
  cases h with
  | space n hspace => exact accounted_skip hspace
  | comment => exact accounted_push _ _

theorem Passes.accounted (h : s.Passes t) : s.Accounted t lost := by
  induction h with
  | refl => exact fun _ hlow hhigh => absurd hhigh (Nat.not_lt.mpr hlow)
  | tail hpasses hpass ih =>
    exact ih.trans hpass.accounted (Passes.moves hpasses).text_eq (Move.pass hpass).emitted_suffix

/-- Of the characters in front of a body only those on the line of its header are lost. -/
theorem ReadsBody.accounted {parent : Int} {digit : Option Nat} {p : Lexeme.BodyParts}
    {body : Lexeme.Body} {token : Token} (h : s.ReadsBody parent digit p body token t)
    (hlost : ∀ k, s.cursor.offset ≤ k → k < s.cursor.offset + Text.byteLength p.header → lost k) :
    s.Accounted t lost := by
  obtain ⟨ending, htext, -, -, hskipped, -⟩ := h.locates.exists_tail
  have hrest : s.cursor.rest = p.header ++ (p.gap ++ (p.value ++ (ending ++ p.after.flatten))) := by
    rw [htext, Lexeme.BodyParts.margin, Lexeme.BodyParts.gap, List.append_assoc]
  -- The rest of the header's line may be lost, the blank lines after it are spaces.
  have hline : s.Accounted (s.skip p.header.length) lost := by
    intro k hlow hhigh
    refine .inr (.inr (hlost k hlow ?_))
    change k < (s.cursor.move p.header.length).offset at hhigh
    rwa [Cursor.offset_move, hrest, List.take_left] at hhigh
  have hgap : (s.skip p.header.length).Accounted ((s.skip p.header.length).skip p.gap.length)
      lost := by
    refine accounted_skip fun c hc => h.locates.isSpace_of_mem_gap ?_
    change c ∈ (s.cursor.rest.drop p.header.length).take p.gap.length at hc
    rwa [hrest, List.drop_left, List.take_left] at hc
  have hboth : (s.skip p.header.length).skip p.gap.length = s.skip body.skipped := by
    have hlength : p.header.length + p.gap.length = body.skipped := by
      rw [← hskipped, ← List.length_append]
      rfl
    simp only [skip, Cursor.move_move, hlength]
  rw [hboth] at hgap
  rw [h.state_eq]
  have hskip := hline.trans hgap (Cursor.text_move ..) (List.suffix_refl _)
  exact hskip.trans (accounted_push _ _) (Cursor.text_move ..) (List.suffix_cons ..)

/-- The byte stands between the header of a block scalar and the line feed in front of its
body. -/
structure Skips (s : ParseState) (ps : List Piece) (t : ParseState) (k : Nat)
    (b : BlockScalar) (u v : ParseState) (p : Lexeme.BodyParts) : Prop where
  mem : .block b ∈ ps
  body_eq : b.body = some u.next
  header_lt : b.header < u.next
  from_start : s.Moves u
  to_end : v.Moves t
  ends : Lexeme.lineEnds u.cursor.rest = true
  move : u.Move v
  reads : ∃ parent body token, u.ReadsBody parent b.digit p body token v
  low : u.cursor.offset ≤ k
  high : k < u.cursor.offset + Text.byteLength p.header

theorem Skips.mono {qs : List Piece} {s' t' v : ParseState} {b : BlockScalar}
    {p : Lexeme.BodyParts} (h : s.Skips ps t k b u v p) (hs : s'.Moves s) (ht : t.Moves t')
    (hsub : ps ⊆ qs) : s'.Skips qs t' k b u v p :=
  { h with
    mem := hsub h.mem
    from_start := hs.trans h.from_start
    to_end := h.to_end.trans ht }

theorem ReadsBlock.accounted {b : BlockScalar} (h : s.ReadsBlock b t) :
    s.Accounted t fun k => ∃ u v p, s.Skips [.block b] t k b u v p := by
  have hopened : ∀ {opened u : ParseState} {lost : Nat → Prop}, s.Opens b opened →
      opened.Passes u → s.Accounted u lost := by
    intro opened u lost hopens hpasses
    have hmove := hopens.move
    obtain ⟨c, cs, -, -, -, -, rfl⟩ := hopens.mark
    exact (accounted_push _ _).trans hpasses.accounted hmove.text_eq
      hpasses.moves.emitted_suffix
  cases h with
  | bare hopens hpasses => exact hopened hopens hpasses
  | @filled _ u _ parent body hopens hpasses hends hfound hbody =>
    obtain ⟨p, hp, htakes⟩ := takes_body hfound
    have hreads : u.ReadsBody parent b.digit p body _ _ := ⟨hp, htakes, rfl, rfl⟩
    have hu : s.Moves u := .head hopens.move hpasses.moves
    refine (hopened hopens hpasses).trans (hreads.accounted fun k hlow hhigh => ?_) hu.text_eq
      (Move.body hends hfound).emitted_suffix
    have hheader : b.header < u.next := by
      have hnext := hpasses.moves.next_le
      obtain ⟨_, _, -, -, -, -, rfl⟩ := hopens.mark
      rw [hopens.header_eq]
      exact hnext
    exact ⟨u, _, p, List.mem_singleton_self _, hbody, hheader, hu, .refl, hends,
      .body hends hfound, ⟨_, _, _, hreads⟩, hlow, hhigh⟩

/-- Reading loses nothing but what stands between the header of a block scalar and the line
feed in front of its body. -/
theorem Reads.accounted (h : s.Reads ps t) :
    s.Accounted t fun k => ∃ b u v p, s.Skips ps t k b u v p := by
  induction h with
  | done => exact fun _ hlow hhigh => absurd hhigh (Nat.not_lt.mpr hlow)
  | @pass s v t ps hpass r ih =>
    have hmove : s.Moves v := .single (.pass hpass)
    refine hpass.accounted.trans (ih.mono ?_) hmove.text_eq r.moves.emitted_suffix
    rintro k ⟨b, u, v, p, hskips⟩
    exact ⟨b, u, v, p, hskips.mono hmove .refl (List.Subset.refl _)⟩
  | @token s t ps kind n hkind hahead r ih =>
    have hmove : s.Moves (s.push kind n) := .single (.token hkind hahead)
    refine (accounted_push _ _).trans (ih.mono ?_) hmove.text_eq r.moves.emitted_suffix
    rintro k ⟨b, u, v, p, hskips⟩
    exact ⟨b, u, v, p, hskips.mono hmove .refl (List.subset_cons_self ..)⟩
  | @block s v t ps b hblock r ih =>
    refine (hblock.accounted.mono ?_).trans (ih.mono ?_) hblock.moves.text_eq
      r.moves.emitted_suffix
    · rintro k ⟨u, w, p, hskips⟩
      exact ⟨b, u, w, p, hskips.mono .refl r.moves (by simp)⟩
    · rintro k ⟨c, u, w, p, hskips⟩
      exact ⟨c, u, w, p, hskips.mono hblock.moves .refl (List.subset_cons_self ..)⟩

theorem Takes.stop_eq {token : Token} {lead value : List Char} (h : s.Takes token lead value t) :
    token.range.stop = t.cursor.offset := by
  rw [h.stands.range_eq, Cursor.offset, h.between.before_eq]
  simp
  omega

theorem Moves.offset_le (h : s.Moves t) : s.cursor.offset ≤ t.cursor.offset := by
  obtain ⟨mid, hmid⟩ := h.exists_between
  rw [Cursor.offset, Cursor.offset, hmid.before_eq, Text.byteLength_append]
  exact Nat.le_add_left ..

end ParseState

namespace Stream

variable {stream : Stream} {s : ParseState} {k : Nat}

/-- The byte at the offset `k` is neither a space nor part of a line break. -/
def IsSolid (stream : Stream) (k : Nat) : Prop :=
  ∃ b, (Text.bytes stream.text)[k]? = some b ∧ isSpaceByte b = false

instance (stream : Stream) (k : Nat) : Decidable (stream.IsSolid k) :=
  decidable_of_iff ((Text.bytes stream.text)[k]?.any (!isSpaceByte ·) = true) (by
    simp [IsSolid, Option.any_eq_true])

/-- A byte that is no space and belongs to no token. -/
def Lost (stream : Stream) (k : Nat) : Prop :=
  stream.IsSolid k ∧ ∀ t ∈ stream.tokens, ¬t.Covers k

instance (stream : Stream) (k : Nat) : Decidable (stream.Lost k) :=
  inferInstanceAs (Decidable (_ ∧ _))

/-- The offset `k` lies between the body of a block scalar and the token before it, behind
a carriage return that no line feed follows. -/
def PassedOver (stream : Stream) (k : Nat) : Prop :=
  ∃ d ∈ stream.documents, ∃ block ∈ d.content.blockScalars,
    ∃ (body : TokenId) (a t : Token) (j : Nat),
      block.body = some body ∧ block.header < body ∧ stream.tokens[body - 1]? = some a ∧
      stream.tokens[body]? = some t ∧ a.range.stop ≤ j ∧ j < k ∧ k < t.range.start ∧
      (Text.bytes stream.text)[j]? = some 0x0D ∧
      ∀ i, j < i → i ≤ k → (Text.bytes stream.text)[i]? ≠ some 0x0A

theorem exists_blockScalar {b : BlockScalar} (h : .block b ∈ stream.pieces) :
    ∃ d ∈ stream.documents, b ∈ d.content.blockScalars := by
  obtain ⟨d, hd, hb⟩ := List.mem_flatMap.mp h
  refine ⟨d, hd, ?_⟩
  rw [Node.blockScalars_eq]
  refine List.mem_filterMap.mpr ⟨.block b, ?_, rfl⟩
  simpa [Document.pieces, Piece.mark] using hb

theorem ReadTo.passedOver_of_skips (h : stream.ReadTo s) (hsolid : stream.IsSolid k)
    {b : BlockScalar} {u v : ParseState} {p : Lexeme.BodyParts}
    (hskips : (ParseState.ofText stream.text).Skips stream.pieces s k b u v p) :
    stream.PassedOver k := by
  obtain ⟨d, hd, hb⟩ := exists_blockScalar hskips.mem
  obtain ⟨parent, body, t, hreads⟩ := hskips.reads
  have htext : u.cursor.text = stream.text := hskips.from_start.text_eq
  have hpos : 0 < u.next := Nat.lt_of_le_of_lt (Nat.zero_le _) hskips.header_lt
  have hget : stream.tokens[u.next]? = some t := by
    rw [h.tokens_eq, List.getElem?_toArray]
    exact hreads.takes.getElem?_eq hskips.to_end
  -- The token before the body ends before the line of the header does.
  obtain ⟨u', v', a, lead, value, -, -, htakes, hv', hnext⟩ :=
    hskips.from_start.exists_takes (Nat.zero_le (u.next - 1)) (Nat.sub_one_lt_of_lt hpos)
  have hprev : stream.tokens[u.next - 1]? = some a := by
    rw [h.tokens_eq, List.getElem?_toArray, ← hnext]
    exact htakes.getElem?_eq ((hv'.tail hskips.move).trans hskips.to_end)
  have hstop : a.range.stop ≤ u.cursor.offset := htakes.stop_eq ▸ hv'.offset_le
  -- The line of the header goes on with a carriage return.
  obtain ⟨ending, hrest, -⟩ := hreads.locates.exists_tail
  obtain ⟨c, cs, hheader⟩ : ∃ c cs, p.header = c :: cs := by
    refine List.exists_cons_of_ne_nil ?_
    intro hnil
    have hlow := hskips.low
    have hhigh := hskips.high
    rw [hnil, Text.byteLength] at hhigh
    omega
  have hreturn : c = '\r' := by
    have hends := hskips.ends
    have hfeed := hreads.locates.header_feed
    rw [hreads.locates.text_eq, hheader] at hends
    rw [hheader] at hfeed
    have hne : c ≠ '\n' := fun heq => hfeed (by simp [heq])
    have hbreak : isBreak c = true := hends
    simpa [isBreak, hne] using hbreak
  have hline : u.Between p.header (u.skip p.header.length) := by
    have hskip := ParseState.between_skip u p.header.length
    rwa [hreads.locates.text_eq, List.take_left] at hskip
  have hbyte : (Text.bytes stream.text)[u.cursor.offset]? = some 0x0D := by
    have hhead := Text.getElem?_bytes_append u.cursor.before.reverse u.cursor.rest 0
    rw [Text.byteLength_reverse, Nat.add_zero] at hhead
    rw [← htext, Cursor.text, Cursor.offset, hhead, hreads.locates.text_eq, hheader, hreturn]
    rfl
  refine ⟨d, hd, b, hb, u.next, a, t, u.cursor.offset, hskips.body_eq, hskips.header_lt, hprev,
    hget, hstop, ?_, ?_, hbyte, ?_⟩
  · refine Nat.lt_of_le_of_ne hskips.low ?_
    intro heq
    obtain ⟨x, hx, hspace⟩ := hsolid
    rw [← heq, hbyte, Option.some.injEq] at hx
    rw [← hx] at hspace
    cases hspace
  · have hhigh := hskips.high
    rw [hreads.takes.stands.range_eq]
    simp only [Lexeme.BodyParts.margin, Text.byteLength_append, Text.byteLength_reverse]
    rw [Cursor.offset] at hhigh
    omega
  · intro i hlow hhigh hfeed
    have hpast : i < (u.skip p.header.length).cursor.offset := by
      have hend := hskips.high
      rw [Cursor.offset, hline.before_eq, Text.byteLength_append, Text.byteLength_reverse]
      rw [Cursor.offset] at hend
      omega
    obtain ⟨before, e, after, x, hsplit, -, -, hx, hmem⟩ :=
      hline.exists_char (Nat.le_of_lt hlow) hpast
    rw [htext, hfeed, Option.some.injEq] at hx
    have he : e = '\n' := Text.eq_of_mem_utf8EncodeChar (hx ▸ hmem) (by decide)
    exact hreads.locates.header_feed (by simp [hsplit, he])

theorem PassedOver.not_returnsPaired (h : stream.PassedOver k) :
    ¬Text.ReturnsPaired stream.text := by
  obtain ⟨-, -, -, -, -, -, -, j, -, -, -, -, -, hjk, -, hreturn, hfeed⟩ := h
  intro hpaired
  obtain ⟨before, c, after, htext, hlow, hhigh, hmem⟩ := Text.exists_of_getElem?_bytes hreturn
  have hc : c = '\r' := Text.eq_of_mem_utf8EncodeChar hmem (by decide)
  rw [hc] at htext hhigh
  have hj : j = Text.byteLength before := by
    have hsize : '\r'.utf8Size = 1 := rfl
    omega
  rw [htext] at hpaired
  obtain ⟨rest, rfl⟩ := List.head?_eq_some_iff.mp hpaired.head?
  refine hfeed (j + 1) (Nat.lt_succ_self j) hjk ?_
  rw [htext, hj, Text.getElem?_bytes_append]
  rfl

theorem ReadTo.lost_iff (h : stream.ReadTo s) (k : Nat) :
    stream.Lost k ↔ stream.IsSolid k ∧ stream.PassedOver k := by
  constructor
  · rintro ⟨hsolid, hnone⟩
    refine ⟨hsolid, ?_⟩
    obtain ⟨b, hb, hspace⟩ := id hsolid
    have hend : k < s.cursor.offset := by
      have htext : s.cursor.text = stream.text := h.reads.moves.text_eq
      have hlt := (List.getElem?_eq_some_iff.mp hb).1
      rw [← htext, Cursor.text, h.rest_eq, List.append_nil, Text.length_bytes,
        Text.byteLength_reverse] at hlt
      exact hlt
    rcases h.reads.accounted k (Nat.zero_le k) hend with
      ⟨a, ha, hcovers⟩ | ⟨c, hc, hblank⟩ | ⟨block, u, v, p, hskips⟩
    · have hmem : a ∈ stream.tokens := by
        rw [h.tokens_eq]
        simpa using ha
      exact absurd hcovers (hnone a hmem)
    · have heq : b = c := Option.some.inj (hb.symm.trans hc)
      rw [heq, hblank] at hspace
      cases hspace
    · exact h.passedOver_of_skips hsolid hskips
  · rintro ⟨hsolid, d, -, b, -, body, a, t, j, -, hheader, ha, ht, hlow, hjk, hhigh, -⟩
    refine ⟨hsolid, ?_⟩
    rintro x hx ⟨hstart, hstop⟩
    obtain ⟨i, hi⟩ := Array.getElem?_of_mem hx
    rcases Nat.lt_trichotomy i (body - 1) with hlt | heq | hgt
    · have hbefore := h.stop_le_start hi ha hlt
      have hsize := h.start_lt_stop (Nat.le_refl _) ha ha
      omega
    · rw [heq, ha, Option.some.injEq] at hi
      subst hi
      omega
    · have hle : body ≤ i := Nat.le_of_pred_lt hgt
      rcases Nat.lt_or_eq_of_le hle with hlt | heq
      · have hafter := h.stop_le_start ht hi hlt
        have hsize := h.start_lt_stop (Nat.le_refl _) ht ht
        omega
      · rw [← heq, ht, Option.some.injEq] at hi
        subst hi
        omega

/-- A byte is lost exactly where the reader of block scalars passes over it, and nothing is
lost where every carriage return is followed by a line feed. -/
theorem lost_iff_passedOver {text : List Char} (h : parse text = .ok stream) :
    stream.text = text ∧ (∀ k, stream.Lost k ↔ stream.IsSolid k ∧ stream.PassedOver k) ∧
      (Text.ReturnsPaired text → ∀ k, ¬stream.Lost k) := by
  obtain ⟨rfl, s, hread⟩ := exists_readTo h
  refine ⟨rfl, hread.lost_iff, ?_⟩
  intro hpaired k hlost
  exact ((hread.lost_iff k).mp hlost).2.not_returnsPaired hpaired

/-- A lone carriage return ends the line of a header, and the letter behind it is lost. -/
theorem lost_iff_passedOver_return :
    ∃ stream, parse "|\rx\n y".toList = .ok stream ∧
      stream.tokens.toList.map (·.value) = ["|", "y"] ∧ stream.Lost 2 ∧ stream.PassedOver 2 := by
  have hlost : (parse "|\rx\n y".toList).toOption.map (fun stream =>
      (stream.tokens.toList.map (·.value), decide (stream.Lost 2))) = some (["|", "y"], true) := by
    decide +kernel
  cases hparse : parse "|\rx\n y".toList with
  | error e =>
    rw [hparse] at hlost
    cases hlost
  | ok stream =>
    rw [hparse] at hlost
    simp only [Except.toOption, Option.map_some, Option.some.injEq, Prod.mk.injEq,
      decide_eq_true_eq] at hlost
    exact ⟨stream, rfl, hlost.1, hlost.2,
      (((lost_iff_passedOver hparse).2.1 2).mp hlost.2).2⟩

end Stream

end YamlLayout
