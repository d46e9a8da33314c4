import YamlLayout.Proofs.BodyRows
import YamlLayout.Proofs.Outcomes

/-!
# Tokens and errors in their place

Every token of a text stands where its range and its two ends say, the tokens follow
one another, and only scalars reach over more than one line. Where a text cannot be
read, the error points between two characters of it or at its end.
-/
namespace YamlLayout

namespace Text

/-- The offset lies between two characters of the text or at one of its ends. -/
def OnBoundary (text : List Char) (offset : Nat) : Prop := (splitAt? text offset).isSome = true

theorem onBoundary_append (before after : List Char) :
    OnBoundary (before ++ after) (byteLength before) := by
  have hcut : splitAt? (before ++ after) (byteLength before) = some (before, after) :=
    splitAt?_eq_some_iff.mpr ⟨rfl, rfl⟩
  rw [OnBoundary, hcut]
  rfl

theorem OnBoundary.le {text : List Char} {offset : Nat} (h : OnBoundary text offset) :
    offset ≤ byteLength text := by
  obtain ⟨cut, hcut⟩ := Option.isSome_iff_exists.mp h
  obtain ⟨htext, hoffset⟩ := splitAt?_eq_some_iff.mp hcut
  rw [← htext, byteLength_append, hoffset]
  exact Nat.le_add_right ..

theorem slice?_append (before value after : List Char) :
    slice? (before ++ (value ++ after))
      ⟨byteLength before, byteLength before + byteLength value⟩ = some value := by
  have hfront : splitAt? (before ++ (value ++ after)) (byteLength before) =
      some (before, value ++ after) := splitAt?_eq_some_iff.mpr ⟨rfl, rfl⟩
  have hvalue : splitAt? (value ++ after) (byteLength value) = some (value, after) :=
    splitAt?_eq_some_iff.mpr ⟨rfl, rfl⟩
  simp [slice?, hfront, hvalue]

end Text

/-- The token is the part of the text at its range, and its ends are those of the range. -/
structure Token.InPlace (t : Token) (text : List Char) : Prop where
  start_lt_stop : t.range.start < t.range.stop
  stop_le : t.range.stop ≤ Text.byteLength text
  start_onBoundary : Text.OnBoundary text t.range.start
  stop_onBoundary : Text.OnBoundary text t.range.stop
  slice?_eq : Text.slice? text t.range = some t.value.toList
  first_eq : t.first = (LineTable.ofText text).position t.range.start
  past_eq : t.past = (LineTable.ofText text).position t.range.stop
  kind_eq : t.startLine ≠ t.endLine ∨ '\n' ∈ t.value.toList → t.kind = .scalar

/-- The error points into the text. -/
structure ParseError.InPlace (e : ParseError) (text : List Char) : Prop where
  offset_le : e.offset ≤ Text.byteLength text
  onBoundary : Text.OnBoundary text e.offset
  position_eq : e.position = (LineTable.ofText text).position e.offset

/-- The tokens of the stream are in their place, each of them before the next. -/
structure Stream.InPlace (stream : Stream) (text : List Char) : Prop where
  tokens : ∀ t ∈ stream.tokens, t.InPlace text
  pairwise : stream.tokens.toList.Pairwise fun a b => a.range.stop ≤ b.range.start

namespace Cursor

theorem onBoundary (c : Cursor) : Text.OnBoundary c.text c.offset := by
  rw [text, offset, ← Text.byteLength_reverse]
  exact Text.onBoundary_append ..

/-- Moving within a line leaves the line as it is. -/
theorem line_move {c : Cursor} {n : Nat} (hne : c.rest.take n ≠ [])
    (hfeed : '\n' ∉ c.rest.take n) : (c.move n).line = c.line := by
  have hrest : c.rest ≠ [] := by
    intro hnil
    rw [hnil, List.take_nil] at hne
    exact hne rfl
  have hhead : (c.move n).before.head? ≠ some '\n' := by
    intro h
    rw [move, List.head?_append_of_ne_nil _ (by simpa using hne), List.head?_reverse] at h
    exact hfeed (List.mem_of_mem_getLast? h)
  rw [line_of_head?_ne hhead, line_of_rest_ne_nil hrest, move, List.count_append,
    List.count_reverse, List.count_eq_zero_of_not_mem hfeed, Nat.zero_add]

end Cursor

theorem Token.InText.inPlace {t : Token} {text : List Char} (h : t.InText text)
    (hlt : t.range.start < t.range.stop) : t.InPlace text := by
  obtain ⟨s, n, rfl, ht, hfeed⟩ := h
  have hvalue : t.value.toList = s.cursor.rest.take n := by
    rw [ht]
    exact String.toList_ofList
  have hstart : t.range.start = s.cursor.offset := by
    rw [ht]
    rfl
  have hstop : t.range.stop = (s.cursor.move n).offset := by
    rw [ht]
    rfl
  have hends : Text.OnBoundary s.cursor.text t.range.stop := by
    rw [hstop, ← Cursor.text_move s.cursor n]
    exact Cursor.onBoundary _
  have hne : s.cursor.rest.take n ≠ [] := by
    intro hnil
    rw [hstart, hstop, Cursor.offset_move, hnil, Text.byteLength] at hlt
    omega
  constructor
  case start_lt_stop => exact hlt
  case stop_le => exact hends.le
  case start_onBoundary =>
    rw [hstart]
    exact s.cursor.onBoundary
  case stop_onBoundary => exact hends
  case slice?_eq =>
    have hslice := Text.slice?_append s.cursor.before.reverse (s.cursor.rest.take n)
      (s.cursor.rest.drop n)
    rw [List.take_append_drop, Text.byteLength_reverse] at hslice
    have hrange : t.range = ⟨s.cursor.offset, s.cursor.offset +
        Text.byteLength (s.cursor.rest.take n)⟩ := by
      rw [← Cursor.offset_move, ht]
      rfl
    rw [hrange, hvalue]
    exact hslice
  case first_eq =>
    rw [hstart, ht]
    exact s.cursor.position_eq
  case past_eq =>
    rw [hstop, ht, ← Cursor.text_move s.cursor n]
    exact (s.cursor.move n).position_eq
  case kind_eq =>
    intro hlines
    by_contra hkind
    have hwithin := hfeed hkind
    rcases hlines with hlines | hlines
    · apply hlines
      rw [ht]
      exact (Cursor.line_move hne hwithin).symm
    · rw [hvalue] at hlines
      exact hwithin hlines

theorem ParseError.InText.inPlace {e : ParseError} {text : List Char} (h : e.InText text) :
    e.InPlace text := by
  obtain ⟨c, rfl, hoffset, hposition⟩ := h
  have hboundary : Text.OnBoundary c.text e.offset := by
    rw [hoffset]
    exact c.onBoundary
  exact ⟨hboundary.le, hboundary, by rw [hposition, hoffset]; exact c.position_eq⟩

theorem inText_parse (text : List Char) :
    match parse text with
    | .ok stream => ∀ t ∈ stream.tokens, t.InText text
    | .error e => e.InText text := by
  have hstays : Parse.InText text
      ((Parse.documents (Parse.fuelFor text.length) []).run (.ofText text)) :=
    Parse.documents_stays _ [] _ text (ParseState.inText_ofText text)
  unfold parse
  cases hrun : (Parse.documents (Parse.fuelFor text.length) []).run (.ofText text) with
  | error e =>
    rw [hrun] at hstays
    exact hstays
  | ok r =>
    rw [hrun] at hstays
    intro t ht
    exact hstays.tokens t (by simpa using ht)

theorem Stream.ReadTo.inPlace {stream : Stream} {s : ParseState} (h : stream.ReadTo s)
    (htokens : ∀ t ∈ stream.tokens, t.InText stream.text) : stream.InPlace stream.text := by
  constructor
  · intro t ht
    obtain ⟨i, hi⟩ := Array.mem_iff_getElem?.mp ht
    exact (htokens t ht).inPlace (h.start_lt_stop (Nat.le_refl i) hi hi)
  · rw [List.pairwise_iff_getElem]
    intro i j hi hj hij
    exact h.stop_le_start (Array.getElem?_eq_getElem hi) (Array.getElem?_eq_getElem hj) hij

theorem Stream.inPlace_of_parse {text : List Char} {stream : Stream}
    (h : parse text = .ok stream) : stream.InPlace text := by
  have htokens := inText_parse text
  rw [h] at htokens
  obtain ⟨rfl, s, hread⟩ := Stream.exists_readTo h
  exact hread.inPlace htokens

/-- Whatever becomes of a text, the outcome says where it stands: the tokens of a text
that can be read are in their place, and so is the error of any other text. -/
theorem parse_inPlace (text : List Char) :
    match parse text with
    | .ok stream => stream.InPlace text
    | .error e => e.InPlace text := by
  cases hparse : parse text with
  | ok stream => exact Stream.inPlace_of_parse hparse
  | error e =>
    have herror := inText_parse text
    rw [hparse] at herror
    exact herror.inPlace

end YamlLayout
