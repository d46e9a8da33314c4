import YamlLayout.Proofs.Introductions
import YamlLayout.Proofs.MeasuredLines

/-!
# The lines of keys without a question mark

The colon of such a key stands on the line on which the key ends, and no line ends between
the properties of the key and its content. But a key may take up several lines: between two
properties, inside quotes and inside brackets lines may end.
-/
namespace YamlLayout

/-- The tokens start and end on one line. -/
def Token.OnOneLine (tokens : List Token) (ids : List TokenId) : Prop :=
  ∃ line, ∀ i ∈ ids, ∃ t, tokens[i]? = some t ∧ t.startLine = line ∧ t.endLine = line

/-- The second token starts on the line on which the first one ends. -/
def Token.Meets (tokens : List Token) (i j : TokenId) : Prop :=
  ∃ a b, tokens[i]? = some a ∧ tokens[j]? = some b ∧ a.endLine = b.startLine

namespace Node

/-- Two properties of a node start on one line. -/
def PropertiesOnLine (tokens : List Token) : Node → Prop
  | decorated _ (some anchor) (some tag) _ => ∃ a b, tokens[anchor]? = some a ∧
      tokens[tag]? = some b ∧ a.startLine = b.startLine
  | _ => True

/-- A node without its properties. -/
def bare : Node → Node
  | decorated _ _ _ inner => inner
  | node => node

/-- The quotes or the brackets of a node close on the line on which they open. -/
def ClosesOnLine (tokens : List Token) : Node → Prop
  | scalar _ .plain _ => True
  | scalar _ _ token => Token.At tokens (fun t => t.startLine == t.endLine) token
  | mapping _ (some brackets) _ => Token.OnOneLine tokens [brackets.opening, brackets.closing]
  | sequence _ (some brackets) _ => Token.OnOneLine tokens [brackets.opening, brackets.closing]
  | _ => True

/-- The keys without a question mark of a block mapping, and the lines they take up. -/
def KeysEndWithColons (tokens : List Token) : Node → Prop
  | mapping _ none pairs => ∀ span key colon value, pair span none key colon value ∈ pairs →
      key.isEmpty = false → ∃ last c, key.ids.getLast? = some last ∧ colon = some c ∧
        Token.Meets tokens last c ∧ (Token.OnOneLine tokens (key.ids ++ [c]) ↔
          key.PropertiesOnLine tokens ∧ key.bare.ClosesOnLine tokens)
  | _ => True

end Node

namespace Token

variable {tokens : List Token} {xs ys : List TokenId} {i j : TokenId}

/-- Tokens that meet are on one line if those up to the first and those from the second on
are. -/
theorem onOneLine_append_iff (h : Meets tokens i j) (hi : i ∈ xs) (hj : j ∈ ys) :
    OnOneLine tokens (xs ++ ys) ↔ OnOneLine tokens xs ∧ OnOneLine tokens ys := by
  constructor
  · rintro ⟨line, hall⟩
    exact ⟨⟨line, fun i hi => hall i (List.mem_append_left _ hi)⟩,
      ⟨line, fun i hi => hall i (List.mem_append_right _ hi)⟩⟩
  · rintro ⟨⟨line, hxs⟩, ⟨line', hys⟩⟩
    obtain ⟨a, b, ha, hb, hmeets⟩ := h
    obtain ⟨a', ha', -, hend⟩ := hxs i hi
    obtain ⟨b', hb', hstart, -⟩ := hys j hj
    rw [ha, Option.some.injEq] at ha'
    rw [hb, Option.some.injEq] at hb'
    subst ha' hb'
    have hline : line' = line := by rw [← hstart, ← hmeets, hend]
    subst hline
    exact ⟨line', List.forall_mem_append.mpr ⟨hxs, hys⟩⟩

theorem onOneLine_singleton_iff :
    OnOneLine tokens [i] ↔ At tokens (fun t => t.startLine == t.endLine) i := by
  constructor
  · rintro ⟨line, hall⟩
    obtain ⟨t, ht, hstart, hend⟩ := hall i (List.mem_singleton_self i)
    exact ⟨t, ht, beq_iff_eq.mpr (hstart.trans hend.symm)⟩
  · rintro ⟨t, ht, hline⟩
    refine ⟨t.endLine, fun j hj => ?_⟩
    rw [List.mem_singleton.mp hj]
    exact ⟨t, ht, beq_iff_eq.mp hline, rfl⟩

end Token

namespace Stream

variable {stream : Stream} {s : ParseState} {i j k : TokenId} {a b : Token}

theorem InPlace.startLine_le_endLine (h : stream.InPlace stream.text)
    (ha : stream.tokens[i]? = some a) : a.startLine ≤ a.endLine := by
  have hin := h.tokens a (Array.mem_of_getElem? ha)
  rw [Token.startLine, Token.endLine, hin.first_eq, hin.past_eq]
  exact LineTable.lineOf_mono _ (Nat.le_of_lt hin.start_lt_stop)

theorem InPlace.endLine_le_startLine (h : stream.InPlace stream.text)
    (ha : stream.tokens[i]? = some a) (hb : stream.tokens[j]? = some b) (hij : i < j) :
    a.endLine ≤ b.startLine := by
  have hstop : a.range.stop ≤ b.range.start := by
    obtain ⟨hi, ha⟩ := Array.getElem?_eq_some_iff.mp ha
    obtain ⟨hj, hb⟩ := Array.getElem?_eq_some_iff.mp hb
    have hpair := List.pairwise_iff_getElem.mp h.pairwise i j hi hj hij
    rwa [Array.getElem_toList, Array.getElem_toList, ha, hb] at hpair
  rw [Token.startLine, Token.endLine, (h.tokens b (Array.mem_of_getElem? hb)).first_eq,
    (h.tokens a (Array.mem_of_getElem? ha)).past_eq]
  exact LineTable.lineOf_mono _ hstop

/-- Only scalars take up several lines. -/
theorem InPlace.onOneLine_singleton (h : stream.InPlace stream.text) {test : Token → Bool}
    (hat : Token.At stream.tokens.toList test i)
    (hkind : ∀ t : Token, test t = true → t.kind ≠ .scalar) :
    Token.OnOneLine stream.tokens.toList [i] := by
  obtain ⟨t, ht, htest⟩ := hat
  refine Token.onOneLine_singleton_iff.mpr ⟨t, ht, beq_iff_eq.mpr ?_⟩
  rw [Array.getElem?_toList] at ht
  by_contra hne
  exact hkind t htest ((h.tokens t (Array.mem_of_getElem? ht)).kind_eq (.inl hne))

/-- The tokens from one to another are on one line if the two are. -/
theorem InPlace.onOneLine_iff (h : stream.InPlace stream.text) {xs : List TokenId}
    (hids : ∀ k ∈ xs, i < k ∧ k < j ∧ k < stream.tokens.size) :
    Token.OnOneLine stream.tokens.toList (i :: (xs ++ [j])) ↔
      Token.OnOneLine stream.tokens.toList [i, j] := by
  constructor
  · rintro ⟨line, hall⟩
    exact ⟨line, fun k hk => hall k (by simp at hk ⊢; tauto)⟩
  · rintro ⟨line, hall⟩
    obtain ⟨a, ha, hstart, hend⟩ := hall i (by simp)
    obtain ⟨b, hb, hstart', hend'⟩ := hall j (by simp)
    refine ⟨line, fun k hk => ?_⟩
    rcases List.mem_cons.mp hk with rfl | hk
    · exact ⟨a, ha, hstart, hend⟩
    rcases List.mem_append.mp hk with hk | hk
    · obtain ⟨hik, hkj, hlt⟩ := hids k hk
      rw [Array.getElem?_toList] at ha hb
      have hc := Array.getElem?_eq_getElem hlt
      have hfrom := h.endLine_le_startLine ha hc hik
      have hto := h.endLine_le_startLine hc hb hkj
      have hwithin := h.startLine_le_endLine hc
      refine ⟨_, by rw [Array.getElem?_toList]; exact hc, ?_, ?_⟩ <;> omega
    · rw [List.mem_singleton.mp hk]
      exact ⟨b, hb, hstart', hend'⟩

/-- The token before another one, comments apart, is the one that comes before it among
those that are no comments. -/
theorem ReadTo.previous?_eq (h : stream.ReadTo s) (hids : [i, j] <:+: stream.ids)
    (ha : stream.tokens[i]? = some a) : Token.previous? stream.tokens.toList j = some a := by
  have hsorted := h.pairwise_ids.sublist hids.sublist
  have hij : i < j := (List.pairwise_cons.mp hsorted).1 j (List.mem_singleton_self j)
  have hcontent : a.isComment = false :=
    (h.mem_ids_iff ha).mp (hids.subset (List.mem_cons_self ..))
  obtain ⟨hi, rfl⟩ := Array.getElem?_eq_some_iff.mp ha
  have hlength : i < (stream.tokens.toList.take j).length := by
    rw [List.length_take, Array.length_toList]
    exact Nat.lt_min.mpr ⟨hij, hi⟩
  refine List.find?_eq_some_iff_append.mpr ⟨by simpa using hcontent,
    ((stream.tokens.toList.take j).drop (i + 1)).reverse, (stream.tokens.toList.take i).reverse,
    ?_, fun c hc => ?_⟩
  · have hsplit := List.take_append_drop i (stream.tokens.toList.take j)
    rw [List.take_take, Nat.min_eq_left (Nat.le_of_lt hij), List.drop_eq_getElem_cons hlength,
      List.getElem_take, Array.getElem_toList] at hsplit
    conv_lhs => rw [← hsplit]
    simp
  · obtain ⟨k, hk⟩ := List.mem_iff_getElem?.mp (List.mem_reverse.mp hc)
    rw [List.getElem?_drop, List.getElem?_take] at hk
    split at hk
    · rename_i hlt
      rw [Array.getElem?_toList] at hk
      have hik : i < i + 1 + k := Nat.lt_of_lt_of_le (Nat.lt_succ_self i) (Nat.le_add_right ..)
      simpa using h.isComment_of_between hids hik hlt hk
    · cases hk

/-- The tokens of two neighbours in a stream meet if the second one continues the line. -/
theorem ReadTo.meets (h : stream.ReadTo s) (hids : [i, j] <:+: stream.ids)
    (hj : Token.Continues stream.tokens.toList j) : Token.Meets stream.tokens.toList i j := by
  obtain ⟨a, b, ha, hb, hline⟩ := hj
  have hi := Array.getElem?_eq_getElem
    (h.lt_size_of_mem_ids (hids.subset (List.mem_cons_self ..)))
  rw [h.previous?_eq hids hi, Option.some.injEq] at ha
  exact ⟨_, b, by rw [Array.getElem?_toList]; exact hi, hb, by rw [ha, hline]⟩

/-- An inline node is on one line if its quotes or brackets close on the line on which they
open. -/
theorem InPlace.onOneLine_of_inKey {node : Node} (h : stream.InPlace stream.text)
    (hsorted : node.ids.Pairwise (· < ·)) (hsize : ∀ k ∈ node.ids, k < stream.tokens.size)
    (hfits : node.Every (Node.Fits stream.tokens.toList)) (hfull : node.isEmpty = false)
    (hkey : node.InKey stream.tokens.toList) :
    Token.OnOneLine stream.tokens.toList node.ids ↔ node.ClosesOnLine stream.tokens.toList := by
  have hinline := hkey.inline hfull
  have hbrackets : ∀ (brackets : Brackets) (items : List Node),
      (Node.bracketedIds brackets items).Pairwise (· < ·) →
      (∀ k ∈ Node.bracketedIds brackets items, k < stream.tokens.size) →
      (Token.OnOneLine stream.tokens.toList (Node.bracketedIds brackets items) ↔
        Token.OnOneLine stream.tokens.toList [brackets.opening, brackets.closing]) := by
    intro brackets items hsorted hsize
    obtain ⟨hopening, hrest⟩ := List.pairwise_cons.mp hsorted
    refine h.onOneLine_iff fun k hk => ⟨?_, ?_, ?_⟩
    · exact hopening k (List.mem_append_left _ hk)
    · exact (List.pairwise_append.mp hrest).2.2 k hk _ (List.mem_singleton_self _)
    · exact hsize k (List.mem_cons_of_mem _ (List.mem_append_left _ hk))
  cases node with
  | scalar _ style token =>
    have hplain := hkey.plain
    have hids : Token.OnOneLine stream.tokens.toList [token] ↔
        Token.At stream.tokens.toList (fun t => t.startLine == t.endLine) token :=
      Token.onOneLine_singleton_iff
    cases style with
    | plain => exact ⟨fun _ => trivial, fun _ => hids.mpr hplain⟩
    | _ => exact hids
  | reference _ token =>
    refine ⟨fun _ => trivial, fun _ => h.onOneLine_singleton hfits.named fun t ht hkind => ?_⟩
    rw [hkind] at ht
    cases ht
  | mapping _ brackets items =>
    cases brackets with
    | none => cases hinline
    | some brackets =>
      rw [Node.ids_mapping_some] at hsorted hsize ⊢
      exact hbrackets brackets items hsorted hsize
  | sequence _ brackets items =>
    cases brackets with
    | none => cases hinline
    | some brackets =>
      rw [Node.ids_sequence_some] at hsorted hsize ⊢
      exact hbrackets brackets items hsorted hsize
  | _ => cases hinline

theorem infix_getLast_head {xs ys : List TokenId} (hi : xs.getLast? = some i)
    (hj : ys.head? = some j) : [i, j] <:+: xs ++ ys := by
  obtain ⟨front, rfl⟩ := List.getLast?_eq_some_iff.mp hi
  obtain ⟨back, rfl⟩ := List.head?_eq_some_iff.mp hj
  exact ⟨front, back, by simp⟩

/-- The properties of a node are on one line if the two of them are, where there are two. -/
theorem InPlace.onOneLine_properties {span : Span} {anchor tag : Option TokenId} {inner : Node}
    (h : stream.InPlace stream.text)
    (hnamed : (Node.decorated span anchor tag inner).Named stream.tokens.toList) :
    Token.OnOneLine stream.tokens.toList
        ((Node.earlier anchor tag).toList ++ (Node.later anchor tag).toList) ↔
      (Node.decorated span anchor tag inner).PropertiesOnLine stream.tokens.toList := by
  have hanchor : ∀ i, anchor = some i → Token.OnOneLine stream.tokens.toList [i] := by
    intro i hi
    refine h.onOneLine_singleton (hnamed.1 i hi) fun t ht hkind => ?_
    rw [hkind] at ht
    cases ht
  have htag : ∀ i, tag = some i → Token.OnOneLine stream.tokens.toList [i] := by
    intro i hi
    refine h.onOneLine_singleton (hnamed.2 i hi) fun t ht hkind => ?_
    rw [hkind] at ht
    cases ht
  cases anchor with
  | none =>
    refine ⟨fun _ => trivial, fun _ => ?_⟩
    cases tag with
    | none => exact ⟨0, fun i hi => by cases hi⟩
    | some t => exact htag t rfl
  | some a =>
    cases tag with
    | none => exact ⟨fun _ => trivial, fun _ => hanchor a rfl⟩
    | some t =>
      have hmem : ∀ i, i ∈ (Node.earlier (some a) (some t)).toList ++
          (Node.later (some a) (some t)).toList ↔ i = a ∨ i = t := by
        intro i
        simp only [Node.earlier, Node.later, Option.toList_some, List.singleton_append,
          List.mem_cons, List.not_mem_nil, or_false]
        rcases Nat.le_total a t with hle | hle
        · rw [Nat.min_eq_left hle, Nat.max_eq_right hle]
        · rw [Nat.min_eq_right hle, Nat.max_eq_left hle, or_comm]
      constructor
      · rintro ⟨line, hall⟩
        obtain ⟨x, hx, hstart, -⟩ := hall a ((hmem a).mpr (.inl rfl))
        obtain ⟨y, hy, hstart', -⟩ := hall t ((hmem t).mpr (.inr rfl))
        exact ⟨x, y, hx, hy, hstart.trans hstart'.symm⟩
      · rintro ⟨x, y, hx, hy, hline⟩
        obtain ⟨x', hx', hends⟩ := Token.onOneLine_singleton_iff.mp (hanchor a rfl)
        obtain ⟨y', hy', hends'⟩ := Token.onOneLine_singleton_iff.mp (htag t rfl)
        rw [hx, Option.some.injEq] at hx'
        rw [hy, Option.some.injEq] at hy'
        subst hx' hy'
        rw [beq_iff_eq] at hends hends'
        refine ⟨x.startLine, fun i hi => ?_⟩
        rcases (hmem i).mp hi with rfl | rfl
        · exact ⟨x, hx, rfl, hends.symm⟩
        · exact ⟨y, hy, hline.symm, hends'.symm.trans hline.symm⟩

/-- A key without a question mark is on one line if its properties are and its quotes or
brackets close on the line on which they open. -/
theorem ReadTo.onOneLine_key {key : Node} (h : stream.ReadTo s)
    (hplace : stream.InPlace stream.text) (hids : key.ids <:+: stream.ids)
    (hformed : key.Formed) (hfits : key.Every (Node.Fits stream.tokens.toList))
    (hfull : key.isEmpty = false) (hform : key.KeyForm stream.tokens.toList) :
    Token.OnOneLine stream.tokens.toList key.ids ↔
      key.PropertiesOnLine stream.tokens.toList ∧ key.bare.ClosesOnLine stream.tokens.toList := by
  have hinline : ∀ node : Node, node.ids <:+: stream.ids → node.isEmpty = false →
      node.Every (Node.Fits stream.tokens.toList) → node.InKey stream.tokens.toList →
      (Token.OnOneLine stream.tokens.toList node.ids ↔
        node.ClosesOnLine stream.tokens.toList) :=
    fun node hids hfull hfits hkey => hplace.onOneLine_of_inKey
      (h.pairwise_ids.sublist hids.sublist) (fun k hk => h.lt_size_of_mem_ids (hids.subset hk))
      hfits hfull hkey
  cases key with
  | decorated span anchor tag inner =>
    have hinner : inner.Formed := hformed
    have hproperties := hplace.onOneLine_properties hfits.1.named
    obtain ⟨hkey, hcontinues⟩ := hform
    rw [Node.ids_decorated, ← List.append_assoc] at hids ⊢
    rw [← hproperties, Node.bare]
    cases hempty : inner.isEmpty with
    | true =>
      obtain rfl : inner = .empty := by cases inner <;> first | rfl | cases hempty
      have hnil : Node.empty.ids = [] := rfl
      rw [hnil, List.append_nil]
      exact ⟨fun hline => ⟨hline, trivial⟩, fun hline => hline.1⟩
    | false =>
      rw [← hinline inner ((List.suffix_append ..).isInfix.trans hids) hempty hfits.2 hkey]
      generalize (Node.earlier anchor tag).toList ++ (Node.later anchor tag).toList = marks
        at hids ⊢
      cases hlast : marks.getLast? with
      | none =>
        rw [List.getLast?_eq_none_iff.mp hlast]
        exact ⟨fun hline => ⟨⟨0, fun i hi => by cases hi⟩, hline⟩, fun hline => hline.2⟩
      | some last =>
        obtain ⟨i, rest, hcons⟩ := List.exists_cons_of_ne_nil
          (Node.ids_ne_nil_of_fits hinner hfits.2 hempty)
        have hhead : inner.ids.head? = some i := by rw [hcons, List.head?_cons]
        have hmeets := h.meets ((infix_getLast_head hlast hhead).trans hids)
          (hcontinues i (by rw [Node.first?_eq_head?, hhead]))
        exact Token.onOneLine_append_iff hmeets (List.mem_of_mem_getLast? hlast)
          (List.mem_of_mem_head? hhead)
  | _ =>
    refine (hinline _ hids hfull hfits hform).trans ?_
    exact ⟨fun hline => ⟨trivial, hline⟩, fun hline => hline.2⟩

end Stream

namespace Node

variable {stream : Stream} {s : ParseState} {style : Style} {node key value : Node} {span : Span}
  {colon : Option TokenId}

/-- A key without a question mark ends on the line of its colon. -/
theorem LaidOut.exists_colon (h : (pair span none key colon value).LaidOut stream style)
    (hread : stream.ReadTo s) (hplace : stream.InPlace stream.text)
    (hfull : key.isEmpty = false) :
    ∃ last c, key.ids.getLast? = some last ∧ colon = some c ∧
      Token.Meets stream.tokens.toList last c ∧
      (Token.OnOneLine stream.tokens.toList (key.ids ++ [c]) ↔
        key.PropertiesOnLine stream.tokens.toList ∧
          key.bare.ClosesOnLine stream.tokens.toList) := by
  obtain ⟨hform, c, rfl, hcontinues⟩ := h.marked.1.implicit rfl hfull
  obtain ⟨hkeyFormed, -⟩ := h.proper
  obtain ⟨hfits, hkeyFits, -⟩ := h.fits
  have hids := h.ids_infix
  rw [ids_pair, Option.toList_none, List.nil_append, Option.toList_some] at hids
  have hlast := List.getLast?_eq_some_getLast (ids_ne_nil_of_fits hkeyFormed hkeyFits hfull)
  have hmeets := hread.meets ((Stream.infix_getLast_head hlast rfl).trans hids) hcontinues
  have hcolon : Token.OnOneLine stream.tokens.toList [c] := by
    refine hplace.onOneLine_singleton (hfits.named.2 c rfl) fun t ht hkind => ?_
    rw [Token.isPunctuator, hkind] at ht
    cases ht
  refine ⟨_, c, hlast, rfl, hmeets, ?_⟩
  rw [Token.onOneLine_append_iff hmeets (List.mem_of_mem_getLast? hlast)
      (List.mem_singleton_self c),
    hread.onOneLine_key hplace ((List.prefix_append ..).isInfix.trans hids) hkeyFormed hkeyFits
      hfull hform]
  exact and_iff_left hcolon

theorem LaidOut.every_keysEndWithColons (h : node.LaidOut stream style) (hread : stream.ReadTo s)
    (hplace : stream.InPlace stream.text) :
    node.Every (KeysEndWithColons stream.tokens.toList) := by
  induction node using parts_induction with
  | step node ih =>
    refine every_iff.mpr ⟨?_, fun part hpart => ?_⟩
    · cases node with
      | mapping _ brackets pairs =>
        cases brackets with
        | none => exact fun span key colon value hpair hfull =>
            (h.of_mem_parts hpair rfl).exists_colon hread hplace hfull
        | some => trivial
      | _ => trivial
    · cases hflow : node.holdsFlow false with
      | false => exact ih part hpart (h.of_mem_parts hpart hflow)
      | true =>
        refine Every.imp (h.bracketed_of_mem_parts hpart hflow) fun inside hinside => ?_
        cases inside with
        | mapping _ brackets pairs =>
          cases brackets with
          | none => cases hinside
          | some => trivial
        | _ => trivial

end Node

/-- The colon of a key without a question mark stands on the line on which the key ends. The
key and the colon are on one line if and only if the properties of the key are on one line
and its quotes or brackets close on the line on which they open. -/
theorem keys_end_with_colons {text : List Char} {stream : Stream}
    (hparse : parse text = .ok stream) : ∀ d ∈ stream.documents,
      d.content.Every (Node.KeysEndWithColons stream.tokens.toList) := by
  intro d hd
  obtain ⟨rfl, s, h⟩ := Stream.exists_readTo hparse
  exact (h.laidOut hparse .default hd).every_keysEndWithColons h (Stream.inPlace_of_parse hparse)

/-- A second key in quotes over two lines: its colon stands on the later one. -/
theorem keys_end_with_colons_quoted :
    ∃ stream, parse "a: 1\n\"b\n c\": 2\n".toList = .ok stream ∧
      stream.tokens.toList.map (fun t => (t.startLine, t.endLine)) =
        [(1, 1), (1, 1), (1, 1), (2, 3), (3, 3), (3, 3)] ∧
      stream.documents.map (fun d =>
        match d.content with
        | .mapping _ none [_, .pair _ none key colon _] => (key.ids, colon)
        | _ => ([], none)) = [([3], some 4)] ∧
      (∀ d ∈ stream.documents, d.content.Every (Node.KeysEndWithColons stream.tokens.toList)) ∧
      ¬Token.OnOneLine stream.tokens.toList [3, 4] := by
  have h : (parse "a: 1\n\"b\n c\": 2\n".toList).toOption.map (fun stream =>
      (stream.tokens.toList.map (fun t => (t.startLine, t.endLine)),
        stream.documents.map (fun d =>
          match d.content with
          | .mapping _ none [_, .pair _ none key colon _] => (key.ids, colon)
          | _ => ([], none)))) =
      some ([(1, 1), (1, 1), (1, 1), (2, 3), (3, 3), (3, 3)], [([3], some 4)]) := by
    decide +kernel
  cases hparse : parse "a: 1\n\"b\n c\": 2\n".toList with
  | error e =>
    rw [hparse] at h
    cases h
  | ok stream =>
    rw [hparse] at h
    obtain ⟨hlines, hkey⟩ := Prod.mk.inj (Option.some.inj h)
    refine ⟨stream, rfl, hlines, hkey, keys_end_with_colons hparse, ?_⟩
    rintro ⟨line, hline⟩
    obtain ⟨t, ht, hstart, hend⟩ := hline 3 (by simp)
    have hat := congrArg (·[3]?) hlines
    rw [List.getElem?_map, ht] at hat
    have hends := Prod.mk.inj (Option.some.inj hat)
    omega

end YamlLayout
