import YamlLayout.Proofs.CursorPlaces
import YamlLayout.Proofs.RepairEdits

/-!
# Every outcome lies in the text

Reading a text never loses it: whatever a reader answers with, the tokens behind it
are cut out of the text, and where it fails, the error is a place of the text. A
reader is followed through both outcomes at once. Only scalars reach over a line feed.
-/
namespace YamlLayout

namespace Lexeme

/-- A trimmed stretch that stops at line breaks holds none. -/
theorem isBreak_of_mem_trimmed {stops : Bool → Char → List Char → Bool} {blank : Bool}
    {text : List Char} {c : Char} (hstops : ∀ b d ds, isBreak d = true → stops b d ds = true)
    (h : c ∈ text.take (trimmed stops blank text)) : isBreak c = false := by
  induction text generalizing blank with
  | nil => simp at h
  | cons d ds ih =>
    simp only [trimmed] at h
    split at h
    · simp at h
    rename_i hgoes
    split at h
    · simp at h
    rcases List.mem_cons.mp h with rfl | h
    · by_contra hbreak
      exact hgoes (hstops _ _ _ (by simpa using hbreak))
    · exact ih h

theorem feed_not_mem_comment (text : List Char) : '\n' ∉ text.take (comment text) :=
  fun h => absurd (isBreak_of_mem_trimmed (fun _ _ _ h => h) h) (by decide)

theorem feed_not_mem_directive (text : List Char) : '\n' ∉ text.take (directive text) :=
  fun h => absurd (isBreak_of_mem_trimmed (fun _ _ _ h => by simp [h]) h) (by decide)

/-- A stretch of characters without a line break, after a first one that is none. -/
theorem feed_not_mem_takeWhile {p : Char → Bool} {c : Char} {cs : List Char} (hc : c ≠ '\n')
    (hp : p '\n' = false) : '\n' ∉ (c :: cs).take ((cs.takeWhile p).length + 1) := by
  intro h
  rw [List.take_succ_cons, List.mem_cons,
    ← List.prefix_iff_eq_take.mp (List.takeWhile_prefix p)] at h
  rcases h with h | h
  · exact hc h.symm
  · have hfeed := List.all_eq_true.mp (List.all_takeWhile (p := p)) '\n' h
    rw [hp] at hfeed
    cases hfeed

theorem feed_not_mem_verbatim {text : List Char} (h : text.head? ≠ some '\n') :
    '\n' ∉ text.take (verbatim text) := by
  induction text with
  | nil => simp
  | cons c cs ih =>
    have hc : '\n' ≠ c := fun heq => h (by rw [heq]; rfl)
    rw [verbatim]
    split
    · simpa using hc
    · rename_i hgoes
      have hhead : cs.head? ≠ some '\n' := by
        intro hfeed
        obtain ⟨ds, rfl⟩ := List.head?_eq_some_iff.mp hfeed
        simp [lineEnds, isBreak] at hgoes
      rw [List.take_succ_cons, List.mem_cons, not_or]
      exact ⟨hc, ih hhead⟩

theorem feed_not_mem_property (flow : Bool) {text : List Char} (h : text.head? ≠ some '\n') :
    '\n' ∉ text.take (property flow text) := by
  unfold property
  split
  · rename_i rest
    rw [List.take_succ_cons, List.mem_cons, not_or]
    exact ⟨by decide, feed_not_mem_verbatim (by simp)⟩
  · simp
  · rename_i c rest _
    exact feed_not_mem_takeWhile (fun heq => h (by rw [heq]; rfl)) (by simp [isBreak])

theorem feed_not_mem_reference (flow : Bool) {text : List Char} (h : text.head? ≠ some '\n') :
    '\n' ∉ text.take (reference flow text) := by
  cases text with
  | nil => simp
  | cons c cs => exact feed_not_mem_takeWhile (fun heq => h (by rw [heq]; rfl)) (by simp [isBreak])

theorem feed_not_mem_header {n : Nat} {digit : Option Nat} {chomping : Chomping} {c : Char}
    {cs : List Char} (hc : c ≠ '\n') :
    '\n' ∉ (c :: cs).take ((blockIndicators n digit chomping cs).length + 1) := by
  rw [List.take_succ_cons, List.mem_cons, not_or]
  refine ⟨Ne.symm hc, fun h => ?_⟩
  rcases mem_blockIndicators h with h | h | h
  · revert h
    decide
  · cases h
  · cases h

end Lexeme

/-- The token was cut out of the text at a cursor, and within a line if it is no scalar. -/
def Token.InText (t : Token) (text : List Char) : Prop :=
  ∃ (s : ParseState) (n : Nat), s.cursor.text = text ∧ t = s.ahead t.kind n ∧
    (t.kind ≠ .scalar → '\n' ∉ s.cursor.rest.take n)

/-- The error is the place of a cursor of the text. -/
def ParseError.InText (e : ParseError) (text : List Char) : Prop :=
  ∃ c : Cursor, c.text = text ∧ e.offset = c.offset ∧ e.position = c.position

/-- The text is being read, and all tokens so far are cut out of it. -/
structure ParseState.InText (s : ParseState) (text : List Char) : Prop where
  text_eq : s.cursor.text = text
  tokens : ∀ t ∈ s.emitted, t.InText text

namespace ParseState

variable {s t : ParseState} {text : List Char}

theorem inText_ofText (text : List Char) : (ofText text).InText text :=
  ⟨rfl, fun _ h => by cases h⟩

theorem InText.moved {c : Cursor} (h : s.InText text) (hc : c.text = s.cursor.text) :
    InText ⟨c, s.emitted⟩ text :=
  ⟨hc.trans h.text_eq, h.tokens⟩

theorem InText.push {kind : TokenKind} {n : Nat} (h : s.InText text)
    (hfeed : kind ≠ .scalar → '\n' ∉ s.cursor.rest.take n) : (s.push kind n).InText text := by
  refine ⟨(text_push ..).trans h.text_eq, fun t ht => ?_⟩
  rw [emitted_push, List.mem_cons] at ht
  rcases ht with rfl | ht
  · exact ⟨s, n, h.text_eq, rfl, hfeed⟩
  · exact h.tokens t ht

theorem InText.skip (n : Nat) (h : s.InText text) : (s.skip n).InText text :=
  h.moved (Cursor.text_move ..)

theorem InText.skipBlanks (h : s.InText text) : s.skipBlanks.InText text :=
  h.moved (Cursor.text_skipBlanks _)

theorem InText.skipBreak (h : s.InText text) : s.skipBreak.InText text :=
  h.moved (Cursor.text_skipBreak _)

theorem InText.readComment (h : s.InText text) : s.readComment.InText text :=
  (h.push fun _ => Lexeme.feed_not_mem_comment _).skipBlanks

theorem InText.finishLine (h : s.InText text) : s.finishLine.InText text := by
  unfold ParseState.finishLine
  dsimp only
  split
  · exact h.skipBlanks.readComment
  · exact h.skipBlanks

theorem InText.skipLines (h : s.InText text) : s.skipLines.InText text := by
  fun_induction ParseState.skipLines s with
  | case1 s ended hrest => exact h.finishLine
  | case2 s ended c cs hrest hbreak ih => exact ih h.finishLine.skipBreak
  | case3 s ended c cs hrest hbreak => exact h.finishLine

/-- The error of a state is at its cursor. -/
theorem InText.error (h : s.InText text) (cause : ParseCause) :
    ParseError.InText ⟨cause, s.cursor.offset, s.cursor.position⟩ text :=
  ⟨s.cursor, h.text_eq, rfl, rfl⟩

end ParseState

namespace Parse

/-- What has become of a text lies in it: the state that is left, or the error. -/
def InText {α : Type} (text : List Char) : Except ParseError (α × ParseState) → Prop
  | .ok r => r.2.InText text
  | .error e => e.InText text

/-- Both outcomes of `m` from `s` lie in the text that is read. -/
def Stays {α : Type} (m : Parse α) (s : ParseState) : Prop :=
  ∀ text, s.InText text → InText text (m s)

namespace Stays

variable {α β : Type} {s : ParseState}

theorem pure {a : α} : (Pure.pure a : Parse α).Stays s := fun _ h => h

theorem bind {m : Parse α} {f : α → Parse β} (hm : m.Stays s) (hf : ∀ a t, (f a).Stays t) :
    (m >>= f).Stays s := by
  intro text h
  have hfirst := hm text h
  cases hs : m s with
  | error e =>
    rw [hs] at hfirst
    rw [bind_of_error hs]
    exact hfirst
  | ok r =>
    rw [hs] at hfirst
    rw [bind_of_ok hs]
    exact hf r.1 r.2 text hfirst

theorem map {m : Parse α} (g : α → β) (hm : m.Stays s) : (g <$> m).Stays s := by
  rw [map_eq_pure_bind]
  exact hm.bind fun _ _ => .pure

theorem get_bind {f : ParseState → Parse α} (h : (f s).Stays s) :
    ((get : Parse ParseState) >>= f).Stays s := h

theorem modify {g : ParseState → ParseState}
    (hg : ∀ {text : List Char}, s.InText text → (g s).InText text) :
    (modify g : Parse PUnit).Stays s := fun _ h => hg h

theorem fail {cause : ParseCause} : (Parse.fail cause : Parse α).Stays s :=
  fun _ h => h.error cause

theorem fail_bind {cause : ParseCause} {f : α → Parse β} :
    ((Parse.fail cause : Parse α) >>= f).Stays s :=
  fun _ h => h.error cause

theorem skipBlanks : Parse.skipBlanks.Stays s := modify fun h => h.skipBlanks

theorem emit {kind : TokenKind} {n : Nat} (h : kind ≠ .scalar → '\n' ∉ s.cursor.rest.take n) :
    (Parse.emit kind n).Stays s := fun _ hs => hs.push h

/-- A mark of one character is a token within its line. -/
theorem mark {c : Char} (hpeek : s.cursor.peek? = some c) (hc : c ≠ '\n') :
    (Parse.emit .punctuator 1).Stays s := by
  obtain ⟨cs, hrest⟩ := List.head?_eq_some_iff.mp hpeek
  refine emit fun _ => ?_
  rw [hrest]
  simpa using Ne.symm hc

end Stays

open ParseState

variable {s : ParseState}

theorem advance_stays (s : ParseState) : advance.Stays s := by
  unfold advance
  refine .get_bind ?_
  extract_lets last checked commented
  have hlast : ∀ t, (last ()).Stays t := by
    intro t
    exact (Stays.modify fun h => h.skipLines).bind fun _ _ => .get_bind .pure
  clear_value last
  have hchecked : ∀ t, (checked ()).Stays t := by
    intro t
    apply Stays.get_bind
    split
    · exact hlast t
    · exact .fail_bind
  clear_value checked
  split
  · exact .pure
  · refine Stays.skipBlanks.bind fun _ t => .get_bind ?_
    split
    · split
      · exact (Stays.modify fun h => h.readComment).bind fun _ u => hchecked u
      · exact .fail_bind
    · exact hchecked t

theorem inText_skipFlowSpace {text : List Char} (h : s.InText text) :
    match s.skipFlowSpace with
    | .ok t => t.InText text
    | .error e => e.InText text := by
  fun_induction ParseState.skipFlowSpace s with
  | case1 s after hrest => exact h.skipBlanks
  | case2 s after c cs hrest hbreak broken hmarker => exact h.skipBlanks.skipBreak.error _
  | case3 s after c cs hrest hbreak broken hmarker ih => exact ih h.skipBlanks.skipBreak
  | case4 s after c cs hrest hbreak hcomment ih => exact ih h.skipBlanks.readComment
  | case5 s after c cs hrest hbreak hcomment => exact h.skipBlanks

theorem skipFlowSpace_stays (s : ParseState) : Parse.skipFlowSpace.Stays s := by
  intro text h
  have hspace := inText_skipFlowSpace h
  cases hs : s.skipFlowSpace with
  | error e =>
    have hfails : Parse.skipFlowSpace s = .error e := by
      simp only [Parse.skipFlowSpace, hs, Bind.bind, Except.bind]
    rw [hs] at hspace
    rw [hfails]
    exact hspace
  | ok u =>
    have hgoes : Parse.skipFlowSpace s = .ok ((), u) := by
      simp only [Parse.skipFlowSpace, hs, Bind.bind, Except.bind]
      rfl
    rw [hs] at hspace
    rw [hgoes]
    exact hspace

theorem property_stays {kind : TokenKind} {flow : Bool} {c : Char}
    (hpeek : s.cursor.peek? = some c) (hc : c ≠ '\n') : (property kind flow).Stays s := by
  have hfeed : '\n' ∉ s.cursor.rest.take (Lexeme.property flow s.cursor.rest) := by
    apply Lexeme.feed_not_mem_property
    change s.cursor.peek? ≠ some '\n'
    rw [hpeek]
    simpa using hc
  exact .get_bind ((Stays.emit fun _ => hfeed).bind fun _ _ => .pure)

theorem properties_stays (flow : Bool) (p : Properties) (s : ParseState) :
    (properties flow p).Stays s := by
  induction p using properties.induct generalizing s with
  | case1 p ihAnchor ihTag =>
    rw [properties]
    apply Stays.get_bind
    split
    · rename_i hpeek
      split
      · exact .fail
      · rename_i hanchor
        exact (property_stays hpeek (by decide)).bind fun mark _ =>
          Stays.skipBlanks.bind fun _ u => ihAnchor s hanchor mark u
    · rename_i hpeek
      split
      · exact .fail
      · rename_i htag
        exact (property_stays hpeek (by decide)).bind fun mark _ =>
          Stays.skipBlanks.bind fun _ u => ihTag s htag mark u
    · exact .pure

theorem decorate_stays (p : Properties) (id : TokenId) (node : Node) (s : ParseState) :
    (decorate p id node).Stays s := by
  unfold decorate
  split
  · exact .pure
  · exact .get_bind .pure

theorem scalar_stays (style : ScalarStyle) (n : Nat) (s : ParseState) :
    (scalar style n).Stays s :=
  .get_bind ((Stays.emit fun h => absurd rfl h).bind fun _ _ => .get_bind .pure)

theorem quoted_stays (s : ParseState) : quoted.Stays s := by
  unfold quoted
  apply Stays.get_bind
  split
  · exact .fail
  split
  · exact .fail
  split <;> extract_lets crossed
  · split
    · exact .fail_bind
    · exact scalar_stays _ _ s
  · split
    · exact .fail_bind
    · exact scalar_stays _ _ s

theorem plain_stays (parent : Int) (flow : Bool) (cause : ParseCause) (s : ParseState) :
    (plain parent flow cause).Stays s := by
  unfold plain
  apply Stays.get_bind
  split
  · exact .fail
  · exact scalar_stays _ _ s

theorem reference_stays (flow : Bool) {c : Char} (hpeek : s.cursor.peek? = some c)
    (hc : c ≠ '\n') : (reference flow).Stays s := by
  have hfeed : '\n' ∉ s.cursor.rest.take (Lexeme.reference flow s.cursor.rest) := by
    apply Lexeme.feed_not_mem_reference
    change s.cursor.peek? ≠ some '\n'
    rw [hpeek]
    simpa using hc
  exact .get_bind ((Stays.emit fun _ => hfeed).bind fun _ _ => .get_bind .pure)

theorem blockScalar_stays (parent : Int)
    (h : s.cursor.peek? = some '|' ∨ s.cursor.peek? = some '>') :
    (blockScalar parent).Stays s := by
  obtain ⟨c, cs, hrest, hc⟩ : ∃ c cs, s.cursor.rest = c :: cs ∧ c ≠ '\n' := by
    rcases h with h | h
    · obtain ⟨cs, hrest⟩ := List.head?_eq_some_iff.mp h
      exact ⟨_, cs, hrest, by decide⟩
    · obtain ⟨cs, hrest⟩ := List.head?_eq_some_iff.mp h
      exact ⟨_, cs, hrest, by decide⟩
  unfold blockScalar
  apply Stays.get_bind
  have hfeed : '\n' ∉ s.cursor.rest.take
      ((Lexeme.blockIndicators 2 none .clip (s.cursor.rest.drop 1)).length + 1) := by
    rw [hrest]
    exact Lexeme.feed_not_mem_header hc
  extract_lets header named
  split
  · exact fun text h => (h.skip (header.length + 1)).error _
  refine (Stays.emit fun _ => hfeed).bind fun token t => .get_bind ?_
  extract_lets blank answered bodied commented
  have hcommented : ∀ u, (commented ()).Stays u := by
    intro u
    apply Stays.get_bind
    split
    swap
    · exact .fail_bind
    apply Stays.get_bind
    split
    · exact .get_bind .pure
    · exact (Stays.modify fun h => h.skip _).bind fun _ v =>
        (Stays.map _ (Stays.emit fun h => absurd rfl h)).bind fun _ _ => .get_bind .pure
  clear_value commented
  refine Stays.skipBlanks.bind fun _ u => .get_bind ?_
  split
  · exact (Stays.modify fun h => h.readComment).bind fun _ v => hcommented v
  · exact hcommented u

/-- The readers of flow collections stay in the text, given some fuel. -/
structure FlowStays (fuel : Nat) : Prop where
  collection : ∀ (s : ParseState) (c : Char), s.cursor.peek? = some c → c = '[' ∨ c = '\x7b' →
    (flowCollection fuel).Stays s
  items : ∀ (s : ParseState) (isMapping : Bool), (flowItems fuel isMapping).Stays s
  item : ∀ (s : ParseState) (isMapping : Bool), (flowItem fuel isMapping).Stays s
  node : ∀ s : ParseState, (flowNode fuel).Stays s

variable {fuel : Nat}

theorem flowCollection_stays (ih : FlowStays fuel) {c : Char} (hpeek : s.cursor.peek? = some c)
    (hc : c = '[' ∨ c = '\x7b') : (flowCollection (fuel + 1)).Stays s := by
  have hfeed : c ≠ '\n' := by
    rcases hc with rfl | rfl <;> decide
  rw [flowCollection]
  apply Stays.get_bind
  extract_lets isMapping
  refine (Stays.mark hpeek hfeed).bind fun _ t => (ih.items t isMapping).bind fun _ _ =>
    .get_bind ?_
  split
  · exact .pure
  · exact .pure

theorem flowItems_stays (ih : FlowStays fuel) (isMapping : Bool) (s : ParseState) :
    (flowItems (fuel + 1) isMapping).Stays s := by
  rw [flowItems]
  have hclosing : (if isMapping = true then '\x7d' else ']') ≠ '\n' := by
    split <;> decide
  generalize (if isMapping = true then '\x7d' else ']') = closing at hclosing ⊢
  refine (skipFlowSpace_stays s).bind fun _ t => .get_bind ?_
  split
  · exact .fail
  rename_i c hpeek
  split
  · rename_i hc
    exact (Stays.mark hpeek (beq_iff_eq.mp hc ▸ hclosing)).bind fun _ _ => .pure
  extract_lets more
  split
  · exact .fail_bind
  refine (ih.item t isMapping).bind fun item u => (skipFlowSpace_stays u).bind fun _ v =>
    .get_bind ?_
  split
  · exact .fail
  rename_i c hpeek
  split
  · rename_i hc
    exact (Stays.mark hpeek (by rw [beq_iff_eq.mp hc]; decide)).bind fun _ w =>
      (ih.items w isMapping).bind fun _ _ => .pure
  split
  · rename_i hc
    exact (Stays.mark hpeek (beq_iff_eq.mp hc ▸ hclosing)).bind fun _ _ => .pure
  · exact .fail

theorem flowItem_stays (ih : FlowStays fuel) (isMapping : Bool) (s : ParseState) :
    (flowItem (fuel + 1) isMapping).Stays s := by
  rw [flowItem]
  refine .get_bind (.get_bind ?_)
  extract_lets questioned
  have hquestioned : ∀ (question : Option TokenId) (t : ParseState),
      (questioned question).Stays t := by
    intro question t
    apply Stays.get_bind
    extract_lets keyed
    have hkeyed : ∀ (key : Node) (u : ParseState), (keyed key).Stays u := by
      intro key u
      refine (skipFlowSpace_stays u).bind fun _ v => .get_bind ?_
      split
      · rename_i hcolon
        have hpeek : v.cursor.peek? = some ':' := by
          rcases (Bool.or_eq_true _ _).mp hcolon with hcolon | hcolon
          · exact peek?_of_atFlowMark hcolon
          · exact peek?_of_atAdjacentColon hcolon
        refine (Stays.mark hpeek (by decide)).bind fun _ w =>
          (skipFlowSpace_stays w).bind fun _ x => .get_bind ?_
        extract_lets valued
        have hvalued : ∀ (value : Node) (y : ParseState), (valued value).Stays y :=
          fun _ _ => .get_bind .pure
        clear_value valued
        split
        · exact hvalued _ x
        · exact hvalued _ x
        · exact hvalued _ x
        · exact (ih.node x).bind hvalued
      · split
        · extract_lets answered
          split
          · exact .fail_bind
          · exact .pure
        · exact .pure
    clear_value keyed
    split
    · exact hkeyed _ t
    · exact (ih.node t).bind hkeyed
  clear_value questioned
  split
  · rename_i hmark
    exact (Stays.mark (peek?_of_atFlowMark hmark) (by decide)).bind fun token t =>
      (skipFlowSpace_stays t).bind fun _ u => hquestioned (some token) u
  · exact hquestioned none s

theorem flowNode_stays (ih : FlowStays fuel) (s : ParseState) : (flowNode (fuel + 1)).Stays s := by
  rw [flowNode]
  apply Stays.get_bind
  extract_lets first
  refine (properties_stays true .none s).bind fun p t => ?_
  extract_lets decorated spaced
  have hdecorated : ∀ (node : Node) (u : ParseState), (decorated node).Stays u :=
    fun node u => decorate_stays p first node u
  clear_value decorated
  have hspaced : ∀ u : ParseState, (spaced ()).Stays u := by
    intro u
    apply Stays.get_bind
    split
    · exact hdecorated _ u
    rename_i c hpeek
    split
    · exact hdecorated _ u
    split
    · rename_i hc
      exact (reference_stays true hpeek (by rw [beq_iff_eq.mp hc]; decide)).bind hdecorated
    split
    · exact (quoted_stays u).bind hdecorated
    split
    · rename_i hc
      exact (ih.collection u c hpeek (by simpa using hc)).bind hdecorated
    · exact (plain_stays _ _ _ u).bind hdecorated
  clear_value spaced
  split
  · exact hspaced t
  · exact (skipFlowSpace_stays t).bind fun _ u => hspaced u

theorem flowStays (fuel : Nat) : FlowStays fuel := by
  induction fuel with
  | zero =>
    constructor
    · intro s c _ _
      rw [flowCollection]
      exact .fail
    · intro s isMapping
      rw [flowItems]
      exact .fail
    · intro s isMapping
      rw [flowItem]
      exact .fail
    · intro s
      rw [flowNode]
      exact .fail
  | succ fuel ih =>
    constructor
    · intro s c hpeek hc
      exact flowCollection_stays ih hpeek hc
    · intro s isMapping
      exact flowItems_stays ih isMapping s
    · intro s isMapping
      exact flowItem_stays ih isMapping s
    · intro s
      exact flowNode_stays ih s

theorem nodeStart_stays (fuel : Nat) (parent : Int) (dashes : Bool) (p : Properties)
    (s : ParseState) : (nodeStart fuel parent dashes p).Stays s := by
  induction fuel generalizing s p with
  | zero => exact .fail
  | succ fuel ih =>
    rw [nodeStart]
    apply Stays.get_bind
    extract_lets content
    have hcontent : ∀ t, (content ()).Stays t := by
      intro t
      apply Stays.get_bind
      split
      · exact (properties_stays false p t).bind ih
      · exact (properties_stays false p t).bind ih
      · exact .pure
    clear_value content
    split
    · refine (advance_stays s).bind fun found t => ?_
      split
      · apply Stays.get_bind
        split
        · exact .pure
        · extract_lets column
          split
          · exact hcontent t
          · exact .pure
      · exact .pure
    · exact hcontent s

theorem implicitKey_stays (fuel : Nat) (p : Properties) (id : TokenId) (s : ParseState) :
    (implicitKey fuel p id).Stays s := by
  unfold implicitKey
  refine (properties_stays false p s).bind fun q t => .get_bind ?_
  extract_lets decorated
  have hdecorated : ∀ (node : Node) (u : ParseState), (decorated node).Stays u :=
    fun node u => decorate_stays q id node u
  clear_value decorated
  split
  · exact .fail_bind
  rename_i c hpeek
  split
  · exact hdecorated _ t
  split
  · rename_i hc
    exact (reference_stays false hpeek (by rw [beq_iff_eq.mp hc]; decide)).bind hdecorated
  split
  · exact (quoted_stays t).bind hdecorated
  split
  · rename_i hc
    exact ((flowStays fuel).collection t c hpeek (by simpa using hc)).bind hdecorated
  split
  · exact .fail_bind
  · exact (scalar_stays _ _ t).bind hdecorated

theorem inlineNode_stays (fuel : Nat) (parent : Int) (s : ParseState) :
    (inlineNode fuel parent).Stays s := by
  unfold inlineNode
  apply Stays.get_bind
  split
  · exact .fail
  rename_i c hpeek
  split
  · rename_i hc
    exact reference_stays false hpeek (by rw [beq_iff_eq.mp hc]; decide)
  split
  · exact quoted_stays s
  split
  · rename_i hc
    exact (flowStays fuel).collection s c hpeek (by simpa using hc)
  split
  · exact .fail
  · exact plain_stays parent false _ s

/-- The readers of block nodes stay in the text, given some fuel. -/
structure BlocksStay (fuel : Nat) : Prop where
  node : ∀ (s : ParseState) (parent : Int) (dashes : Bool),
    (blockNode fuel parent dashes).Stays s
  entries : ∀ (s : ParseState) (floor : Int), s.atIndicator '-' = true →
    (blockEntries fuel floor).Stays s
  pairs : ∀ (s : ParseState) (parent column : Int) (p : Properties),
    (blockPairs fuel parent column p).Stays s

theorem blockNode_stays (ih : BlocksStay fuel) (parent : Int) (dashes : Bool) (s : ParseState) :
    (blockNode (fuel + 1) parent dashes).Stays s := by
  rw [blockNode]
  apply Stays.get_bind
  extract_lets id
  refine Stays.skipBlanks.bind fun _ t =>
    (nodeStart_stays fuel parent dashes .none t).bind fun start u => ?_
  obtain ⟨p, found⟩ := start
  dsimp only
  have hdecorate : ∀ (node : Node) (v : ParseState), (decorate p id node).Stays v :=
    decorate_stays p id
  split
  · exact hdecorate _ u
  apply Stays.get_bind
  split
  · rename_i hdash
    exact (ih.entries u _ hdash).bind fun _ v => .get_bind (hdecorate _ v)
  split
  · exact (ih.pairs u parent _ .none).bind fun _ v => .get_bind (hdecorate _ v)
  split
  · rename_i hblock
    exact (blockScalar_stays parent (by simpa using hblock)).bind hdecorate
  split
  · split
    · split
      · exact (ih.pairs u parent _ p).bind fun _ _ => .get_bind .pure
      · exact (ih.pairs u parent _ .none).bind fun _ v => .get_bind (hdecorate _ v)
    · exact (ih.pairs u parent _ .none).bind fun _ _ => .get_bind .pure
  · exact (inlineNode_stays fuel parent u).bind hdecorate

theorem blockEntries_stays (ih : BlocksStay fuel) (floor : Int)
    (hdash : s.atIndicator '-' = true) : (blockEntries (fuel + 1) floor).Stays s := by
  rw [blockEntries]
  apply Stays.get_bind
  extract_lets column
  refine (Stays.mark (peek?_of_atIndicator hdash) (by decide)).bind fun _ t =>
    (ih.node t column false).bind fun value u => ?_
  extract_lets entry
  refine (advance_stays u).bind fun found v => ?_
  split
  · apply Stays.get_bind
    split
    · rename_i hmore
      simp only [Bool.and_eq_true] at hmore
      exact (ih.entries v floor hmore.1.2).bind fun _ _ => .pure
    · exact .pure
  · exact .pure

theorem blockPairs_stays (ih : BlocksStay fuel) (parent column : Int) (p : Properties)
    (s : ParseState) : (blockPairs (fuel + 1) parent column p).Stays s := by
  rw [blockPairs]
  apply Stays.get_bind
  extract_lets id pairColumn paired keyed
  have hpaired : ∀ (pair : Node) (t : ParseState), (paired pair).Stays t := by
    intro pair t
    refine (advance_stays t).bind fun found u => ?_
    split
    · apply Stays.get_bind
      split
      · exact .pure
      · extract_lets next
        split
        · exact (ih.pairs u parent column .none).bind fun _ _ => .pure
        · exact .pure
    · exact .pure
  clear_value paired
  have hkeyed : ∀ (key : Node) (t : ParseState), (keyed key).Stays t := by
    intro key t
    apply Stays.get_bind
    extract_lets coloned
    split
    · rename_i hcolon
      have hpeek : t.cursor.peek? = some ':' := by
        rcases (Bool.or_eq_true _ _).mp hcolon with hcolon | hcolon
        · exact peek?_of_atIndicator hcolon
        · exact peek?_of_atAdjacentColon hcolon
      exact (Stays.mark hpeek (by decide)).bind fun _ u =>
        (ih.node u pairColumn true).bind fun _ v => .get_bind (hpaired _ v)
    · exact .fail_bind
  clear_value keyed
  split
  · rename_i hquestion
    refine (Stays.mark (peek?_of_atIndicator hquestion) (by decide)).bind fun _ t =>
      (ih.node t pairColumn false).bind fun key u => (advance_stays u).bind fun more v =>
        .get_bind ?_
    split
    · rename_i hcolon
      simp only [Bool.and_eq_true] at hcolon
      exact (Stays.mark (peek?_of_atIndicator hcolon.1.2) (by decide)).bind fun _ w =>
        (ih.node w pairColumn true).bind fun _ x => .get_bind (hpaired _ x)
    · exact hpaired _ v
  · split
    · exact hkeyed _ s
    · exact (implicitKey_stays fuel p id s).bind fun key t =>
        Stays.skipBlanks.bind fun _ u => hkeyed key u

theorem blocksStay (fuel : Nat) : BlocksStay fuel := by
  induction fuel with
  | zero =>
    constructor
    · intro s parent dashes
      rw [blockNode]
      exact .fail
    · intro s floor _
      rw [blockEntries]
      exact .fail
    · intro s parent column p
      rw [blockPairs]
      exact .fail
  | succ fuel ih =>
    constructor
    · intro s parent dashes
      exact blockNode_stays ih parent dashes s
    · intro s floor hdash
      exact blockEntries_stays ih floor hdash
    · intro s parent column p
      exact blockPairs_stays ih parent column p s

theorem directives_stays (fuel : Nat) (s : ParseState) : (directives fuel).Stays s := by
  induction fuel generalizing s with
  | zero => exact .fail
  | succ fuel ih =>
    rw [directives]
    apply Stays.get_bind
    split
    · refine (Stays.emit fun _ => Lexeme.feed_not_mem_directive _).bind fun _ t =>
        (advance_stays t).bind fun found u => ?_
      extract_lets more
      split
      · exact (ih u).bind fun _ _ => .pure
      · exact .fail_bind
    · exact .pure

theorem markedContent_stays (fuel : Nat) (s : ParseState) : (markedContent fuel).Stays s := by
  unfold markedContent
  refine Stays.skipBlanks.bind fun _ t => .get_bind ?_
  split
  · exact .pure
  · exact (blocksStay fuel).node t _ _

theorem laterContent_stays (fuel : Nat) (s : ParseState) : (laterContent fuel).Stays s := by
  unfold laterContent
  refine (advance_stays s).bind fun found t => ?_
  split
  · apply Stays.get_bind
    split
    · exact .pure
    · exact (blocksStay fuel).node t _ _
  · exact .pure

theorem marker_stays (h : s.atEndMarker = true ∨ s.atStartMarker = true) :
    (emit .marker 3).Stays s := by
  refine .emit fun _ => ?_
  rcases h with h | h
  · simp only [atEndMarker, Bool.and_eq_true] at h
    obtain ⟨-, h⟩ := h
    unfold Lexeme.isEndMarker at h
    split at h
    · rename_i cs hrest
      simp [hrest]
    · cases h
  · simp only [atStartMarker, Bool.and_eq_true] at h
    obtain ⟨-, h⟩ := h
    unfold Lexeme.isStartMarker at h
    split at h
    · rename_i cs hrest
      simp [hrest]
    · cases h

theorem documentEnd_stays (s : ParseState) : documentEnd.Stays s := by
  unfold documentEnd
  refine (advance_stays s).bind fun found t => ?_
  split
  swap
  · exact .pure
  apply Stays.get_bind
  split
  · rename_i hmarker
    refine (marker_stays (.inl hmarker)).bind fun _ u => Stays.skipBlanks.bind fun _ v =>
      .get_bind ?_
    extract_lets answered ended
    have hended : ∀ w, (ended ()).Stays w := by
      intro w
      apply Stays.get_bind
      split
      · exact .pure
      · exact .fail_bind
    clear_value ended
    split
    · exact (Stays.modify fun h => h.readComment).bind fun _ w => hended w
    · exact hended v
  · extract_lets answered
    split
    · exact .pure
    · exact .fail_bind

theorem document_stays (fuel : Nat) (first : TokenId) (s : ParseState) :
    (document fuel first).Stays s := by
  unfold document
  refine (directives_stays fuel s).bind fun ids t => .get_bind ?_
  extract_lets started
  have hstarted : ∀ (marker : Option TokenId) (u : ParseState), (started marker).Stays u := by
    intro marker u
    dsimp -zeta only [started]
    extract_lets ended inlined
    have hended : ∀ (content : Node) (v : ParseState), (ended content).Stays v :=
      fun _ v => (documentEnd_stays v).bind fun _ _ => .get_bind .pure
    clear_value ended
    have hinlined : ∀ (inline : Node) (v : ParseState), (inlined inline).Stays v := by
      intro inline v
      dsimp -zeta only [inlined]
      split
      · exact (laterContent_stays fuel v).bind hended
      · exact hended _ v
    clear_value inlined
    split
    · exact (markedContent_stays fuel u).bind hinlined
    · exact hinlined _ u
  clear_value started
  split
  · rename_i hmarker
    exact (Stays.map _ (marker_stays (.inr hmarker))).bind hstarted
  · split
    · exact hstarted none t
    · exact .fail_bind

theorem documents_stays (fuel : Nat) (done : List Document) (s : ParseState) :
    (documents fuel done).Stays s := by
  induction fuel generalizing s done with
  | zero => exact .fail
  | succ fuel ih =>
    rw [documents]
    apply Stays.get_bind
    extract_lets first advanced
    have hadvanced : ∀ t, (advanced ()).Stays t := by
      intro t
      apply Stays.get_bind
      split
      · split
        · split
          · exact .pure
          · exact .pure
        · exact .pure
        · exact .pure
      · exact (document_stays fuel first t).bind fun d u => ih (d :: done) u
    clear_value advanced
    apply Stays.get_bind
    split
    · exact hadvanced s
    · exact (Stays.modify fun h => h.skipLines).bind fun _ t => hadvanced t

end Parse

end YamlLayout
