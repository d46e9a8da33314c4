import YamlLayout.Proofs.Reading.Marks

/-!
# Keys without a question mark

Such a key is an inline node. No line ends between its properties and its content, or
between the key and what follows it: the colon.
-/
namespace YamlLayout

namespace Properties

/-- The last token, comments apart, is the last property, if there is one. -/
def Lined (p : Properties) (s : ParseState) : Prop := p.first ≠ .none → s.lastLine? = some p.line

/-- Reading goes on on the line of the last property. -/
def OnLine (p : Properties) (s : ParseState) : Prop :=
  p.first ≠ .none → s.cursor.rest ≠ [] → p.line = s.cursor.line

theorem lined_none (s : ParseState) : Properties.none.Lined s := fun h => absurd rfl h

theorem onLine_none (s : ParseState) : Properties.none.OnLine s := fun h => absurd rfl h

theorem Lined.passes {p : Properties} {s t : ParseState} (h : p.Lined s) (ht : s.Passes t) :
    p.Lined t := by
  intro hfirst
  rw [ht.lastLine?_eq]
  exact h hfirst

end Properties

namespace Node

/-- A plain scalar is on one line. -/
def PlainOnLine (tokens : List Token) : Node → Prop
  | scalar _ .plain token => Token.At tokens (fun t => t.startLine == t.endLine) token
  | _ => True

/-- A node that can be a key, properties apart. -/
structure InKey (tokens : List Token) (node : Node) : Prop where
  inline : node.isEmpty = false → node.isInline = true
  plain : node.PlainOnLine tokens

/-- A key without a question mark: no line ends between its properties and its content. -/
def KeyForm (tokens : List Token) : Node → Prop
  | decorated _ _ _ inner =>
    inner.InKey tokens ∧ ∀ i, inner.first? = some i → Token.Continues tokens i
  | node => node.InKey tokens

theorem InKey.keyForm {tokens : List Token} {node : Node} (h : node.InKey tokens) :
    node.KeyForm tokens := by
  cases node with
  | decorated => cases h.inline rfl
  | _ => exact h

theorem inKey_empty (tokens : List Token) : empty.InKey tokens :=
  ⟨fun h => (by cases h), trivial⟩

end Node

namespace Parse

open ParseState

variable {s first : ParseState} {p : Properties} {fuel : Nat}

theorem line_property (flow : Bool) {c : Char} (hpeek : s.cursor.peek? = some c) (hc : c ≠ '\n') :
    (s.cursor.move (Lexeme.property flow s.cursor.rest)).line = s.cursor.line := by
  obtain ⟨cs, hrest⟩ := List.head?_eq_some_iff.mp hpeek
  have hhead : s.cursor.rest.head? ≠ some '\n' := by
    rw [hrest]
    simpa using hc
  apply Cursor.line_move
  · rw [hrest, ne_eq, List.take_eq_nil_iff, not_or]
    exact ⟨Nat.ne_of_gt (Lexeme.property_pos ..), List.cons_ne_nil c cs⟩
  · exact Lexeme.feed_not_mem_property flow hhead

/-- After a property and the blanks behind it, the line is the one of the property. -/
theorem property_lined (kind : TokenKind) (flow : Bool) {c : Char} (hkind : kind ≠ .comment)
    (hpeek : s.cursor.peek? = some c) (hc : c ≠ '\n') :
    (property kind flow).Ensures s fun _ t =>
      t.skipBlanks.lastLine? = some s.cursor.line ∧
        (t.skipBlanks.cursor.rest ≠ [] → s.cursor.line = t.skipBlanks.cursor.line) := by
  have hline := line_property flow hpeek hc
  refine .get_bind (.emit_bind (.pure ⟨?_, fun hrest => ?_⟩))
  · rw [(passes_skipBlanks _).lastLine?_eq, (justRead_push s _ hkind).lastLine?_eq]
    exact congrArg some hline
  · rw [line_skipBlanks hrest]
    exact hline.symm

theorem properties_lined (flow : Bool) (p : Properties) (h : p.Lined s) :
    (properties flow p).Ensures s fun q t => q.Lined t ∧ (p.OnLine s → q.OnLine t) := by
  induction p using properties.induct generalizing s with
  | case1 p ihAnchor ihTag =>
    rw [properties]
    refine .get_bind ?_
    split
    · rename_i hpeek
      split
      · exact .fail
      · rename_i hanchor
        refine (property_lined .anchor flow (by decide) hpeek (by decide)).bind fun mark t hmark =>
          .skipBlanks_bind ?_
        exact (ihAnchor s hanchor mark fun _ => hmark.1).mono fun q u hq =>
          ⟨hq.1, fun _ => hq.2 fun _ => hmark.2⟩
    · rename_i hpeek
      split
      · exact .fail
      · rename_i htag
        refine (property_lined .tag flow (by decide) hpeek (by decide)).bind fun mark t hmark =>
          .skipBlanks_bind ?_
        exact (ihTag s htag mark fun _ => hmark.1).mono fun q u hq =>
          ⟨hq.1, fun _ => hq.2 fun _ => hmark.2⟩
    · exact .pure ⟨h, id⟩

/-- A node that is missing is missing in front of content or at the end of the text. -/
theorem nodeStart_lined (fuel : Nat) (parent : Int) (dashes : Bool) (h : p.Lined s) :
    (nodeStart fuel parent dashes p).Ensures s fun start t => start.properties.Lined t ∧
      (start.found = false → t.Stopped) := by
  induction fuel generalizing s p with
  | zero => exact .fail
  | succ fuel ih =>
    rw [nodeStart]
    refine .get_bind ?_
    extract_lets content
    have hcontent : ∀ t, p.Lined t → (content ()).Ensures t fun start t =>
        start.properties.Lined t ∧ (start.found = false → t.Stopped) := by
      intro t ht
      refine .get_bind ?_
      split
      · exact (properties_lined false p ht).bind fun q u hu => ih hu.1
      · exact (properties_lined false p ht).bind fun q u hu => ih hu.1
      · exact .pure ⟨ht, fun hfound => by cases hfound⟩
    clear_value content
    split
    · refine ((advance_ensures s).and (advance_stops s)).bind fun found t hadvance => ?_
      have ht : p.Lined t := h.passes hadvance.1.1
      have hstopped := hadvance.2.1
      split
      · refine .get_bind ?_
        split
        · exact .pure ⟨ht, fun _ => hstopped⟩
        · extract_lets column
          split
          · exact hcontent t ht
          · exact .pure ⟨ht, fun _ => hstopped⟩
      · exact .pure ⟨ht, fun _ => hstopped⟩
    · exact hcontent s h

/-- What is known of a key without a question mark when its colon comes next. -/
structure KeyRead (key : Node) (t : ParseState) : Prop where
  lastLine?_eq : key.isEmpty = false → t.cursor.rest ≠ [] → t.lastLine? = some t.cursor.line
  everyRow : ∀ P, key.EveryRow P
  form : ∀ u, t.Moves u → key.KeyForm u.emitted.reverse

theorem KeyRead.skipBlanks {key : Node} {t : ParseState} (h : KeyRead key t) :
    KeyRead key t.skipBlanks where
  lastLine?_eq hkey hrest := by
    rw [(passes_skipBlanks t).lastLine?_eq, line_skipBlanks hrest]
    exact h.lastLine?_eq hkey (rest_ne_nil_of_skipBlanks hrest)
  everyRow := h.everyRow
  form u hu := h.form u ((passes_skipBlanks t).moves.trans hu)

theorem keyRead_empty (t : ParseState) : KeyRead .empty t :=
  ⟨fun h => (by cases h), fun _ => trivial, fun _ _ => Node.inKey_empty _⟩

theorem feed_not_mem_plainLine (flow : Bool) (text : List Char) :
    '\n' ∉ text.take (Lexeme.plainLine flow text) :=
  fun h => absurd (Lexeme.isBreak_of_mem_trimmed (fun _ _ _ h => by simp [h]) h) (by decide)

theorem quoted_plainOnLine : quoted.Ensures s fun node _ => ∀ tokens, node.PlainOnLine tokens := by
  unfold quoted
  refine .get_bind ?_
  split
  · exact .fail
  split
  · exact .fail
  split <;> extract_lets crossed
  · split
    · exact .fail_bind
    · exact .get_bind (.emit_bind (.get_bind (.pure fun _ => trivial)))
  · split
    · exact .fail_bind
    · exact .get_bind (.emit_bind (.get_bind (.pure fun _ => trivial)))

theorem flowCollection_plainOnLine (fuel : Nat) :
    (flowCollection fuel).Ensures s fun node _ => ∀ tokens, node.PlainOnLine tokens := by
  cases fuel with
  | zero =>
    rw [flowCollection]
    exact .fail
  | succ fuel =>
    rw [flowCollection]
    refine .get_bind ?_
    extract_lets isMapping
    refine .emit_bind ((ensures_true _).bind fun inside t _ => .get_bind ?_)
    split
    · exact .pure fun _ => trivial
    · exact .pure fun _ => trivial

theorem plainLine_plainOnLine {n : Nat} (hn : n = Lexeme.plainLine false s.cursor.rest)
    (hpos : n ≠ 0) (hrest : s.cursor.rest ≠ []) : (scalar .plain n).Ensures s fun node t =>
      ∀ u, t.Moves u → node.PlainOnLine u.emitted.reverse := by
  refine .get_bind (.emit_bind (.get_bind (.pure fun u hu => ⟨_, getElem?_of_moves_push hu, ?_⟩)))
  refine beq_iff_eq.mpr (Cursor.line_move ?_ ?_).symm
  · simp [hpos, hrest]
  · rw [hn]
    exact feed_not_mem_plainLine false _

/-- A key on one line, properties apart, is read. -/
theorem implicitKey_lined (fuel : Nat) {id : TokenId} (h : HasRead first p s) (hlined : p.Lined s)
    (honLine : p.OnLine s) : (implicitKey fuel p id).Ensures s KeyRead := by
  unfold implicitKey
  refine ((properties_ensures false p h).and (properties_lined false p hlined)).bind
    fun q t hread => .get_bind ?_
  obtain ⟨⟨hq, -⟩, hlined, honLine'⟩ := hread
  have honLine := honLine' honLine
  extract_lets decorated
  have hfirst : q.isEmpty = false → q.first ≠ none := by
    intro hsome hnone
    rw [hq.isEmpty_of_first hnone] at hsome
    cases hsome
  have hinline : ∀ (node : Node) (u : ParseState), t.cursor.rest ≠ [] → t.ReadsInline node u →
      (∀ v, u.Moves v → node.PlainOnLine v.emitted.reverse) →
      (decorated node).Ensures u KeyRead := by
    intro node u hrest hnode hplain
    have hform : ∀ v, u.Moves v → node.InKey v.emitted.reverse :=
      fun v hv => ⟨fun _ => hnode.isInline, hplain v hv⟩
    have hrows := hnode.bracketed.everyRow hnode.isInline
    have hlast : u.lastLine? = some u.cursor.line := hnode.justRead.lastLine?_eq
    dsimp -zeta only [decorated]
    unfold decorate
    split
    · exact .pure ⟨fun _ _ => hlast, hrows, fun v hv => (hform v hv).keyForm⟩
    · rename_i hsome
      refine .get_bind (.pure ⟨fun _ _ => hlast, hrows, fun v hv =>
        ⟨hform v hv, fun i hi => ?_⟩⟩)
      have hi : t.next = i := Option.some.inj (hnode.first?_eq.symm.trans hi)
      have hqfirst := hfirst (by simpa using hsome)
      obtain ⟨kind, n, hsuffix⟩ := hnode.exists_first
      rw [← hi]
      refine continues_of_suffix ?_ (hsuffix.trans hv.emitted_suffix)
      rw [hlined hqfirst, honLine hqfirst hrest]
  have hempty : (decorated .empty).Ensures t KeyRead := by
    dsimp -zeta only [decorated]
    unfold decorate
    split
    · exact .pure (keyRead_empty t)
    · rename_i hsome
      have hqfirst := hfirst (by simpa using hsome)
      refine .get_bind (.pure ⟨fun _ hrest => ?_, fun _ => trivial,
        fun v hv => ⟨Node.inKey_empty _, fun i hi => ?_⟩⟩)
      · rw [hlined hqfirst, honLine hqfirst hrest]
      · cases hi
  clear_value decorated
  split
  · exact .fail_bind
  rename_i c hpeek
  have hrest : t.cursor.rest ≠ [] := by
    intro hnil
    simp [Cursor.peek?, hnil] at hpeek
  split
  · exact hempty
  split
  · refine (reference_inline false).and ?_ |>.bind fun node u hu => hinline node u hrest hu.1 hu.2
    exact .get_bind (.emit_bind (.get_bind (.pure fun v hv => trivial)))
  split
  · exact (quoted_inline.and quoted_plainOnLine).bind fun node u hu =>
      hinline node u hrest hu.1 fun v _ => hu.2 _
  split
  · exact (((flowInline fuel).collection t).and (flowCollection_plainOnLine fuel)).bind
      fun node u hu => hinline node u hrest hu.1 fun v _ => hu.2 _
  split
  · exact .fail_bind
  · rename_i hpos
    exact ((scalar_inline _ _).and (plainLine_plainOnLine rfl hpos hrest)).bind fun node u hu =>
      hinline node u hrest hu.1 hu.2

end Parse

end YamlLayout
