import YamlLayout.Proofs.Reading.Keys
import YamlLayout.Proofs.TokenPlaces

/-!
# The marks of a stream

The readers of block nodes are followed once more, by induction on their fuel, for what
stands around the marks of the rows they read. A mark is read before the node it
introduces, and whether that node is there is known only when it has been looked for: what
follows the mark on its line is clear once the reader has gone on to the next row.
-/
namespace YamlLayout

namespace Node

/-- The marks of a pair that is laid out by columns. -/
structure PairMarked (text : List Char) (tokens : List Token) (question : Option TokenId)
    (key : Node) (colon : Option TokenId) (value : Node) : Prop where
  of_question : ∀ i, question = some i → Token.Spaced text tokens i ∧
    (key.isEmpty = true → Token.EndsLine tokens i)
  of_colon : ∀ i, colon = some i → (Token.Spaced text tokens i ∨ Token.Touches tokens i) ∧
    (value.isEmpty = true → Token.EndsLine tokens i)
  implicit : question = none → key.isEmpty = false → key.KeyForm tokens ∧
    ∃ i, colon = some i ∧ Token.Continues tokens i

/-- A row of a collection without brackets, as to its marks. -/
def RowMarked (text : List Char) (tokens : List Token) : Node → Prop
  | entry dash value => Token.Spaced text tokens dash ∧
      (value.isEmpty = true → Token.EndsLine tokens dash)
  | pair _ question key colon value => PairMarked text tokens question key colon value
  | _ => True

end Node

namespace ParseState

variable {s t u v : ParseState} {node row : Node} {rows : List Node} {c : Char}

/-- All rows inside the node have their marks, however reading goes on. -/
def Marks (t : ParseState) (node : Node) : Prop :=
  ∀ u, t.Moves u → node.EveryRow (Node.RowMarked u.cursor.text u.emitted.reverse)

theorem Marks.mono (h : t.Marks node) (hmoves : t.Moves u) : u.Marks node :=
  fun v hv => h v (hmoves.trans hv)

theorem marks_empty (t : ParseState) : t.Marks .empty := fun _ _ => trivial

theorem marks_mapping (span : Span) (h : ∀ row ∈ rows, t.Marks row) :
    t.Marks (.mapping span none rows) :=
  fun u hu => Node.everyRowOf_iff.mpr fun row hrow => h row hrow u hu

theorem marks_sequence (span : Span) (h : ∀ row ∈ rows, t.Marks row) :
    t.Marks (.sequence span none rows) :=
  fun u hu => Node.everyRowOf_iff.mpr fun row hrow => h row hrow u hu

theorem marks_cons (hrow : t.Marks row) (hmoves : t.Moves u) (h : ∀ row ∈ rows, u.Marks row) :
    ∀ r ∈ row :: rows, u.Marks r :=
  List.forall_mem_cons.mpr ⟨hrow.mono hmoves, h⟩

theorem marks_singleton (hrow : t.Marks row) : ∀ r ∈ [row], t.Marks r :=
  marks_cons hrow .refl (by simp)

/-- A node is read behind a mark: its own rows have their marks, and if it is
missing, content or the end of the text comes next. -/
structure Introduces (s : ParseState) (node : Node) (t : ParseState) : Prop where
  reads : s.Reads node.pieces t
  marks : t.Marks node
  stopped : node.isEmpty = true → t.Stopped

theorem Introduces.endsLine (h : (s.push .punctuator 1).Introduces node t)
    (hpeek : s.cursor.peek? = some c) (hc : isSpace c = false) (hpasses : t.Passes u)
    (hfresh : t.Stopped → u.Fresh) (hv : u.Moves v) (hempty : node.isEmpty = true) :
    Token.EndsLine v.emitted.reverse s.next := by
  have hnil : node.pieces = [] := by
    cases node <;> first | rfl | cases hempty
  have hreads := h.reads
  rw [hnil] at hreads
  exact endsLine_push hpeek hc (hreads.passes hpasses) (hfresh (h.stopped hempty)) hv

end ParseState

namespace Parse

open ParseState

variable {fuel : Nat} {s first : ParseState} {p : Properties}

theorem decorate_marks {id : TokenId} {node : Node} (h : s.Marks node) :
    (decorate p id node).Ensures s fun d t => t.Marks d ∧
      (d.isEmpty = true → t = s ∧ node.isEmpty = true) := by
  unfold decorate
  split
  · exact .pure ⟨h, fun hempty => ⟨rfl, hempty⟩⟩
  · exact .get_bind (.pure ⟨h, fun hempty => by cases hempty⟩)

theorem blockScalar_marks (parent : Int) : (blockScalar parent).Ensures s fun node t =>
    t.Marks node ∧ node.isEmpty = false := by
  unfold blockScalar
  refine .get_bind ?_
  extract_lets header headed
  split
  · exact .set_bind .fail_bind
  refine .emit_bind (.get_bind ?_)
  extract_lets blank answered bodied commented
  have hcommented : ∀ t : ParseState, (commented ()).Ensures t fun node u =>
      u.Marks node ∧ node.isEmpty = false := by
    intro t
    refine .get_bind ?_
    split
    · refine .get_bind ?_
      split
      · exact .get_bind (.pure ⟨fun _ _ => trivial, rfl⟩)
      · exact .modify_bind (.map_bind (.emit_bind (.get_bind (.pure
          ⟨fun _ _ => trivial, rfl⟩))))
    · exact .fail_bind
  clear_value commented
  refine .skipBlanks_bind (.get_bind ?_)
  split
  · exact .modify_bind (hcommented _)
  · exact hcommented _

/-- The marks of what the readers of block nodes answer with, given some fuel. -/
structure BlockMarks (fuel : Nat) : Prop where
  node : ∀ (s : ParseState) (parent : Int) (dashes : Bool),
    (blockNode fuel parent dashes).Ensures s fun node t =>
      t.Marks node ∧ (node.isEmpty = true → t.Stopped)
  entries : ∀ (s : ParseState) (floor : Int), s.atIndicator '-' = true →
    (blockEntries fuel floor).Ensures s fun rows t => ∀ row ∈ rows, t.Marks row
  pairs : ∀ (first s : ParseState) (parent column : Int) (p : Properties), HasRead first p s →
    p.Lined s → p.OnLine s →
    (blockPairs fuel parent column p).Ensures s fun rows t => ∀ row ∈ rows, t.Marks row

theorem BlockMarks.introduces (ih : BlockMarks fuel) (s : ParseState) (parent : Int)
    (dashes : Bool) : (blockNode fuel parent dashes).Ensures s s.Introduces :=
  (((readsBlocks fuel).node s parent dashes).and (ih.node s parent dashes)).mono
    fun _ _ h => ⟨h.1.reads, h.2.1, h.2.2⟩

theorem blockNode_marks (ih : BlockMarks fuel) (parent : Int) (dashes : Bool) :
    (blockNode (fuel + 1) parent dashes).Ensures s fun node t =>
      t.Marks node ∧ (node.isEmpty = true → t.Stopped) := by
  rw [blockNode]
  refine .get_bind ?_
  extract_lets id
  refine .skipBlanks_bind (((nodeStart_ensures fuel parent dashes
    (.none .refl (clearOfBlanks_skipBlanks s))).and (nodeStart_lined fuel parent dashes
    (Properties.lined_none _))).bind fun start t hbegin => ?_)
  obtain ⟨⟨ht, hfound⟩, hlined, hmissing⟩ := hbegin
  obtain ⟨p, found⟩ := start
  dsimp only at ht hfound hlined hmissing ⊢
  have hdecorate : ∀ (node : Node) (u : ParseState), u.Marks node →
      (node.isEmpty = true → u.Stopped) → (decorate p id node).Ensures u fun d v =>
        v.Marks d ∧ (d.isEmpty = true → v.Stopped) := by
    intro node u hmarks hstopped
    refine (decorate_marks hmarks).mono fun d v hd => ⟨hd.1, fun hempty => ?_⟩
    obtain ⟨rfl, hnode⟩ := hd.2 hempty
    exact hstopped hnode
  have hfull : ∀ (node : Node) (u : ParseState), u.Marks node → node.isEmpty = false →
      (decorate p id node).Ensures u fun d v => v.Marks d ∧ (d.isEmpty = true → v.Stopped) := by
    intro node u hmarks hfull
    refine hdecorate node u hmarks fun hempty => ?_
    rw [hfull] at hempty
    cases hempty
  split
  · rename_i hnone
    exact hdecorate .empty t (marks_empty t) fun _ => hmissing (by simpa using hnone)
  rename_i hsome
  have hclear := hfound (by simpa using hsome)
  have hpairs : ∀ column, (blockPairs fuel parent column .none).Ensures t fun rows u =>
      ∀ row ∈ rows, u.Marks row :=
    fun column => ih.pairs t t parent column .none (.none .refl hclear.clearOfBlanks)
      (Properties.lined_none t) (Properties.onLine_none t)
  refine .get_bind ?_
  split
  · rename_i hdash
    exact (ih.entries t _ hdash).bind fun rows u hu => .get_bind
      (hfull _ u (marks_sequence _ hu) rfl)
  split
  · exact (hpairs _).bind fun rows u hu => .get_bind (hfull _ u (marks_mapping _ hu) rfl)
  split
  · exact (blockScalar_marks parent).bind fun node u hu => hfull node u hu.1 hu.2
  split
  · split
    · rename_i mark hfirst
      split
      · rename_i hline
        exact (ih.pairs _ t parent _ p ht hlined fun _ _ => beq_iff_eq.mp hline).bind
          fun rows u hu => .get_bind (.pure ⟨marks_mapping _ hu, fun h => by cases h⟩)
      · exact (hpairs _).bind fun rows u hu => .get_bind (hfull _ u (marks_mapping _ hu) rfl)
    · exact (hpairs _).bind fun rows u hu =>
        .get_bind (.pure ⟨marks_mapping _ hu, fun h => by cases h⟩)
  · exact (inlineNode_inline fuel parent).bind fun node u hu => hfull node u
      (fun _ _ => hu.bracketed.everyRow hu.isInline _) (Node.isEmpty_of_isInline hu.isInline)

theorem blockEntries_marks (ih : BlockMarks fuel) (floor : Int)
    (hdash : s.atIndicator '-' = true) : (blockEntries (fuel + 1) floor).Ensures s fun rows t =>
      ∀ row ∈ rows, t.Marks row := by
  rw [blockEntries]
  refine .get_bind ?_
  extract_lets column
  refine .emit_bind ((ih.introduces _ column false).bind fun value t ht => ?_)
  extract_lets entry
  refine ((advance_ensures t).and (advance_stops t)).bind fun found u hadvance => ?_
  obtain ⟨⟨hpasses, -⟩, -, hfresh⟩ := hadvance
  have hentry : u.Marks entry := by
    intro v hv
    have hmoves := (ht.reads.moves.trans hpasses.moves).trans hv
    exact ⟨⟨spaced_push hdash rfl hmoves,
      ht.endsLine (peek?_of_atIndicator hdash) rfl hpasses hfresh hv⟩,
      ht.marks v (hpasses.moves.trans hv)⟩
  clear_value entry
  split
  · refine .get_bind ?_
    split
    · rename_i hmore
      have hdash : u.atIndicator '-' = true := by
        simp only [Bool.and_eq_true] at hmore
        exact hmore.1.2
      exact (((readsBlocks fuel).entries u floor hdash).and (ih.entries u floor hdash)).bind
        fun rows v hv => .pure (marks_cons hentry hv.1.1.reads.moves hv.2)
    · exact .pure (marks_singleton hentry)
  · exact .pure (marks_singleton hentry)

theorem blockPairs_marks (ih : BlockMarks fuel) (parent column : Int) (h : HasRead first p s)
    (hlined : p.Lined s) (honLine : p.OnLine s) :
    (blockPairs (fuel + 1) parent column p).Ensures s fun rows t =>
      ∀ row ∈ rows, t.Marks row := by
  rw [blockPairs]
  refine .get_bind ?_
  extract_lets id pairColumn paired keyed
  have hpaired : ∀ (pair : Node) (t : ParseState),
      (∀ u, t.Passes u → (t.Stopped → u.Fresh) → u.Marks pair) →
      (paired pair).Ensures t fun rows u => ∀ row ∈ rows, u.Marks row := by
    intro pair t ht
    refine ((advance_ensures t).and (advance_stops t)).bind fun found u hadvance => ?_
    obtain ⟨⟨hpasses, hclear, -⟩, -, hfresh⟩ := hadvance
    have hpair := ht u hpasses hfresh
    split
    · refine .get_bind ?_
      split
      · exact .pure (marks_singleton hpair)
      · extract_lets next
        split
        · have hnone : HasRead u .none u := .none .refl hclear.clearOfBlanks
          exact (((readsBlocks fuel).pairs u u parent column .none hnone fun _ => rfl).and
            (ih.pairs u u parent column .none hnone (Properties.lined_none u)
              (Properties.onLine_none u))).bind fun rows v hv =>
                .pure (marks_cons hpair hv.1.2.2 hv.2)
        · exact .pure (marks_singleton hpair)
    · exact .pure (marks_singleton hpair)
  clear_value paired
  have hkeyed : ∀ (key : Node) (t : ParseState), KeyRead key t →
      (keyed key).Ensures t fun rows u => ∀ row ∈ rows, u.Marks row := by
    intro key t hkey
    refine .get_bind ?_
    extract_lets coloned
    split
    · rename_i hcolon
      have hpeek : t.cursor.peek? = some ':' := by
        rcases (Bool.or_eq_true _ _).mp hcolon with hcolon | hcolon
        · exact peek?_of_atIndicator hcolon
        · exact peek?_of_atAdjacentColon hcolon
      refine .emit_bind ((ih.introduces _ pairColumn true).bind fun value u hu => .get_bind
        (hpaired _ u fun v hpasses hfresh w hw => ?_))
      have hmoves : (t.push .punctuator 1).Moves w :=
        (hu.reads.moves.trans hpasses.moves).trans hw
      have htw : t.Moves w := (reads_mark (clear_of_peek? hpeek rfl) hpeek).moves.trans hmoves
      refine ⟨⟨fun i hi => (by cases hi), fun i hi => ?_, fun _ hfull => ?_⟩,
        hkey.everyRow _, hu.marks w (hpasses.moves.trans hw)⟩
      · rw [← Option.some.inj hi]
        refine ⟨?_, hu.endsLine hpeek rfl hpasses hfresh hw⟩
        rcases (Bool.or_eq_true _ _).mp hcolon with hcolon | hcolon
        · exact .inl (spaced_push hcolon rfl hmoves)
        · exact .inr (touches_push hcolon hmoves)
      · have hrest : t.cursor.rest ≠ [] := by
          intro hnil
          simp [Cursor.peek?, hnil] at hpeek
        exact ⟨hkey.form w htw, t.next, rfl,
          continues_of_suffix (hkey.lastLine?_eq hfull hrest) hmoves.emitted_suffix⟩
    · exact .fail_bind
  clear_value keyed
  split
  · rename_i hquestion
    refine .emit_bind ((ih.introduces _ pairColumn false).bind fun key t ht =>
      ((advance_ensures t).and (advance_stops t)).bind fun more u hadvance => .get_bind ?_)
    obtain ⟨⟨hpasses, -⟩, -, hfresh⟩ := hadvance
    have hasked : ∀ v, u.Moves v → Token.Spaced v.cursor.text v.emitted.reverse s.next ∧
        (key.isEmpty = true → Token.EndsLine v.emitted.reverse s.next) :=
      fun v hv => ⟨spaced_push hquestion rfl ((ht.reads.moves.trans hpasses.moves).trans hv),
        ht.endsLine (peek?_of_atIndicator hquestion) rfl hpasses hfresh hv⟩
    have hkey := ht.marks.mono hpasses.moves
    split
    · rename_i hcolon
      have hcolon : u.atIndicator ':' = true := by
        simp only [Bool.and_eq_true] at hcolon
        exact hcolon.1.2
      have hpush := (reads_indicator hcolon rfl).moves
      refine .emit_bind ((ih.introduces _ pairColumn true).bind fun value v hv => .get_bind
        (hpaired _ v fun w hpasses hfresh x hx => ?_))
      have hmoves := (hv.reads.moves.trans hpasses.moves).trans hx
      refine ⟨⟨fun i hi => ?_, fun i hi => ?_, fun hnone => (by cases hnone)⟩,
        hkey x (hpush.trans hmoves), hv.marks x (hpasses.moves.trans hx)⟩
      · rw [← Option.some.inj hi]
        exact hasked x (hpush.trans hmoves)
      · rw [← Option.some.inj hi]
        exact ⟨.inl (spaced_push hcolon rfl hmoves),
          hv.endsLine (peek?_of_atIndicator hcolon) rfl hpasses hfresh hx⟩
    · refine hpaired _ u fun v hpasses _ w hw => ?_
      have hmoves := hpasses.moves.trans hw
      refine ⟨⟨fun i hi => ?_, fun i hi => (by cases hi), fun hnone => (by cases hnone)⟩,
        hkey w hmoves, trivial⟩
      rw [← Option.some.inj hi]
      exact hasked w hmoves
  · split
    · exact hkeyed .empty s (keyRead_empty s)
    · exact (implicitKey_lined fuel h hlined honLine).bind fun key t ht =>
        .skipBlanks_bind (hkeyed key _ ht.skipBlanks)

theorem blockMarks (fuel : Nat) : BlockMarks fuel := by
  induction fuel with
  | zero =>
    constructor
    · intro s parent dashes
      rw [blockNode]
      exact .fail
    · intro s floor _
      rw [blockEntries]
      exact .fail
    · intro first s parent column p _ _ _
      rw [blockPairs]
      exact .fail
  | succ fuel ih =>
    constructor
    · intro s parent dashes
      exact blockNode_marks ih parent dashes
    · intro s floor hdash
      exact blockEntries_marks ih floor hdash
    · intro first s parent column p h hlined honLine
      exact blockPairs_marks ih parent column h hlined honLine

/-! ## Documents -/

theorem document_marks (fuel : Nat) (first : TokenId) :
    (document fuel first).Ensures s fun d t => t.Marks d.content := by
  unfold document
  refine (ensures_true _).bind fun ids t _ => .get_bind ?_
  extract_lets started
  have hstarted : ∀ (marker : Option TokenId) (u : ParseState),
      (started marker).Ensures u fun d v => v.Marks d.content := by
    intro marker u
    dsimp -zeta only [started]
    extract_lets ended inlined
    have hended : ∀ (content : Node) (v : ParseState), v.Marks content →
        (ended content).Ensures v fun d w => w.Marks d.content :=
      fun content v hcontent => documentEnd_ensures.bind fun _ w hend =>
        .get_bind (.pure (hcontent.mono hend.1.reads.moves))
    clear_value ended
    have hinlined : ∀ (inline : Node) (v : ParseState), v.Marks inline →
        (inlined inline).Ensures v fun d w => w.Marks d.content := by
      intro inline v hinline
      dsimp -zeta only [inlined]
      split
      · refine Ensures.bind (P := fun content w => w.Marks content) ?_ hended
        unfold laterContent
        refine (ensures_true _).bind fun found w _ => ?_
        split
        · refine .get_bind ?_
          split
          · exact .pure (marks_empty _)
          · exact ((blockMarks fuel).node _ _ _).mono fun _ _ h => h.1
        · exact .pure (marks_empty _)
      · exact hended inline v hinline
    clear_value inlined
    split
    · refine Ensures.bind (P := fun content w => w.Marks content) ?_ hinlined
      unfold markedContent
      refine .skipBlanks_bind (.get_bind ?_)
      split
      · exact .pure (marks_empty _)
      · exact ((blockMarks fuel).node _ _ _).mono fun _ _ h => h.1
    · exact hinlined .empty u (marks_empty _)
  clear_value started
  split
  · exact .map_bind (.emit_bind (hstarted _ _))
  · split
    · exact hstarted none t
    · exact .fail_bind

theorem documents_marks (fuel : Nat) (done : List Document)
    (hdone : ∀ d ∈ done, s.Marks d.content) :
    (documents fuel done).Ensures s fun ds t => ∀ d ∈ ds, t.Marks d.content := by
  induction fuel generalizing s done with
  | zero => exact .fail
  | succ fuel ih =>
    rw [documents]
    refine .get_bind ?_
    extract_lets first advanced
    have hadvanced : ∀ t, s.Passes t → t.Clear → (advanced ()).Ensures t fun ds u =>
        ∀ d ∈ ds, u.Marks d.content := by
      intro t ht hclear
      have hkept : ∀ d ∈ done, t.Marks d.content := fun d hd => (hdone d hd).mono ht.moves
      have hlast : ∀ d ∈ done.reverse, t.Marks d.content :=
        fun d hd => hkept d (List.mem_reverse.mp hd)
      refine .get_bind ?_
      split
      · split
        · rename_i last d ds _
          split
          · refine .pure fun e he => ?_
            rcases List.mem_cons.mp (List.mem_reverse.mp he) with rfl | he
            · exact hkept d (List.mem_cons_self ..)
            · exact hkept e (List.mem_cons_of_mem _ he)
          · exact .pure hlast
        · exact .pure fun d hd => (List.mem_singleton.mp hd) ▸ marks_empty t
        · exact .pure hlast
      · rename_i hmore
        refine ((document_ensures fuel first hclear (by simpa using hmore)).and
          (document_marks fuel first)).bind fun d u hd => ih (d :: done) ?_
        exact List.forall_mem_cons.mpr
          ⟨hd.2, fun e he => (hkept e he).mono hd.1.reads.moves⟩
    clear_value advanced
    refine .get_bind ?_
    split
    · rename_i hstart
      exact hadvanced s .refl (clear_of_atContentStart hstart)
    · obtain ⟨hpasses, hclear, -⟩ := skipLines_spec s
      exact .modify_bind (hadvanced _ hpasses hclear)

end Parse

/-- The rows of a text that can be read have their marks. -/
theorem Stream.everyRow_of_parse {text : List Char} {stream : Stream}
    (h : parse text = .ok stream) : ∀ d ∈ stream.documents,
      d.content.EveryRow (Node.RowMarked stream.text stream.tokens.toList) := by
  unfold parse at h
  cases hrun : (Parse.documents (Parse.fuelFor text.length) []).run (.ofText text) with
  | error e =>
    simp only [hrun, Bind.bind, Except.bind] at h
    cases h
  | ok r =>
    obtain ⟨ds, s⟩ := r
    simp only [hrun, Bind.bind, Except.bind, Pure.pure, Except.pure, Except.ok.injEq] at h
    subst h
    intro d hd
    have hreads := (Parse.documents_ensures (Parse.fuelFor text.length) (.ofText text) []
      (.done _) (by simp) (fun _ _ => .nil) ds s hrun).1
    have hmarks := Parse.documents_marks (Parse.fuelFor text.length) [] (by simp) ds s hrun d hd
      s .refl
    rw [hreads.moves.text_eq] at hmarks
    exact hmarks

end YamlLayout
