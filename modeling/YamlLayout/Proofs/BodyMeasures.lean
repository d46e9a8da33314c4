import YamlLayout.Check
import YamlLayout.Proofs.BodyRows
import YamlLayout.Proofs.ColumnCache
import YamlLayout.Proofs.ColumnRules

/-!
# How the lines of a body are measured

Every line of a block scalar's body that holds more than blanks is measured as such, and
all of them are placed in one way: either they are pinned, or they belong at one
column, and a line deeper than the first one counts as standing at its column.
-/
namespace YamlLayout

namespace Measure

theorem bounds_of_interior? {layout : Layout} {j : Nat} {a : Token} {c : Interior}
    (h : interior? layout (j, a) = some c) : a.startLine ≤ c.first ∧ c.last = a.endLine := by
  simp only [interior?] at h
  split at h
  · split at h
    · cases h
      exact ⟨Nat.le_refl _, rfl⟩
    · cases h
      exact ⟨Nat.le_succ _, rfl⟩
  · cases h

theorem line_of_line? {lines : LineTable} {tokens : Array Token} {layout : Layout}
    {column : TokenId → Option Int} {interiors : List Interior} {n : Nat} {m : LineMeasure}
    (h : line? lines tokens layout column interiors n = some m) : m.line = n := by
  unfold line? at h
  dsimp only at h
  split at h
  · cases h
    rfl
  · cases h
    rfl
  · split at h
    · cases h
    · cases h
      unfold ofTokens
      dsimp only
      split <;> rfl

end Measure

namespace Stream

variable {stream : Stream} {layout : Layout} {i : Nat} {t : Token} {block : BlockScalar}

/-- Lines are measured in order, each of them once. -/
theorem pairwise_measures (stream : Stream) (layout : Layout) :
    (stream.measures layout).Pairwise fun a b => a.line < b.line := by
  unfold measures
  dsimp only
  rw [List.pairwise_filterMap]
  apply List.pairwise_lt_range.imp
  intro j k hjk m hm n hn
  have hleft := Measure.line_of_line? hm
  have hright := Measure.line_of_line? hn
  omega

namespace BodyAt

/-- No token but the body starts on its lines. -/
theorem eq_of_startLine {j : Nat} {a : Token} (h : stream.BodyAt i t)
    (ha : stream.tokens[j]? = some a) (hfirst : t.startLine ≤ a.startLine)
    (hlast : a.startLine ≤ t.endLine) : j = i := by
  rcases Nat.lt_trichotomy j i with hj | hj | hj
  · have hbefore := h.before j a hj ha
    omega
  · exact hj
  · have hafter := h.after j a hj ha
    omega

/-- No other scalar covers a line of the body. -/
theorem eq_of_interior {j n : Nat} {a : Token} {c : Interior} (h : stream.BodyAt i t)
    (ha : stream.tokens[j]? = some a) (hc : Measure.interior? layout (j, a) = some c)
    (hn : t.startLine ≤ n ∧ n ≤ t.endLine) (hcover : c.first ≤ n ∧ n ≤ c.last) : j = i := by
  have hbounds := Measure.bounds_of_interior? hc
  rcases Nat.lt_trichotomy j i with hj | hj | hj
  · have hbefore := h.before j a hj ha
    omega
  · exact hj
  · have hafter := h.after j a hj ha
    omega

theorem interior?_eq (h : stream.BodyAt i t) (hblock : layout.blockOfBody? i = some block) :
    Measure.interior? layout (i, t) =
      if t.startLine < t.endLine then
        some ⟨.blockBody block.header i, t.startLine, t.endLine⟩
      else none := by
  simp [Measure.interior?, h.kind_eq, hblock, Token.isMultiline]

/-- A block scalar whose body starts on a line of this one is this one. -/
theorem bodyOn?_eq {n : Nat} (h : stream.BodyAt i t)
    (hblock : layout.blockOfBody? i = some block) (hn : t.startLine ≤ n ∧ n ≤ t.endLine) :
    Measure.bodyOn? stream.tokens layout n =
      if t.startLine = n then some (.blockBody block.header i) else none := by
  have hbody : ∀ b : BlockScalar, (do
      let body ← b.body
      let a ← stream.tokens[body]?
      if a.startLine = n then some (LineRole.blockBody b.header body) else none) =
      if t.startLine = n ∧ b.body = some i then some (.blockBody b.header i) else none := by
    intro b
    rcases hb : b.body with _ | j
    · simp
    rcases ha : stream.tokens[j]? with _ | a
    · have hj : j ≠ i := by
        rintro rfl
        rw [h.token_eq] at ha
        cases ha
      simp [ha, hj]
    by_cases hline : a.startLine = n
    · have hj : j = i := h.eq_of_startLine ha (by omega) (by omega)
      subst hj
      rw [h.token_eq, Option.some.injEq] at ha
      subst ha
      simp [h.token_eq, hline]
    · have hother : ¬(t.startLine = n ∧ j = i) := by
        rintro ⟨hstart, rfl⟩
        rw [h.token_eq, Option.some.injEq] at ha
        exact hline (ha ▸ hstart)
      simp [ha, hline, hother]
  unfold Measure.bodyOn?
  unfold Layout.blockOfBody? at hblock
  rw [funext hbody]
  by_cases hstart : t.startLine = n
  · simp only [hstart, true_and, if_true]
    obtain ⟨hfound, front, back, hblocks, hfront⟩ := List.find?_eq_some_iff_append.mp hblock
    simp only [beq_iff_eq, Bool.not_eq_true', beq_eq_false_iff_ne] at hfound hfront
    rw [hblocks, List.findSome?_append, List.findSome?_eq_none_iff.mpr, List.findSome?_cons,
      if_pos hfound]
    · rfl
    · intro b hb
      rw [if_neg (hfront b hb)]
  · simp [hstart]

/-- What covers a line of the body is the body, and the line is no blank one. -/
theorem eq_of_covers {n : Nat} {c : Interior} (h : stream.BodyAt i t)
    (hblock : layout.blockOfBody? i = some block) (hn : t.startLine ≤ n ∧ n ≤ t.endLine)
    (hc : c ∈ ((Measure.numbered stream.tokens).filterMap (Measure.interior? layout)).filter
      (fun c => decide (c.first ≤ n) && decide (n ≤ c.last) && !stream.lines.isBlankLine n)) :
    c.role = .blockBody block.header i ∧ stream.lines.isBlankLine n = false := by
  obtain ⟨hmem, hcover⟩ := List.mem_filter.mp hc
  obtain ⟨⟨j, a⟩, hnumbered, hinterior⟩ := List.mem_filterMap.mp hmem
  simp only [Bool.and_eq_true, decide_eq_true_eq, Bool.not_eq_true'] at hcover
  have ha := Measure.mem_numbered_iff.mp hnumbered
  have hj := h.eq_of_interior ha hinterior hn hcover.1
  subst hj
  rw [h.token_eq, Option.some.injEq] at ha
  subst ha
  rw [h.interior?_eq hblock] at hinterior
  split at hinterior
  · cases hinterior
    exact ⟨rfl, hcover.2⟩
  · cases hinterior

/-- No token starts on the later lines of the body. -/
theorem startLine_ne {n j : Nat} {a : Token} (h : stream.BodyAt i t)
    (hn : t.startLine ≤ n ∧ n ≤ t.endLine) (hstart : t.startLine ≠ n)
    (ha : stream.tokens[j]? = some a) : a.startLine ≠ n := by
  intro hline
  have hj := h.eq_of_startLine ha (by omega) (by omega)
  subst hj
  rw [h.token_eq, Option.some.injEq] at ha
  exact hstart (ha ▸ hline)

/-- The lines of the body are measured as such, blank ones apart. -/
theorem line?_eq {n : Nat} {column : TokenId → Option Int} (h : stream.BodyAt i t)
    (hblock : layout.blockOfBody? i = some block) (hn : t.startLine ≤ n ∧ n ≤ t.endLine) :
    Measure.line? stream.lines stream.tokens layout column
        ((Measure.numbered stream.tokens).filterMap (Measure.interior? layout)) n =
      if stream.lines.isBlankLine n then none
      else some (.bare n (.blockBody block.header i) (stream.lines.leading n)) := by
  have hcovering := fun c => h.eq_of_covers (c := c) hblock hn
  have hmember : t.startLine < t.endLine → stream.lines.isBlankLine n = false →
      ⟨.blockBody block.header i, t.startLine, t.endLine⟩ ∈
        ((Measure.numbered stream.tokens).filterMap (Measure.interior? layout)).filter
          (fun c => decide (c.first ≤ n) && decide (n ≤ c.last) &&
            !stream.lines.isBlankLine n) := by
    intro hlong hsolid
    rw [List.mem_filter, List.mem_filterMap]
    refine ⟨⟨(i, t), Measure.mem_numbered_iff.mpr h.token_eq, ?_⟩, by simp [hn, hsolid]⟩
    rw [h.interior?_eq hblock, if_pos hlong]
  unfold Measure.line?
  dsimp only
  rw [h.bodyOn?_eq hblock hn]
  generalize ((Measure.numbered stream.tokens).filterMap (Measure.interior? layout)).filter
    (fun c => decide (c.first ≤ n) && decide (n ≤ c.last) &&
      !stream.lines.isBlankLine n) = covering at hcovering hmember ⊢
  by_cases hblank : stream.lines.isBlankLine n = true
  · have hempty : covering = [] := by
      rw [List.eq_nil_iff_forall_not_mem]
      intro c hc
      have hsolid := (hcovering c hc).2
      rw [hblank] at hsolid
      cases hsolid
    have hstart : t.startLine ≠ n := by
      rintro rfl
      rw [h.first_solid] at hblank
      cases hblank
    rw [hempty, if_neg hstart, if_pos hblank]
    dsimp only [List.getLast?_nil, Option.map_none]
    split
    · rfl
    · rename_i hsome
      refine absurd ?_ hsome
      rw [List.filter_eq_nil_iff]
      rintro ⟨j, a⟩ hnumbered hline
      have hne := h.startLine_ne hn hstart (Measure.mem_numbered_iff.mp hnumbered)
      exact hne (by simpa using hline)
  · have hsolid : stream.lines.isBlankLine n = false := by simpa using hblank
    rw [if_neg hblank]
    rcases hlast : covering.getLast? with _ | c
    · -- A body that covers no line by itself has only one.
      rw [List.getLast?_eq_none_iff] at hlast
      have hshort : ¬t.startLine < t.endLine := by
        intro hlong
        have hmem := hmember hlong hsolid
        rw [hlast] at hmem
        cases hmem
      have hstart : t.startLine = n := by omega
      rw [if_pos hstart]
      rfl
    · have hrole := (hcovering c (List.mem_of_mem_getLast? hlast)).1
      rw [Option.map_some, hrole]

theorem mem_measures_iff {m : LineMeasure} (h : stream.BodyAt i t)
    (hblock : layout.blockOfBody? i = some block)
    (hm : t.startLine ≤ m.line ∧ m.line ≤ t.endLine) :
    m ∈ stream.measures layout ↔ stream.lines.isBlankLine m.line = false ∧
      m = .bare m.line (.blockBody block.header i) (stream.lines.leading m.line) := by
  have hpos := h.start_pos
  have hcount := h.end_le
  unfold measures
  dsimp only
  rw [List.mem_filterMap]
  constructor
  · rintro ⟨k, -, hline⟩
    have hk := Measure.line_of_line? hline
    rw [← hk, h.line?_eq hblock hm] at hline
    split at hline
    · cases hline
    · rename_i hsolid
      rw [Option.some.injEq] at hline
      exact ⟨by simpa using hsolid, hline.symm⟩
  · rintro ⟨hsolid, heq⟩
    refine ⟨m.line - 1, List.mem_range.mpr (by omega), ?_⟩
    have hline : m.line - 1 + 1 = m.line := by omega
    rw [hline, h.line?_eq hblock hm, hsolid, if_neg Bool.false_ne_true, ← heq]

end BodyAt

end Stream

namespace Placement

theorem forall_mem_comments {P : LineMeasure → Prop} {unit : Int}
    {before rest : List LineMeasure}
    (hstep : ∀ c expected, isCommentLine c = true → P c → P { c with expected })
    (hbefore : ∀ m ∈ before, P m) (hrest : ∀ m ∈ rest, P m) :
    ∀ m ∈ comments unit before rest, P m := by
  obtain ⟨out, hout, hplaced⟩ := exists_placed unit before rest
  rw [hout, List.forall_mem_append]
  exact ⟨by simpa using hbefore, hplaced.forall_mem hstep hrest⟩

/-- Only comments are changed when comments are placed. -/
theorem mem_of_mem_comments {unit : Int} {before rest : List LineMeasure} {m : LineMeasure}
    (h : m ∈ comments unit before rest) (hm : isCommentLine m = false) :
    m ∈ before ∨ m ∈ rest := by
  have hall : ∀ n ∈ comments unit before rest, isCommentLine n = false →
      n ∈ before ∨ n ∈ rest := by
    apply forall_mem_comments
    · intro c expected hcomment _ hsolid
      rw [isCommentLine] at hcomment hsolid
      rw [hcomment] at hsolid
      cases hsolid
    · exact fun n hn _ => .inl hn
    · exact fun n hn _ => .inr hn
  exact hall m h hm

/-- The lines before a line are enough to find one of them. -/
theorem find?_takeWhile_line {measures : List LineMeasure} {k n : Nat}
    (h : measures.Pairwise fun a b => a.line < b.line) (hk : k < n) :
    (measures.takeWhile (·.line < n)).find? (·.line == k) = measures.find? (·.line == k) := by
  induction measures with
  | nil => rfl
  | cons m ms ih =>
    obtain ⟨hhead, htail⟩ := List.pairwise_cons.mp h
    by_cases hm : m.line < n
    · rw [List.takeWhile_cons_of_pos (by simpa using hm), List.find?_cons, List.find?_cons,
        ih htail]
    · rw [List.takeWhile_cons_of_neg (by simpa using hm), List.find?_nil]
      symm
      rw [List.find?_eq_none]
      intro a ha heq
      rw [beq_iff_eq] at heq
      rcases List.mem_cons.mp ha with rfl | ha
      · omega
      · have hlt := hhead a ha
        omega

theorem isPinned_takeWhile (layout : Layout) (header : TokenId)
    {measures : List LineMeasure} {k n : Nat} (h : measures.Pairwise fun a b => a.line < b.line)
    (hk : k < n) :
    isPinned layout k header (measures.takeWhile (·.line < n)) =
      isPinned layout k header measures := by
  rw [isPinned, isPinned, find?_takeWhile_line h hk]

end Placement

/-- The line is placed as one of a body whose first line starts with `first` spaces: it
is pinned if there is no column for the body. -/
structure LineMeasure.InBody (first : Nat) (target : Option Int) (m : LineMeasure) : Prop where
  gaps_eq : m.gaps = []
  expected_eq : m.expected = target
  pinned_eq : m.pinned = target.isNone
  actual_eq : target.isSome = true → m.actual = min (first : Int) m.leading

namespace Stream

variable {stream : Stream} {s : ParseState} {style : Style} {i : Nat} {t : Token}
  {b : BlockScalar}

/-- The lines are in order, each of them once. -/
theorem pairwise_lines (stream : Stream) (style : Style) :
    (stream.analyze style).lines.Pairwise fun a b => a.line < b.line := by
  have hplace := map_unplaced_place stream (Layout.ofStream stream style) style
    (stream.measures (Layout.ofStream stream style))
  have hsorted := pairwise_measures stream (Layout.ofStream stream style)
  have hmap : ((stream.measures (Layout.ofStream stream style)).map (·.unplaced)).Pairwise
      fun a b => a.line < b.line := by
    rw [List.pairwise_map]
    exact hsorted
  rw [← hplace, List.pairwise_map] at hmap
  exact hmap

theorem ReadTo.header_lt (h : stream.ReadTo s) (hb : .block b ∈ stream.pieces)
    (hi : b.body = some i) : b.header < i := by
  obtain ⟨u, v, -, hblock, -⟩ := h.reads.exists_readsBlock hb
  cases hblock with
  | bare hopens hpasses hbody =>
    rw [hbody] at hi
    cases hi
  | filled hopens hpasses hends hfound hbody =>
    obtain ⟨mark, cs, -, -, -, -, hopened⟩ := hopens.mark
    have hnext := hpasses.moves.next_le
    rw [hopened, ParseState.next_push] at hnext
    rw [hbody, Option.some.injEq] at hi
    rw [hopens.header_eq, ← hi]
    exact hnext

namespace BodyAt

/-- A line of the body is placed with those after the header in view. -/
theorem exists_of_mem_lines {m : LineMeasure} {block : BlockScalar} (h : stream.BodyAt i t)
    (hblock : (Layout.ofStream stream style).blockOfBody? i = some block)
    (hm : m ∈ (stream.analyze style).lines)
    (hline : t.startLine ≤ m.line ∧ m.line ≤ t.endLine) :
    stream.lines.isBlankLine m.line = false ∧ m.leading = stream.lines.leading m.line ∧
      m.role = .blockBody block.header i ∧ m.gaps = [] := by
  obtain ⟨n, hn, hsame, hrole, hleading, hgaps⟩ := exists_of_mem_place hm
  rw [← hsame] at hline
  obtain ⟨hsolid, hbare⟩ := (h.mem_measures_iff hblock hline).mp hn
  refine ⟨hsame ▸ hsolid, ?_, ?_, ?_⟩
  · rw [← hleading, hbare, ← hsame]
    rfl
  · rw [← hrole, hbare]
    rfl
  · rw [← hgaps, hbare]
    rfl

/-- Every line of the body with content is measured. -/
theorem exists_line {n : Nat} {block : BlockScalar} (h : stream.BodyAt i t)
    (hblock : (Layout.ofStream stream style).blockOfBody? i = some block)
    (hn : t.startLine ≤ n ∧ n ≤ t.endLine) (hsolid : stream.lines.isBlankLine n = false) :
    ∃ m ∈ (stream.analyze style).lines, m.line = n := by
  have hmem : LineMeasure.bare n (.blockBody block.header i) (stream.lines.leading n) ∈
      stream.measures (Layout.ofStream stream style) :=
    (h.mem_measures_iff hblock hn).mpr ⟨hsolid, rfl⟩
  have hmap := List.mem_map_of_mem (f := (·.unplaced)) hmem
  rw [← map_unplaced_place stream (Layout.ofStream stream style) style] at hmap
  obtain ⟨m, hm, heq⟩ := List.mem_map.mp hmap
  exact ⟨m, hm, (LineMeasure.unplaced_inj heq).1⟩

end BodyAt

/-- The measured lines once those that continue plain and quoted scalars are placed. -/
def continued (stream : Stream) (style : Style) : List LineMeasure :=
  (stream.measures (Layout.ofStream stream style)).map (Placement.continuation stream.tokens
    (fun j => ((Layout.ofStream stream style).columns stream.tokens)[j]?.join) style.alignScalars)

theorem pairwise_continued (stream : Stream) (style : Style) :
    (stream.continued style).Pairwise fun a b => a.line < b.line := by
  unfold continued
  rw [List.pairwise_map]
  apply (pairwise_measures stream (Layout.ofStream stream style)).imp
  intro a b hab
  rw [(LineMeasure.unplaced_inj (Placement.unplaced_continuation ..)).1,
    (LineMeasure.unplaced_inj (Placement.unplaced_continuation ..)).1]
  exact hab

namespace BodyAt

variable {block : BlockScalar}

theorem mem_continued_iff {m : LineMeasure} (h : stream.BodyAt i t)
    (hblock : (Layout.ofStream stream style).blockOfBody? i = some block)
    (hm : t.startLine ≤ m.line ∧ m.line ≤ t.endLine) :
    m ∈ stream.continued style ↔ stream.lines.isBlankLine m.line = false ∧
      m = .bare m.line (.blockBody block.header i) (stream.lines.leading m.line) := by
  constructor
  · intro hmem
    obtain ⟨x, hx, rfl⟩ := List.mem_map.mp hmem
    have hline := (LineMeasure.unplaced_inj (Placement.unplaced_continuation stream.tokens
      (fun j => ((Layout.ofStream stream style).columns stream.tokens)[j]?.join)
      style.alignScalars x)).1
    rw [hline] at hm ⊢
    obtain ⟨hsolid, hbare⟩ := (h.mem_measures_iff hblock hm).mp hx
    refine ⟨hsolid, ?_⟩
    rw [← hbare, hbare]
    rfl
  · rintro ⟨hsolid, hbare⟩
    refine List.mem_map.mpr ⟨m, (h.mem_measures_iff hblock hm).mpr ⟨hsolid, hbare⟩, ?_⟩
    rw [hbare]
    rfl

/-- The first line of the body is found from every line of it. -/
theorem find?_first (h : stream.BodyAt i t)
    (hblock : (Layout.ofStream stream style).blockOfBody? i = some block) :
    (stream.continued style).find? (fun r => r.role == .blockBody block.header i &&
        r.line == t.startLine) =
      some (.bare t.startLine (.blockBody block.header i)
        (stream.lines.leading t.startLine)) := by
  have hrange := h.start_le
  have hmem : LineMeasure.bare t.startLine (.blockBody block.header i)
      (stream.lines.leading t.startLine) ∈ stream.continued style :=
    (h.mem_continued_iff hblock ⟨Nat.le_refl _, hrange⟩).mpr ⟨h.first_solid, rfl⟩
  have hsome : ((stream.continued style).find? (fun r => r.role == .blockBody block.header i &&
      r.line == t.startLine)).isSome = true := by
    rw [List.find?_isSome]
    exact ⟨_, hmem, by simp [LineMeasure.bare]⟩
  obtain ⟨r, hr⟩ := Option.isSome_iff_exists.mp hsome
  have hfound := List.find?_some hr
  simp only [Bool.and_eq_true, beq_iff_eq] at hfound
  obtain ⟨-, hbare⟩ := (h.mem_continued_iff hblock (by omega)).mp (List.mem_of_find?_eq_some hr)
  rw [hr, hbare, hfound.2]

/-- How a line of the body is placed depends on the header and on the first line. -/
theorem bodyLine_eq {mark : Token} {n : Nat} (column : TokenId → Option Int) (leading : Nat)
    (h : stream.BodyAt i t)
    (hblock : (Layout.ofStream stream style).blockOfBody? i = some block)
    (hmark : stream.tokens[block.header]? = some mark) (habove : mark.startLine < n) :
    Placement.bodyLine stream.tokens (Layout.ofStream stream style) column
        (stream.continued style) (.bare n (.blockBody block.header i) leading) =
      if Placement.isPinned (Layout.ofStream stream style) mark.startLine block.header
          (stream.continued style) then
        { LineMeasure.bare n (.blockBody block.header i) leading with pinned := true }
      else
        { LineMeasure.bare n (.blockBody block.header i) leading with
          actual := min (stream.lines.leading t.startLine : Int) leading
          expected := column i } := by
  have hpin := Placement.isPinned_takeWhile (Layout.ofStream stream style) block.header
    (pairwise_continued stream style) habove
  have hfirst := h.find?_first hblock
  simp only [Placement.bodyLine, LineMeasure.bare, hmark, h.token_eq, Option.map_some,
    Option.getD_some, hfirst]
  change (if Placement.isPinned (Layout.ofStream stream style) mark.startLine block.header
    ((stream.continued style).takeWhile (·.line < n)) then _ else _) = _
  rw [hpin]

/-- All lines of a body are placed in one way. -/
theorem exists_inBody (h : stream.BodyAt i t) (hread : stream.ReadTo s)
    (hblock : (Layout.ofStream stream style).blockOfBody? i = some block)
    (hheader : block.header < i) :
    ∃ target, ∀ m ∈ (stream.analyze style).lines, t.startLine ≤ m.line → m.line ≤ t.endLine →
      m.InBody (stream.lines.leading t.startLine) target := by
  have hsize : i < stream.tokens.size := (Array.getElem?_eq_some_iff.mp h.token_eq).1
  obtain ⟨mark, hmark⟩ : ∃ mark, stream.tokens[block.header]? = some mark :=
    ⟨_, Array.getElem?_eq_getElem (Nat.lt_trans hheader hsize)⟩
  have habove := (h.before block.header mark hheader hmark).1
  have hids : i ∈ stream.ids := by
    rw [hread.mem_ids_iff h.token_eq, Token.isComment, h.kind_eq]
    rfl
  obtain ⟨column, hcolumn⟩ := hread.exists_column? style hids
  refine ⟨if Placement.isPinned (Layout.ofStream stream style) mark.startLine block.header
    (stream.continued style) then none else some column, ?_⟩
  intro m hm hfirst hlast
  obtain ⟨hsolid, hleading, hrole, hgaps⟩ := h.exists_of_mem_lines hblock hm ⟨hfirst, hlast⟩
  have hcomment : Placement.isCommentLine m = false := by
    rw [Placement.isCommentLine, hrole]
    rfl
  -- Placing the comments leaves the line as it was placed before.
  obtain ⟨c, hc, rfl⟩ : ∃ c ∈ stream.continued style, Placement.bodyLine stream.tokens
      (Layout.ofStream stream style)
      (fun j => ((Layout.ofStream stream style).columns stream.tokens)[j]?.join)
      (stream.continued style) c = m := by
    rcases Placement.mem_of_mem_comments hm hcomment with hnil | hfilled
    · cases hnil
    · exact List.mem_map.mp hfilled
  have hline := (LineMeasure.unplaced_inj (Placement.unplaced_bodyLine stream.tokens
    (Layout.ofStream stream style)
    (fun j => ((Layout.ofStream stream style).columns stream.tokens)[j]?.join)
    (stream.continued style) c)).1
  rw [hline] at hfirst hlast
  obtain ⟨-, hbare⟩ := (h.mem_continued_iff hblock ⟨hfirst, hlast⟩).mp hc
  have hplaced := h.bodyLine_eq
    (fun j => ((Layout.ofStream stream style).columns stream.tokens)[j]?.join)
    (stream.lines.leading c.line) hblock hmark (Nat.lt_of_lt_of_le habove hfirst)
  rw [← hbare, Layout.join_getElem?_columns hsize, hcolumn] at hplaced
  rw [hplaced, hbare]
  split
  · exact ⟨rfl, rfl, rfl, by simp⟩
  · exact ⟨rfl, rfl, rfl, fun _ => rfl⟩

end BodyAt

end Stream

end YamlLayout
