import Mathlib.Tactic.IntervalCases
import YamlLayout.Check
import YamlLayout.Proofs.Measured
import YamlLayout.Proofs.PatchedRows

/-!
# What repairs edit

A repair moves lines, widens or narrows gaps, and rewrites the digits of block scalar
headers. Each of its edits exchanges blanks for blanks or one digit for another.
-/
namespace YamlLayout

/-- The digits that a block scalar header can hold. -/
def isIndentDigit (c : Char) : Bool := '1' ≤ c && c ≤ '9'

/-- Blanks for blanks, or one digit for another. -/
inductive Exchange : List Char → List Char → Prop
  | blanks {old new : List Char} (hold : ∀ c ∈ old, isBlank c = true)
      (hnew : ∀ c ∈ new, isBlank c = true) : Exchange old new
  | digit {a b : Char} (ha : isIndentDigit a = true) (hb : isIndentDigit b = true) :
      Exchange [a] [b]

/-- The edit is an exchange, and it does not part a carriage return from its line feed. -/
def Edit.Quiet (e : Edit) (text : List Char) : Prop :=
  ∃ before old after, e.Replaces text before old after ∧ Exchange old e.text.toList ∧
    before.getLast? ≠ some '\r'

theorem Edit.Quiet.fits {e : Edit} {text : List Char} (h : e.Quiet text) : e.Fits text := by
  obtain ⟨before, old, after, hreplaces, -⟩ := h
  exact ⟨before, old, after, hreplaces⟩

namespace Text

/-- Nothing but a line feed follows a carriage return. -/
theorem ReturnsPaired.getLast?_ne {before after : List Char}
    (h : ReturnsPaired (before ++ after)) (hafter : after.head? ≠ some '\n')  :
    before.getLast? ≠ some '\r' := by
  intro hlast
  obtain ⟨front, rfl⟩ := List.getLast?_eq_some_iff.mp hlast
  rw [List.append_assoc, List.singleton_append] at h
  exact hafter h.head?

theorem WholeLines.getLast?_ne {text : List Char} (h : WholeLines text) :
    text.getLast? ≠ some '\r' := by
  rcases h with rfl | h
  · simp
  · rw [h]
    decide

@[simp] theorem byteLength_replicate_space (n : Nat) : byteLength (List.replicate n ' ') = n := by
  induction n with
  | zero => rfl
  | succ n ih =>
    rw [List.replicate_succ, byteLength, ih]
    exact Nat.add_comm ..

end Text

theorem Stream.Apart.replaces {text before x mid y after : List Char} {a b : Token} {e : Edit}
    (h : Apart text a b before x mid y after) (hrange : e.range = ⟨a.range.stop, b.range.start⟩) :
    e.Replaces text (before ++ x) mid (y ++ after) := by
  refine ⟨?_, ?_⟩
  · rw [h.left.text_eq]
    simp
  · rw [hrange, h.left.range_eq, h.right.range_eq]
    simp [Nat.add_assoc]

namespace RepairContext

variable {stream : Stream} {s : ParseState} (layout : Layout)

@[simp] theorem toList_spaces (n : Nat) : (spaces n).toList = List.replicate n ' ' := by
  simp [spaces]

theorem isBlank_of_mem_spaces {n : Nat} {c : Char} (h : c ∈ (spaces n).toList) :
    isBlank c = true := by
  rw [toList_spaces] at h
  rw [List.eq_of_mem_replicate h]
  rfl

/-- Moving a line exchanges the spaces it starts with. -/
theorem exists_replaces_lineEdit {m : LineMeasure} (hm : m.Sound stream) (delta : Int) :
    ∃ before rest after,
      Text.Row stream.text m.line before (List.replicate m.leading ' ' ++ rest) after ∧
      ((ofStream stream layout).lineEdit m delta).Replaces stream.text before
        (List.replicate m.leading ' ') (rest ++ after) := by
  obtain ⟨before, row, after, hrow, hstart⟩ :=
    LineTable.exists_row stream.text hm.line_pos hm.line_le
  have hleading : m.leading = Text.leadingSpaces (Text.stripBreak row) := by
    rw [hm.leading_eq, LineTable.leading, Stream.lines, hrow.content_eq]
  obtain ⟨rest, hrest⟩ := Text.exists_append_of_leadingSpaces row
  rw [← hleading] at hrest
  rw [hrest] at hrow
  refine ⟨before, rest, after, hrow, ?_, ?_⟩
  · rw [hrow.text_eq, List.append_assoc]
  · have hline : (ofStream stream layout).lineStart m.line = Text.byteLength before := by
      change stream.lines.starts[m.line - 1]? = _ at hstart
      simp [lineStart, ofStream, hstart]
    simp only [lineEdit, hline, Text.byteLength_replicate_space]

theorem not_mem_spaces (n : Nat) : '\n' ∉ (spaces n).toList := by
  intro hmem
  have hblank := isBlank_of_mem_spaces hmem
  cases hblank

theorem onLine_lineEdit {m : LineMeasure} (hm : m.Sound stream) (delta : Int) :
    ((ofStream stream layout).lineEdit m delta).OnLine stream.text m.line := by
  obtain ⟨before, rest, after, hrow, hreplaces⟩ := exists_replaces_lineEdit layout hm delta
  refine ⟨before, _, _, hreplaces, ?_, not_mem_spaces _, hrow.line_eq⟩
  intro hmem
  exact hrow.not_mem (List.mem_append_left _ hmem)

theorem quiet_lineEdit {m : LineMeasure} (hm : m.Sound stream) (delta : Int) :
    ((ofStream stream layout).lineEdit m delta).Quiet stream.text := by
  obtain ⟨before, rest, after, hrow, hreplaces⟩ := exists_replaces_lineEdit layout hm delta
  refine ⟨before, _, _, hreplaces, .blanks (fun c hc => ?_) fun c hc => ?_,
    hrow.whole.getLast?_ne⟩
  · rw [List.eq_of_mem_replicate hc]
    rfl
  · exact isBlank_of_mem_spaces hc

theorem gapEdit?_eq {g : Gap} {e : Edit} {a b : Token}
    (ha : stream.tokens[g.indicator]? = some a) (hb : stream.tokens[g.next]? = some b)
    (he : (ofStream stream layout).gapEdit? g = some e) :
    e = ⟨⟨a.range.stop, b.range.start⟩, spaces g.expected.toNat⟩ := by
  simp only [gapEdit?, ofStream, ha, hb, Option.bind_eq_bind, Option.bind_some] at he
  split at he
  · rw [Option.some.injEq] at he
    exact he.symm
  · cases he

/-- Giving a gap its width exchanges the blanks between two tokens. -/
theorem exists_replaces_gapEdit {m : LineMeasure} {g : Gap} {e : Edit} (h : stream.ReadTo s)
    (hpaired : Text.ReturnsPaired stream.text) (hm : m.Sound stream) (hg : g ∈ m.gaps)
    (he : (ofStream stream layout).gapEdit? g = some e) :
    ∃ before mid after, e.Replaces stream.text before mid after ∧ (∀ c ∈ mid, isBlank c = true) ∧
      (∀ c ∈ e.text.toList, isBlank c = true) ∧ (mid ++ after).head? ≠ some '\n' := by
  obtain ⟨pre, a, b, post, hbetween⟩ := hm.gaps_between g hg
  obtain ⟨ha, hb, before, x, mid, y, after, hapart, hmid⟩ := h.exists_gap hpaired hbetween
  have hedit := gapEdit?_eq layout ha hb he
  refine ⟨before ++ x, mid, y ++ after, hapart.replaces (by rw [hedit]), hmid, ?_, ?_⟩
  · intro c hc
    rw [hedit] at hc
    exact isBlank_of_mem_spaces hc
  · rcases mid with _ | ⟨c, cs⟩
    · have hhead := hapart.right.head_ne
      obtain ⟨d, ds, rfl⟩ := List.exists_cons_of_ne_nil hapart.right.ne_nil
      simpa using hhead
    · have hblank := hmid c (by simp)
      rw [List.cons_append, List.head?_cons]
      intro hfeed
      rw [Option.some.injEq] at hfeed
      rw [hfeed] at hblank
      cases hblank

/-- A gap lies on one line, whatever stands between its tokens. -/
theorem onLine_gapEdit {m : LineMeasure} {g : Gap} {e : Edit} (h : stream.ReadTo s)
    (hm : m.Sound stream) (hg : g ∈ m.gaps)
    (he : (ofStream stream layout).gapEdit? g = some e) : e.OnLine stream.text m.line := by
  obtain ⟨pre, a, b, post, hbetween⟩ := hm.gaps_between g hg
  obtain ⟨ha, hb, hij, hleft, hright, -⟩ := Measure.exists_of_contentOn hbetween
  obtain ⟨before, x, mid, y, after, hapart⟩ := h.exists_apart ha hb hij
  have hedit := gapEdit?_eq layout ha hb he
  -- Both tokens start on the line, so no line feed lies before the second one.
  have hfeeds : (x ++ mid).count '\n' = 0 := by
    have hstart := hapart.left.startLine_eq
    have hnext := hapart.right.startLine_eq
    rw [List.count_append] at hnext
    omega
  rw [List.count_append] at hfeeds
  refine ⟨before ++ x, mid, y ++ after, hapart.replaces (by rw [hedit]), ?_, ?_, ?_⟩
  · rw [← List.count_eq_zero]
    omega
  · rw [hedit]
    exact not_mem_spaces _
  · have hstart := hapart.left.startLine_eq
    rw [List.count_append]
    omega

theorem quiet_gapEdit {m : LineMeasure} {g : Gap} {e : Edit} (h : stream.ReadTo s)
    (hpaired : Text.ReturnsPaired stream.text) (hm : m.Sound stream) (hg : g ∈ m.gaps)
    (he : (ofStream stream layout).gapEdit? g = some e) : e.Quiet stream.text := by
  obtain ⟨before, mid, after, hreplaces, hmid, hnew, hhead⟩ :=
    exists_replaces_gapEdit layout h hpaired hm hg he
  refine ⟨_, _, _, hreplaces, .blanks hmid hnew, ?_⟩
  rw [hreplaces.text_eq] at hpaired
  exact hpaired.getLast?_ne hhead

end RepairContext

namespace Lexeme

/-- A header holds no characters but its mark, digits and chomping indicators. -/
theorem mem_blockIndicators {n : Nat} {digit : Option Nat} {chomping : Chomping} {cs : List Char}
    {c : Char} (h : c ∈ cs.take (blockIndicators n digit chomping cs).length) :
    isIndentDigit c = true ∨ c = '-' ∨ c = '+' := by
  induction n generalizing digit chomping cs with
  | zero => simp [blockIndicators] at h
  | succ n ih =>
    rcases cs with _ | ⟨d, ds⟩
    · simp at h
    simp only [blockIndicators] at h
    split at h
    · rename_i hdigit
      rcases List.mem_cons.mp h with rfl | h
      · simp only [Bool.and_eq_true, decide_eq_true_eq] at hdigit
        exact .inl (by simpa [isIndentDigit] using hdigit.1)
      · exact ih h
    split at h
    · simp at h
    split at h
    · rename_i hminus
      rcases List.mem_cons.mp h with rfl | h
      · simp only [Bool.and_eq_true, beq_iff_eq] at hminus
        exact .inr (.inl hminus.1)
      · exact ih h
    split at h
    · rename_i hplus
      rcases List.mem_cons.mp h with rfl | h
      · simp only [Bool.and_eq_true, beq_iff_eq] at hplus
        exact .inr (.inr hplus.1)
      · exact ih h
    · simp at h

end Lexeme

namespace Stream

variable {stream : Stream} {s : ParseState} {b : BlockScalar} {style : Style}

theorem block_mem_pieces (h : b ∈ (Layout.ofStream stream style).blocks) :
    .block b ∈ stream.pieces := by
  obtain ⟨d, hd, hb⟩ := List.mem_flatMap.mp h
  rw [Node.blockScalars_eq] at hb
  obtain ⟨piece, hpiece, heq⟩ := List.mem_filterMap.mp hb
  have hblock : piece = .block b := by
    cases piece with
    | token => cases heq
    | block => rw [Piece.block?, Option.some.injEq] at heq; rw [heq]
  subst hblock
  exact List.mem_flatMap.mpr ⟨d, hd, by simp [Document.pieces, hpiece]⟩

/-- The header of a block scalar is its mark, followed by its indicators. -/
theorem ReadTo.exists_header (h : stream.ReadTo s) (hb : .block b ∈ stream.pieces) :
    ∃ token before mark indicators after, stream.tokens[b.header]? = some token ∧
      token.kind = .punctuator ∧
      token.Stands stream.text before (mark :: indicators) after ∧ (mark = '|' ∨ mark = '>') ∧
      ∀ c ∈ indicators, isIndentDigit c = true ∨ c = '-' ∨ c = '+' := by
  obtain ⟨u, v, hu, hblock, hv⟩ := h.reads.exists_readsBlock hb
  obtain ⟨opened, hopens, hmoves⟩ : ∃ opened, u.Opens b opened ∧ opened.Moves s := by
    cases hblock with
    | bare hopens hpasses => exact ⟨_, hopens, hpasses.moves.trans hv⟩
    | filled hopens hpasses hends hfound =>
      exact ⟨_, hopens, (hpasses.moves.tail (.body hends hfound)).trans hv⟩
  obtain ⟨mark, cs, hrest, hmark, -, -, hopened⟩ := hopens.mark
  let n := (Lexeme.blockIndicators 2 none .clip cs).length
  have hahead : u.Ahead (n + 1) := by
    refine ⟨hopens.clear, Nat.succ_pos n, ?_⟩
    rw [hrest, List.length_cons]
    exact Nat.succ_le_succ (Lexeme.blockIndicators_length_le ..)
  have htakes : u.Takes (u.ahead .punctuator (n + 1)) [] (u.cursor.rest.take (n + 1))
      (u.push .punctuator (n + 1)) := ParseState.takes_push hahead (by simp)
  have hvalue : u.cursor.rest.take (n + 1) = mark :: cs.take n := by
    rw [hrest, List.take_succ_cons]
  have htext : u.cursor.text = stream.text := ParseState.Moves.text_eq hu
  have hstands := htakes.stands
  rw [hvalue, htext] at hstands
  have hget := htakes.getElem?_eq (hopened ▸ hmoves)
  refine ⟨_, _, mark, cs.take n, _, ?_, rfl, hstands, hmark, fun c hc =>
    Lexeme.mem_blockIndicators hc⟩
  rw [h.tokens_eq, List.getElem?_toArray, hopens.header_eq]
  exact hget

end Stream

namespace RepairContext

variable {stream : Stream} {s : ParseState} {style : Style} {b : BlockScalar} {e : Edit}
  (layout : Layout)

/-- One byte for each character of a header. -/
theorem byteLength_indicators {cs : List Char}
    (h : ∀ c ∈ cs, isIndentDigit c = true ∨ c = '-' ∨ c = '+') :
    Text.byteLength cs = cs.length := by
  induction cs with
  | nil => rfl
  | cons c cs ih =>
    have hsize : c.utf8Size = 1 := by
      rcases h c (List.mem_cons_self ..) with hc | rfl | rfl
      · simp only [isIndentDigit, Bool.and_eq_true, decide_eq_true_eq] at hc
        have hascii : c.val ≤ 127 := UInt32.le_trans hc.2 (by decide)
        exact if_pos hascii
      · rfl
      · rfl
    rw [Text.byteLength, hsize, ih fun d hd => h d (List.mem_cons_of_mem _ hd), List.length_cons]
    omega

theorem exists_toString_digit {n : Nat} (hpos : 1 ≤ n) (hle : n ≤ 9) :
    ∃ c, (toString n).toList = [c] ∧ isIndentDigit c = true := by
  interval_cases n <;> exact ⟨_, rfl, rfl⟩

/-- Rewriting a digit exchanges it for another one. -/
theorem exists_replaces_digitEdit {n : Nat} (h : stream.ReadTo s)
    (hb : .block b ∈ stream.pieces)
    (he : (ofStream stream layout).digitEdit? b.header n = some e) :
    ∃ token before value after l c r, stream.tokens[b.header]? = some token ∧
      token.Stands stream.text before value after ∧ value = l ++ c :: r ∧
      isIndentDigit c = true ∧ '\n' ∉ value ∧ e.text = toString n ∧
      e.Replaces stream.text (before ++ l) [c] (r ++ after) := by
  obtain ⟨token, before, mark, indicators, after, htoken, -, hstands, hmark, hindicators⟩ :=
    h.exists_header hb
  have hvalue : token.value.toList = mark :: indicators := by
    rw [hstands.value_eq, String.toList_ofList]
  simp only [digitEdit?, ofStream, htoken, Option.bind_eq_bind, Option.bind_some, hvalue] at he
  obtain ⟨place, hplace, heq⟩ := Option.bind_eq_some_iff.mp he
  rw [Option.some.injEq] at heq
  rw [List.findIdx?_eq_some_iff_getElem] at hplace
  obtain ⟨hlt, hdigit, -⟩ := hplace
  -- The digit is not the mark, so it is one of the indicators.
  cases place with
  | zero =>
    rcases hmark with rfl | rfl <;> cases hdigit
  | succ i =>
    have hi : i < indicators.length := Nat.lt_of_succ_lt_succ hlt
    rw [List.getElem_cons_succ] at hdigit
    have hsplit : indicators = indicators.take i ++ indicators[i] :: indicators.drop (i + 1) := by
      rw [← List.drop_eq_getElem_cons hi, List.take_append_drop]
    have hc : isIndentDigit indicators[i] = true := by
      rcases hindicators indicators[i] (List.getElem_mem hi) with hc | hc | hc
      · exact hc
      · rw [hc] at hdigit
        cases hdigit
      · rw [hc] at hdigit
        cases hdigit
    have hbytes : Text.byteLength (mark :: indicators.take i) = i + 1 := by
      have hmark : mark.utf8Size = 1 := by rcases hmark with rfl | rfl <;> rfl
      rw [Text.byteLength, hmark, byteLength_indicators
        fun c hc => hindicators c (List.mem_of_mem_take hc),
        List.length_take_of_le (Nat.le_of_lt hi)]
      exact Nat.add_comm ..
    have hone : Text.byteLength [indicators[i]] = 1 :=
      byteLength_indicators fun d hd => .inl (List.mem_singleton.mp hd ▸ hc)
    refine ⟨token, before, mark :: indicators, after, mark :: indicators.take i, indicators[i],
      indicators.drop (i + 1), htoken, hstands, ?_, hc, ?_, by rw [← heq], ?_, ?_⟩
    · rw [List.cons_append, ← hsplit]
    · intro hmem
      rcases List.mem_cons.mp hmem with rfl | hmem
      · rcases hmark with hmark | hmark <;> cases hmark
      · rcases hindicators '\n' hmem with hfeed | hfeed | hfeed <;> cases hfeed
    · have hjoin := congrArg (· ++ after) hsplit
      simp only [List.append_assoc, List.cons_append] at hjoin
      rw [hstands.text_eq, List.cons_append, hjoin]
      simp
    · rw [← heq, hstands.range_eq, Text.byteLength_append, hbytes, hone]

theorem onLine_digitEdit {n : Nat} (h : stream.ReadTo s) (hb : .block b ∈ stream.pieces)
    (hpos : 1 ≤ n) (hle : n ≤ 9)
    (he : (ofStream stream layout).digitEdit? b.header n = some e) :
    ∃ token, stream.tokens[b.header]? = some token ∧ e.OnLine stream.text token.startLine := by
  obtain ⟨token, before, value, after, l, c, r, htoken, hstands, hvalue, hc, hclean, htext,
    hreplaces⟩ := exists_replaces_digitEdit layout h hb he
  obtain ⟨d, hd, hdigit⟩ := exists_toString_digit hpos hle
  rw [hvalue, List.mem_append, not_or, List.mem_cons, not_or] at hclean
  refine ⟨token, htoken, _, _, _, hreplaces, ?_, ?_, ?_⟩
  · intro hmem
    exact hclean.2.1 (List.mem_singleton.mp hmem)
  · rw [htext, hd]
    intro hmem
    rw [← List.mem_singleton.mp hmem] at hdigit
    cases hdigit
  · rw [List.count_append, List.count_eq_zero_of_not_mem hclean.1, hstands.startLine_eq]

theorem quiet_digitEdit {n : Nat} (h : stream.ReadTo s)
    (hpaired : Text.ReturnsPaired stream.text) (hb : .block b ∈ stream.pieces)
    (hpos : 1 ≤ n) (hle : n ≤ 9)
    (he : (ofStream stream layout).digitEdit? b.header n = some e) : e.Quiet stream.text := by
  obtain ⟨token, before, value, after, l, c, r, -, -, -, hc, -, htext, hreplaces⟩ :=
    exists_replaces_digitEdit layout h hb he
  obtain ⟨d, hd, hdigit⟩ := exists_toString_digit hpos hle
  refine ⟨_, _, _, hreplaces, ?_, ?_⟩
  · rw [htext, hd]
    exact .digit hc hdigit
  · rw [hreplaces.text_eq] at hpaired
    refine hpaired.getLast?_ne ?_
    rw [List.singleton_append, List.head?_cons]
    intro hfeed
    rw [Option.some.injEq] at hfeed
    rw [hfeed] at hc
    cases hc

theorem exists_of_mem_mapM {α β : Type} {f : α → Option β} {xs : List α} {ys : List β}
    (h : xs.mapM f = some ys) {y : β} (hy : y ∈ ys) : ∃ x ∈ xs, f x = some y := by
  induction xs generalizing ys with
  | nil =>
    cases h
    cases hy
  | cons x xs ih =>
    rw [List.mapM_cons] at h
    obtain ⟨z, hz, h⟩ := Option.bind_eq_some_iff.mp h
    obtain ⟨zs, hzs, h⟩ := Option.bind_eq_some_iff.mp h
    cases h
    rcases List.mem_cons.mp hy with rfl | hy
    · exact ⟨x, List.mem_cons_self .., hz⟩
    · obtain ⟨w, hw, hfw⟩ := ih hzs hy
      exact ⟨w, List.mem_cons_of_mem _ hw, hfw⟩

/-- The digit of a header is rewritten for a block scalar of the layout whose body moves by
another distance. -/
theorem exists_of_mem_digitEdits {window : List (LineMeasure × Int)} {digits : List Edit}
    (h : (ofStream stream layout).digitEdits? window = some digits) (he : e ∈ digits) :
    ∃ b ∈ layout.blocks, ∃ n, 1 ≤ n ∧ n ≤ 9 ∧
      (ofStream stream layout).digitEdit? b.header n = some e ∧ ∃ i, b.body = some i ∧
        (ofStream stream layout).deltaAt window b.header ≠
          (ofStream stream layout).deltaAt window i := by
  obtain ⟨lists, hlists, rfl⟩ := Option.map_eq_some_iff.mp h
  obtain ⟨edits, hedits, he⟩ := List.mem_flatten.mp he
  obtain ⟨b, hb, hblock⟩ := exists_of_mem_mapM hlists hedits
  refine ⟨b, hb, ?_⟩
  unfold digitEditOf? at hblock
  split at hblock
  · rename_i digit body hdigit hbody
    dsimp only at hblock
    split at hblock
    · cases hblock
      cases he
    rename_i hne
    split at hblock
    · rename_i hrange
      simp only [Bool.and_eq_true, decide_eq_true_eq] at hrange
      obtain ⟨f, hf, rfl⟩ := Option.map_eq_some_iff.mp hblock
      rw [List.mem_singleton.mp he]
      exact ⟨_, by omega, by omega, hf, body, hbody, hne⟩
    · cases hblock
  · cases hblock
    cases he

/-- An edit to one line of a window moves it or mends one of its gaps. -/
theorem exists_of_mem_lineEdits {m : LineMeasure} {delta : Int}
    (h : e ∈ (ofStream stream layout).lineEdits m delta) :
    (delta ≠ 0 ∧ e = (ofStream stream layout).lineEdit m delta) ∨
      ∃ g ∈ m.gaps, (ofStream stream layout).gapEdit? g = some e := by
  rcases List.mem_append.mp h with h | h
  · split at h
    · cases h
    · rename_i hdelta
      exact .inl ⟨hdelta, List.mem_singleton.mp h⟩
  · obtain ⟨g, hg, hedit⟩ := List.mem_filterMap.mp h
    exact .inr ⟨g, (List.mem_filter.mp hg).1, hedit⟩

/-- The parts of a repair that moves lines. -/
theorem exists_of_lineRepair? {expected : Int} {earlier later : List LineMeasure}
    {m : LineMeasure} {ctx : RepairContext} {r : Repair}
    (h : ctx.lineRepair? expected earlier m later = some r) :
    ∃ window deltas digits, window? expected earlier m later = some window ∧
      Shift.deltas window = some deltas ∧ ctx.digitEdits? (window.zip deltas) = some digits ∧
      Repair.ofEdits? ((window.zip deltas).flatMap (fun (m, delta) => ctx.lineEdits m delta) ++
        digits) = some r := by
  obtain ⟨window, hwindow, h⟩ := Option.bind_eq_some_iff.mp h
  obtain ⟨deltas, hdeltas, h⟩ := Option.bind_eq_some_iff.mp h
  obtain ⟨digits, hdigits, h⟩ := Option.bind_eq_some_iff.mp h
  exact ⟨window, deltas, digits, hwindow, hdeltas, hdigits, h⟩

/-- A repair moves all the lines that have to move. -/
theorem lineEdit_mem_of_ofEdits? {moves : List (LineMeasure × Int)} {digits : List Edit}
    {ctx : RepairContext} {r : Repair} {g : LineMeasure} {d : Int}
    (h : Repair.ofEdits? (moves.flatMap (fun (m, delta) => ctx.lineEdits m delta) ++ digits) =
      some r) (hg : (g, d) ∈ moves) (hd : d ≠ 0) : ctx.lineEdit g d ∈ r.edits := by
  apply (Repair.perm_of_ofEdits? h).mem_iff.mpr
  apply List.mem_append_left
  apply List.mem_flatMap.mpr
  refine ⟨(g, d), hg, ?_⟩
  simp [lineEdits, hd]

theorem mem_window?_iff {expected : Int} {earlier later window : List LineMeasure}
    {m g : LineMeasure} (h : window? expected earlier m later = some window) :
    g ∈ window ↔ g ∈ earlier.takeWhile (!·.belongsLeftOf expected) ∨ g = m ∨
      g ∈ later.takeWhile (!·.belongsLeftOf expected) := by
  unfold window? at h
  dsimp only at h
  split at h
  · cases h
  · cases h
    rw [List.mem_append, List.mem_reverse, List.mem_cons]

theorem sublist_sameDocument (ctx : RepairContext) (line : Nat) (measures : List LineMeasure) :
    (ctx.sameDocument line measures).Sublist measures := by
  unfold sameDocument
  split
  · exact List.filter_sublist
  · exact List.Sublist.refl _

theorem mem_of_reached {ctx : RepairContext} {line : Nat} {side : List LineMeasure}
    {p : LineMeasure → Bool} {g : LineMeasure}
    (h : g ∈ (ctx.sameDocument line side).takeWhile p) : g ∈ side :=
  (sublist_sameDocument ..).mem ((List.takeWhile_sublist _).mem h)

/-- Every deviation is that of some line among the others. -/
theorem exists_of_mem_deviationsFrom {ctx : RepairContext} {before rest : List LineMeasure}
    {d : Deviation} (h : d ∈ ctx.deviationsFrom before rest) :
    ∃ pre m post, rest = pre ++ m :: post ∧
      d ∈ ctx.deviationsOf (pre.reverse ++ before) m post := by
  induction rest generalizing before with
  | nil => cases h
  | cons m rest ih =>
    rcases List.mem_append.mp h with h | h
    · exact ⟨[], m, rest, rfl, h⟩
    · obtain ⟨pre, n, post, rfl, hd⟩ := ih h
      exact ⟨m :: pre, n, post, rfl, by simpa using hd⟩

/-- The repair of a deviation mends one gap of its line, or moves lines around it. -/
theorem repair_of_mem_deviationsOf {ctx : RepairContext} {before after : List LineMeasure}
    {m : LineMeasure} {d : Deviation} {r : Repair} (h : d ∈ ctx.deviationsOf before m after)
    (hr : d.repair = some r) :
    (∃ g ∈ m.gaps, g.isOff = true ∧ ∃ e, ctx.gapEdit? g = some e ∧ r = ⟨[e]⟩) ∨
      ∃ expected, m.expected = some expected ∧ expected ≠ m.actual ∧
        ctx.lineRepair? expected (ctx.sameDocument m.line before) m
          (ctx.sameDocument m.line after) = some r := by
  unfold deviationsOf at h
  split at h
  · cases h
  rename_i expected hexpected
  dsimp only at h
  split at h
  · cases h
  split at h
  · obtain ⟨g, hg, hdeviation⟩ := List.mem_filterMap.mp h
    obtain ⟨hgap, hoff⟩ := List.mem_filter.mp hg
    obtain ⟨e, he, hdeviation⟩ := Option.bind_eq_some_iff.mp hdeviation
    obtain ⟨indicator, -, hdeviation⟩ := Option.bind_eq_some_iff.mp hdeviation
    cases hdeviation
    dsimp only at hr
    split at hr
    · cases hr
      exact .inl ⟨g, hgap, hoff, e, he, rfl⟩
    · cases hr
  · rename_i hne
    rw [List.mem_singleton] at h
    subst h
    exact .inr ⟨expected, hexpected, hne, hr⟩

end RepairContext

namespace Stream

variable {stream : Stream} {s : ParseState} {style : Style} {r : Repair}

/-- The repair mends one gap of a line, or moves the lines around it. -/
theorem exists_of_mem_repairs (hr : r ∈ (stream.analyze style).repairs) :
    ∃ pre m post, (stream.analyze style).lines = pre ++ m :: post ∧
      ((∃ g ∈ m.gaps, g.isOff = true ∧ ∃ e,
          (RepairContext.ofStream stream (Layout.ofStream stream style)).gapEdit? g = some e ∧
            r = ⟨[e]⟩) ∨
        ∃ expected, m.expected = some expected ∧ expected ≠ m.actual ∧
          (RepairContext.ofStream stream (Layout.ofStream stream style)).lineRepair? expected
            ((RepairContext.ofStream stream (Layout.ofStream stream style)).sameDocument m.line
              pre.reverse) m
            ((RepairContext.ofStream stream (Layout.ofStream stream style)).sameDocument m.line
              post) = some r) := by
  obtain ⟨d, hd, hrepair⟩ := List.mem_filterMap.mp hr
  obtain ⟨pre, m, post, hlines, hd⟩ := RepairContext.exists_of_mem_deviationsFrom hd
  rw [List.append_nil] at hd
  exact ⟨pre, m, post, hlines, RepairContext.repair_of_mem_deviationsOf hd hrepair⟩

/-- The lines that a repair moves, each with the distance. -/
inductive MovesTogether (stream : Stream) (style : Style) : List (LineMeasure × Int) → Prop
  | none : MovesTogether stream style []
  | window {pre post window : List LineMeasure} {m : LineMeasure} {expected : Int}
      {deltas : List Int} (hlines : (stream.analyze style).lines = pre ++ m :: post)
      (hexpected : m.expected = some expected)
      (hwindow : RepairContext.window? expected
        ((RepairContext.ofStream stream (Layout.ofStream stream style)).sameDocument m.line
          pre.reverse) m
        ((RepairContext.ofStream stream (Layout.ofStream stream style)).sameDocument m.line
          post) = some window)
      (hdeltas : Shift.deltas window = some deltas) :
      MovesTogether stream style (window.zip deltas)

theorem MovesTogether.mem_lines {moves : List (LineMeasure × Int)} {g : LineMeasure} {d : Int}
    (h : stream.MovesTogether style moves) (hg : (g, d) ∈ moves) :
    g ∈ (stream.analyze style).lines := by
  cases h with
  | none => cases hg
  | window hlines hexpected hwindow hdeltas =>
    rw [hlines]
    rcases (RepairContext.mem_window?_iff hwindow).mp (List.of_mem_zip hg).1 with hg | rfl | hg
    · exact List.mem_append_left _ (List.mem_reverse.mp (RepairContext.mem_of_reached hg))
    · simp
    · simp [RepairContext.mem_of_reached hg]

/-- An edit moves a line, mends a gap or rewrites the digit of a header. -/
inductive Makes (stream : Stream) (style : Style) (moves : List (LineMeasure × Int)) :
    Edit → Prop
  | move {g : LineMeasure} {d : Int} (hg : (g, d) ∈ moves) (hd : d ≠ 0) :
      Makes stream style moves
        ((RepairContext.ofStream stream (Layout.ofStream stream style)).lineEdit g d)
  | gap {g : LineMeasure} {gap : Gap} {e : Edit} (hg : g ∈ (stream.analyze style).lines)
      (hgap : gap ∈ g.gaps)
      (he : (RepairContext.ofStream stream (Layout.ofStream stream style)).gapEdit? gap =
        some e) : Makes stream style moves e
  | digit {b : BlockScalar} {n : Nat} {e : Edit} (hb : b ∈ (Layout.ofStream stream style).blocks)
      (hpos : 1 ≤ n) (hle : n ≤ 9)
      (he : (RepairContext.ofStream stream (Layout.ofStream stream style)).digitEdit? b.header
        n = some e) : Makes stream style moves e

/-- A repair makes such edits, and it moves all the lines that move together. -/
theorem exists_movesTogether (hr : r ∈ (stream.analyze style).repairs) :
    ∃ moves, stream.MovesTogether style moves ∧ (∀ e ∈ r.edits, stream.Makes style moves e) ∧
      ∀ g d, (g, d) ∈ moves → d ≠ 0 →
        (RepairContext.ofStream stream (Layout.ofStream stream style)).lineEdit g d ∈
          r.edits := by
  obtain ⟨pre, m, post, hlines, hrepair⟩ := exists_of_mem_repairs hr
  rcases hrepair with ⟨gap, hgap, -, f, hf, rfl⟩ | ⟨expected, hexpected, -, hrepair⟩
  · refine ⟨[], .none, ?_, by simp⟩
    intro e he
    rw [List.mem_singleton.mp he]
    have hm : m ∈ (stream.analyze style).lines := by simp [hlines]
    exact .gap hm hgap hf
  · obtain ⟨window, deltas, digits, hwindow, hdeltas, hdigits, hedits⟩ :=
      RepairContext.exists_of_lineRepair? hrepair
    have hmoves : stream.MovesTogether style (window.zip deltas) :=
      .window hlines hexpected hwindow hdeltas
    refine ⟨window.zip deltas, hmoves, ?_, fun g d hg hd =>
      RepairContext.lineEdit_mem_of_ofEdits? hedits hg hd⟩
    intro e he
    have he := (Repair.perm_of_ofEdits? hedits).mem_iff.mp he
    rcases List.mem_append.mp he with he | he
    · obtain ⟨⟨g, d⟩, hg, he⟩ := List.mem_flatMap.mp he
      rcases RepairContext.exists_of_mem_lineEdits _ he with ⟨hd, rfl⟩ | ⟨gap, hgap, hedit⟩
      · exact .move hg hd
      · exact .gap (hmoves.mem_lines hg) hgap hedit
    · obtain ⟨b, hb, n, hpos, hle, hedit, -⟩ :=
        RepairContext.exists_of_mem_digitEdits _ hdigits he
      exact .digit hb hpos hle hedit

/-- The edits of a repair are exchanges. -/
theorem ReadTo.quiet_of_mem_edits {e : Edit} (h : stream.ReadTo s)
    (hpaired : Text.ReturnsPaired stream.text) (hr : r ∈ (stream.analyze style).repairs)
    (he : e ∈ r.edits) : e.Quiet stream.text := by
  obtain ⟨moves, hmoves, hmakes, -⟩ := exists_movesTogether hr
  cases hmakes e he with
  | move hg hd =>
    exact RepairContext.quiet_lineEdit _ (sound_of_mem_place (hmoves.mem_lines hg)) _
  | gap hg hgap hedit =>
    exact RepairContext.quiet_gapEdit _ h hpaired (sound_of_mem_place hg) hgap hedit
  | digit hb hpos hle hedit =>
    exact RepairContext.quiet_digitEdit _ h hpaired (block_mem_pieces hb) hpos hle hedit

/-- Each edit of a repair lies on one line. -/
theorem ReadTo.onLine_of_mem_edits {e : Edit} (h : stream.ReadTo s)
    (hr : r ∈ (stream.analyze style).repairs) (he : e ∈ r.edits) :
    ∃ line, e.OnLine stream.text line := by
  obtain ⟨moves, hmoves, hmakes, -⟩ := exists_movesTogether hr
  cases hmakes e he with
  | @move g d hg hd =>
    exact ⟨g.line, RepairContext.onLine_lineEdit _ (sound_of_mem_place (hmoves.mem_lines hg)) d⟩
  | @gap g gap e hg hgap hedit =>
    exact ⟨g.line, RepairContext.onLine_gapEdit _ h (sound_of_mem_place hg) hgap hedit⟩
  | digit hb hpos hle hedit =>
    obtain ⟨token, -, hline⟩ :=
      RepairContext.onLine_digitEdit _ h (block_mem_pieces hb) hpos hle hedit
    exact ⟨token.startLine, hline⟩

/-- The edits of a repair lie apart. -/
theorem ReadTo.apart_of_mem_repairs (h : stream.ReadTo s)
    (hr : r ∈ (stream.analyze style).repairs) : Repair.Apart r.edits := by
  obtain ⟨pre, m, post, -, hrepair⟩ := exists_of_mem_repairs hr
  rcases hrepair with ⟨g, -, -, e, -, rfl⟩ | ⟨expected, -, -, hrepair⟩
  · exact List.pairwise_singleton ..
  · obtain ⟨window, deltas, digits, -, -, -, hedits⟩ := RepairContext.exists_of_lineRepair? hrepair
    apply Repair.apart_of_ofEdits? hedits
    intro e he
    obtain ⟨line, before, old, after, hreplaces, -⟩ :=
      h.onLine_of_mem_edits hr ((Repair.perm_of_ofEdits? hedits).mem_iff.mpr he)
    exact hreplaces.start_le_stop

end Stream

end YamlLayout
