import YamlLayout.Proofs.BodyWindow

/-!
# What repairs do to the content of block scalars

A repair leaves the body of a block scalar as it is, or it moves the first line to some
column and every deeper line along with it. A line that is not as deep as the first one
is moved to the column of the first one, so it does not keep its place.
-/
namespace YamlLayout

namespace Text

/-- The line with another number of leading spaces. -/
def reindent (n : Nat) (line : List Char) : List Char :=
  List.replicate n ' ' ++ line.drop (leadingSpaces line)

@[simp] theorem reindent_leadingSpaces (line : List Char) :
    reindent (leadingSpaces line) line = line := by
  have htake := take_of_le_leadingSpaces (Nat.le_refl (leadingSpaces line))
  rw [reindent, ← htake, List.take_append_drop]

theorem leadingSpaces_spaces_append (n : Nat) (line : List Char) :
    leadingSpaces (List.replicate n ' ' ++ line) = n + leadingSpaces line := by
  unfold leadingSpaces
  rw [List.takeWhile_append_of_pos]
  · simp
  · intro c hc
    rw [List.eq_of_mem_replicate hc]
    rfl

theorem leadingSpaces_drop (line : List Char) :
    leadingSpaces (line.drop (leadingSpaces line)) = 0 := by
  have hline := reindent_leadingSpaces line
  have hsum := leadingSpaces_spaces_append (leadingSpaces line) (line.drop (leadingSpaces line))
  rw [reindent] at hline
  rw [hline] at hsum
  omega

@[simp] theorem leadingSpaces_reindent (n : Nat) (line : List Char) :
    leadingSpaces (reindent n line) = n := by
  rw [reindent, leadingSpaces_spaces_append, leadingSpaces_drop, Nat.add_zero]

theorem all_isBlank_spaces_append (n : Nat) (line : List Char) :
    (List.replicate n ' ' ++ line).all isBlank = line.all isBlank := by
  induction n with
  | zero => rfl
  | succ n ih =>
    rw [List.replicate_succ, List.cons_append, List.all_cons, ih]
    rfl

theorem all_isBlank_reindent (n : Nat) (line : List Char) :
    (reindent n line).all isBlank = line.all isBlank := by
  have hline := all_isBlank_spaces_append (leadingSpaces line) (line.drop (leadingSpaces line))
  rw [← reindent, reindent_leadingSpaces] at hline
  rw [reindent, all_isBlank_spaces_append, hline]

theorem drop_reindent {n k : Nat} (line : List Char) (h : k ≤ n) :
    (reindent n line).drop k = reindent (n - k) line := by
  rw [reindent, List.drop_append_of_le_length (by simpa using h), List.drop_replicate]
  rfl

theorem reindent_inj {m n : Nat} {line : List Char} (h : reindent m line = reindent n line) :
    m = n := by
  have hleading := congrArg leadingSpaces h
  rw [leadingSpaces_reindent, leadingSpaces_reindent] at hleading
  exact hleading

theorem stripBreak_spaces_append (n : Nat) (line : List Char) :
    stripBreak (List.replicate n ' ' ++ line) = List.replicate n ' ' ++ stripBreak line := by
  have hstrip : ∀ (c : Char), c ≠ ' ' → ∀ l : List Char,
      (if (List.replicate n ' ' ++ l).getLast? == some c then (List.replicate n ' ' ++ l).dropLast
        else List.replicate n ' ' ++ l) =
      List.replicate n ' ' ++ (if l.getLast? == some c then l.dropLast else l) := by
    intro c hc l
    by_cases hl : l = []
    · subst hl
      have hlast : (List.replicate n ' ').getLast? ≠ some c := by
        intro hlast
        exact hc (List.eq_of_mem_replicate (List.mem_of_mem_getLast? hlast))
      simp [hlast]
    · rw [List.getLast?_append_of_ne_nil _ hl, List.dropLast_append_of_ne_nil hl]
      split <;> rfl
  unfold stripBreak
  dsimp only
  rw [hstrip '\n' (by decide), hstrip '\r' (by decide)]

/-- Spaces in front of a row are spaces in front of its content. -/
theorem stripBreak_reindent {n : Nat} {row rest : List Char}
    (h : row = List.replicate (leadingSpaces (stripBreak row)) ' ' ++ rest) :
    stripBreak (List.replicate n ' ' ++ rest) = reindent n (stripBreak row) := by
  have hcontent : stripBreak row =
      List.replicate (leadingSpaces (stripBreak row)) ' ' ++ stripBreak rest := by
    rw [← stripBreak_spaces_append, ← h]
  have hdrop : (stripBreak row).drop (leadingSpaces (stripBreak row)) = stripBreak rest := by
    nth_rewrite 2 [hcontent]
    rw [List.drop_left']
    simp
  rw [stripBreak_spaces_append, reindent, hdrop]

end Text

theorem Edit.OnLine.unique {e : Edit} {text : List Char} {m n : Nat} (hm : e.OnLine text m)
    (hn : e.OnLine text n) : m = n := by
  obtain ⟨b, old, a, hreplaces, -, -, hcount⟩ := hm
  obtain ⟨b', old', a', hreplaces', -, -, hcount'⟩ := hn
  obtain ⟨rfl, -, -⟩ := hreplaces.unique hreplaces'
  omega

namespace Stream

variable {stream : Stream} {s : ParseState} {style : Style} {r : Repair}

/-- One repair makes its own edits. -/
theorem ReadTo.exists_patched (h : stream.ReadTo s) (hr : r ∈ (stream.analyze style).repairs) :
    ∃ edits, (∀ e, e ∈ edits ↔ e ∈ r.edits) ∧ edits.Pairwise Edit.Precedes ∧
      (∀ e ∈ edits, ∃ line, e.OnLine stream.text line) ∧
      Patched [] edits stream.text (applyRepairs stream.text [r]) := by
  have hlines : ∀ e ∈ r.edits, ∃ line, e.OnLine stream.text line :=
    fun e he => h.onLine_of_mem_edits hr he
  have hapart : ∀ q ∈ [r], Repair.Apart q.edits := by
    intro q hq
    rw [List.mem_singleton.mp hq]
    exact h.apart_of_mem_repairs hr
  have hfits : ∀ q ∈ [r], ∀ e ∈ q.edits, e.Fits stream.text := by
    intro q hq e he
    rw [List.mem_singleton.mp hq] at he
    obtain ⟨line, b, old, a, hreplaces, -⟩ := hlines e he
    exact ⟨b, old, a, hreplaces⟩
  obtain ⟨edits, hperm, hprecedes, hpatched⟩ := exists_patched_applyRepairs hapart hfits
  have haccepted : Repair.accepted [r] = r.edits := by
    simp [Repair.accepted, Repair.accept, Repair.clashes]
  rw [haccepted] at hperm
  refine ⟨edits, fun e => hperm.mem_iff, hprecedes, ?_, hpatched⟩
  intro e he
  exact hlines e (hperm.mem_iff.mp he)

/-- A line that no edit of the repair lies on stays as it is. -/
theorem ReadTo.content_of_none {n : Nat} (h : stream.ReadTo s)
    (hr : r ∈ (stream.analyze style).repairs) (hpos : 0 < n) (hle : n ≤ stream.lines.count)
    (hnone : ∀ e ∈ r.edits, ¬e.OnLine stream.text n) :
    (LineTable.ofText (applyRepairs stream.text [r])).content n = stream.lines.content n := by
  obtain ⟨edits, hedits, -, hlines, hpatched⟩ := h.exists_patched hr
  obtain ⟨before, row, after, hrow, -⟩ := LineTable.exists_row stream.text hpos hle
  obtain ⟨before', after', hrow'⟩ := hpatched.exists_row_of_none hlines hrow
    (fun e he => hnone e ((hedits e).mp he))
  rw [hrow'.content_eq, Stream.lines, hrow.content_eq]

/-- A line with no other edit than the one that moves it gets its new indentation. -/
theorem ReadTo.content_of_lineEdit {m : LineMeasure} {delta : Int} (h : stream.ReadTo s)
    (hr : r ∈ (stream.analyze style).repairs) (hm : m.Sound stream)
    (he : (RepairContext.ofStream stream (Layout.ofStream stream style)).lineEdit m delta ∈
      r.edits)
    (honly : ∀ f ∈ r.edits, f.OnLine stream.text m.line →
      f = (RepairContext.ofStream stream (Layout.ofStream stream style)).lineEdit m delta) :
    (LineTable.ofText (applyRepairs stream.text [r])).content m.line =
      Text.reindent ((m.leading : Int) + delta).toNat (stream.lines.content m.line) := by
  obtain ⟨edits, hedits, hprecedes, hlines, hpatched⟩ := h.exists_patched hr
  obtain ⟨before, rest, after, hrow, hreplaces⟩ :=
    RepairContext.exists_replaces_lineEdit (Layout.ofStream stream style) hm delta
  have hon := RepairContext.onLine_lineEdit (Layout.ofStream stream style) hm delta
  obtain ⟨before', row', after', hrow', hone⟩ := hpatched.exists_row_of_one hlines hrow hprecedes
    ((hedits _).mpr he) hon (fun f hf => honly f ((hedits f).mp hf))
  obtain ⟨front, old, rest', hsplit, hresult, hrange⟩ := hone.exists_of_singleton
  -- The edit replaces the leading spaces of the row and nothing else.
  have hhere : ((RepairContext.ofStream stream (Layout.ofStream stream style)).lineEdit m
      delta).Replaces stream.text (before ++ front) old (rest' ++ after) := by
    refine ⟨?_, hrange⟩
    rw [hrow.text_eq, hsplit]
    simp
  obtain ⟨hfront, hold, hrest⟩ := hreplaces.unique hhere
  have hnil : front = [] := by simpa using hfront
  have hrest : rest = rest' := by simpa using hrest
  have hcontent : stream.lines.content m.line =
      Text.stripBreak (List.replicate m.leading ' ' ++ rest) := by
    rw [Stream.lines, hrow.content_eq]
  have hleading : m.leading = Text.leadingSpaces
      (Text.stripBreak (List.replicate m.leading ' ' ++ rest)) := by
    rw [← hcontent]
    exact hm.leading_eq
  rw [hrow'.content_eq, hresult, hnil, hcontent, ← hrest, List.nil_append,
    RepairContext.lineEdit, RepairContext.toList_spaces]
  apply Text.stripBreak_reindent
  rw [← hleading]

/-- There is one measure for each line. -/
theorem eq_of_line_eq {g g' : LineMeasure} (hg : g ∈ (stream.analyze style).lines)
    (hg' : g' ∈ (stream.analyze style).lines) (hline : g.line = g'.line) : g = g' := by
  have hnodup : ((stream.analyze style).lines.map (·.line)).Nodup := by
    unfold List.Nodup
    rw [List.pairwise_map]
    exact (pairwise_lines stream style).imp fun hlt => Nat.ne_of_lt hlt
  exact List.inj_on_of_nodup_map hnodup hg hg' hline

theorem ReadTo.exists_blockOfBody {b : BlockScalar} {i : Nat} (h : stream.ReadTo s)
    (hb : b ∈ (Layout.ofStream stream style).blocks) (hi : b.body = some i) :
    ∃ block, (Layout.ofStream stream style).blockOfBody? i = some block ∧ block.header < i := by
  have hsome : ((Layout.ofStream stream style).blockOfBody? i).isSome = true := by
    rw [Layout.blockOfBody?, List.find?_isSome]
    exact ⟨b, hb, by simp [hi]⟩
  obtain ⟨block, hblock⟩ := Option.isSome_iff_exists.mp hsome
  have hmem := List.mem_of_find?_eq_some hblock
  have hbody : block.body = some i := by simpa using List.find?_some hblock
  exact ⟨block, hblock, h.header_lt (block_mem_pieces hmem) hbody⟩

theorem exists_mem_zip {α β : Type} {as : List α} {bs : List β} {a : α}
    (hlength : as.length = bs.length) (ha : a ∈ as) : ∃ b, (a, b) ∈ as.zip bs := by
  obtain ⟨k, hk, rfl⟩ := List.mem_iff_getElem.mp ha
  refine ⟨bs[k], List.mem_iff_getElem.mpr ⟨k, ?_, ?_⟩⟩
  · rw [List.length_zip]
    omega
  · rw [List.getElem_zip]

namespace BodyAt

variable {i : Nat} {t : Token} {block : BlockScalar} {moves : List (LineMeasure × Int)}

/-- Gaps and digits lie outside the body, so its lines can only be moved. -/
theorem exists_move_of_onLine {e : Edit} {n : Nat} (h : stream.BodyAt i t)
    (hread : stream.ReadTo s)
    (hblock : (Layout.ofStream stream style).blockOfBody? i = some block)
    (hmoves : stream.MovesTogether style moves) (hmakes : stream.Makes style moves e)
    (hn : t.startLine ≤ n ∧ n ≤ t.endLine) (hon : e.OnLine stream.text n) :
    ∃ g d, (g, d) ∈ moves ∧ d ≠ 0 ∧ g.line = n ∧
      e = (RepairContext.ofStream stream (Layout.ofStream stream style)).lineEdit g d := by
  cases hmakes with
  | @move g d hg hd =>
    have hline := RepairContext.onLine_lineEdit (Layout.ofStream stream style)
      (sound_of_mem_place (hmoves.mem_lines hg)) d
    exact ⟨g, d, hg, hd, hline.unique hon, rfl⟩
  | @gap g gap e hg hgap hedit =>
    exfalso
    have hline := RepairContext.onLine_gapEdit _ hread (sound_of_mem_place hg) hgap hedit
    have hsame := hline.unique hon
    obtain ⟨-, -, -, hgaps⟩ := h.exists_of_mem_lines hblock hg (by omega)
    rw [hgaps] at hgap
    cases hgap
  | digit hb hpos hle hedit =>
    exfalso
    obtain ⟨token, htoken, hline⟩ :=
      RepairContext.onLine_digitEdit _ hread (block_mem_pieces hb) hpos hle hedit
    have hsame := hline.unique hon
    have heq := h.eq_of_startLine htoken (by omega) (by omega)
    obtain ⟨mark, -, -, -, -, hmark, hkind, -⟩ := hread.exists_header (block_mem_pieces hb)
    rw [heq, h.token_eq, Option.some.injEq] at hmark
    rw [← hmark, h.kind_eq] at hkind
    cases hkind

/-- If one line of the body moves, all of them do, each to the same column. -/
theorem exists_column {g₀ : LineMeasure} {d₀ : Int} (h : stream.BodyAt i t)
    (hread : stream.ReadTo s)
    (hblock : (Layout.ofStream stream style).blockOfBody? i = some block)
    (hheader : block.header < i) (hmoves : stream.MovesTogether style moves)
    (hg₀ : (g₀, d₀) ∈ moves) (hinside : t.startLine ≤ g₀.line ∧ g₀.line ≤ t.endLine)
    (hd₀ : d₀ ≠ 0) :
    ∃ column : Nat,
      (∀ g ∈ (stream.analyze style).lines, t.startLine ≤ g.line ∧ g.line ≤ t.endLine →
        ∃ d, (g, d) ∈ moves) ∧
      ∀ g d, (g, d) ∈ moves → t.startLine ≤ g.line ∧ g.line ≤ t.endLine →
        d = (column : Int) - min (stream.lines.leading t.startLine : Int) g.leading := by
  obtain ⟨target, htarget⟩ := h.exists_inBody hread hblock hheader
  cases hmoves with
  | none => cases hg₀
  | @window pre post window m expected deltas hlines hexpected hwindow hdeltas =>
    obtain ⟨hlength, hdelta⟩ := Shift.exists_delta hdeltas
    have hsorted := pairwise_lines stream style
    have hmoves : stream.MovesTogether style (window.zip deltas) :=
      .window hlines hexpected hwindow hdeltas
    have hbody₀ := htarget g₀ (hmoves.mem_lines hg₀) hinside.1 hinside.2
    -- A pinned body would not have moved.
    cases target with
    | none =>
      have hpinned := hbody₀.pinned_eq
      exact absurd ((hdelta g₀ d₀ hg₀).2.1 hpinned) hd₀
    | some e =>
      have hall : ∀ g ∈ (stream.analyze style).lines,
          t.startLine ≤ g.line ∧ g.line ≤ t.endLine → ∃ d, (g, d) ∈ window.zip deltas := by
        intro g hg hin
        have hexpects : ∀ a ∈ pre ++ m :: post,
            t.startLine ≤ a.line ∧ a.line ≤ t.endLine → a.expected = some e := by
          intro a ha hin
          rw [← hlines] at ha
          exact (htarget a ha hin.1 hin.2).expected_eq
        rw [hlines] at hg hsorted
        have hmem : g ∈ window := h.mem_window hread hsorted hexpects hexpected hwindow
          (List.of_mem_zip hg₀).1 hinside hg hin
        exact exists_mem_zip hlength hmem
      have hshift : ∀ g d, (g, d) ∈ window.zip deltas →
          t.startLine ≤ g.line ∧ g.line ≤ t.endLine → 0 ≤ (g.leading : Int) + d ∧
            d = e - min (stream.lines.leading t.startLine : Int) g.leading := by
        intro g d hg hin
        have hbody := htarget g (hmoves.mem_lines hg) hin.1 hin.2
        obtain ⟨hnonneg, -, hmoved⟩ := hdelta g d hg
        rw [← hbody.actual_eq rfl]
        exact ⟨hnonneg, hmoved e hbody.pinned_eq hbody.expected_eq⟩
      -- The first line moves to the column itself.
      obtain ⟨first, hfirst, hline⟩ := h.exists_line hblock ⟨Nat.le_refl _, h.start_le⟩
        h.first_solid
      have hin : t.startLine ≤ first.line ∧ first.line ≤ t.endLine := by
        have hle := h.start_le
        omega
      obtain ⟨d, hd⟩ := hall first hfirst hin
      obtain ⟨hnonneg, heq⟩ := hshift first d hd hin
      have hleading : first.leading = stream.lines.leading t.startLine := by
        rw [(h.exists_of_mem_lines hblock hfirst hin).2.1, hline]
      have hcolumn : ((e.toNat : Nat) : Int) = e := by
        rw [hleading, Int.min_self] at heq
        omega
      refine ⟨e.toNat, hall, ?_⟩
      intro g d hg hin
      rw [hcolumn]
      exact (hshift g d hg hin).2

/-- A repair leaves the body as it is, or its first line goes to some column and the other
lines follow, those not as deep as the first one only up to that column. -/
theorem content_cases (h : stream.BodyAt i t) (hread : stream.ReadTo s)
    (hblock : (Layout.ofStream stream style).blockOfBody? i = some block)
    (hheader : block.header < i) (hr : r ∈ (stream.analyze style).repairs) :
    (∀ n, t.startLine ≤ n → n ≤ t.endLine →
      (LineTable.ofText (applyRepairs stream.text [r])).content n = stream.lines.content n) ∨
    ∃ column : Nat, ∀ n, t.startLine ≤ n → n ≤ t.endLine →
      (LineTable.ofText (applyRepairs stream.text [r])).content n =
        if stream.lines.isBlankLine n then stream.lines.content n
        else Text.reindent
          (column + (stream.lines.leading n - stream.lines.leading t.startLine))
          (stream.lines.content n) := by
  obtain ⟨moves, hmoves, hmakes, hmade⟩ := exists_movesTogether hr
  have hpos := h.start_pos
  have hcount := h.end_le
  by_cases hmoved : ∃ g d, (g, d) ∈ moves ∧ (t.startLine ≤ g.line ∧ g.line ≤ t.endLine) ∧ d ≠ 0
  swap
  · left
    intro n hfirst hlast
    apply hread.content_of_none hr (by omega) (by omega)
    intro e he hon
    obtain ⟨g, d, hg, hd, hline, -⟩ :=
      h.exists_move_of_onLine hread hblock hmoves (hmakes e he) ⟨hfirst, hlast⟩ hon
    exact hmoved ⟨g, d, hg, by omega, hd⟩
  right
  obtain ⟨g₀, d₀, hg₀, hinside, hd₀⟩ := hmoved
  obtain ⟨column, hall, hshift⟩ :=
    h.exists_column hread hblock hheader hmoves hg₀ hinside hd₀
  refine ⟨column, ?_⟩
  intro n hfirst hlast
  by_cases hblank : stream.lines.isBlankLine n = true
  · rw [if_pos hblank]
    apply hread.content_of_none hr (by omega) (by omega)
    intro e he hon
    obtain ⟨g, d, hg, -, hline, -⟩ :=
      h.exists_move_of_onLine hread hblock hmoves (hmakes e he) ⟨hfirst, hlast⟩ hon
    have hsolid := (h.exists_of_mem_lines hblock (hmoves.mem_lines hg) (by omega)).1
    rw [hline, hblank] at hsolid
    cases hsolid
  · rw [if_neg hblank]
    obtain ⟨g, hg, hline⟩ := h.exists_line hblock ⟨hfirst, hlast⟩ (by simpa using hblank)
    have hin : t.startLine ≤ g.line ∧ g.line ≤ t.endLine := by omega
    obtain ⟨d, hd⟩ := hall g hg hin
    have hdelta := hshift g d hd hin
    have hleading : g.leading = stream.lines.leading n := by
      rw [(h.exists_of_mem_lines hblock hg hin).2.1, hline]
    have hown : ∀ e ∈ r.edits, e.OnLine stream.text n → d ≠ 0 ∧
        e = (RepairContext.ofStream stream (Layout.ofStream stream style)).lineEdit g d := by
      intro e he hon
      obtain ⟨g', d', hg', hd', hline', hedit⟩ :=
        h.exists_move_of_onLine hread hblock hmoves (hmakes e he) ⟨hfirst, hlast⟩ hon
      have hsame := eq_of_line_eq (hmoves.mem_lines hg') hg (hline'.trans hline.symm)
      subst hsame
      have hdd := (hshift g' d' hg' hin).trans hdelta.symm
      subst hdd
      exact ⟨hd', hedit⟩
    by_cases hzero : d = 0
    · -- The line stands where it belongs, so its indentation is the new one.
      have hindent : column + (stream.lines.leading n - stream.lines.leading t.startLine) =
          Text.leadingSpaces (stream.lines.content n) := by
        change _ = stream.lines.leading n
        omega
      rw [hindent, Text.reindent_leadingSpaces]
      apply hread.content_of_none hr (by omega) (by omega)
      intro e he hon
      exact (hown e he hon).1 hzero
    · have hcontent := hread.content_of_lineEdit hr (sound_of_mem_place hg) (hmade g d hd hzero)
        (fun e he hon => (hown e he (hline ▸ hon)).2)
      have hindent : ((g.leading : Int) + d).toNat =
          column + (stream.lines.leading n - stream.lines.leading t.startLine) := by
        omega
      rw [hline, hindent] at hcontent
      exact hcontent

end BodyAt

end Stream

end YamlLayout
