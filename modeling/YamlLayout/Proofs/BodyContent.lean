import YamlLayout.Proofs.BodyLines

/-!
# When a repair keeps the content of a block scalar

The content of a block scalar is what its lines hold to the right of its indentation. A
repair keeps it if the first line stays as deep inside the body as it was, and if the
body is not moved or has no line that is less deep than the first one. Without digits
in the headers both always hold.
-/
namespace YamlLayout

namespace Stream

variable {stream result : Stream} {s : ParseState} {style : Style} {r : Repair}

/-- The bodies of block scalars, each with the digit in its header. -/
def bodies (s : Stream) : List (Option Nat × Token) :=
  (s.documents.flatMap (·.content.blockScalars)).filterMap fun b => do
    let body ← b.body
    let t ← s.tokens[body]?
    some (b.digit, t)

/-- The lines of a body that hold more than blanks, without its indentation, which is
the column where it starts. -/
def bodyLines (s : Stream) (t : Token) : List (List Char) :=
  ((List.range' t.startLine (t.endLine + 1 - t.startLine)).filter
    (!s.lines.isBlankLine ·)).map fun n => (s.lines.content n).drop t.first.column

/-- How much deeper than the body its first line lies. -/
def hang (s : Stream) (t : Token) : Nat := s.lines.leading t.startLine - t.first.column

theorem ReadTo.bodyAt_of_mem_bodies {digit : Option Nat} {t : Token} (h : stream.ReadTo s)
    (ht : (digit, t) ∈ stream.bodies) (style : Style) :
    ∃ (i : Nat) (block : BlockScalar), stream.BodyAt i t ∧
      (Layout.ofStream stream style).blockOfBody? i = some block ∧ block.header < i ∧
      (digit = none → t.first.column = stream.lines.leading t.startLine) := by
  obtain ⟨b, hb, hbody⟩ := List.mem_filterMap.mp ht
  obtain ⟨i, hi, hbody⟩ := Option.bind_eq_some_iff.mp hbody
  obtain ⟨u, hu, heq⟩ := Option.bind_eq_some_iff.mp hbody
  rw [Option.some.injEq, Prod.mk.injEq] at heq
  obtain ⟨rfl, rfl⟩ := heq
  have hblocks : b ∈ (Layout.ofStream stream style).blocks := hb
  obtain ⟨t', hat, hcolumn⟩ := h.exists_bodyAt (block_mem_pieces hblocks) hi
  have hsame := hat.token_eq
  rw [hu, Option.some.injEq] at hsame
  subst hsame
  obtain ⟨block, hblock, hheader⟩ := h.exists_blockOfBody hblocks hi
  exact ⟨i, block, hat, hblock, hheader, hcolumn⟩

theorem mem_range'_iff {t : Token} {n : Nat} :
    n ∈ List.range' t.startLine (t.endLine + 1 - t.startLine) ↔
      t.startLine ≤ n ∧ n ≤ t.endLine := by
  rw [List.mem_range'_1]
  omega

/-- Two bodies on the same lines have the same content when each line is as much deeper
than the body in the one as in the other. -/
theorem bodyLines_eq_iff {t t' : Token} (hstart : t'.startLine = t.startLine)
    (hend : t'.endLine = t.endLine)
    (hblank : ∀ n, t.startLine ≤ n → n ≤ t.endLine →
      result.lines.isBlankLine n = stream.lines.isBlankLine n)
    (hcontent : ∀ n, t.startLine ≤ n → n ≤ t.endLine → stream.lines.isBlankLine n = false →
      result.lines.content n =
        Text.reindent (result.lines.leading n) (stream.lines.content n))
    (hdeep : ∀ n, t.startLine ≤ n → n ≤ t.endLine → stream.lines.isBlankLine n = false →
      t.first.column ≤ stream.lines.leading n ∧ t'.first.column ≤ result.lines.leading n) :
    result.bodyLines t' = stream.bodyLines t ↔
      ∀ n, t.startLine ≤ n → n ≤ t.endLine → stream.lines.isBlankLine n = false →
        result.lines.leading n - t'.first.column = stream.lines.leading n - t.first.column := by
  have hfilter : (List.range' t.startLine (t.endLine + 1 - t.startLine)).filter
      (!result.lines.isBlankLine ·) =
      (List.range' t.startLine (t.endLine + 1 - t.startLine)).filter
        (!stream.lines.isBlankLine ·) := by
    apply List.filter_congr
    intro n hn
    obtain ⟨hfirst, hlast⟩ := mem_range'_iff.mp hn
    rw [hblank n hfirst hlast]
  have hline : ∀ n, t.startLine ≤ n → n ≤ t.endLine → stream.lines.isBlankLine n = false →
      ((result.lines.content n).drop t'.first.column =
        (stream.lines.content n).drop t.first.column ↔
      result.lines.leading n - t'.first.column = stream.lines.leading n - t.first.column) := by
    intro n hfirst hlast hsolid
    obtain ⟨hdeep, hdeep'⟩ := hdeep n hfirst hlast hsolid
    have hold := Text.drop_reindent (stream.lines.content n) hdeep
    rw [LineTable.leading, Text.reindent_leadingSpaces] at hold
    rw [hcontent n hfirst hlast hsolid, Text.drop_reindent _ hdeep', hold]
    constructor
    · exact Text.reindent_inj
    · intro heq
      rw [heq]
      rfl
  unfold bodyLines
  rw [hstart, hend, hfilter, List.map_inj_left]
  constructor
  · intro h n hfirst hlast hsolid
    apply (hline n hfirst hlast hsolid).mp
    apply h n
    rw [List.mem_filter, hsolid]
    exact ⟨mem_range'_iff.mpr ⟨hfirst, hlast⟩, rfl⟩
  · intro h n hn
    obtain ⟨hrange, hsolid⟩ := List.mem_filter.mp hn
    obtain ⟨hfirst, hlast⟩ := mem_range'_iff.mp hrange
    rw [Bool.not_eq_true'] at hsolid
    exact (hline n hfirst hlast hsolid).mpr (h n hfirst hlast hsolid)

/-- The blank lines of a body and what the others hold after their spaces stay. -/
theorem BodyAt.kept_content {i : Nat} {t : Token} {block : BlockScalar}
    (h : stream.BodyAt i t) (hread : stream.ReadTo s)
    (hblock : (Layout.ofStream stream style).blockOfBody? i = some block)
    (hheader : block.header < i) (hr : r ∈ (stream.analyze style).repairs)
    (hresult : result.text = applyRepairs stream.text [r]) :
    (∀ n, t.startLine ≤ n → n ≤ t.endLine →
      result.lines.isBlankLine n = stream.lines.isBlankLine n) ∧
    (∀ n, t.startLine ≤ n → n ≤ t.endLine → stream.lines.isBlankLine n = false →
      result.lines.content n =
        Text.reindent (result.lines.leading n) (stream.lines.content n)) ∧
    ((∀ n, t.startLine ≤ n → n ≤ t.endLine →
      result.lines.content n = stream.lines.content n) ∨
      ∀ n, t.startLine ≤ n → n ≤ t.endLine → stream.lines.isBlankLine n = false →
        result.lines.leading n = result.lines.leading t.startLine +
          (stream.lines.leading n - stream.lines.leading t.startLine)) := by
  have hlines : result.lines = LineTable.ofText (applyRepairs stream.text [r]) := by
    rw [Stream.lines, hresult]
  rw [hlines]
  rcases h.content_cases hread hblock hheader hr with hsame | ⟨column, hmoved⟩
  · refine ⟨?_, ?_, .inl hsame⟩
    · intro n hfirst hlast
      rw [LineTable.isBlankLine, hsame n hfirst hlast]
      rfl
    · intro n hfirst hlast hsolid
      rw [LineTable.leading, hsame n hfirst hlast, Text.reindent_leadingSpaces]
  · have hleading : ∀ n, t.startLine ≤ n → n ≤ t.endLine →
        stream.lines.isBlankLine n = false →
        (LineTable.ofText (applyRepairs stream.text [r])).leading n =
          column + (stream.lines.leading n - stream.lines.leading t.startLine) := by
      intro n hfirst hlast hsolid
      rw [LineTable.leading, hmoved n hfirst hlast, hsolid, if_neg Bool.false_ne_true,
        Text.leadingSpaces_reindent]
    refine ⟨?_, ?_, .inr ?_⟩
    · intro n hfirst hlast
      rw [LineTable.isBlankLine, hmoved n hfirst hlast]
      split
      · rfl
      · exact Text.all_isBlank_reindent ..
    · intro n hfirst hlast hsolid
      rw [hleading n hfirst hlast hsolid, hmoved n hfirst hlast, hsolid,
        if_neg Bool.false_ne_true]
    · intro n hfirst hlast hsolid
      have hhead := hleading t.startLine (Nat.le_refl _) h.start_le h.first_solid
      have hhere := hleading n hfirst hlast hsolid
      omega

/-- A body keeps its relative depths exactly if its first line keeps its own, unless lines
less deep than the first one were brought to its column. -/
theorem depths_eq_iff {t t' : Token} (hstart : t'.startLine = t.startLine)
    (hle : t.startLine ≤ t.endLine) (hsolid : stream.lines.isBlankLine t.startLine = false)
    (hdeep : ∀ n, t.startLine ≤ n → n ≤ t.endLine → stream.lines.isBlankLine n = false →
      t.first.column ≤ stream.lines.leading n ∧ t'.first.column ≤ result.lines.leading n)
    (hplace : (∀ n, t.startLine ≤ n → n ≤ t.endLine →
        result.lines.content n = stream.lines.content n) ∨
      ∀ n, t.startLine ≤ n → n ≤ t.endLine → stream.lines.isBlankLine n = false →
        result.lines.leading n = result.lines.leading t.startLine +
          (stream.lines.leading n - stream.lines.leading t.startLine)) :
    (∀ n, t.startLine ≤ n → n ≤ t.endLine → stream.lines.isBlankLine n = false →
      result.lines.leading n - t'.first.column = stream.lines.leading n - t.first.column) ↔
    result.hang t' = stream.hang t ∧
      ((∀ n, t.startLine ≤ n → n ≤ t.endLine →
        result.lines.content n = stream.lines.content n) ∨
      ∀ n, t.startLine ≤ n → n ≤ t.endLine → stream.lines.isBlankLine n = false →
        stream.lines.leading t.startLine ≤ stream.lines.leading n) := by
  have hfirst := hdeep t.startLine (Nat.le_refl _) hle hsolid
  rw [hang, hang, hstart]
  constructor
  · intro h
    have hhang := h t.startLine (Nat.le_refl _) hle hsolid
    refine ⟨hhang, ?_⟩
    rcases hplace with hsame | hmoved
    · exact .inl hsame
    · -- A shallower line would have come to the column of the first one.
      right
      intro n hlow hhigh hn
      have hline := h n hlow hhigh hn
      have hnew := hmoved n hlow hhigh hn
      have hin := hdeep n hlow hhigh hn
      omega
  · rintro ⟨hhang, hkept⟩ n hlow hhigh hn
    have hin := hdeep n hlow hhigh hn
    have hstays : (∀ n, t.startLine ≤ n → n ≤ t.endLine →
        result.lines.content n = stream.lines.content n) →
        result.lines.leading n - t'.first.column = stream.lines.leading n - t.first.column := by
      intro hsame
      have hhere : result.lines.leading n = stream.lines.leading n := by
        rw [LineTable.leading, hsame n hlow hhigh]
        rfl
      have hthere : result.lines.leading t.startLine = stream.lines.leading t.startLine := by
        rw [LineTable.leading, hsame t.startLine (Nat.le_refl _) hle]
        rfl
      omega
    rcases hplace with hsame | hmoved
    · exact hstays hsame
    rcases hkept with hsame | hlevel
    · exact hstays hsame
    · have hnew := hmoved n hlow hhigh hn
      have hup := hlevel n hlow hhigh hn
      omega

end Stream

/-- Where a repair leaves a block scalar on its lines, its content stays the same exactly if
its first line lies as deep in the body as before, and the body stays in its place or
none of its lines lies less deep than the first one. Without digits it always does. -/
theorem bodyLines_applyRepairs {text : List Char} {style : Style} {stream result : Stream}
    {r : Repair} {digit digit' : Option Nat} {t t' : Token} (hparse : parse text = .ok stream)
    (hr : r ∈ (stream.analyze style).repairs)
    (hnext : parse (applyRepairs text [r]) = .ok result) (ht : (digit, t) ∈ stream.bodies)
    (ht' : (digit', t') ∈ result.bodies) (hstart : t'.startLine = t.startLine)
    (hend : t'.endLine = t.endLine) :
    (result.bodyLines t' = stream.bodyLines t ↔
      result.hang t' = stream.hang t ∧
        ((∀ n, t.startLine ≤ n → n ≤ t.endLine →
          result.lines.content n = stream.lines.content n) ∨
        ∀ n, t.startLine ≤ n → n ≤ t.endLine → stream.lines.isBlankLine n = false →
          stream.lines.leading t.startLine ≤ stream.lines.leading n)) ∧
      (digit = none → digit' = none → result.bodyLines t' = stream.bodyLines t) := by
  obtain ⟨rfl, s, hread⟩ := Stream.exists_readTo hparse
  obtain ⟨hresult, s', hread'⟩ := Stream.exists_readTo hnext
  obtain ⟨i, block, hat, hblock, hheader, hcolumn⟩ := hread.bodyAt_of_mem_bodies ht style
  obtain ⟨i', block', hat', -, -, hcolumn'⟩ := hread'.bodyAt_of_mem_bodies ht' style
  obtain ⟨hblank, hcontent, hplace⟩ := hat.kept_content hread hblock hheader hr hresult
  have hdeep : ∀ n, t.startLine ≤ n → n ≤ t.endLine → stream.lines.isBlankLine n = false →
      t.first.column ≤ stream.lines.leading n ∧
        t'.first.column ≤ result.lines.leading n := by
    intro n hfirst hlast hsolid
    refine ⟨hat.deep n hfirst hlast hsolid, hat'.deep n (by omega) (by omega) ?_⟩
    rw [hblank n hfirst hlast]
    exact hsolid
  have hmain := (Stream.bodyLines_eq_iff hstart hend hblank hcontent hdeep).trans
    (Stream.depths_eq_iff hstart hat.start_le hat.first_solid hdeep hplace)
  refine ⟨hmain, ?_⟩
  intro hnone hnone'
  have hown := hcolumn hnone
  have hown' := hcolumn' hnone'
  rw [hstart] at hown'
  apply hmain.mpr
  constructor
  · rw [Stream.hang, Stream.hang, hstart]
    omega
  · right
    intro n hlow hhigh hsolid
    have hin := hdeep n hlow hhigh hsolid
    omega

/-- The second line of this body lies less deep than the first, and the repair that moves
both gives them one column. -/
theorem bodyLines_applyRepairs_shallow :
    ∃ stream result r t t', parse "a: |1\n  x\n y\n".toList = .ok stream ∧
      r ∈ (stream.analyze ⟨4, true, none, false⟩).repairs ∧
      parse (applyRepairs "a: |1\n  x\n y\n".toList [r]) = .ok result ∧
      (some 1, t) ∈ stream.bodies ∧ (some 3, t') ∈ result.bodies ∧
      t'.startLine = t.startLine ∧ t'.endLine = t.endLine ∧
      result.hang t' = stream.hang t ∧ result.bodyLines t' ≠ stream.bodyLines t := by
  obtain ⟨r, hr⟩ : ∃ r : Repair,
      r = ⟨[⟨⟨4, 5⟩, "3"⟩, ⟨⟨6, 8⟩, "    "⟩, ⟨⟨10, 11⟩, "    "⟩]⟩ := ⟨_, rfl⟩
  have hbefore : (parse "a: |1\n  x\n y\n".toList).toOption.map (fun s =>
      (s.bodies.map fun b => (b.1, b.2.startLine, b.2.endLine, s.hang b.2),
        s.lines.content 2)) = some ([(some 1, 2, 3, 1)], "  x".toList) := by
    decide +kernel
  have hlines : (parse "a: |1\n  x\n y\n".toList).toOption.map (fun s =>
      (s.lines.isBlankLine 3, s.lines.leading 2, s.lines.leading 3)) = some (false, 2, 1) := by
    decide +kernel
  have hrepairs : (parse "a: |1\n  x\n y\n".toList).toOption.map (fun s =>
      (s.analyze ⟨4, true, none, false⟩).repairs) = some [r, r] := by
    rw [hr]
    decide +kernel
  have hafter : (parse (applyRepairs "a: |1\n  x\n y\n".toList [r])).toOption.map (fun s =>
      (s.bodies.map fun b => (b.1, b.2.startLine, b.2.endLine, s.hang b.2),
        s.lines.content 2)) = some ([(some 3, 2, 3, 1)], "    x".toList) := by
    rw [hr]
    decide +kernel
  cases hparse : parse "a: |1\n  x\n y\n".toList with
  | error e =>
    rw [hparse] at hbefore
    cases hbefore
  | ok stream =>
    cases hnext : parse (applyRepairs "a: |1\n  x\n y\n".toList [r]) with
    | error e =>
      rw [hnext] at hafter
      cases hafter
    | ok result =>
      rw [hparse] at hbefore hlines hrepairs
      rw [hnext] at hafter
      simp only [Except.toOption, Option.map_some, Option.some.injEq, Prod.mk.injEq,
        List.map_eq_singleton_iff, Prod.exists] at hbefore hlines hrepairs hafter
      obtain ⟨⟨digit, t, hbodies, rfl, hstart, hend, hhang⟩, hcontent⟩ := hbefore
      obtain ⟨hsolid, hfirst, hsecond⟩ := hlines
      obtain ⟨⟨digit', t', hbodies', rfl, hstart', hend', hhang'⟩, hcontent'⟩ := hafter
      have hr : r ∈ (stream.analyze ⟨4, true, none, false⟩).repairs := by simp [hrepairs]
      have ht : (some 1, t) ∈ stream.bodies := by simp [hbodies]
      have ht' : (some 3, t') ∈ result.bodies := by simp [hbodies']
      have hsame : t'.startLine = t.startLine := by rw [hstart, hstart']
      have hlast : t'.endLine = t.endLine := by rw [hend, hend']
      refine ⟨stream, result, r, t, t', rfl, hr, hnext, ht, ht', hsame, hlast,
        hhang'.trans hhang.symm, ?_⟩
      intro heq
      obtain ⟨-, hkept⟩ :=
        (bodyLines_applyRepairs hparse hr hnext ht ht' hsame hlast).1.mp heq
      rcases hkept with hstays | hlevel
      · have hline := hstays 2 (by omega) (by omega)
        rw [hcontent, hcontent'] at hline
        revert hline
        decide
      · have hline := hlevel 3 (by omega) (by omega) hsolid
        rw [hstart] at hline
        omega

end YamlLayout
