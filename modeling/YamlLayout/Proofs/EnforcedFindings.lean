import YamlLayout.Checker
import YamlLayout.Proofs.ChangingRepairs
import YamlLayout.Proofs.Settling

/-!
# Findings that are acted on

An enforced finding comes with a repair, and repairs change the text. Still the text can
stay as it is: a pass whose result cannot be read is given up, with all of its repairs.
-/
namespace YamlLayout

variable {text : List Char} {style : Style}

/-- A repair makes its deviation an enforced finding. -/
theorem Analysis.exists_enforced_iff (analysis : Analysis) :
    (∃ f ∈ analysis.deviations.map (·.finding), f.enforced = true) ↔ analysis.repairs ≠ [] := by
  rw [ne_eq, Analysis.repairs, List.filterMap_eq_nil_iff, not_forall]
  constructor
  · rintro ⟨f, hf, henforced⟩
    obtain ⟨d, hd, rfl⟩ := List.mem_map.mp hf
    refine ⟨d, fun hnone => ?_⟩
    rw [Deviation.finding, hnone hd] at henforced
    cases henforced
  · rintro ⟨d, hd⟩
    rw [Classical.not_imp] at hd
    exact ⟨d.finding, List.mem_map_of_mem hd.1, Option.isSome_iff_ne_none.mpr hd.2⟩

/-- Linting reports an enforced finding exactly if there is something to repair. -/
theorem exists_enforced_lint_iff (text : List Char) (style : Style) :
    (∃ f ∈ lint text style, f.enforced = true) ↔
      isTabIndented text = false ∧ Repairable text style := by
  by_cases htab : isTabIndented text = true
  · simp [lint, htab]
  rw [Bool.not_eq_true] at htab
  rw [lint, htab, if_neg Bool.false_ne_true, Repairable]
  cases hparse : parse text with
  | error e =>
    rw [analyze_of_error hparse]
    simp [ParseError.finding]
  | ok stream =>
    rw [analyze_of_parse hparse]
    simpa using (stream.analyze style).exists_enforced_iff

/-- Where carriage returns stand in line breaks only, there is something to repair exactly
if the repairs change the text. -/
theorem repairable_iff_repaired_ne (hpaired : Text.ReturnsPaired text) :
    Repairable text style ↔ repaired text style ≠ text := by
  constructor
  · rintro ⟨stream, hparse, hne⟩
    have hplace := Stream.inPlace_of_parse hparse
    rw [repaired_of_parse hparse]
    obtain ⟨rfl, s, hread⟩ := Stream.exists_readTo hparse
    exact hread.applyRepairs_ne hplace hpaired hne
  · intro hchanged
    cases hparse : parse text with
    | error e =>
      rw [repaired, analyze_of_error hparse] at hchanged
      exact absurd rfl hchanged
    | ok stream =>
      refine ⟨stream, hparse, fun hnil => hchanged ?_⟩
      rw [repaired_of_parse hparse, hnil]
      rfl

theorem Checker.isSome_fix_yaml_iff {path : Path} :
    ((yaml style).fix path text).isSome = true ↔ fixText text style ≠ text := by
  simp only [yaml]
  split
  · rename_i hsame
    simpa using hsame
  · rename_i hchanged
    simpa using hchanged

/-- A text is fixed exactly if linting reports an enforced finding, the repaired text can be
read and the later passes do not lead back. Where carriage returns stand in line breaks
only, an enforced finding is reported exactly if the repairs change the text. -/
theorem fix_isSome_iff_enforced (path : Path) (text : List Char) (style : Style) :
    (((Checker.yaml style).fix path text).isSome = true ↔
        (∃ f ∈ (Checker.yaml style).lint path text, f.enforced = true) ∧
          (parse (repaired text style)).isOk = true ∧
          fixPasses style (maxPasses - 1) (repaired text style) ≠ text) ∧
      (Text.ReturnsPaired text →
        ((∃ f ∈ (Checker.yaml style).lint path text, f.enforced = true) ↔
          isTabIndented text = false ∧ repaired text style ≠ text)) := by
  have hlint : (∃ f ∈ (Checker.yaml style).lint path text, f.enforced = true) ↔
      isTabIndented text = false ∧ Repairable text style := exists_enforced_lint_iff text style
  rw [hlint]
  constructor
  · rw [Checker.isSome_fix_yaml_iff, fixText]
    by_cases htab : isTabIndented text = true
    · simp [htab]
    · rw [if_neg htab, maxPasses, fixPasses_succ_ne_iff, and_assoc]
      rw [Bool.not_eq_true] at htab
      exact (and_iff_right htab).symm
  · intro hpaired
    rw [repairable_iff_repaired_ne hpaired]

/-- The second line of a quoted scalar belongs at the first column, but there it would be
the start of a document. -/
theorem fix_isSome_iff_enforced_marker :
    (∃ f ∈ (Checker.yaml .default).lint ⟨"a.yaml"⟩ "\"a\n  --- b\"\n".toList,
        f.enforced = true) ∧
      repaired "\"a\n  --- b\"\n".toList .default ≠ "\"a\n  --- b\"\n".toList ∧
      (parse (repaired "\"a\n  --- b\"\n".toList .default)).isOk = false ∧
      ((Checker.yaml .default).fix ⟨"a.yaml"⟩ "\"a\n  --- b\"\n".toList).isSome = false := by
  have henforced : ∃ f ∈ (Checker.yaml .default).lint ⟨"a.yaml"⟩ "\"a\n  --- b\"\n".toList,
      f.enforced = true := by
    decide +kernel
  have hpaired : Text.ReturnsPaired "\"a\n  --- b\"\n".toList := by decide +kernel
  have hbroken : (parse (repaired "\"a\n  --- b\"\n".toList .default)).isOk = false := by
    decide +kernel
  obtain ⟨hfix, hchanges⟩ :=
    fix_isSome_iff_enforced ⟨"a.yaml"⟩ "\"a\n  --- b\"\n".toList .default
  refine ⟨henforced, ((hchanges hpaired).mp henforced).2, hbroken, ?_⟩
  rw [← Bool.not_eq_true, hfix, hbroken]
  simp

end YamlLayout
