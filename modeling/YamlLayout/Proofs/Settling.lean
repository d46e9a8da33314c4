import YamlLayout.Check

/-!
# Texts that settle

A text has settled when a pass leaves it as it is. Passes add up, so a second fixing
goes on where the first one stopped: it changes nothing if the first one ended because
the text had settled, and makes up to `maxPasses` more passes otherwise.
-/
namespace YamlLayout

variable {style : Style} {text next : List Char} {stream : Stream}

/-- The text after the repairs of one pass, whether it can be read or not. -/
def repaired (text : List Char) (style : Style) : List Char :=
  match analyze text style with
  | .error _ => text
  | .ok analysis => applyRepairs text analysis.repairs

/-- The text can be read, and there is something to repair in it. -/
def Repairable (text : List Char) (style : Style) : Prop :=
  ∃ stream, parse text = .ok stream ∧ (stream.analyze style).repairs ≠ []

theorem analyze_of_parse (h : parse text = .ok stream) :
    analyze text style = .ok (stream.analyze style) := by
  rw [analyze, h]
  rfl

theorem analyze_of_error {e : ParseError} (h : parse text = .error e) :
    analyze text style = .error e := by
  rw [analyze, h]
  rfl

theorem repaired_of_parse (h : parse text = .ok stream) :
    repaired text style = applyRepairs text (stream.analyze style).repairs := by
  rw [repaired, analyze_of_parse h]

/-- A pass makes the repairs of a text, unless this changes nothing or gives a text that
cannot be read. -/
theorem fixPass?_eq_some_iff :
    fixPass? style text = some next ↔ Repairable text style ∧ next = repaired text style ∧
      next ≠ text ∧ (parse next).isOk = true := by
  unfold fixPass? Repairable
  cases hparse : parse text with
  | error e => simp [analyze_of_error hparse]
  | ok stream =>
    rw [analyze_of_parse hparse, repaired_of_parse hparse]
    dsimp only
    split
    · rename_i hskip
      simp only [reduceCtorEq, false_iff]
      rintro ⟨⟨_, heq, hne⟩, rfl, hchanged, -⟩
      rw [Except.ok.injEq] at heq
      subst heq
      simp [hne, hchanged] at hskip
    · rename_i hgo
      simp only [Bool.or_eq_true, List.isEmpty_iff, beq_iff_eq, not_or] at hgo
      cases hnext : parse (applyRepairs text (stream.analyze style).repairs) with
      | error e =>
        simp only [reduceCtorEq, false_iff]
        rintro ⟨-, rfl, -, hok⟩
        rw [hnext] at hok
        cases hok
      | ok result =>
        simp only [Option.some.injEq]
        constructor
        · rintro rfl
          exact ⟨⟨stream, rfl, hgo.1⟩, rfl, hgo.2, by rw [hnext]; rfl⟩
        · rintro ⟨-, rfl, -⟩
          rfl

theorem fixPasses_of_settled (n : Nat) (h : fixPass? style text = none) :
    fixPasses style n text = text := by
  cases n with
  | zero => rfl
  | succ n => simp only [fixPasses, h]

theorem fixPasses_succ_of_some (n : Nat) {next : List Char}
    (h : fixPass? style text = some next) :
    fixPasses style (n + 1) text = fixPasses style n next := by
  rw [fixPasses, h]

/-- Passes change a text exactly if the repairs of the first one can be kept and the others
do not lead back. -/
theorem fixPasses_succ_ne_iff (n : Nat) :
    fixPasses style (n + 1) text ≠ text ↔
      Repairable text style ∧ (parse (repaired text style)).isOk = true ∧
        fixPasses style n (repaired text style) ≠ text := by
  cases hpass : fixPass? style text with
  | some next =>
    obtain ⟨hrepairable, rfl, -, hok⟩ := fixPass?_eq_some_iff.mp hpass
    rw [fixPasses_succ_of_some n hpass]
    exact ⟨fun hback => ⟨hrepairable, hok, hback⟩, fun h => h.2.2⟩
  | none =>
    rw [fixPasses_of_settled _ hpass]
    simp only [ne_eq, not_true, false_iff]
    rintro ⟨hrepairable, hok, hback⟩
    -- Only repairs that change nothing are given up here, and later passes do the same.
    by_cases hsame : repaired text style = text
    · rw [hsame, fixPasses_of_settled _ hpass] at hback
      exact hback rfl
    · have hsome := fixPass?_eq_some_iff.mpr ⟨hrepairable, rfl, hsame, hok⟩
      rw [hpass] at hsome
      cases hsome

end YamlLayout
