import YamlLayout.Deviation.Shift

/-!
# Lines that hang on others

`Shift.deltas` keeps the lines that others can hang on in a stack and forgets those that a
less deep line has ended. It gives each line the delta that a search through all lines
before it gives: a scope that has ended is never the last one that is shallow enough.
-/
namespace YamlLayout

/-- How far a line moves that goes to a column of its own. -/
def LineMeasure.ownShift? (m : LineMeasure) : Option Int :=
  if m.pinned then none else m.expected.map (· - m.actual)

namespace Shift

variable {scopes : List Scope} {earlier : List LineMeasure} {n : Nat}

/-- The last of the earlier lines that goes to a column of its own and is indented by no
more than `leading`. -/
def host? (earlier : List LineMeasure) (leading : Nat) : Option LineMeasure :=
  (earlier.filter fun k => k.ownShift?.isSome && k.leading ≤ leading).getLast?

/-- How far a line moves behind earlier ones. A pinned line stays, one with a column of its
own goes there, and any other one moves with the line it hangs on. -/
def plainDelta (earlier : List LineMeasure) (m : LineMeasure) : Int :=
  if m.pinned then 0
  else
    match m.expected with
    | some e => e - m.actual
    | none => ((host? earlier m.leading).bind (·.ownShift?)).getD 0

theorem host?_append_of_own {m : LineMeasure} (hown : m.ownShift?.isSome = true) :
    host? (earlier ++ [m]) n = if m.leading ≤ n then some m else host? earlier n := by
  by_cases hle : m.leading ≤ n <;> simp [host?, List.filter_append, hown, hle]

theorem host?_append_of_not_own {m : LineMeasure} (hown : m.ownShift? = none) :
    host? (earlier ++ [m]) n = host? earlier n := by
  simp [host?, List.filter_append, hown]

/-- Passing over lines that are too deep leaves what is found the same. -/
theorem find?_dropWhile {limit : Nat} (h : n < limit) :
    (scopes.dropWhile (limit ≤ ·.leading)).find? (·.leading ≤ n) =
      scopes.find? (·.leading ≤ n) := by
  induction scopes with
  | nil => rfl
  | cons s scopes ih =>
    by_cases hdeep : limit ≤ s.leading
    · have hpast : ¬s.leading ≤ n := by omega
      rw [List.dropWhile_cons_of_pos (by simpa using hdeep), ih,
        List.find?_cons_of_neg (by simpa using hpast)]
    · rw [List.dropWhile_cons_of_neg (by simpa using hdeep)]

/-- The scopes that a new one ends are too deep for every line that is not in the new one. -/
theorem find?_opened (scope : Scope) :
    (opened scopes scope).find? (·.leading ≤ n) =
      if scope.leading ≤ n then some scope else scopes.find? (·.leading ≤ n) := by
  rw [opened]
  by_cases hle : scope.leading ≤ n
  · rw [List.find?_cons_of_pos (by simpa using hle), if_pos hle]
  · rw [List.find?_cons_of_neg (by simpa using hle), if_neg hle,
      find?_dropWhile (Nat.lt_of_not_le hle)]

/-- At every depth the scopes give the delta of the line that the earlier lines give. -/
def Mirrors (scopes : List Scope) (earlier : List LineMeasure) : Prop :=
  ∀ n, (scopes.find? (·.leading ≤ n)).map (·.delta) = (host? earlier n).bind (·.ownShift?)

theorem mirrors_nil : Mirrors [] [] := fun _ => rfl

/-- A line gets the delta that the lines before it give it, and the scopes after it mirror
the lines up to it. -/
theorem Mirrors.step_spec (h : Mirrors scopes earlier) (m : LineMeasure) :
    (step scopes m).1 = plainDelta earlier m ∧
      Mirrors (step scopes m).2 (earlier ++ [m]) := by
  unfold step plainDelta
  by_cases hpinned : m.pinned = true
  · rw [if_pos hpinned, if_pos hpinned]
    refine ⟨rfl, fun n => ?_⟩
    rw [host?_append_of_not_own (by simp [LineMeasure.ownShift?, hpinned])]
    exact h n
  · rw [if_neg hpinned, if_neg hpinned]
    cases hexpected : m.expected with
    | none =>
      refine ⟨congrArg (·.getD 0) (h m.leading), fun n => ?_⟩
      rw [host?_append_of_not_own (by simp [LineMeasure.ownShift?, hexpected])]
      exact h n
    | some e =>
      have hown : m.ownShift? = some (e - m.actual) := by
        simp [LineMeasure.ownShift?, hpinned, hexpected]
      refine ⟨rfl, fun n => ?_⟩
      rw [find?_opened, host?_append_of_own (by simp [hown])]
      by_cases hle : m.leading ≤ n
      · simp [hle, hown]
      · simpa [hle] using h n

/-- The deltas of lines that come after earlier ones. -/
theorem Mirrors.deltasFrom_spec (h : Mirrors scopes earlier) (lines : List LineMeasure) :
    (deltasFrom scopes lines = none ↔ ∃ (i : Nat) (m : LineMeasure), lines[i]? = some m ∧
        (m.leading : Int) + plainDelta (earlier ++ lines.take i) m < 0) ∧
      (deltasFrom scopes lines = none ∨ deltasFrom scopes lines =
        some (lines.mapIdx fun i m => plainDelta (earlier ++ lines.take i) m)) := by
  induction lines generalizing scopes earlier with
  | nil => simp [deltasFrom]
  | cons m lines ih =>
    obtain ⟨hdelta, hscopes⟩ := h.step_spec m
    obtain ⟨hnone, hall⟩ := ih hscopes
    simp only [List.append_assoc, List.singleton_append] at hnone hall
    rw [deltasFrom]
    dsimp only
    rw [hdelta]
    by_cases hleft : (m.leading : Int) + plainDelta earlier m < 0
    · rw [if_pos hleft]
      refine ⟨iff_of_true rfl ⟨0, m, rfl, ?_⟩, .inl rfl⟩
      simpa using hleft
    · rw [if_neg hleft, Option.map_eq_none_iff, hnone]
      constructor
      · constructor
        · rintro ⟨i, k, hk, hlt⟩
          exact ⟨i + 1, k, by simpa using hk, by simpa using hlt⟩
        · rintro ⟨i, k, hk, hlt⟩
          cases i with
          | zero =>
            simp only [List.getElem?_cons_zero, Option.some.injEq] at hk
            subst hk
            exact absurd (by simpa using hlt) hleft
          | succ i => exact ⟨i, k, by simpa using hk, by simpa using hlt⟩
      · rcases hall with hall | hall
        · exact .inl (hnone.mp hall)
        · refine .inr ?_
          simp [hall, List.mapIdx_cons]

/-- Lines that move together move as a search through all lines before each of them says,
unless one of them would start left of the first column; then none moves. -/
theorem deltas_eq_plainDelta (window : List LineMeasure) :
    (deltas window = none ↔ ∃ (i : Nat) (m : LineMeasure), window[i]? = some m ∧
        (m.leading : Int) + plainDelta (window.take i) m < 0) ∧
      (deltas window = none ∨
        deltas window = some (window.mapIdx fun i m => plainDelta (window.take i) m)) := by
  unfold deltas
  simpa using mirrors_nil.deltasFrom_spec window

-- The third line ends the scope of the first one.
example :
    deltas [⟨1, .structural, some 2, 4, 4, [], false⟩, .bare 2 .comment 6,
      ⟨3, .structural, some 2, 2, 2, [], false⟩, .bare 4 .comment 4] = some [-2, -2, 0, 0] := by
  decide

end Shift

end YamlLayout
