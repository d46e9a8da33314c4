import Mathlib.Tactic.Ring
import YamlLayout.Measure.Placement

/-!
# Columns open to comments

The columns open to a comment are those that lie whole steps to the left of the deeper of
its neighbours, down to the other one or to the margin. They are listed from the right to
the left. A comment goes to the nearest of them, and of two that are equally near to the one
on the right. This keeps the order of comments, whichever columns are open, and leaves a
comment at an open column in its place.
-/
namespace YamlLayout

namespace Placement

/-! ## The list of open columns -/

section Steps

variable {step : Nat} {low n s : Int}

theorem bounds_of_mem_descending (h : s ∈ descending step low n) : low < s ∧ s ≤ n := by
  fun_induction descending step low n with
  | case1 n hn ih =>
    rcases List.mem_cons.mp h with rfl | htail
    · exact ⟨hn.2, Int.le_refl s⟩
    · have hbounds := ih htail
      omega
  | case2 n hn => cases h

theorem pairwise_descending (step : Nat) (low n : Int) :
    (descending step low n).Pairwise (· > ·) := by
  fun_induction descending step low n with
  | case1 n hn ih =>
    refine List.pairwise_cons.mpr ⟨fun s hs => ?_, ih⟩
    have hbounds := bounds_of_mem_descending hs
    omega
  | case2 n hn => exact .nil

theorem mem_descending_iff (hstep : 0 < step) :
    s ∈ descending step low n ↔ low < s ∧ ∃ k : Nat, s = n - k * step := by
  constructor
  · intro h
    refine ⟨(bounds_of_mem_descending h).1, ?_⟩
    fun_induction descending step low n with
    | case1 n hn ih =>
      rcases List.mem_cons.mp h with rfl | htail
      · exact ⟨0, by simp⟩
      · obtain ⟨k, rfl⟩ := ih htail
        exact ⟨k + 1, by push_cast; ring⟩
    | case2 n hn => cases h
  · rintro ⟨hlow, k, rfl⟩
    induction k generalizing n with
    | zero =>
      rw [descending, if_pos ⟨hstep, by simpa using hlow⟩]
      simp
    | succ k ih =>
      have hnext : n - (k + 1 : Nat) * step = n - step - k * step := by
        push_cast
        ring
      rw [hnext] at hlow ⊢
      have hback : 0 ≤ (k : Int) * step := Int.mul_nonneg (by omega) (by omega)
      rw [descending, if_pos ⟨hstep, by omega⟩]
      exact List.mem_cons_of_mem _ (ih hlow)

end Steps

/-- A comment between two lines may stand at the column `s`: below a deeper line at the
column of the next line or at one to the right of it that lies whole steps to the left of the
line above, next to a single line at any column that lies whole steps to the left of it. -/
def IsOpen (before after : Option Int) (unit s : Int) : Prop :=
  match before, after with
  | some b, some a => s = a ∨ a < s ∧ ∃ k : Nat, s = b - k * max unit 1
  | some n, none => 0 ≤ s ∧ ∃ k : Nat, s = n - k * max unit 1
  | none, some n => 0 ≤ s ∧ ∃ k : Nat, s = n - k * max unit 1
  | none, none => False

section Open

variable {before after : Option Int} {unit s : Int}

theorem mem_steps_iff : s ∈ steps before after unit ↔ IsOpen before after unit s := by
  have hstep : 0 < (max unit 1).toNat := by omega
  have hcast : (((max unit 1).toNat : Nat) : Int) = max unit 1 := Int.toNat_of_nonneg (by omega)
  have hone : ∀ n : Int, s ∈ descending (max unit 1).toNat (-1) n ↔
      0 ≤ s ∧ ∃ k : Nat, s = n - k * max unit 1 := by
    intro n
    rw [mem_descending_iff hstep, hcast]
    exact and_congr_left fun _ => by omega
  cases before with
  | none =>
    cases after with
    | none => simp [steps, IsOpen]
    | some n => exact hone n
  | some b =>
    cases after with
    | none => exact hone b
    | some a =>
      simp only [steps, IsOpen]
      split
      · rw [List.mem_append, List.mem_singleton, mem_descending_iff hstep, hcast, or_comm]
      · rename_i hdeeper
        rw [List.mem_singleton]
        refine ⟨.inl, fun h => h.elim id ?_⟩
        -- Whole steps lead from the line above to the left only.
        rintro ⟨hright, k, rfl⟩
        have hback : 0 ≤ (k : Int) * max unit 1 := Int.mul_nonneg (by omega) (by omega)
        omega

theorem pairwise_steps (before after : Option Int) (unit : Int) :
    (steps before after unit).Pairwise (· > ·) := by
  cases before with
  | none =>
    cases after with
    | none => exact .nil
    | some n => exact pairwise_descending ..
  | some b =>
    cases after with
    | none => exact pairwise_descending ..
    | some a =>
      simp only [steps]
      split
      · refine List.pairwise_append.mpr ⟨pairwise_descending .., List.pairwise_singleton .., ?_⟩
        intro s hs t ht
        rw [List.mem_singleton.mp ht]
        exact (bounds_of_mem_descending hs).1
      · exact List.pairwise_singleton ..

theorem nonneg_of_mem_steps (hafter : ∀ a ∈ after, 0 ≤ a) (h : s ∈ steps before after unit) :
    0 ≤ s := by
  have hopen := mem_steps_iff.mp h
  cases after with
  | none =>
    cases before with
    | none => exact hopen.elim
    | some n => exact hopen.1
  | some a =>
    cases before with
    | none => exact hopen.1
    | some b =>
      have ha := hafter a rfl
      rcases hopen with rfl | ⟨hright, -⟩
      · exact ha
      · omega

/-- The column of the line below is open, or else that of the line above. -/
theorem steps_ne_nil_iff (hbefore : ∀ b ∈ before, 0 ≤ b) (hafter : ∀ a ∈ after, 0 ≤ a) :
    steps before after unit ≠ [] ↔ before ≠ none ∨ after ≠ none := by
  have hself : ∀ n : Int, n = n - (0 : Nat) * max unit 1 := by simp
  cases after with
  | some a =>
    have ha : a ∈ steps before (some a) unit := by
      cases before with
      | none => exact mem_steps_iff.mpr ⟨hafter a rfl, 0, hself a⟩
      | some b => exact mem_steps_iff.mpr (.inl rfl)
    simp [List.ne_nil_of_mem ha]
  | none =>
    cases before with
    | none => simp [steps]
    | some b =>
      have hb : b ∈ steps (some b) none unit := mem_steps_iff.mpr ⟨hbefore b rfl, 0, hself b⟩
      simp [List.ne_nil_of_mem hb]

end Open

/-! ## The nearest open column -/

/-- Of the columns that are allowed, `s` is nearest to `actual`, and the largest one of those
that are equally near. -/
structure IsNearest (allowed : List Int) (actual s : Int) : Prop where
  mem : s ∈ allowed
  near : ∀ t ∈ allowed, (s - actual).natAbs ≤ (t - actual).natAbs
  large : ∀ t ∈ allowed, (t - actual).natAbs = (s - actual).natAbs → t ≤ s

section Nearest

variable {allowed : List Int} {actual a b s t : Int}

theorem IsNearest.unique (hs : IsNearest allowed actual s) (ht : IsNearest allowed actual t) :
    s = t := by
  have heq : (s - actual).natAbs = (t - actual).natAbs :=
    Nat.le_antisymm (hs.near t ht.mem) (ht.near s hs.mem)
  exact Int.le_antisymm (ht.large s hs.mem heq) (hs.large t ht.mem heq.symm)

/-- Going to the nearest column keeps the order. -/
theorem IsNearest.mono (hs : IsNearest allowed a s) (ht : IsNearest allowed b t) (hab : a ≤ b) :
    s ≤ t := by
  by_contra hlt
  -- The columns would change places: `a` lies in the upper half between them, `b` in the lower.
  have ha : (s - a).natAbs ≤ (t - a).natAbs := hs.near t ht.mem
  have hb : (t - b).natAbs ≤ (s - b).natAbs := ht.near s hs.mem
  have hne : (s - b).natAbs ≠ (t - b).natAbs := fun heq => hlt (ht.large s hs.mem heq)
  omega

/-- An allowed column is nearest to itself. -/
theorem isNearest_self (h : s ∈ allowed) : IsNearest allowed s s where
  mem := h
  near t _ := by omega
  large t _ heq := by omega

theorem isNearest_nearer (actual a b : Int) : IsNearest [a, b] actual (nearer actual a b) := by
  simp only [nearer, Bool.or_eq_true, Bool.and_eq_true, decide_eq_true_eq, beq_iff_eq]
  split
  all_goals
    refine ⟨by simp, ?_, ?_⟩
    all_goals
      simp only [List.mem_cons, List.not_mem_nil, or_false, forall_eq_or_imp, forall_eq]
      omega

/-- What is nearest among the nearest of a part and the rest is nearest among all. -/
theorem IsNearest.trans {part rest : List Int} (hs : IsNearest part actual s)
    (ht : IsNearest (s :: rest) actual t) : IsNearest (part ++ rest) actual t where
  mem := by
    rcases List.mem_cons.mp ht.mem with rfl | hmem
    · exact List.mem_append_left _ hs.mem
    · exact List.mem_append_right _ hmem
  near u hu := by
    rcases List.mem_append.mp hu with hpart | hrest
    · exact Nat.le_trans (ht.near s (List.mem_cons_self ..)) (hs.near u hpart)
    · exact ht.near u (List.mem_cons_of_mem _ hrest)
  large u hu heq := by
    rcases List.mem_append.mp hu with hpart | hrest
    · -- The nearest of the part lies between the two, so all three are equally near.
      have hts := ht.near s (List.mem_cons_self ..)
      have hsu := hs.near u hpart
      calc u ≤ s := hs.large u hpart (by omega)
        _ ≤ t := ht.large s (List.mem_cons_self ..) (by omega)
    · exact ht.large u (List.mem_cons_of_mem _ hrest) heq

theorem isNearest_foldl (actual s : Int) (rest : List Int) :
    IsNearest (s :: rest) actual (rest.foldl (nearer actual) s) := by
  induction rest generalizing s with
  | nil => exact ⟨by simp, by simp, by simp⟩
  | cons t rest ih => exact (isNearest_nearer actual s t).trans (ih (nearer actual s t))

theorem snap_eq_some_iff : snap allowed actual = some s ↔ IsNearest allowed actual s := by
  cases allowed with
  | nil => exact ⟨fun h => (by cases h), fun h => (by cases h.mem)⟩
  | cons t rest =>
    have hfold := isNearest_foldl actual t rest
    rw [snap, Option.some.injEq]
    exact ⟨fun h => h ▸ hfold, fun h => hfold.unique h⟩

theorem exists_snap (h : allowed ≠ []) (actual : Int) :
    ∃ s, snap allowed actual = some s ∧ IsNearest allowed actual s := by
  obtain ⟨t, rest, rfl⟩ := List.exists_cons_of_ne_nil h
  exact ⟨_, rfl, isNearest_foldl actual t rest⟩

theorem snap_of_mem (h : s ∈ allowed) : snap allowed s = some s :=
  snap_eq_some_iff.mpr (isNearest_self h)

/-- A column found by snapping is its own nearest one. -/
theorem snap_of_snap (h : snap allowed actual = some s) : snap allowed s = some s :=
  snap_of_mem (snap_eq_some_iff.mp h).mem

end Nearest

end Placement

end YamlLayout
