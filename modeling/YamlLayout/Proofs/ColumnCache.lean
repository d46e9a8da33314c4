import YamlLayout.Layout.Columns

/-!
# Remembered columns

A cache that agrees with `column?` gives the columns that `column?` gives and agrees
with it afterwards. The columns found one after the other are therefore those found
anew for each token, whichever tokens are asked for and in whichever order. Where every
rule counts from an earlier token, `column?` is the only way to follow the rules.
-/
namespace YamlLayout

namespace ColumnCache

variable {l : Layout} {tokens : Array Token} {cache : ColumnCache}

/-- All that is remembered is right. -/
def Agrees (l : Layout) (tokens : Array Token) (cache : ColumnCache) : Prop :=
  ∀ (t : Nat) (found : Option Int), cache.known[t]?.join = some found → found = l.column? tokens t

theorem agrees_fresh (l : Layout) (tokens : Array Token) : Agrees l tokens (fresh tokens) := by
  intro t found h
  unfold fresh at h
  by_cases hlt : t < tokens.size
  · simp [hlt] at h
  · simp [hlt] at h

theorem Agrees.remember (h : Agrees l tokens cache) (t : Nat) :
    Agrees l tokens ⟨cache.known.setIfInBounds t (some (l.column? tokens t))⟩ := by
  intro u found hfound
  by_cases heq : t = u
  · subst heq
    by_cases hlt : t < cache.known.size
    · rw [Array.getElem?_setIfInBounds_self_of_lt hlt] at hfound
      simpa using hfound.symm
    · rw [Array.setIfInBounds_eq_of_size_le (Nat.not_lt.mp hlt)] at hfound
      exact h t found hfound
  · rw [Array.getElem?_setIfInBounds_ne heq] at hfound
    exact h u found hfound

/-- Looking a column up gives the right one and remembers only right ones. -/
theorem resolve_spec (t : Nat) (h : Agrees l tokens cache) :
    (resolve l tokens t cache).1 = l.column? tokens t ∧
      Agrees l tokens (resolve l tokens t cache).2 := by
  induction t using Nat.strongRecOn generalizing cache with
  | ind t ih =>
    rw [resolve]
    simp only [bind, StateT.bind, get, getThe, MonadStateOf.get, StateT.get, pure]
    cases hknown : cache.known[t]?.join with
    | some found => exact ⟨h t found hknown, h⟩
    | none =>
      -- Whichever way the column is found, it is the one that is remembered.
      have hcolumn := Layout.column?.eq_def l tokens t
      cases hrule : l.rule? t with
      | none =>
        rw [hrule] at hcolumn
        have hkept := h.remember t
        rw [hcolumn] at hkept ⊢
        exact ⟨rfl, hkept⟩
      | some rule =>
        rw [hrule] at hcolumn
        cases hbase : rule.base with
        | none =>
          simp only [hbase] at hcolumn ⊢
          have hkept := h.remember t
          rw [hcolumn] at hkept ⊢
          exact ⟨rfl, hkept⟩
        | some base =>
          simp only [hbase] at hcolumn ⊢
          by_cases hlt : base < t
          · obtain ⟨hfound, hagrees⟩ := ih base hlt h
            simp only [hlt, if_true] at hcolumn ⊢
            have hkept := hagrees.remember t
            rw [hcolumn, ← hfound] at hkept ⊢
            exact ⟨rfl, hkept⟩
          · simp only [hlt, if_false] at hcolumn ⊢
            have hkept := h.remember t
            rw [hcolumn] at hkept ⊢
            exact ⟨rfl, hkept⟩

end ColumnCache

namespace Layout

variable {l : Layout} {tokens : Array Token}

theorem go_eq {cache : ColumnCache} (ts : List TokenId)
    (h : ColumnCache.Agrees l tokens cache) :
    columns.go l tokens ts cache = ts.map (l.column? tokens) := by
  induction ts generalizing cache with
  | nil => rfl
  | cons t ts ih =>
    obtain ⟨hfound, hagrees⟩ := ColumnCache.resolve_spec t h
    rw [columns.go, List.map_cons, ← hfound, ← ih hagrees]
    rfl

/-- The columns of all tokens are those that `column?` finds. -/
theorem columns_eq (l : Layout) (tokens : Array Token) :
    l.columns tokens = ((List.range tokens.size).map (l.column? tokens)).toArray := by
  rw [columns, go_eq _ (ColumnCache.agrees_fresh l tokens)]

theorem join_getElem?_columns {t : Nat} (h : t < tokens.size) :
    (l.columns tokens)[t]?.join = l.column? tokens t := by
  rw [columns_eq]
  simp [h]

/-- Every rule that counts from a token counts from an earlier one. -/
def CountsBack (l : Layout) : Prop :=
  ∀ (t : TokenId) (rule : ColumnRule) (base : TokenId),
    l.rule? t = some rule → rule.base = some base → base < t

/-- The column that the rule of a token gives it, where `column` gives those of the bases. -/
def follow (l : Layout) (tokens : Array Token) (column : TokenId → Option Int) (t : TokenId) :
    Option Int := do
  let rule ← l.rule? t
  match rule.base with
  | none => some rule.offset
  | some base =>
    let found ← column base
    some (found + rule.step (isFirstOnLine tokens base))

/-- The columns are those that following the rules gives, with nothing remembered. -/
def Follows (l : Layout) (tokens : Array Token) (column : TokenId → Option Int) : Prop :=
  ∀ t, column t = l.follow tokens column t

theorem follows_column? (h : l.CountsBack) : l.Follows tokens (l.column? tokens) := by
  intro t
  rw [column?, follow]
  cases hrule : l.rule? t with
  | none => rfl
  | some rule =>
    cases hbase : rule.base with
    | none => simp [hbase]
    | some base =>
      have hlt : base < t := h t rule base hrule hbase
      simp only [hbase, hlt, if_true, Option.bind_eq_bind, Option.bind_some]
      cases l.column? tokens base <;> rfl

/-- As long as rules count back, they can be followed in one way only. -/
theorem Follows.unique {column other : TokenId → Option Int} (hcolumn : l.Follows tokens column)
    (h : l.CountsBack) (hother : l.Follows tokens other) : column = other := by
  funext t
  induction t using Nat.strongRecOn with
  | ind t ih =>
    rw [hcolumn t, hother t, follow, follow]
    cases hrule : l.rule? t with
    | none => rfl
    | some rule =>
      cases hbase : rule.base with
      | none => simp [hbase]
      | some base =>
        have hsame : column base = other base := ih base (h t rule base hrule hbase)
        simp [hbase, hsame]

/-- Columns found one after the other are the answers of calls made in a row. -/
theorem go_eq_mapM (cache : ColumnCache) (ts : List TokenId) :
    columns.go l tokens ts cache = ((ts.mapM (ColumnCache.resolve l tokens)).run cache).1 := by
  induction ts generalizing cache with
  | nil => rfl
  | cons t ts ih =>
    rw [columns.go, List.mapM_cons]
    exact congrArg (List.cons (ColumnCache.resolve l tokens t cache).1)
      (ih (ColumnCache.resolve l tokens t cache).2)

/-- Whichever columns are asked for one after the other, starting with an empty cache, each
answer is the column that following the rules gives: tokens may be asked for in any order,
more than once, and past the end of the text. -/
theorem resolve_in_any_order (h : l.CountsBack) :
    l.Follows tokens (l.column? tokens) ∧
      ∀ column, l.Follows tokens column → ∀ ts : List TokenId,
        ((ts.mapM (ColumnCache.resolve l tokens)).run (ColumnCache.fresh tokens)).1 =
          ts.map column := by
  have hplain : l.Follows tokens (l.column? tokens) := follows_column? h
  refine ⟨hplain, fun column hcolumn ts => ?_⟩
  rw [hcolumn.unique h hplain, ← go_eq_mapM, go_eq ts (ColumnCache.agrees_fresh l tokens)]

/-- A key, its colon and rules for tokens behind them: one counts from the colon, which is not
the first token of its line, and the last one from a token without a rule. -/
theorem resolve_in_any_order_repeated :
    let l : Layout :=
      ⟨#[some ⟨none, 1, none⟩, some ⟨some 0, 2, some 7⟩, none, some ⟨some 1, 4, some 0⟩,
        some ⟨some 2, 1, none⟩], #[], []⟩
    let tokens : Array Token :=
      #[⟨.scalar, "a", ⟨0, 1⟩, ⟨1, 0⟩, ⟨1, 1⟩⟩, ⟨.punctuator, ":", ⟨1, 2⟩, ⟨1, 1⟩, ⟨1, 2⟩⟩]
    l.CountsBack ∧
      (([3, 9, 4, 1, 3, 0, 2].mapM (ColumnCache.resolve l tokens)).run
        (ColumnCache.fresh tokens)).1 =
        [some 3, none, none, some 3, some 3, some 1, none] := by
  intro l tokens
  have hback : l.CountsBack := by
    intro t rule base hrule hbase
    rcases t with _ | _ | _ | _ | _ | t
    all_goals simp [rule?, l] at hrule
    all_goals simp [← hrule] at hbase
    all_goals
      subst hbase
      decide
  refine ⟨hback, ?_⟩
  rw [(resolve_in_any_order hback).2 _ (resolve_in_any_order hback).1]
  decide +kernel

end Layout

end YamlLayout
