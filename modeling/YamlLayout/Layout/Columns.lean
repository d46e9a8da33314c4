import YamlLayout.Layout

/-!
# Expected columns

Following the rules of a layout from a token to its base, and on to the first token
of its document, gives the column at which the token belongs. `column?` does so
anew for each token; `ColumnCache` remembers what it has found.
-/
namespace YamlLayout

namespace Layout

/-- The column of a token; `none` where the chain of rules is broken. -/
def column? (l : Layout) (tokens : Array Token) (t : TokenId) : Option Int :=
  match l.rule? t with
  | none => none
  | some rule =>
    match rule.base with
    | none => some rule.offset
    | some base =>
      if base < t then
        (l.column? tokens base).map (· + rule.step (isFirstOnLine tokens base))
      else none
termination_by t

end Layout

/-- The columns found so far, one place for each token. -/
structure ColumnCache where
  known : Array (Option (Option Int))
deriving Repr, DecidableEq

namespace ColumnCache

def fresh (tokens : Array Token) : ColumnCache := ⟨Array.replicate tokens.size none⟩

/-- The column of a token, looked up or followed through its rule and remembered. -/
def resolve (l : Layout) (tokens : Array Token) (t : TokenId) : StateM ColumnCache (Option Int) := do
  match (← get).known[t]?.join with
  | some found => return found
  | none =>
    let found ←
      match l.rule? t with
      | none => pure none
      | some rule =>
        match rule.base with
        | none => pure (some rule.offset)
        | some base =>
          if base < t then
            let column ← resolve l tokens base
            pure (column.map (· + rule.step (isFirstOnLine tokens base)))
          else pure none
    modify fun cache => ⟨cache.known.setIfInBounds t (some found)⟩
    return found
termination_by t

end ColumnCache

namespace Layout

/-- The columns of all tokens. -/
def columns (l : Layout) (tokens : Array Token) : Array (Option Int) :=
  (go (List.range tokens.size) (ColumnCache.fresh tokens)).toArray
where
  /-- The columns of some tokens, each found with what was remembered before. -/
  go : List TokenId → ColumnCache → List (Option Int)
    | [], _ => []
    | t :: ts, cache =>
      let (column, cache) := ColumnCache.resolve l tokens t cache
      column :: go ts cache

end Layout

end YamlLayout
