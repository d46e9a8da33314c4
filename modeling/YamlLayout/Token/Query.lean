import YamlLayout.Token

/-!
# Token queries

Tokens are looked up by where they start: inside a span, before it, after it, or
between two spans. An empty span counts as one byte long.
-/
namespace YamlLayout

structure TokenQuery where
  /-- How many tokens that fit are passed over. -/
  skip : Nat
  /-- Comments fit too. -/
  comments : Bool
  accepts : Token → Bool

namespace TokenQuery

/-- The next token that is no comment. -/
def default : TokenQuery := ⟨0, false, fun _ => true⟩

def fits (q : TokenQuery) (t : Token) : Bool := (q.comments || !t.isComment) && q.accepts t

/-- The first number that fails a test, searched for by halving. The test holds of all
numbers below `base`, and from the one that fails on it fails of all, at the latest from
`base + size` on. -/
def partitionPoint (test : Nat → Bool) (base size : Nat) : Nat :=
  if 1 < size then
    let half := size / 2
    partitionPoint test (if test (base + half) then base + half else base) (size - half)
  else if test base then base + 1
  else base
termination_by size

/-- The number of the first token that starts at or after an offset, for tokens in the
order of the text. -/
def lowerBound (tokens : Array Token) (offset : Nat) : TokenId :=
  partitionPoint (fun id => tokens[id]?.any (·.range.start < offset)) 0 tokens.size

/-- The tokens numbered from `low` up to `high` that fit, in order. -/
def matching (q : TokenQuery) (tokens : Array Token) (low high : TokenId) : List TokenId :=
  (List.range' low (high - low)).filter fun id => tokens[id]?.any q.fits

/-- The end of a span that is at least one byte long. -/
def reach (span : Span) : Nat := max span.stop (span.start + 1)

def first? (q : TokenQuery) (tokens : Array Token) (span : Span) : Option TokenId :=
  (q.matching tokens (lowerBound tokens span.start) (lowerBound tokens (reach span)))[q.skip]?

def last? (q : TokenQuery) (tokens : Array Token) (span : Span) : Option TokenId :=
  (q.matching tokens (lowerBound tokens span.start)
    (lowerBound tokens (reach span))).reverse[q.skip]?

def before? (q : TokenQuery) (tokens : Array Token) (span : Span) : Option TokenId :=
  (q.matching tokens 0 (lowerBound tokens span.start)).reverse[q.skip]?

def after? (q : TokenQuery) (tokens : Array Token) (span : Span) : Option TokenId :=
  (q.matching tokens (lowerBound tokens (reach span)) tokens.size)[q.skip]?

/-- All tokens that fit between the end of one span and the start of another, less
those passed over. -/
def between (q : TokenQuery) (tokens : Array Token) (left right : Span) : List TokenId :=
  (q.matching tokens (lowerBound tokens left.stop) (lowerBound tokens right.start)).drop q.skip

end TokenQuery

end YamlLayout
