/-!
# Spans

A span is a half-open range of byte offsets. Nothing forces its start below its
end: a span whose start is at or past its end is empty.
-/
namespace YamlLayout

structure Span where
  start : Nat
  stop : Nat
deriving Repr, DecidableEq, Inhabited

namespace Span

def length (s : Span) : Nat := s.stop - s.start

def isEmpty (s : Span) : Bool := s.stop ≤ s.start

/-- Two empty spans overlap when they start together; otherwise each must start
before the other ends. -/
def overlaps (a b : Span) : Bool :=
  if a.isEmpty && b.isEmpty then a.start == b.start
  else a.start < b.stop && b.start < a.stop

/-- Order by start, then by end. -/
def le (a b : Span) : Bool :=
  a.start < b.start || (a.start == b.start && a.stop ≤ b.stop)

def sort (spans : List Span) : List Span := spans.mergeSort le

theorem isEmpty_iff {s : Span} : s.isEmpty = true ↔ s.stop ≤ s.start := by
  simp [isEmpty]

theorem overlaps_comm (a b : Span) : a.overlaps b = b.overlaps a := by
  unfold overlaps
  by_cases ha : a.isEmpty <;> by_cases hb : b.isEmpty <;>
    simp [ha, hb, Bool.and_comm, BEq.comm]

theorem le_total (a b : Span) : (a.le b || b.le a) = true := by
  simp [le]
  omega

theorem le_trans {a b c : Span} (hab : a.le b = true) (hbc : b.le c = true) :
    a.le c = true := by
  simp [le] at *
  omega

end Span

end YamlLayout
