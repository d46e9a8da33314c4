import Mathlib.Data.List.Intervals
import YamlLayout.Proofs.InPlace
import YamlLayout.Token.Query

/-!
# What token queries find

Queries halve their way to the tokens they ask for. Since tokens are numbered in the
order in which they start, a query finds what looking at every token would find.
-/
namespace YamlLayout

namespace TokenQuery

/-- Halving finds the end of the numbers that pass a test, if no number behind one that
fails passes. -/
theorem lt_partitionPoint_iff {test : Nat → Bool} {base size : Nat}
    (hdown : ∀ i j, i ≤ j → test j = true → test i = true)
    (hbase : ∀ i < base, test i = true) (hpast : ∀ i, base + size ≤ i → test i = false) (i : Nat) :
    i < partitionPoint test base size ↔ test i = true := by
  fun_induction partitionPoint test base size with
  | case1 base size hsize half ih =>
    apply ih
    · intro j hj
      split at hj
      · rename_i hmid
        exact hdown j (base + half) (Nat.le_of_lt hj) hmid
      · exact hbase j hj
    · intro j hj
      split at hj
      · exact hpast j (by omega)
      · -- The half that is given up lies behind a number that fails.
        rename_i hmid
        by_contra htest
        rw [Bool.not_eq_false] at htest
        exact hmid (hdown (base + half) j (by omega) htest)
  | case2 base size hsize htest =>
    constructor
    · intro hi
      exact hdown i base (by omega) htest
    · intro hi
      by_contra hle
      rw [hpast i (by omega)] at hi
      cases hi
  | case3 base size hsize htest =>
    constructor
    · exact hbase i
    · intro hi
      by_contra hle
      exact htest (hdown base i (by omega) hi)

/-- The tokens that a query may give among those that start at certain places, in order,
found by looking at every token. -/
def scan (q : TokenQuery) (tokens : Array Token) (place : Nat → Bool) : List TokenId :=
  (List.range tokens.size).filter fun id =>
    tokens[id]?.any fun t =>
      place t.range.start && (q.comments || t.kind != .comment) && q.accepts t

variable {tokens : Array Token}

/-- The tokens come in the order in which they start. -/
def Ordered (tokens : Array Token) : Prop :=
  tokens.toList.Pairwise fun a b => a.range.start ≤ b.range.start

theorem Ordered.start_le (h : Ordered tokens) {i j : TokenId} {a b : Token} (hij : i ≤ j)
    (ha : tokens[i]? = some a) (hb : tokens[j]? = some b) : a.range.start ≤ b.range.start := by
  obtain ⟨hi, rfl⟩ := Array.getElem?_eq_some_iff.mp ha
  obtain ⟨hj, rfl⟩ := Array.getElem?_eq_some_iff.mp hb
  rcases Nat.lt_or_eq_of_le hij with hlt | rfl
  · exact List.pairwise_iff_getElem.mp h i j hi hj hlt
  · exact Nat.le_refl _

theorem lt_lowerBound_iff (h : Ordered tokens) (offset : Nat) (id : TokenId) :
    id < lowerBound tokens offset ↔ ∃ t, tokens[id]? = some t ∧ t.range.start < offset := by
  have htest : ∀ i : TokenId, tokens[i]?.any (fun t => t.range.start < offset) = true ↔
      ∃ t, tokens[i]? = some t ∧ t.range.start < offset := by
    intro i
    cases tokens[i]? <;> simp
  rw [lowerBound, lt_partitionPoint_iff, htest]
  · intro i j hij hj
    obtain ⟨b, hb, hstart⟩ := (htest j).mp hj
    have hi : i < tokens.size := Nat.lt_of_le_of_lt hij (Array.getElem?_eq_some_iff.mp hb).1
    have ha := Array.getElem?_eq_getElem hi
    exact (htest i).mpr ⟨_, ha, Nat.lt_of_le_of_lt (h.start_le hij ha hb) hstart⟩
  · intro i hi
    omega
  · intro i hi
    rw [Array.getElem?_eq_none (by omega), Option.any_none]

theorem lt_lowerBound_iff_of_getElem? (h : Ordered tokens) (offset : Nat) {id : TokenId}
    {t : Token} (ht : tokens[id]? = some t) :
    id < lowerBound tokens offset ↔ t.range.start < offset := by
  simp [lt_lowerBound_iff h, ht]

theorem lowerBound_le_size (h : Ordered tokens) (offset : Nat) :
    lowerBound tokens offset ≤ tokens.size := by
  by_contra hlt
  obtain ⟨t, ht, -⟩ := (lt_lowerBound_iff h offset _).mp (Nat.not_le.mp hlt)
  simp at ht

/-- The numbers of a stretch are those up to any later one that lie in it. -/
theorem range'_eq_filter_range {low high n : Nat} (h : high ≤ n) :
    List.range' low (high - low) =
      (List.range n).filter fun id => decide (low ≤ id) && decide (id < high) := by
  have hle := List.Ico.filter_le 0 high low
  have hlt := List.Ico.filter_lt 0 n high
  rw [Nat.min_eq_right h] at hlt
  rw [← List.filter_filter, ← List.Ico.zero_bot, hlt, hle, Nat.zero_max]
  rfl

/-- A query gives the tokens in a stretch of numbers as a scan does, if the stretch is that
of the tokens which start at the places of the scan. -/
theorem matching_eq_scan (q : TokenQuery) {low high : TokenId} {place : Nat → Bool}
    (hhigh : high ≤ tokens.size)
    (hplace : ∀ id t, tokens[id]? = some t →
      ((low ≤ id ∧ id < high) ↔ place t.range.start = true)) :
    q.matching tokens low high = q.scan tokens place := by
  rw [matching, scan, range'_eq_filter_range hhigh, List.filter_filter]
  apply List.filter_congr
  intro id hid
  have hlt := List.mem_range.mp hid
  have ht := Array.getElem?_eq_getElem hlt
  have hin : place tokens[id].range.start = (decide (low ≤ id) && decide (id < high)) := by
    rw [Bool.eq_iff_iff, ← hplace id _ ht]
    simp
  rw [ht, Option.any_some, Option.any_some, hin]
  exact (Bool.and_comm _ _).trans (Bool.and_assoc _ _ _).symm

end TokenQuery

/-- The tokens of a text are in order. -/
theorem Stream.InPlace.ordered {stream : Stream} {text : List Char} (h : stream.InPlace text) :
    TokenQuery.Ordered stream.tokens := by
  apply h.pairwise.imp_of_mem
  intro a b ha _ hab
  have hlt := (h.tokens a (Array.mem_toList_iff.mp ha)).start_lt_stop
  omega

/-- Every query about the tokens of a text gives what a scan of all of them gives, where a
span reaches over one byte at least: the first or the last of the tokens that start within a
span, the nearest one before or after it, or all that start between two spans. -/
theorem TokenQuery.lookups_eq_scan {text : List Char} {stream : Stream}
    (hparse : parse text = .ok stream) (q : TokenQuery) (span left right : Span) :
    let stop := max span.stop (span.start + 1)
    let within := q.scan stream.tokens fun start => span.start ≤ start && start < stop
    q.first? stream.tokens span = within[q.skip]? ∧
      q.last? stream.tokens span = within.reverse[q.skip]? ∧
      q.before? stream.tokens span =
        (q.scan stream.tokens fun start => start < span.start).reverse[q.skip]? ∧
      q.after? stream.tokens span =
        (q.scan stream.tokens fun start => stop ≤ start)[q.skip]? ∧
      q.between stream.tokens left right =
        (q.scan stream.tokens fun start => left.stop ≤ start && start < right.start).drop
          q.skip := by
  intro stop within
  have hordered := (Stream.inPlace_of_parse hparse).ordered
  have hbelow : ∀ offset id t, stream.tokens[id]? = some t →
      (id < lowerBound stream.tokens offset ↔ t.range.start < offset) :=
    fun offset _ _ => lt_lowerBound_iff_of_getElem? hordered offset
  have hsize := lowerBound_le_size hordered
  have hwithin : q.matching stream.tokens (lowerBound stream.tokens span.start)
      (lowerBound stream.tokens (reach span)) = within := by
    refine q.matching_eq_scan (hsize _) fun id t ht => ?_
    rw [← Nat.not_lt, hbelow _ id t ht, hbelow _ id t ht]
    simp [stop, reach]
  refine ⟨?_, ?_, ?_, ?_, ?_⟩
  · rw [first?, hwithin]
  · rw [last?, hwithin]
  · rw [before?, q.matching_eq_scan (hsize _) fun id t ht => ?_]
    simp [hbelow _ id t ht]
  · rw [after?, q.matching_eq_scan (Nat.le_refl _) fun id t ht => ?_]
    have hid := (Array.getElem?_eq_some_iff.mp ht).1
    rw [← Nat.not_lt, hbelow _ id t ht]
    simp [hid, stop, reach]
  · rw [between, q.matching_eq_scan (hsize _) fun id t ht => ?_]
    rw [← Nat.not_lt, hbelow _ id t ht, hbelow _ id t ht]
    simp

/-- The second scalar or comment of a flow sequence, asked for from the front, from the back
and from within, once by an empty span. -/
theorem TokenQuery.lookups_eq_scan_second :
    let second : TokenQuery := ⟨1, true, (·.kind != .punctuator)⟩
    ∃ stream, parse "[a, # x\n b, c]\n".toList = .ok stream ∧
      second.first? stream.tokens ⟨0, 14⟩ = some 3 ∧ second.last? stream.tokens ⟨0, 14⟩ = some 4 ∧
      second.before? stream.tokens ⟨9, 10⟩ = some 1 ∧ second.after? stream.tokens ⟨1, 1⟩ = some 4 ∧
      second.between stream.tokens ⟨0, 1⟩ ⟨13, 14⟩ = [3, 4, 6] := by
  intro second
  have hscan : ((parse "[a, # x\n b, c]\n".toList).toOption.map fun stream =>
      [second.scan stream.tokens fun start => 0 ≤ start && start < 14,
        second.scan stream.tokens fun start => start < 9,
        second.scan stream.tokens fun start => 2 ≤ start,
        second.scan stream.tokens fun start => 1 ≤ start && start < 13]) =
      some [[1, 3, 4, 6], [1, 3], [3, 4, 6], [1, 3, 4, 6]] := by
    decide +kernel
  cases hparse : parse "[a, # x\n b, c]\n".toList with
  | error e =>
    rw [hparse] at hscan
    cases hscan
  | ok stream =>
    rw [hparse] at hscan
    simp only [Except.toOption, Option.map_some, Option.some.injEq, List.cons.injEq, and_true]
      at hscan
    obtain ⟨hwithin, hbefore, hafter, hbetween⟩ := hscan
    obtain ⟨hfirst, hlast, -, -, hall⟩ := lookups_eq_scan hparse second ⟨0, 14⟩ ⟨0, 1⟩ ⟨13, 14⟩
    obtain ⟨-, -, hnearest, -⟩ := lookups_eq_scan hparse second ⟨9, 10⟩ ⟨0, 1⟩ ⟨13, 14⟩
    obtain ⟨-, -, -, hnext, -⟩ := lookups_eq_scan hparse second ⟨1, 1⟩ ⟨0, 1⟩ ⟨13, 14⟩
    refine ⟨stream, rfl, hfirst.trans ?_, hlast.trans ?_, hnearest.trans ?_, hnext.trans ?_,
      hall.trans ?_⟩
    · exact congrArg (·[1]?) hwithin
    · exact congrArg (·.reverse[1]?) hwithin
    · exact congrArg (·.reverse[1]?) hbefore
    · exact congrArg (·[1]?) hafter
    · exact congrArg (·.drop 1) hbetween

end YamlLayout
