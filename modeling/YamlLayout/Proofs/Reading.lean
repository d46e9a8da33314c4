import Mathlib.Logic.Relation
import YamlLayout.Grammar.Scalar
import YamlLayout.Proofs.BlockBody
import YamlLayout.Proofs.LexemeLength

/-!
# What reading a text does to the state

A reader passes over blanks, line breaks and comments, takes tokens that start with
another character, and reads whole block scalars. `Reads s pieces t` says that this
leads from `s` to `t`, with the tokens read on the way in `pieces`, comments apart.
-/
namespace YamlLayout

/-- The characters that separate tokens. -/
def isSpace (c : Char) : Bool := isBlank c || isBreak c

/-- A token of a document, or the tokens of one block scalar. -/
inductive Piece where
  | token (id : TokenId)
  | block (content : BlockScalar)
deriving Repr, DecidableEq

namespace ParseState

/-- No space comes next. -/
def Clear (s : ParseState) : Prop := ∀ c, s.cursor.peek? = some c → isSpace c = false

/-- A token of `n` characters can be taken. -/
structure Ahead (s : ParseState) (n : Nat) : Prop where
  clear : s.Clear
  pos : 0 < n
  le : n ≤ s.cursor.rest.length

/-- Passes over spaces or over one comment. -/
inductive Pass : ParseState → ParseState → Prop
  | space {s : ParseState} (n : Nat) (h : ∀ c ∈ s.cursor.rest.take n, isSpace c = true) :
      Pass s (s.skip n)
  | comment {s : ParseState} (h : s.cursor.peek? = some '#') :
      Pass s (s.push .comment (Lexeme.comment s.cursor.rest))

abbrev Passes : ParseState → ParseState → Prop := Relation.ReflTransGen Pass

/-- Reads the header of a block scalar: the bar or angle bracket with its indicators. -/
structure Opens (s : ParseState) (b : BlockScalar) (opened : ParseState) : Prop where
  mark : ∃ c cs, s.cursor.rest = c :: cs ∧ (c = '|' ∨ c = '>') ∧
    (Lexeme.blockIndicators 2 none .clip cs).zero = false ∧
    b.digit = (Lexeme.blockIndicators 2 none .clip cs).digit ∧
    opened = s.push .punctuator ((Lexeme.blockIndicators 2 none .clip cs).length + 1)
  header_eq : b.header = s.next

/-- Reads a block scalar from the start of its header to the end of its body. -/
inductive ReadsBlock : ParseState → BlockScalar → ParseState → Prop
  | bare {s opened u : ParseState} {b : BlockScalar} (hopens : s.Opens b opened)
      (hpasses : opened.Passes u) (hbody : b.body = none) : ReadsBlock s b u
  | filled {s opened u : ParseState} {b : BlockScalar} {parent : Int} {body : Lexeme.Body}
      (hopens : s.Opens b opened) (hpasses : opened.Passes u)
      (hends : Lexeme.lineEnds u.cursor.rest = true)
      (hfound : Lexeme.body? parent b.digit u.cursor.rest = some body)
      (hbody : b.body = some u.next) :
      ReadsBlock s b ((u.skip body.skipped).push .scalar body.length)

inductive Reads : ParseState → List Piece → ParseState → Prop
  | done (s : ParseState) : Reads s [] s
  | pass {s t u : ParseState} {ps : List Piece} (h : Pass s t) (r : Reads t ps u) : Reads s ps u
  | token {s u : ParseState} {ps : List Piece} {kind : TokenKind} {n : Nat}
      (hkind : kind ≠ .comment) (h : s.Ahead n) (r : Reads (s.push kind n) ps u) :
      Reads s (.token s.next :: ps) u
  | block {s t u : ParseState} {ps : List Piece} {b : BlockScalar} (h : ReadsBlock s b t)
      (r : Reads t ps u) : Reads s (.block b :: ps) u

/-- One of the moves that every reading consists of. -/
inductive Move : ParseState → ParseState → Prop
  | pass {s t : ParseState} (h : Pass s t) : Move s t
  | token {s : ParseState} {kind : TokenKind} {n : Nat} (hkind : kind ≠ .comment)
      (h : s.Ahead n) : Move s (s.push kind n)
  | body {s : ParseState} {parent : Int} {digit : Option Nat} {body : Lexeme.Body}
      (hends : Lexeme.lineEnds s.cursor.rest = true)
      (hfound : Lexeme.body? parent digit s.cursor.rest = some body) :
      Move s ((s.skip body.skipped).push .scalar body.length)

abbrev Moves : ParseState → ParseState → Prop := Relation.ReflTransGen Move

section Reading

variable {s t u : ParseState} {ps qs : List Piece} {b : BlockScalar}

theorem Passes.moves (h : s.Passes t) : s.Moves t :=
  Relation.ReflTransGen.mono (fun _ _ h => Move.pass h) _ _ h

theorem Opens.clear (h : s.Opens b t) : s.Clear := by
  obtain ⟨c, cs, hrest, hc, -⟩ := h.mark
  intro d hd
  have hcd : c = d := by simpa [Cursor.peek?, hrest] using hd
  subst hcd
  rcases hc with rfl | rfl <;> rfl

/-- A header is a token like any other. -/
theorem Opens.exists_ahead (h : s.Opens b t) : ∃ n, s.Ahead n ∧ t = s.push .punctuator n := by
  have hclear := h.clear
  obtain ⟨c, cs, hrest, -, -, -, rfl⟩ := h.mark
  refine ⟨_, ⟨hclear, Nat.succ_pos _, ?_⟩, rfl⟩
  have := Lexeme.blockIndicators_length_le 2 none .clip cs
  simp only [hrest, List.length_cons]
  omega

theorem Opens.move (h : s.Opens b t) : s.Move t := by
  obtain ⟨n, hahead, rfl⟩ := h.exists_ahead
  exact .token (by decide) hahead

theorem ReadsBlock.moves (h : s.ReadsBlock b t) : s.Moves t := by
  cases h with
  | bare hopens hpasses => exact .head hopens.move hpasses.moves
  | filled hopens hpasses hends hfound =>
    exact (Relation.ReflTransGen.head hopens.move hpasses.moves).tail (.body hends hfound)

theorem Reads.moves (h : s.Reads ps t) : s.Moves t := by
  induction h with
  | done => exact .refl
  | pass h _ ih => exact .head (.pass h) ih
  | token hkind h _ ih => exact .head (.token hkind h) ih
  | block h _ ih => exact h.moves.trans ih

theorem Reads.trans (h : s.Reads ps t) (k : t.Reads qs u) : s.Reads (ps ++ qs) u := by
  induction h with
  | done => exact k
  | pass h _ ih => exact .pass h (ih k)
  | token hkind h _ ih => exact .token hkind h (ih k)
  | block h _ ih => exact .block h (ih k)

theorem Passes.reads (h : s.Passes t) : s.Reads [] t := by
  induction h with
  | refl => exact .done s
  | tail _ h ih => exact ih.trans (.pass h (.done _))

theorem Reads.passes (h : s.Reads ps t) (k : t.Passes u) : s.Reads ps u := by
  simpa using h.trans k.reads

theorem Passes.trans_reads (h : s.Passes t) (k : t.Reads ps u) : s.Reads ps u := h.reads.trans k

@[simp] theorem next_skip (s : ParseState) (n : Nat) : (s.skip n).next = s.next := rfl

theorem Move.next_le (h : s.Move t) : s.next ≤ t.next := by
  cases h with
  | pass h => cases h <;> simp
  | token => simp
  | body => simp

theorem Moves.next_le (h : s.Moves t) : s.next ≤ t.next := by
  induction h with
  | refl => exact Nat.le_refl _
  | tail _ h ih => exact Nat.le_trans ih h.next_le

theorem Move.emitted_suffix (h : s.Move t) : s.emitted <:+ t.emitted := by
  cases h with
  | pass h =>
    cases h with
    | space => exact List.suffix_refl _
    | comment => exact List.suffix_cons ..
  | token => exact List.suffix_cons ..
  | body => exact List.suffix_cons ..

theorem Moves.emitted_suffix (h : s.Moves t) : s.emitted <:+ t.emitted := by
  induction h with
  | refl => exact List.suffix_refl _
  | tail _ h ih => exact ih.trans h.emitted_suffix

/-- The token that `push` adds. -/
def ahead (s : ParseState) (kind : TokenKind) (n : Nat) : Token where
  kind
  value := String.ofList (s.cursor.rest.take n)
  range := ⟨s.cursor.offset, (s.cursor.move n).offset⟩
  first := s.cursor.position
  past := (s.cursor.move n).position

theorem emitted_push (s : ParseState) (kind : TokenKind) (n : Nat) :
    (s.push kind n).emitted = s.ahead kind n :: s.emitted := rfl

theorem getElem?_of_moves_push {kind : TokenKind} {n : Nat} (h : (s.push kind n).Moves u) :
    u.emitted.reverse[s.next]? = some (s.ahead kind n) := by
  obtain ⟨later, hlater⟩ := h.emitted_suffix
  rw [emitted_push] at hlater
  rw [← hlater]
  simp [next]

/-- The tokens among the pieces are numbered from the first state to the last. -/
theorem Reads.token_bounds {i : TokenId} (h : s.Reads ps t) (hi : .token i ∈ ps) :
    s.next ≤ i ∧ i < t.next := by
  induction h with
  | done => simp at hi
  | pass h r ih => exact ⟨Nat.le_trans (Move.pass h).next_le (ih hi).1, (ih hi).2⟩
  | token hkind h r ih =>
    have hnext := r.moves.next_le
    rw [next_push] at hnext
    rcases List.mem_cons.mp hi with heq | hi
    · cases heq
      exact ⟨Nat.le_refl _, hnext⟩
    · have hle := (ih hi).1
      rw [next_push] at hle
      exact ⟨Nat.le_of_succ_le hle, (ih hi).2⟩
  | block h r ih =>
    have hi := ih (by simpa using hi)
    exact ⟨Nat.le_trans h.moves.next_le hi.1, hi.2⟩

/-- A block scalar among the pieces has been read on the way. -/
theorem Reads.exists_readsBlock (h : s.Reads ps t) (hb : .block b ∈ ps) :
    ∃ u v, s.Moves u ∧ u.ReadsBlock b v ∧ v.Moves t := by
  induction h with
  | done => simp at hb
  | pass h r ih =>
    obtain ⟨u, v, hu, huv, hv⟩ := ih hb
    exact ⟨u, v, .head (.pass h) hu, huv, hv⟩
  | token hkind h r ih =>
    obtain ⟨u, v, hu, huv, hv⟩ := ih (by simpa using hb)
    exact ⟨u, v, .head (.token hkind h) hu, huv, hv⟩
  | block h r ih =>
    rcases List.mem_cons.mp hb with heq | hb
    · cases heq
      exact ⟨_, _, .refl, h, r.moves⟩
    · obtain ⟨u, v, hu, huv, hv⟩ := ih hb
      exact ⟨u, v, h.moves.trans hu, huv, hv⟩

end Reading

end ParseState

end YamlLayout
