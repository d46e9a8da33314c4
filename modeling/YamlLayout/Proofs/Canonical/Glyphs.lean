import Mathlib.Data.List.Chain
import Mathlib.Data.List.Forall2
import YamlLayout.Proofs.Canonical.Outline
import YamlLayout.Proofs.Reading.Numbers

/-!
# The tokens of a canonical text

`Outline.glyphs` lists the tokens of an outline in its canonical layout: what each one
is, the place at which it stands and the column at which it belongs. The two columns
differ only after a key: its colon and a word as its value stand on its line and belong
one unit deeper than the key.
-/
namespace YamlLayout

/-! ## Places -/

/-- The place reached from `p` by a text. -/
def Position.after (p : Position) : List Char → Position
  | [] => p
  | c :: cs =>
    let next : Position := if c = '\n' then ⟨p.line + 1, 0⟩ else ⟨p.line, p.column + 1⟩
    next.after cs

namespace Position

theorem after_append (p : Position) (a b : List Char) :
    p.after (a ++ b) = (p.after a).after b := by
  induction a generalizing p with
  | nil => rfl
  | cons c cs ih => exact ih _

theorem after_of_not_mem (p : Position) {text : List Char} (h : '\n' ∉ text) :
    p.after text = ⟨p.line, p.column + text.length⟩ := by
  induction text generalizing p with
  | nil => rfl
  | cons c cs ih =>
    rw [List.mem_cons, not_or] at h
    rw [after, if_neg (Ne.symm h.1), ih _ h.2, List.length_cons, Nat.add_right_comm,
      Nat.add_assoc]

theorem after_replicate (p : Position) (n : Nat) :
    p.after (List.replicate n ' ') = ⟨p.line, p.column + n⟩ := by
  rw [after_of_not_mem p (by simp [List.mem_replicate]), List.length_replicate]

theorem after_newLine (p : Position) (column : Nat) :
    p.after (newLine column) = ⟨p.line + 1, column⟩ := by
  change Position.after ⟨p.line + 1, 0⟩ (List.replicate column ' ') = _
  rw [after_replicate, Nat.zero_add]

theorem line_le_after (p : Position) (text : List Char) : p.line ≤ (p.after text).line := by
  induction text generalizing p with
  | nil => exact Nat.le_refl _
  | cons c cs ih =>
    refine Nat.le_trans ?_ (ih _)
    split <;> simp

end Position

theorem Word.feed_not_mem (w : Word) : '\n' ∉ w.letters :=
  fun h => absurd (w.lower _ h).1 (by decide)

/-! ## Glyphs -/

/-- A token of a canonical text. -/
structure Glyph where
  kind : TokenKind
  solid : kind ≠ .comment
  text : List Char
  /-- Where it stands. -/
  place : Position
  /-- The column at which it belongs. -/
  column : Nat

namespace Glyph

def word (w : Word) (place : Position) (column : Nat) : Glyph :=
  ⟨.scalar, by decide, w.letters, place, column⟩

def mark (c : Char) (place : Position) (column : Nat) : Glyph :=
  ⟨.punctuator, by decide, [c], place, column⟩

/-- The token is the one that the glyph describes. -/
structure Fits (g : Glyph) (t : Token) : Prop where
  kind_eq : t.kind = g.kind
  value_eq : t.value = String.ofList g.text
  first_eq : t.first = g.place
  past_eq : t.past = ⟨g.place.line, g.place.column + g.text.length⟩

theorem Fits.isComment_eq {g : Glyph} {t : Token} (h : g.Fits t) : t.isComment = false := by
  simp [Token.isComment, h.kind_eq, g.solid]

theorem exists_fits {glyphs : List Glyph} {tokens : Array Token} {g : Glyph} {i : Nat}
    (h : List.Forall₂ Fits glyphs tokens.toList) (hg : glyphs[i]? = some g) :
    ∃ t, tokens[i]? = some t ∧ g.Fits t := by
  rw [← Array.getElem?_toList]
  generalize tokens.toList = list at h
  induction h generalizing i with
  | nil => cases hg
  | cons hfits _ ih =>
    cases i with
    | zero => cases hg; exact ⟨_, rfl, hfits⟩
    | succ i => exact ih hg

end Glyph

namespace Outline

mutual

/-- The number of tokens. -/
def size : Outline → Nat
  | word _ => 1
  | mapping pairs => pairs.size
  | sequence items => items.size

def Pairs.size : Pairs → Nat
  | .one _ value => value.size + 2
  | .more _ value rest => value.size + 2 + rest.size

def Items.size : Items → Nat
  | .one item => item.size + 1
  | .more item rest => item.size + 1 + rest.size

end

mutual

/-- The tokens of an outline that stands at `place` and belongs at `column`. -/
def glyphs (unit : Nat) (place : Position) (column : Nat) : Outline → List Glyph
  | word w => [.word w place column]
  | mapping pairs => pairs.glyphs unit place column
  | sequence items => items.glyphs unit place column

def Pairs.glyphs (unit : Nat) (place : Position) (column : Nat) : Pairs → List Glyph
  | .one key value =>
    .word key place column :: .mark ':' (place.after key.letters) (column + unit) ::
      value.glyphs unit (place.after (key.letters ++ ':' :: value.lead (column + unit)))
        (column + unit)
  | .more key value rest =>
    .word key place column :: .mark ':' (place.after key.letters) (column + unit) ::
      (value.glyphs unit (place.after (key.letters ++ ':' :: value.lead (column + unit)))
        (column + unit) ++
      rest.glyphs unit (place.after ((Pairs.one key value).text unit column ++ newLine column))
        column)

def Items.glyphs (unit : Nat) (place : Position) (column : Nat) : Items → List Glyph
  | .one item =>
    .mark '-' place column ::
      item.glyphs unit (place.after ('-' :: List.replicate (unit - 1) ' ')) (column + unit)
  | .more item rest =>
    .mark '-' place column ::
      (item.glyphs unit (place.after ('-' :: List.replicate (unit - 1) ' ')) (column + unit) ++
      rest.glyphs unit (place.after ((Items.one item).text unit column ++ newLine column)) column)

end

/-! ## Induction -/

/-- Rows are added to a collection one by one, and what a row says of its value is shown
once for the row. -/
theorem induction {P : Outline → Prop} {Q : Pairs → Prop} {R : Items → Prop}
    (word : ∀ w, P (.word w)) (mapping : ∀ pairs, Q pairs → P (.mapping pairs))
    (sequence : ∀ items, R items → P (.sequence items))
    (pair : ∀ key value, P value → Q (.one key value))
    (pairs : ∀ key value rest, Q (.one key value) → Q rest → Q (.more key value rest))
    (item : ∀ item, P item → R (.one item))
    (items : ∀ item rest, R (.one item) → R rest → R (.more item rest)) (tree : Outline) :
    P tree :=
  @Outline.rec P Q R word mapping sequence pair
    (fun key value rest hvalue hrest => pairs key value rest (pair key value hvalue) hrest) item
    (fun entry rest hentry hrest => items entry rest (item entry hentry) hrest) tree

variable {unit : Nat} {p : Position} {column : Nat}

theorem Pairs.text_more (unit column : Nat) (key : Word) (value : Outline) (rest : Pairs) :
    (Pairs.more key value rest).text unit column =
      (Pairs.one key value).text unit column ++ newLine column ++ rest.text unit column := rfl

theorem Items.text_more (unit column : Nat) (item : Outline) (rest : Items) :
    (Items.more item rest).text unit column =
      (Items.one item).text unit column ++ newLine column ++ rest.text unit column := rfl

theorem Pairs.glyphs_more (unit : Nat) (p : Position) (column : Nat) (key : Word)
    (value : Outline) (rest : Pairs) :
    (Pairs.more key value rest).glyphs unit p column =
      (Pairs.one key value).glyphs unit p column ++
        rest.glyphs unit (p.after ((Pairs.one key value).text unit column ++ newLine column))
          column := rfl

theorem Items.glyphs_more (unit : Nat) (p : Position) (column : Nat) (item : Outline)
    (rest : Items) :
    (Items.more item rest).glyphs unit p column =
      (Items.one item).glyphs unit p column ++
        rest.glyphs unit (p.after ((Items.one item).text unit column ++ newLine column))
          column := rfl

mutual

@[simp] theorem length_glyphs (unit : Nat) (p : Position) (column : Nat) :
    (tree : Outline) → (tree.glyphs unit p column).length = tree.size
  | word _ => rfl
  | mapping pairs => pairs.length_glyphs unit p column
  | sequence items => items.length_glyphs unit p column

@[simp] theorem Pairs.length_glyphs (unit : Nat) (p : Position) (column : Nat) :
    (pairs : Pairs) → (pairs.glyphs unit p column).length = pairs.size
  | .one _ value => by
    simp [Pairs.glyphs, Pairs.size, value.length_glyphs unit]
  | .more _ value rest => by
    simp [Pairs.glyphs, Pairs.size, value.length_glyphs unit, rest.length_glyphs unit]
    omega

@[simp] theorem Items.length_glyphs (unit : Nat) (p : Position) (column : Nat) :
    (items : Items) → (items.glyphs unit p column).length = items.size
  | .one item => by
    simp [Items.glyphs, Items.size, item.length_glyphs unit]
  | .more item rest => by
    simp [Items.glyphs, Items.size, item.length_glyphs unit, rest.length_glyphs unit]
    omega

end

end Outline

/-! ## Neighbours -/

namespace Glyph

variable {g : Glyph} {a b : List Glyph} {p q r : Position} {c d : Nat}

/-- What holds of two tokens in a row. The first one of a line stands where it belongs, and
after a mark the gap is as wide as the columns ask for, where they ask for one. -/
structure Leads (g h : Glyph) : Prop where
  line_le : g.place.line ≤ h.place.line
  placed : g.place.line < h.place.line → h.place.column = h.column
  gap : g.place.line = h.place.line → g.kind = .punctuator → g.column < h.column →
    (h.column : Int) - g.column = h.place.column - g.place.column

/-- The glyphs start at `p`, where the column `c` is asked for, and end on the line of `q`. -/
structure Runs (p : Position) (c : Nat) (q : Position) (glyphs : List Glyph) : Prop where
  head : ∃ g, glyphs.head? = some g ∧ g.place = p ∧ g.column = c
  chain : glyphs.IsChain Leads
  line_le : ∀ g ∈ glyphs, g.place.line ≤ q.line

theorem Runs.le (h : Runs p c q a) : p.line ≤ q.line := by
  obtain ⟨g, hg, rfl, -⟩ := h.head
  exact h.line_le g (List.mem_of_mem_head? hg)

theorem Runs.cons (h : Runs p c q a) (hline : g.place.line ≤ p.line)
    (hleads : ∀ next : Glyph, next.place = p → next.column = c → g.Leads next) :
    Runs g.place g.column q (g :: a) := by
  obtain ⟨next, hnext, hplace, hcolumn⟩ := h.head
  constructor
  case head => exact ⟨g, rfl, rfl, rfl⟩
  case chain =>
    refine List.isChain_cons.mpr ⟨fun other hother => ?_, h.chain⟩
    rw [hnext, Option.mem_some_iff] at hother
    exact hother ▸ hleads next hplace hcolumn
  case line_le =>
    intro x hx
    rcases List.mem_cons.mp hx with rfl | hx
    · exact Nat.le_trans hline h.le
    · exact h.line_le x hx

/-- The next row starts on a line of its own. -/
theorem Runs.append (ha : Runs p c q a) (hb : Runs ⟨q.line + 1, d⟩ d r b) :
    Runs p c r (a ++ b) := by
  have hlines : q.line + 1 ≤ r.line := hb.le
  obtain ⟨g, hg, hplace, hcolumn⟩ := hb.head
  constructor
  case head =>
    obtain ⟨first, hfirst, hstart⟩ := ha.head
    refine ⟨first, ?_, hstart⟩
    rw [List.head?_append, hfirst]
    rfl
  case chain =>
    refine List.isChain_append.mpr ⟨ha.chain, hb.chain, fun last hlast next hnext => ?_⟩
    have hline := ha.line_le last (List.mem_of_mem_getLast? hlast)
    rw [hg, Option.mem_some_iff] at hnext
    subst hnext
    have hlater : g.place.line = q.line + 1 := congrArg Position.line hplace
    exact ⟨by omega, fun _ => by rw [hplace, hcolumn], fun heq => absurd heq (by omega)⟩
  case line_le =>
    intro x hx
    rcases List.mem_append.mp hx with hx | hx
    · exact Nat.le_trans (ha.line_le x hx) (by omega)
    · exact hb.line_le x hx

end Glyph

namespace Outline

variable {unit : Nat} {p : Position} {column : Nat}

/-- Collections stand where they belong. -/
def Sits (p : Position) (column : Nat) : Outline → Prop
  | word _ => True
  | _ => p.column = column

theorem sits_of_eq {tree : Outline} (h : p.column = column) : tree.Sits p column := by
  cases tree with
  | word => trivial
  | mapping | sequence => exact h

theorem sits_lead (p : Position) (front : List Char) (value : Outline) (column : Nat) :
    value.Sits (p.after (front ++ value.lead column)) column := by
  cases value with
  | word => trivial
  | mapping | sequence =>
    change (p.after (front ++ newLine column)).column = column
    rw [Position.after_append, Position.after_newLine]

/-- A colon leads to the value of its key. -/
theorem leads_value (p : Position) (key : Word) (value : Outline) {next : Glyph}
    (hplace : next.place = p.after (key.letters ++ ':' :: value.lead column))
    (hcolumn : next.column = column) :
    (Glyph.mark ':' (p.after key.letters) column).Leads next := by
  have hcolon := p.after_of_not_mem key.feed_not_mem
  rw [Position.after_append, hcolon] at hplace
  rw [hcolon]
  cases value with
  | word w =>
    have hspace : next.place = ⟨p.line, p.column + key.letters.length + 1 + 1⟩ := hplace
    refine ⟨Nat.le_of_eq (by rw [hspace]; rfl), fun hlt => ?_, fun _ _ hlt => ?_⟩
    · rw [hspace] at hlt
      exact absurd hlt (Nat.lt_irrefl _)
    · rw [hcolumn] at hlt
      exact absurd hlt (Nat.lt_irrefl _)
  | mapping | sequence =>
    have hbelow : next.place = ⟨p.line + 1, column⟩ := by
      rw [hplace]
      exact Position.after_newLine _ column
    refine ⟨by rw [hbelow]; exact Nat.le_succ _, fun _ => by rw [hbelow, hcolumn], fun heq => ?_⟩
    rw [hbelow] at heq
    exact absurd heq (Nat.ne_of_lt (Nat.lt_succ_self _))

theorem Pairs.runs_one {key : Word} {value : Outline}
    (hvalue : ∀ {p : Position} {column : Nat}, value.Sits p column →
      Glyph.Runs p column (p.after (value.text unit column)) (value.glyphs unit p column)) :
    Glyph.Runs p column (p.after ((Pairs.one key value).text unit column))
      ((Pairs.one key value).glyphs unit p column) := by
  have hsits := value.sits_lead p (key.letters ++ [':']) (column + unit)
  rw [List.append_assoc, List.singleton_append] at hsits
  have hruns := hvalue hsits
  have htext : (Pairs.one key value).text unit column =
      key.letters ++ ':' :: value.lead (column + unit) ++ value.text unit (column + unit) := by
    simp [Pairs.text]
  rw [← Position.after_append, ← htext] at hruns
  have hline := Position.line_le_after (p.after key.letters) (':' :: value.lead (column + unit))
  rw [← Position.after_append] at hline
  have hcolon := hruns.cons (g := .mark ':' (p.after key.letters) (column + unit)) hline
    fun next hplace hcolumn => leads_value p key value hplace hcolumn
  refine hcolon.cons (g := .word key p column) (Position.line_le_after ..)
    fun next hplace _ => ⟨?_, fun hlt => ?_, fun _ hkind => ?_⟩
  · rw [hplace]
    exact Position.line_le_after ..
  · -- The colon stands on the line of the key.
    rw [hplace, Glyph.mark, p.after_of_not_mem key.feed_not_mem] at hlt
    exact absurd hlt (Nat.lt_irrefl _)
  · cases hkind

theorem Items.runs_one {item : Outline} (hunit : 0 < unit) (h : p.column = column)
    (hitem : ∀ {p : Position} {column : Nat}, item.Sits p column →
      Glyph.Runs p column (p.after (item.text unit column)) (item.glyphs unit p column)) :
    Glyph.Runs p column (p.after ((Items.one item).text unit column))
      ((Items.one item).glyphs unit p column) := by
  have hplace : p.after ('-' :: List.replicate (unit - 1) ' ') = ⟨p.line, column + unit⟩ := by
    rw [p.after_of_not_mem (by simp [List.mem_replicate]), List.length_cons,
      List.length_replicate, Nat.sub_add_cancel hunit, h]
  have hruns := @hitem _ (column + unit) (sits_of_eq (congrArg Position.column hplace))
  rw [← Position.after_append] at hruns
  refine hruns.cons (g := .mark '-' p column) (Position.line_le_after ..)
    fun next hnext hcolumn => ?_
  rw [hplace] at hnext
  refine ⟨by rw [hnext]; exact Nat.le_refl _, fun hlt => ?_, fun _ _ _ => ?_⟩
  · rw [hnext] at hlt
    exact absurd hlt (Nat.lt_irrefl _)
  · rw [hnext, hcolumn, Glyph.mark, h]

theorem runs_glyphs (hunit : 0 < unit) (tree : Outline) : ∀ {p : Position} {column : Nat},
    tree.Sits p column →
      Glyph.Runs p column (p.after (tree.text unit column)) (tree.glyphs unit p column) := by
  refine Outline.induction
    (P := fun tree => ∀ {p : Position} {column : Nat}, tree.Sits p column →
      Glyph.Runs p column (p.after (tree.text unit column)) (tree.glyphs unit p column))
    (Q := fun pairs => ∀ {p : Position} {column : Nat}, p.column = column →
      Glyph.Runs p column (p.after (pairs.text unit column)) (pairs.glyphs unit p column))
    (R := fun items => ∀ {p : Position} {column : Nat}, p.column = column →
      Glyph.Runs p column (p.after (items.text unit column)) (items.glyphs unit p column))
    ?word (fun _ h => h) (fun _ h => h) (fun _ _ hvalue _ _ _ => Pairs.runs_one hvalue) ?pairs
    (fun _ hitem _ _ h => Items.runs_one hunit h hitem) ?items tree
  case word =>
    intro w p column _
    refine ⟨⟨_, rfl, rfl, rfl⟩, .singleton _, fun g hg => ?_⟩
    rw [List.mem_singleton.mp hg]
    exact Position.line_le_after ..
  case pairs =>
    intro key value rest hrow hrest p column h
    rw [Pairs.text_more, Pairs.glyphs_more, Position.after_append, Position.after_append,
      Position.after_newLine]
    exact (hrow h).append (hrest rfl)
  case items =>
    intro item rest hrow hrest p column h
    rw [Items.text_more, Items.glyphs_more, Position.after_append, Position.after_append,
      Position.after_newLine]
    exact (hrow h).append (hrest rfl)

/-! ## Nodes -/

/-- The node is a pair of a word and a value, with its tokens numbered from `first` on. -/
def IsPair (first : TokenId) (value : Node → Prop) (node : Node) : Prop :=
  ∃ span keySpan inner, node = .pair span none (.scalar keySpan .plain first) (some (first + 1))
    inner ∧ value inner

mutual

/-- The node has the shape of the outline, with its tokens numbered from `first` on. -/
def Numbers : Outline → TokenId → Node → Prop
  | word _, first, node => ∃ span, node = .scalar span .plain first
  | mapping pairs, first, node =>
    ∃ span nodes, node = .mapping span none nodes ∧ pairs.Numbers first nodes
  | sequence items, first, node =>
    ∃ span nodes, node = .sequence span none nodes ∧ items.Numbers first nodes

def Pairs.Numbers : Pairs → TokenId → List Node → Prop
  | .one _ value, first, nodes =>
    ∃ pair, nodes = [pair] ∧ IsPair first (value.Numbers (first + 2)) pair
  | .more _ value rest, first, nodes =>
    ∃ pair others, nodes = pair :: others ∧ IsPair first (value.Numbers (first + 2)) pair ∧
      rest.Numbers (first + (value.size + 2)) others

def Items.Numbers : Items → TokenId → List Node → Prop
  | .one item, first, nodes =>
    ∃ value, nodes = [.entry first value] ∧ item.Numbers (first + 1) value
  | .more item rest, first, nodes =>
    ∃ value others, nodes = .entry first value :: others ∧ item.Numbers (first + 1) value ∧
      rest.Numbers (first + (item.size + 1)) others

end

theorem Pairs.numbers_more_iff {key : Word} {value : Outline} {rest : Pairs} {first : TokenId}
    {nodes : List Node} : (Pairs.more key value rest).Numbers first nodes ↔
      ∃ pair others, nodes = pair :: others ∧ (Pairs.one key value).Numbers first [pair] ∧
        rest.Numbers (first + (Pairs.one key value).size) others := by
  constructor
  · rintro ⟨pair, others, rfl, hpair, hrest⟩
    exact ⟨pair, others, rfl, ⟨pair, rfl, hpair⟩, hrest⟩
  · rintro ⟨pair, others, rfl, ⟨same, heq, hpair⟩, hrest⟩
    cases heq
    exact ⟨pair, others, rfl, hpair, hrest⟩

theorem Items.numbers_more_iff {item : Outline} {rest : Items} {first : TokenId}
    {nodes : List Node} : (Items.more item rest).Numbers first nodes ↔
      ∃ entry others, nodes = entry :: others ∧ (Items.one item).Numbers first [entry] ∧
        rest.Numbers (first + (Items.one item).size) others := by
  constructor
  · rintro ⟨value, others, rfl, hvalue, hrest⟩
    exact ⟨.entry first value, others, rfl, ⟨value, rfl, hvalue⟩, hrest⟩
  · rintro ⟨entry, others, rfl, ⟨value, heq, hvalue⟩, hrest⟩
    cases heq
    exact ⟨value, others, rfl, hvalue, hrest⟩

section Reading

variable {tokens : Array Token} {all : List Glyph} {first : TokenId}

theorem word?_eq (hfits : List.Forall₂ Glyph.Fits all tokens.toList) {w : Word} {rest : List Glyph}
    (h : HoldsAt all first (.word w p column :: rest)) (span : Span) :
    Node.word? tokens (.scalar span .plain first) = some w := by
  obtain ⟨t, ht, hfit⟩ := Glyph.exists_fits hfits h.getElem?_eq
  have hletters : Word.ofLetters? w.letters = some w :=
    dif_pos ⟨w.ne_nil, by simpa using w.lower⟩
  have hword : t.word? = some w := by
    rw [Token.word?, hfit.value_eq, String.toList_ofList]
    exact (if_pos hfit.kind_eq).trans hletters
  rw [Node.word?, ht]
  exact hword

/-- What is written down can be read off the nodes. -/
theorem outline?_eq (hfits : List.Forall₂ Glyph.Fits all tokens.toList) (tree : Outline) :
    ∀ {first : TokenId} {node : Node} {p : Position} {column : Nat}, tree.Numbers first node →
      HoldsAt all first (tree.glyphs unit p column) → node.outline? tokens = some tree := by
  refine Outline.induction
    (P := fun tree => ∀ {first : TokenId} {node : Node} {p : Position} {column : Nat},
      tree.Numbers first node → HoldsAt all first (tree.glyphs unit p column) →
        node.outline? tokens = some tree)
    (Q := fun pairs => ∀ {first : TokenId} {nodes : List Node} {p : Position} {column : Nat},
      pairs.Numbers first nodes → HoldsAt all first (pairs.glyphs unit p column) →
        Node.pairsOutline? tokens nodes = some pairs)
    (R := fun items => ∀ {first : TokenId} {nodes : List Node} {p : Position} {column : Nat},
      items.Numbers first nodes → HoldsAt all first (items.glyphs unit p column) →
        Node.itemsOutline? tokens nodes = some items)
    ?word ?mapping ?sequence ?pair ?pairs ?item ?items tree
  case word =>
    rintro w first node p column ⟨span, rfl⟩ h
    rw [Node.outline?, word?_eq hfits h]
    rfl
  case mapping =>
    rintro pairs ih first node p column ⟨span, nodes, rfl, hnumbers⟩ h
    rw [Node.outline?, ih hnumbers h]
    rfl
  case sequence =>
    rintro items ih first node p column ⟨span, nodes, rfl, hnumbers⟩ h
    rw [Node.outline?, ih hnumbers h]
    rfl
  case pair =>
    rintro key value ih first nodes p column ⟨pair, rfl, span, keySpan, inner, rfl, hinner⟩ h
    rw [Node.pairsOutline?, word?_eq hfits h, ih hinner h.tail.tail]
    rfl
  case item =>
    rintro item ih first nodes p column ⟨value, rfl, hvalue⟩ h
    rw [Node.itemsOutline?, ih hvalue h.tail]
    rfl
  case pairs =>
    intro key value rest hrow hrest first nodes p column hnumbers h
    obtain ⟨pair, others, rfl, hpair, hothers⟩ := Pairs.numbers_more_iff.mp hnumbers
    rw [Pairs.glyphs_more] at h
    have hright := h.right
    rw [Pairs.length_glyphs] at hright
    exact Node.pairsOutline?_cons (hrow hpair h.left) (hrest hothers hright)
  case items =>
    intro item rest hrow hrest first nodes p column hnumbers h
    obtain ⟨entry, others, rfl, hentry, hothers⟩ := Items.numbers_more_iff.mp hnumbers
    rw [Items.glyphs_more] at h
    have hright := h.right
    rw [Items.length_glyphs] at hright
    exact Node.itemsOutline?_cons (hrow hentry h.left) (hrest hothers hright)

/-- What holds of the nodes of a canonical text, row by row, with the column at which each
of them belongs. -/
theorem nodes_induction {C : Nat → Node → Prop}
    (word : ∀ {w : Word} {first : TokenId} {p : Position} {column : Nat} (span : Span),
      HoldsAt all first [.word w p column] → C column (.scalar span .plain first))
    (mapping : ∀ {pairs : Pairs} {first : TokenId} {p : Position} {column : Nat}
      {nodes : List Node} (span : Span), pairs.Numbers first nodes →
      HoldsAt all first (pairs.glyphs unit p column) → (∀ node ∈ nodes, C column node) →
      C column (.mapping span none nodes))
    (sequence : ∀ {items : Items} {first : TokenId} {p : Position} {column : Nat}
      {nodes : List Node} (span : Span), items.Numbers first nodes →
      HoldsAt all first (items.glyphs unit p column) → (∀ node ∈ nodes, C column node) →
      C column (.sequence span none nodes))
    (pair : ∀ {key : Word} {value : Outline} {first : TokenId} {p : Position} {column : Nat}
      {inner : Node} (span keySpan : Span),
      HoldsAt all first ((Pairs.one key value).glyphs unit p column) →
      value.Numbers (first + 2) inner → C (column + unit) inner →
      C column (.pair span none (.scalar keySpan .plain first) (some (first + 1)) inner))
    (entry : ∀ {item : Outline} {first : TokenId} {p : Position} {column : Nat} {value : Node},
      HoldsAt all first ((Items.one item).glyphs unit p column) →
      item.Numbers (first + 1) value → C (column + unit) value → C column (.entry first value))
    (tree : Outline) : ∀ {first : TokenId} {node : Node} {p : Position} {column : Nat},
      tree.Numbers first node → HoldsAt all first (tree.glyphs unit p column) →
      C column node := by
  refine Outline.induction
    (P := fun tree => ∀ {first : TokenId} {node : Node} {p : Position} {column : Nat},
      tree.Numbers first node → HoldsAt all first (tree.glyphs unit p column) → C column node)
    (Q := fun pairs => ∀ {first : TokenId} {nodes : List Node} {p : Position} {column : Nat},
      pairs.Numbers first nodes → HoldsAt all first (pairs.glyphs unit p column) →
      ∀ node ∈ nodes, C column node)
    (R := fun items => ∀ {first : TokenId} {nodes : List Node} {p : Position} {column : Nat},
      items.Numbers first nodes → HoldsAt all first (items.glyphs unit p column) →
      ∀ node ∈ nodes, C column node)
    ?word ?mapping ?sequence ?pair ?pairs ?item ?items tree
  case word =>
    rintro w first node p column ⟨span, rfl⟩ h
    exact word span h
  case mapping =>
    rintro pairs ih first node p column ⟨span, nodes, rfl, hnodes⟩ h
    exact mapping span hnodes h (ih hnodes h)
  case sequence =>
    rintro items ih first node p column ⟨span, nodes, rfl, hnodes⟩ h
    exact sequence span hnodes h (ih hnodes h)
  case pair =>
    rintro key value ih first nodes p column ⟨_, rfl, span, keySpan, inner, rfl, hinner⟩ h node
      hnode
    rw [List.mem_singleton.mp hnode]
    exact pair span keySpan h hinner (ih hinner h.tail.tail)
  case item =>
    rintro item ih first nodes p column ⟨value, rfl, hvalue⟩ h node hnode
    rw [List.mem_singleton.mp hnode]
    exact entry h hvalue (ih hvalue h.tail)
  case pairs =>
    intro key value rest hrow hrest first nodes p column hnumbers h node hnode
    obtain ⟨pair, others, rfl, hpair, hothers⟩ := Pairs.numbers_more_iff.mp hnumbers
    rw [Pairs.glyphs_more] at h
    rcases List.mem_cons.mp hnode with rfl | hnode
    · exact hrow hpair h.left node (List.mem_singleton_self node)
    · exact hrest hothers (Pairs.length_glyphs .. ▸ h.right) node hnode
  case items =>
    intro item rest hrow hrest first nodes p column hnumbers h node hnode
    obtain ⟨entry, others, rfl, hentry, hothers⟩ := Items.numbers_more_iff.mp hnumbers
    rw [Items.glyphs_more] at h
    rcases List.mem_cons.mp hnode with rfl | hnode
    · exact hrow hentry h.left node (List.mem_singleton_self node)
    · exact hrest hothers (Items.length_glyphs .. ▸ h.right) node hnode

end Reading

end Outline

end YamlLayout
