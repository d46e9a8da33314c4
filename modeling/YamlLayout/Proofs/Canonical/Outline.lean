import YamlLayout.Check

/-!
# Outlines and how they are written

An outline is what a document says without its layout: mappings, sequences and words.
`Outline.text` writes it in the canonical layout of an indentation unit, and
`Node.outline?` reads the outline of a node back from its tokens.
-/
namespace YamlLayout

/-- A word of small letters. -/
structure Word where
  letters : List Char
  ne_nil : letters ≠ []
  lower : ∀ c ∈ letters, 'a' ≤ c ∧ c ≤ 'z'
deriving DecidableEq

mutual

inductive Outline where
  | word (w : Word)
  | mapping (pairs : Outline.Pairs)
  | sequence (items : Outline.Items)
deriving DecidableEq

/-- The pairs of a mapping, at least one. -/
inductive Outline.Pairs where
  | one (key : Word) (value : Outline)
  | more (key : Word) (value : Outline) (rest : Outline.Pairs)
deriving DecidableEq

/-- The items of a sequence, at least one. -/
inductive Outline.Items where
  | one (item : Outline)
  | more (item : Outline) (rest : Outline.Items)
deriving DecidableEq

end

/-- A line feed and the spaces that lead to a column. -/
def newLine (column : Nat) : List Char := '\n' :: List.replicate column ' '

namespace Outline

/-- What stands between the colon after a key and its value: words stay on the line,
collections start on the next one. -/
def lead (column : Nat) : Outline → List Char
  | word _ => [' ']
  | _ => newLine column

mutual

/-- The text of an outline whose first character stands at `column`. -/
def text (unit column : Nat) : Outline → List Char
  | word w => w.letters
  | mapping pairs => pairs.text unit column
  | sequence items => items.text unit column

/-- Keys stand at `column`, their values one unit deeper. -/
def Pairs.text (unit column : Nat) : Pairs → List Char
  | .one key value =>
    key.letters ++ ':' :: (value.lead (column + unit) ++ value.text unit (column + unit))
  | .more key value rest =>
    key.letters ++ ':' :: (value.lead (column + unit) ++ value.text unit (column + unit)) ++
      newLine column ++ rest.text unit column

/-- Dashes stand at `column`, the items on their lines one unit deeper. -/
def Items.text (unit column : Nat) : Items → List Char
  | .one item => '-' :: (List.replicate (unit - 1) ' ' ++ item.text unit (column + unit))
  | .more item rest =>
    '-' :: (List.replicate (unit - 1) ' ' ++ item.text unit (column + unit)) ++
      newLine column ++ rest.text unit column

end

end Outline

/-! ## Reading outlines back -/

def Word.ofLetters? (letters : List Char) : Option Word :=
  if h : letters ≠ [] ∧ letters.all (fun c => 'a' ≤ c && c ≤ 'z') = true then
    some ⟨letters, h.1, by simpa using h.2⟩
  else none

/-- The word that a token spells. -/
def Token.word? (t : Token) : Option Word :=
  if t.kind = .scalar then Word.ofLetters? t.value.toList else none

namespace Node

/-- The word of a plain scalar. -/
def word? (tokens : Array Token) : Node → Option Word
  | scalar _ .plain token => tokens[token]?.bind Token.word?
  | _ => none

mutual

/-- The outline of a node that is made of plain words, block mappings with a key and a
colon in each pair, and block sequences. -/
def outline? (tokens : Array Token) : Node → Option Outline
  | scalar span style token => (word? tokens (scalar span style token)).map .word
  | mapping _ none pairs => (pairsOutline? tokens pairs).map .mapping
  | sequence _ none items => (itemsOutline? tokens items).map .sequence
  | _ => none

def pairsOutline? (tokens : Array Token) : List Node → Option Outline.Pairs
  | [pair _ none key (some _) value] => do
    return .one (← key.word? tokens) (← value.outline? tokens)
  | pair _ none key (some _) value :: rest => do
    return .more (← key.word? tokens) (← value.outline? tokens) (← pairsOutline? tokens rest)
  | _ => none

def itemsOutline? (tokens : Array Token) : List Node → Option Outline.Items
  | [entry _ value] => do return .one (← value.outline? tokens)
  | entry _ value :: rest => do
    return .more (← value.outline? tokens) (← itemsOutline? tokens rest)
  | _ => none

end

variable {tokens : Array Token} {node : Node} {others : List Node} {value : Outline}

theorem pairsOutline?_cons {key : Word} {rest : Outline.Pairs}
    (h : pairsOutline? tokens [node] = some (.one key value))
    (hrest : pairsOutline? tokens others = some rest) :
    pairsOutline? tokens (node :: others) = some (.more key value rest) := by
  cases others with
  | nil => simp [pairsOutline?] at hrest
  | cons other others =>
    cases node with
    | pair span question k colon v =>
      cases question <;> cases colon <;> simp_all [pairsOutline?, Option.bind_eq_some_iff]
    | _ => simp [pairsOutline?] at h

theorem itemsOutline?_cons {rest : Outline.Items}
    (h : itemsOutline? tokens [node] = some (.one value))
    (hrest : itemsOutline? tokens others = some rest) :
    itemsOutline? tokens (node :: others) = some (.more value rest) := by
  cases others with
  | nil => simp [itemsOutline?] at hrest
  | cons other others =>
    cases node with
    | entry dash v => simp_all [itemsOutline?, Option.bind_eq_some_iff]
    | _ => simp [itemsOutline?] at h

end Node

end YamlLayout
