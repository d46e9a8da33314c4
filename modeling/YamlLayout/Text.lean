import YamlLayout.Span

/-!
# Texts

A text is a list of characters. Offsets into it count bytes of its UTF-8 form,
so an offset can fall inside a character; cutting a text there is refused.
-/
namespace YamlLayout

/-- The blanks of a line. No other character separates tokens within a line. -/
def isBlank (c : Char) : Bool := c == ' ' || c == '\t'

/-- Either half of a line break. Only the line feed starts a new line. -/
def isBreak (c : Char) : Bool := c == '\n' || c == '\r'

/-- The punctuation of flow collections. -/
def isFlowIndicator (c : Char) : Bool :=
  c == ',' || c == '[' || c == ']' || c == '\x7b' || c == '\x7d'

namespace Text

def byteLength : List Char → Nat
  | [] => 0
  | c :: cs => c.utf8Size + byteLength cs

@[simp] theorem byteLength_append (a b : List Char) :
    byteLength (a ++ b) = byteLength a + byteLength b := by
  induction a with
  | nil => simp [byteLength]
  | cons c cs ih => simp [byteLength, ih, Nat.add_assoc]

@[simp] theorem byteLength_reverse (a : List Char) : byteLength a.reverse = byteLength a := by
  induction a with
  | nil => rfl
  | cons c cs ih => simp [byteLength, ih, Nat.add_comm]

theorem length_le_byteLength (a : List Char) : a.length ≤ byteLength a := by
  induction a with
  | nil => exact Nat.le_refl 0
  | cons c cs ih =>
    have hsize := c.utf8Size_pos
    simp only [List.length_cons, byteLength]
    omega

theorem drop_length_takeWhile (p : Char → Bool) (text : List Char) :
    text.drop (text.takeWhile p).length = text.dropWhile p := by
  induction text with
  | nil => rfl
  | cons c cs ih => by_cases h : p c <;> simp [h, ih]

/-- Cuts a text at a byte offset; `none` past its end or inside a character. -/
def splitAt? : List Char → Nat → Option (List Char × List Char)
  | cs, 0 => some ([], cs)
  | [], _ + 1 => none
  | c :: cs, n + 1 =>
    if c.utf8Size ≤ n + 1 then
      (splitAt? cs (n + 1 - c.utf8Size)).map fun cut => (c :: cut.1, cut.2)
    else none

theorem splitAt?_eq_some_iff {text : List Char} {n : Nat} {front back : List Char} :
    splitAt? text n = some (front, back) ↔ front ++ back = text ∧ byteLength front = n := by
  induction text generalizing n front with
  | nil =>
    cases n with
    | zero =>
      simp only [splitAt?, Option.some.injEq, Prod.mk.injEq, List.append_eq_nil_iff]
      constructor
      · rintro ⟨rfl, rfl⟩; exact ⟨⟨rfl, rfl⟩, rfl⟩
      · rintro ⟨⟨rfl, rfl⟩, -⟩; exact ⟨rfl, rfl⟩
    | succ n =>
      simp only [splitAt?, List.append_eq_nil_iff, reduceCtorEq, false_iff]
      rintro ⟨⟨rfl, rfl⟩, h⟩
      simp [byteLength] at h
  | cons c cs ih =>
    have size : 0 < c.utf8Size := Char.utf8Size_pos c
    cases n with
    | zero =>
      simp only [splitAt?, Option.some.injEq, Prod.mk.injEq]
      constructor
      · rintro ⟨rfl, rfl⟩; exact ⟨rfl, rfl⟩
      · rintro ⟨joined, length⟩
        cases front with
        | nil => exact ⟨rfl, joined.symm⟩
        | cons d ds =>
          have := Char.utf8Size_pos d
          simp [byteLength] at length
          omega
    | succ n =>
      simp only [splitAt?]
      split
      · rename_i fits
        cases front with
        | nil => simp [byteLength]
        | cons d ds =>
          simp only [Option.map_eq_some_iff, Prod.mk.injEq, List.cons.injEq, Prod.exists,
            List.cons_append, byteLength]
          constructor
          · rintro ⟨a, b, cut, ⟨rfl, rfl⟩, rfl⟩
            obtain ⟨joined, length⟩ := ih.1 cut
            exact ⟨⟨rfl, joined⟩, by omega⟩
          · rintro ⟨⟨rfl, joined⟩, length⟩
            exact ⟨ds, back, ih.2 ⟨joined, by omega⟩, ⟨rfl, rfl⟩, rfl⟩
      · rename_i wide
        simp only [reduceCtorEq, false_iff, not_and]
        intro joined length
        cases front with
        | nil => simp [byteLength] at length
        | cons d ds =>
          simp only [List.cons_append, List.cons.injEq] at joined
          obtain ⟨rfl, -⟩ := joined
          simp only [byteLength] at length
          omega

/-- The text of a span, if both ends lie on character boundaries. -/
def slice? (text : List Char) (span : Span) : Option (List Char) := do
  let (_, back) ← splitAt? text span.start
  let (middle, _) ← splitAt? back (span.stop - span.start)
  if span.start ≤ span.stop then some middle else none

/-- Replaces the bytes of a span. A span that ends past the text, ends before it
starts or cuts a character leaves the text as it is. -/
def replace (text : List Char) (span : Span) (replacement : List Char) : List Char :=
  match splitAt? text span.start, splitAt? text span.stop with
  | some (front, _), some (_, back) =>
    if span.start ≤ span.stop then front ++ replacement ++ back else text
  | _, _ => text

end Text

end YamlLayout
