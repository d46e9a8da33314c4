import YamlLayout.Toml.Scalar

/-!
# Quoted texts of TOML

A text stands between single or double quotes, or between three of them if it may hold
line breaks. Between double quotes a backslash starts an escape. A reader is given what
follows the opening quotes and returns the text and what follows the closing quotes.
-/
namespace YamlLayout.Toml

/-- A control character other than a tab. -/
def isControl (c : Char) : Bool := (c.toNat < 32 && c != '\t') || c.toNat == 127

/-- The character with a given code of exactly `n` digits. -/
def codePoint? (n : Nat) (cs : List Char) : Option Char := do
  let digits := cs.take n
  if digits.length != n || !digits.all (fun c => (hexDigit? c).isSome) then none
  let code ← natural? 16 digits
  if code.isValidChar then some (Char.ofNat code) else none

/-- The character an escape stands for and how many characters it takes after the
backslash. -/
def escape? : List Char → Option (Char × Nat)
  | 'b' :: _ => some ('\x08', 1)
  | 't' :: _ => some ('\t', 1)
  | 'n' :: _ => some ('\n', 1)
  | 'f' :: _ => some ('\x0c', 1)
  | 'r' :: _ => some ('\r', 1)
  | 'e' :: _ => some ('\x1b', 1)
  | '"' :: _ => some ('"', 1)
  | '\\' :: _ => some ('\\', 1)
  | 'x' :: cs => (codePoint? 2 cs).map (·, 3)
  | 'u' :: cs => (codePoint? 4 cs).map (·, 5)
  | 'U' :: cs => (codePoint? 8 cs).map (·, 9)
  | _ => none

def isSpacing (c : Char) : Bool := c == ' ' || c == '\t' || c == '\n' || c == '\r'

/-- A backslash at the end of a line takes the break and all spacing after it away. The
answer is how much it takes. -/
def joined? (cs : List Char) : Option Nat :=
  match cs.dropWhile fun c => c == ' ' || c == '\t' with
  | '\n' :: _ => some (cs.takeWhile isSpacing).length
  | '\r' :: '\n' :: _ => some (cs.takeWhile isSpacing).length
  | _ => none

/-- Carriage returns stand only before line feeds. -/
def hasLoneReturn : List Char → Bool
  | [] => false
  | '\r' :: '\n' :: cs => hasLoneReturn cs
  | c :: cs => c == '\r' || hasLoneReturn cs

/-- Puts a character in front of a text that was read. -/
def withChar (c : Char) (read : Option (List Char × List Char)) : Option (List Char × List Char) :=
  read.map fun (text, rest) => (c :: text, rest)

/-- Up to two quotes right before the closing three belong to the text. -/
def closeBlock (quote : Char) : List Char → List Char × List Char
  | a :: b :: cs =>
    if a == quote && b == quote then ([a, b], cs)
    else if a == quote then ([a], b :: cs)
    else ([], a :: b :: cs)
  | [a] => if a == quote then ([a], []) else ([], [a])
  | [] => ([], [])

/-- The rest of a text on one line between double quotes. -/
def basicLine? : List Char → Option (List Char × List Char)
  | [] => none
  | c :: cs =>
    if c == '"' then some ([], cs)
    else if c == '\\' then
      match escape? cs with
      | none => none
      | some (d, n) => withChar d (basicLine? (cs.drop n))
    else if isControl c then none
    else withChar c (basicLine? cs)
termination_by cs => cs.length

/-- The rest of a text between three double quotes. -/
def basicBlock? : List Char → Option (List Char × List Char)
  | [] => none
  | c :: cs =>
    if c == '"' && cs.take 2 == ['"', '"'] then some (closeBlock '"' (cs.drop 2))
    else if c == '\\' then
      match joined? cs with
      | some n =>
        if hasLoneReturn (cs.take n) then none else basicBlock? (cs.drop n)
      | none =>
        match escape? cs with
        | none => none
        | some (d, n) => withChar d (basicBlock? (cs.drop n))
    else if c == '\n' || (c == '\r' && cs.head? == some '\n') then withChar c (basicBlock? cs)
    else if isControl c then none
    else withChar c (basicBlock? cs)
termination_by cs => cs.length

/-- The rest of a text on one line between single quotes. -/
def literalLine? (cs : List Char) : Option (List Char × List Char) :=
  let text := cs.takeWhile (· != '\'')
  if text.any isControl then none
  else
    match cs.drop text.length with
    | _ :: rest => some (text, rest)
    | [] => none

/-- The rest of a text between three single quotes. -/
def literalBlock? : List Char → Option (List Char × List Char)
  | [] => none
  | c :: cs =>
    if c == '\'' && cs.take 2 == ['\'', '\''] then some (closeBlock '\'' (cs.drop 2))
    else if c == '\n' || (c == '\r' && cs.head? == some '\n') then withChar c (literalBlock? cs)
    else if isControl c then none
    else withChar c (literalBlock? cs)

/-- A line break right after three opening quotes does not belong to the text. -/
def afterOpening : List Char → List Char
  | '\n' :: cs => cs
  | '\r' :: '\n' :: cs => cs
  | cs => cs

/-- A text on one line, with its opening quote. -/
def quotedLine? : List Char → Option (List Char × List Char)
  | '"' :: cs => basicLine? cs
  | '\'' :: cs => literalLine? cs
  | _ => none

/-- Any text, with its opening quotes. -/
def quoted? : List Char → Option (List Char × List Char)
  | '"' :: '"' :: '"' :: cs => basicBlock? (afterOpening cs)
  | '\'' :: '\'' :: '\'' :: cs => literalBlock? (afterOpening cs)
  | cs => quotedLine? cs

end YamlLayout.Toml
