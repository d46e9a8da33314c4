import YamlLayout.Toml.Quoted

/-!
# TOML documents

A document is a sequence of lines: headers, which open tables, and assignments to the
table opened last. `parse?` reads a document; it says of a text only that it is not one,
not why.
-/
namespace YamlLayout.Toml

def skipBlanks (cs : List Char) : List Char := cs.dropWhile fun c => c == ' ' || c == '\t'

/-- A comment in front, if there is one, up to the end of its line. -/
def skipComment? : List Char → Option (List Char)
  | '#' :: cs =>
    let text := cs.takeWhile fun c => c != '\n' && c != '\r'
    if text.any isControl then none else some (cs.drop text.length)
  | cs => some cs

/-- Blanks and a comment, and then a line break or the end. -/
def endLine? (cs : List Char) : Option (List Char) := do
  match ← skipComment? (skipBlanks cs) with
  | [] => some []
  | '\n' :: rest => some rest
  | '\r' :: '\n' :: rest => some rest
  | _ => none

/-- Blanks, comments and line breaks. -/
def skipLines? : Nat → List Char → Option (List Char)
  | 0, _ => none
  | fuel + 1, cs => do
    match ← skipComment? (skipBlanks cs) with
    | '\n' :: rest => skipLines? fuel rest
    | '\r' :: '\n' :: rest => skipLines? fuel rest
    | rest => some rest

def isKeyChar (c : Char) : Bool := c.isAlphanum || c == '_' || c == '-'

/-- One part of a key. -/
def keyPart? (cs : List Char) : Option (String × List Char) :=
  match quotedLine? cs with
  | some (text, rest) => some (String.ofList text, rest)
  | none =>
    let word := cs.takeWhile isKeyChar
    if word.isEmpty then none else some (String.ofList word, cs.drop word.length)

/-- A key: the parts before the last one, the last one, and what follows. -/
structure KeyRead where
  path : List String
  key : String
  rest : List Char

/-- The number of parts a key may have, and the depth to which arrays and tables may be
nested in a value. -/
def maxDepth : Nat := 80

/-- Reads a key of at most `limit` parts that dots divide, and the blanks after it. -/
def key? : Nat → List Char → Option KeyRead
  | 0, _ => none
  | limit + 1, cs => do
    let (part, rest) ← keyPart? (skipBlanks cs)
    match skipBlanks rest with
    | '.' :: rest =>
      let next ← key? limit rest
      some { next with path := part :: next.path }
    | rest => some ⟨[], part, rest⟩

def isWordChar (c : Char) : Bool :=
  c.isAlphanum || c == '_' || c == '-' || c == '+' || c == '.' || c == ':'

/-- A word without quotes. A date goes on after a space if a digit follows. -/
def word? (cs : List Char) : Option (Value × List Char) := do
  let word := cs.takeWhile isWordChar
  let rest := cs.drop word.length
  let more := match rest with
    | ' ' :: c :: _ =>
      if isDate word && c.isDigit then ' ' :: (rest.drop 1).takeWhile isWordChar else []
    | _ => []
  let value ← Value.ofWord? (word ++ more)
  some (value, rest.drop more.length)

mutual

/-- Reads a value. -/
def value? : Nat → Nat → List Char → Option (Value × List Char)
  | 0, _, _ => none
  | fuel + 1, depth, cs =>
    match cs with
    | '[' :: rest =>
      match depth with
      | 0 => none
      | depth + 1 => do
        let (items, rest) ← items? fuel depth rest
        some (.array items, rest)
    | '\x7b' :: rest =>
      match depth with
      | 0 => none
      | depth + 1 => do
        let (table, rest) ← fields? fuel depth ⟨.inline, []⟩ rest
        some (table.value, rest)
    | '"' :: _ | '\'' :: _ => (quoted? cs).map fun (text, rest) => (.text (String.ofList text), rest)
    | _ => word? cs

/-- Reads the rest of an array. A comma may follow the last item. -/
def items? : Nat → Nat → List Char → Option (List Value × List Char)
  | 0, _, _ => none
  | fuel + 1, depth, cs => do
    match ← skipLines? (cs.length + 1) cs with
    | ']' :: rest => some ([], rest)
    | cs =>
      let (item, rest) ← value? fuel depth cs
      match ← skipLines? (rest.length + 1) rest with
      | ']' :: rest => some ([item], rest)
      | ',' :: rest =>
        let (items, rest) ← items? fuel depth rest
        some (item :: items, rest)
      | _ => none

/-- Reads the rest of a table between braces. A comma may follow the last field, and
lines may be broken around an equals sign, though not within a key. -/
def fields? : Nat → Nat → Table → List Char → Option (Table × List Char)
  | 0, _, _, _ => none
  | fuel + 1, depth, table, cs => do
    match ← skipLines? (cs.length + 1) cs with
    | '\x7d' :: rest => some (table, rest)
    | cs =>
      let read ← key? maxDepth cs
      let '=' :: rest ← skipLines? (read.rest.length + 1) read.rest | none
      let (value, rest) ← value? fuel depth (← skipLines? (rest.length + 1) rest)
      let table ← table.assign? read.path read.key value
      match ← skipLines? (rest.length + 1) rest with
      | '\x7d' :: rest => some (table, rest)
      | ',' :: rest => fields? fuel depth table rest
      | _ => none

end

/-- A document that is being read: all of it so far, and the path of the table that
assignments go to. -/
structure Draft where
  root : Table
  current : List String

/-- Reads one line, with the lines its value goes on over. -/
def line? (draft : Draft) (cs : List Char) : Option (Draft × List Char) := do
  match cs with
  | '[' :: '[' :: cs =>
    let read ← key? maxDepth cs
    let ']' :: ']' :: rest := read.rest | none
    let root ← draft.root.openItem? read.path read.key
    some (⟨root, read.path ++ [read.key]⟩, ← endLine? rest)
  | '[' :: cs =>
    let read ← key? maxDepth cs
    let ']' :: rest := read.rest | none
    let root ← draft.root.openTable? read.path read.key
    some (⟨root, read.path ++ [read.key]⟩, ← endLine? rest)
  | cs =>
    let read ← key? maxDepth cs
    let '=' :: rest := read.rest | none
    let (value, rest) ← value? (2 * (rest.length + 1)) maxDepth (skipBlanks rest)
    let root ← draft.root.alter? .implied
      (fun table => table.assign? read.path read.key value) draft.current
    some (⟨root, draft.current⟩, ← endLine? rest)

/-- Reads the lines of a document. -/
def lines? : Nat → Draft → List Char → Option Table
  | 0, _, _ => none
  | fuel + 1, draft, cs => do
    match ← skipLines? (cs.length + 1) cs with
    | [] => some draft.root
    | cs =>
      let (draft, rest) ← line? draft cs
      lines? fuel draft rest

/-- Reads a document. A byte order mark in front is passed over. -/
def parse? (text : List Char) : Option Table :=
  let text := if text.head? == some '\ufeff' then text.drop 1 else text
  lines? (text.length + 1) ⟨⟨.header, []⟩, []⟩ text

end YamlLayout.Toml
