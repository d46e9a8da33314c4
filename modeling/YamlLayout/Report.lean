import YamlLayout.Checker

/-!
# Reports

Findings are told either one to a line or as JSON.
-/
namespace YamlLayout.Report

/-- Where a finding starts, counted from one. -/
structure Mark where
  line : Nat
  column : Nat
deriving Repr, DecidableEq, Inhabited

/-- The place of a byte offset: lines end after line feeds, columns count characters. An
offset that is no character's counts as the end of the text. -/
def mark (text : List Char) (offset : Nat) : Mark := go ⟨1, 1⟩ 0 text
where
  /-- Goes on from a place and its offset. -/
  go (place : Mark) (position : Nat) : List Char → Mark
    | [] => place
    | c :: cs =>
      if position == offset then place
      else go (if c == '\n' then ⟨place.line + 1, 1⟩ else ⟨place.line, place.column + 1⟩)
        (position + c.utf8Size) cs

/-- A finding on one line. -/
def line (path : Path) (text : List Char) (f : Finding) : String :=
  let place := mark text f.span.start
  let sign := if f.enforced then "🔧" else "❌"
  path.text ++ ":" ++ toString place.line ++ ":" ++ toString place.column ++ ": " ++ sign ++ " " ++
    f.rule ++ ": " ++ f.message

/-- Four hexadecimal digits. -/
def hexCode (n : Nat) : String :=
  let digits := Nat.toDigits 16 n
  String.ofList (List.replicate (4 - digits.length) '0' ++ digits)

/-- A character within a JSON string. Only what has to be escaped is. -/
def jsonChar (c : Char) : String :=
  if c == '"' then "\\\""
  else if c == '\\' then "\\\\"
  else if c == '\n' then "\\n"
  else if c == '\r' then "\\r"
  else if c == '\t' then "\\t"
  else if c == '\x08' then "\\b"
  else if c == '\x0c' then "\\f"
  else if c.toNat < 32 then "\\u" ++ hexCode c.toNat
  else String.singleton c

def jsonText (s : String) : String := "\"" ++ String.join (s.toList.map jsonChar) ++ "\""

/-- Lines within brackets, all but the last followed by a comma. -/
def jsonLines (indent opening closing : String) (items : List String) : String :=
  opening ++ "\n" ++ String.intercalate ",\n" (items.map (indent ++ "  " ++ ·)) ++ "\n" ++ indent ++
    closing

/-- A finding as an object within a list. -/
def jsonObject (path : Path) (text : List Char) (f : Finding) : String :=
  let place := mark text f.span.start
  jsonLines "  " "\x7b" "\x7d"
    ["\"path\": " ++ jsonText path.text,
      "\"line\": " ++ toString place.line,
      "\"col\": " ++ toString place.column,
      "\"rule\": " ++ jsonText f.rule,
      "\"message\": " ++ jsonText f.message,
      "\"enforced\": " ++ (if f.enforced then "true" else "false"),
      "\"span\": " ++ jsonLines "    " "\x7b" "\x7d"
        ["\"start\": " ++ toString f.span.start, "\"end\": " ++ toString f.span.stop]]

/-- A list of objects. -/
def json (objects : List String) : String :=
  if objects.isEmpty then "[]" else jsonLines "" "[" "]" objects

end YamlLayout.Report
