import YamlLayout.Text

/-!
# Lexemes

How far the lexemes at the head of a text reach. Each reader looks only at the
characters it is given and answers with a number of characters, or with a verdict
on what stands there; none of them moves a cursor.
-/
namespace YamlLayout

/-- The way a block scalar treats the line breaks at its end. -/
inductive Chomping where
  | clip
  | strip
  | keep
deriving Repr, DecidableEq, Inhabited

namespace Lexeme

/-- Nothing, a blank or a line break comes next. -/
def separated : List Char → Bool
  | [] => true
  | c :: _ => isBlank c || isBreak c

/-- Nothing or a line break comes next. -/
def lineEnds : List Char → Bool
  | [] => true
  | c :: _ => isBreak c

/-- What follows a colon that ends a key: a separation, or in a flow collection
also its punctuation. -/
def endsKey (flow : Bool) (rest : List Char) : Bool :=
  separated rest || (flow && rest.head?.any isFlowIndicator)

/-- The text starts with the indicator `mark`, set off from what follows. -/
def isIndicator (mark : Char) : List Char → Bool
  | [] => false
  | c :: cs => c == mark && separated cs

/-- As `isIndicator`, with the punctuation of flow collections as separation too. -/
def isFlowMark (mark : Char) : List Char → Bool
  | [] => false
  | c :: cs => c == mark && endsKey true cs

def isStartMarker : List Char → Bool
  | '-' :: '-' :: '-' :: rest => separated rest
  | _ => false

def isEndMarker : List Char → Bool
  | '.' :: '.' :: '.' :: rest => separated rest
  | _ => false

def isMarker (text : List Char) : Bool := isStartMarker text || isEndMarker text

/-- The length of the stretch before the first place where `stops` holds, less the
blanks at its end. `stops` sees whether a blank was just passed, the character in
question and what follows it. -/
def trimmed (stops : Bool → Char → List Char → Bool) : Bool → List Char → Nat
  | _, [] => 0
  | blank, c :: cs =>
    if stops blank c cs then 0
    else
      let more := trimmed stops (isBlank c) cs
      if more == 0 && isBlank c then 0 else more + 1

theorem trimmed_cons_pos {stops : Bool → Char → List Char → Bool} {blank : Bool} {c : Char}
    {cs : List Char} (goes : stops blank c cs = false) (solid : isBlank c = false) :
    0 < trimmed stops blank (c :: cs) := by
  simp [trimmed, goes, solid]

/-- A comment runs to the end of its line. -/
def comment : List Char → Nat := trimmed (fun _ c _ => isBreak c) false

theorem comment_pos (cs : List Char) : 0 < comment ('#' :: cs) :=
  trimmed_cons_pos rfl rfl

/-- A directive runs to a comment or to the end of its line. -/
def directive : List Char → Nat :=
  trimmed (fun blank c _ => isBreak c || (c == '#' && blank)) false

/-- One line of a plain scalar: up to a comment, to the colon that ends a key, to
flow punctuation inside a flow collection, or to the end of the line. -/
def plainLine (flow : Bool) : List Char → Nat :=
  trimmed (fun blank c rest => isBreak c || (c == '#' && blank) ||
    (c == ':' && endsKey flow rest) || (flow && isFlowIndicator c)) false

def isQuote (c : Char) : Bool := c == '"' || c == '\''

/-- The length of a quoted scalar after its opening quote, the closing quote
included. A backslash protects the next character between double quotes, and a
doubled single quote stands for one. With `oneLine` an unprotected line break ends
the search. -/
def quoted (oneLine : Bool) (quote : Char) : List Char → Option Nat
  | [] => none
  | c :: cs =>
    if oneLine && isBreak c then none
    else if quote == '"' && c == '\\' then
      match cs with
      | [] => none
      | _ :: rest => (quoted oneLine quote rest).map (· + 2)
    else if c == quote then
      match cs with
      | d :: rest =>
        if quote == '\'' && d == '\'' then (quoted oneLine quote rest).map (· + 2) else some 1
      | [] => some 1
    else (quoted oneLine quote cs).map (· + 1)

/-- A line within the first `n` characters, the first line apart, starts with a
document marker. -/
def crossesMarker : Nat → List Char → Bool
  | 0, _ => false
  | _, [] => false
  | n + 1, c :: cs => (c == '\n' && isMarker cs) || crossesMarker n cs

/-- An anchor, or a tag that is not written between angle brackets. -/
def word (flow : Bool) (text : List Char) : Nat :=
  (text.takeWhile fun c => !isBlank c && !isBreak c && !(flow && isFlowIndicator c)).length

/-- A tag written between angle brackets, from the opening bracket on. -/
def verbatim : List Char → Nat
  | [] => 0
  | c :: cs => if c == '>' || lineEnds cs then 1 else verbatim cs + 1

/-- The length of the property that starts with `mark`, which is included. -/
def property (flow : Bool) : List Char → Nat
  | '!' :: '<' :: rest => verbatim ('<' :: rest) + 1
  | [] => 0
  | _ :: rest => word flow rest + 1

/-- The length of a reference; inside a flow collection a colon ends it too. -/
def reference (flow : Bool) : List Char → Nat
  | [] => 0
  | _ :: rest =>
    (rest.takeWhile fun c => !isBlank c && !isBreak c &&
      !(flow && (isFlowIndicator c || c == ':'))).length + 1

/-- What is left once the properties at the head of a line are passed. -/
def afterProperties (text : List Char) : List Char :=
  match text with
  | [] => []
  | c :: cs =>
    if c == '&' || c == '!' then
      afterProperties ((cs.dropWhile fun d => !isBlank d && !isBreak d).dropWhile isBlank)
    else c :: cs
termination_by text.length
decreasing_by
  have h₁ := (List.dropWhile_sublist (l := cs) fun d => !isBlank d && !isBreak d).length_le
  have h₂ := (List.dropWhile_sublist
    (l := cs.dropWhile fun d => !isBlank d && !isBreak d) isBlank).length_le
  simp only [List.length_cons]
  omega

/-- The length of a bracketed stretch that closes on its own line. Brackets inside
quotes do not count, and the two kinds of bracket close each other. -/
def bracketed (depth : Nat) (text : List Char) : Option Nat :=
  match text with
  | [] => none
  | c :: cs =>
    if isBreak c then none
    else if isQuote c then
      match quoted true c cs with
      | none => none
      | some n => (bracketed depth (cs.drop n)).map (· + n + 1)
    else if c == '[' || c == '\x7b' then (bracketed (depth + 1) cs).map (· + 1)
    else if c == ']' || c == '\x7d' then
      if depth ≤ 1 then some 1 else (bracketed (depth - 1) cs).map (· + 1)
    else (bracketed depth cs).map (· + 1)
termination_by text.length
decreasing_by
  all_goals simp only [List.length_cons, List.length_drop]; omega

/-- A colon ends the key that stops here: one that ends a key in any case, or one
that stands directly against the key. -/
def keyColon (rest : List Char) : Bool :=
  match rest.dropWhile isBlank with
  | ':' :: more => endsKey false more || rest.head? == some ':'
  | _ => false

/-- The line starts a mapping entry with a key on one line, properties first. -/
def isKey (text : List Char) : Bool :=
  match afterProperties text with
  | [] => false
  | c :: cs =>
    if c == '#' || isBreak c then false
    else if (c == '-' || c == '?' || c == ':') && separated cs then false
    else if isQuote c then (quoted true c cs).any fun n => keyColon (cs.drop n)
    else if c == '[' || c == '\x7b' then
      (bracketed 0 (c :: cs)).any fun n => keyColon ((c :: cs).drop n)
    else if c == '*' then keyColon ((c :: cs).dropWhile fun d => !isBlank d && !isBreak d)
    else
      match ((c :: cs).drop (plainLine false (c :: cs))).dropWhile isBlank with
      | ':' :: more => endsKey false more
      | _ => false

/-- The line starts a mapping entry: `? `, `: ` or a key. -/
def isEntry (text : List Char) : Bool :=
  isIndicator '?' text || isIndicator ':' text || isKey text

/-- The next line that holds more than blanks. -/
structure NextLine where
  /-- The text from the start of the line. -/
  text : List Char
  /-- The number of blanks the line starts with. -/
  indent : Nat
  /-- The text from its first other character. -/
  content : List Char

/-- Looks for the next line, given the start of a line, the number of its blanks
already passed, and the text that follows them. -/
def nextLine (start : List Char) (indent : Nat) : List Char → Option NextLine
  | [] => none
  | c :: cs =>
    if isBreak c then nextLine cs 0 cs
    else if isBlank c then nextLine start (indent + 1) cs
    else some ⟨start, indent, c :: cs⟩

theorem length_content_nextLine_le {start text : List Char} {indent : Nat} {next : NextLine}
    (h : nextLine start indent text = some next) : next.content.length ≤ text.length := by
  induction text generalizing start indent with
  | nil => simp [nextLine] at h
  | cons c cs ih =>
    simp only [nextLine] at h
    split at h
    · exact Nat.le_succ_of_le (ih h)
    · split at h
      · exact Nat.le_succ_of_le (ih h)
      · simp only [Option.some.injEq] at h
        simp [← h]

/-- A later line continues a plain scalar. It never starts a comment or a document.
In a block it lies deeper than `parent` and holds no entry of its own; in a flow
collection its first character is no punctuation and no ASCII character that stands
alone. -/
def continuesPlain (parent : Int) (flow : Bool) (next : NextLine) : Bool :=
  match next.content with
  | [] => false
  | c :: cs =>
    if isMarker next.text || c == '#' then false
    else if flow then !(isFlowIndicator c || (c.utf8Size == 1 && endsKey true cs))
    else decide (parent < next.indent) && !(isIndicator ':' next.content || isKey next.content)

/-- The length of the lines that continue a plain scalar, from the end of the line
before them. -/
def plainTail (parent : Int) (flow : Bool) (text : List Char) : Nat :=
  if lineEnds (text.dropWhile isBlank) then
    match _ : nextLine text 0 text with
    | none => 0
    | some next =>
      let width := plainLine flow next.content
      if continuesPlain parent flow next && 0 < width then
        let rest := next.content.drop width
        text.length - rest.length + plainTail parent flow rest
      else 0
  else 0
termination_by text.length
decreasing_by
  rename_i found continues
  have shorter := length_content_nextLine_le found
  simp only [Bool.and_eq_true, decide_eq_true_eq] at continues
  have some_content : 0 < next.content.length := by
    rcases e : next.content with _ | ⟨d, ds⟩
    · simp [continuesPlain, e] at continues
    · simp
  simp only [List.length_drop]
  omega

/-- The length of a plain scalar, continuation lines included. -/
def plain (parent : Int) (flow : Bool) (text : List Char) : Nat :=
  let width := plainLine flow text
  width + plainTail parent flow (text.drop width)

/-- The indicators after the `|` or `>` of a block scalar. -/
structure BlockIndicators where
  digit : Option Nat
  chomping : Chomping
  length : Nat
  /-- The indicators stop at a zero, which is no indentation. -/
  zero : Bool
deriving Repr, DecidableEq

/-- Reads at most `n` more indicators, one of each kind. -/
def blockIndicators : Nat → Option Nat → Chomping → List Char → BlockIndicators
  | 0, digit, chomping, _ => ⟨digit, chomping, 0, false⟩
  | _, digit, chomping, [] => ⟨digit, chomping, 0, false⟩
  | n + 1, digit, chomping, c :: cs =>
    let after := fun (more : BlockIndicators) => { more with length := more.length + 1 }
    if '1' ≤ c && c ≤ '9' && digit.isNone then
      after (blockIndicators n (some (c.toNat - '0'.toNat)) chomping cs)
    else if c == '0' then ⟨digit, chomping, 0, true⟩
    else if c == '-' && chomping == .clip then after (blockIndicators n digit .strip cs)
    else if c == '+' && chomping == .clip then after (blockIndicators n digit .keep cs)
    else ⟨digit, chomping, 0, false⟩

end Lexeme

end YamlLayout
