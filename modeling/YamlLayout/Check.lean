import YamlLayout.Deviation
import YamlLayout.Grammar.Stream

/-!
# Checking and fixing texts

`analyze` measures a text and finds its deviations, `lint` reports them, and
`fixText` repairs what can be repaired until nothing changes. Texts indented with
tabs are left alone by the last two.
-/
namespace YamlLayout

structure Analysis where
  lines : List LineMeasure
  deviations : List Deviation
deriving Repr, DecidableEq

/-- Measures a stream and finds its deviations. -/
def Stream.analyze (s : Stream) (style : Style) : Analysis :=
  let layout := Layout.ofStream s style
  let lines := s.place layout style (s.measures layout)
  ⟨lines, s.deviations layout lines⟩

def analyze (text : List Char) (style : Style) : Except ParseError Analysis := do
  return (← parse text).analyze style

/-- A line with content whose indentation holds a tab. A carriage return belongs to the
line break only before a line feed. -/
def isTabIndentedLine (line : List Char) : Bool :=
  let line := if line.getLast? == some '\n' then Text.stripBreak line else line
  !(line.all isBlank) && (line.takeWhile isBlank).contains '\t'

def isTabIndented (text : List Char) : Bool := (Text.splitLines text).any isTabIndentedLine

/-- The repairs found in a text, in order. -/
def Analysis.repairs (a : Analysis) : List Repair := a.deviations.filterMap (·.repair)

/-- One pass: makes the repairs of a text, if the result is another text that can be
read. -/
def fixPass? (style : Style) (text : List Char) : Option (List Char) :=
  match analyze text style with
  | .error _ => none
  | .ok analysis =>
    let next := applyRepairs text analysis.repairs
    if analysis.repairs.isEmpty || next == text then none
    else
      match parse next with
      | .error _ => none
      | .ok _ => some next

/-- At most `n` passes. -/
def fixPasses (style : Style) : Nat → List Char → List Char
  | 0, text => text
  | n + 1, text =>
    match fixPass? style text with
    | none => text
    | some next => fixPasses style n next

/-- The number of passes after which a text is left as it is. -/
def maxPasses : Nat := 10

def fixText (text : List Char) (style : Style) : List Char :=
  if isTabIndented text then text else fixPasses style maxPasses text

/-- Something to tell about a text. -/
structure Finding where
  rule : String
  message : String
  span : Span
  /-- It comes with a repair. -/
  enforced : Bool
deriving Repr, DecidableEq, Inhabited

def Deviation.finding (d : Deviation) : Finding :=
  ⟨"yaml/" ++ d.kind.rule, d.message, d.span, d.repair.isSome⟩

def ParseError.finding (e : ParseError) : Finding :=
  ⟨"yaml/parse-error", e.message, ⟨e.offset, e.offset⟩, false⟩

def lint (text : List Char) (style : Style) : List Finding :=
  if isTabIndented text then []
  else
    match analyze text style with
    | .error e => [e.finding]
    | .ok analysis => analysis.deviations.map (·.finding)

end YamlLayout
