import YamlLayout.Grammar.Trivia
import YamlLayout.Node

/-!
# Properties

A node can carry an anchor and a tag, in either order and each at most once.
-/
namespace YamlLayout

/-- The place of a token that others are measured against. -/
structure Landmark where
  token : TokenId
  column : Nat
deriving Repr, DecidableEq, Inhabited

/-- The properties collected in front of a node. -/
structure Properties where
  anchor : Option TokenId
  tag : Option TokenId
  /-- The first of them. -/
  first : Option Landmark
  /-- The line of the last of them. -/
  line : Nat
deriving Repr, DecidableEq, Inhabited

namespace Properties

def none : Properties := ⟨.none, .none, .none, 0⟩

def isEmpty (p : Properties) : Bool := p.anchor.isNone && p.tag.isNone

/-- The number of properties that can still be added. -/
def free (p : Properties) : Nat :=
  (if p.anchor.isNone then 1 else 0) + (if p.tag.isNone then 1 else 0)

def withAnchor (p : Properties) (mark : Landmark) (line : Nat) : Properties :=
  { p with anchor := some mark.token, first := p.first.or (some mark), line }

def withTag (p : Properties) (mark : Landmark) (line : Nat) : Properties :=
  { p with tag := some mark.token, first := p.first.or (some mark), line }

theorem free_withAnchor_lt {p : Properties} (h : ¬p.anchor.isSome = true) (mark : Landmark)
    (line : Nat) : (p.withAnchor mark line).free < p.free := by
  have : p.anchor = Option.none := by simpa using h
  simp [free, withAnchor, this]

theorem free_withTag_lt {p : Properties} (h : ¬p.tag.isSome = true) (mark : Landmark)
    (line : Nat) : (p.withTag mark line).free < p.free := by
  have : p.tag = Option.none := by simpa using h
  simp [free, withTag, this]

end Properties

namespace Parse

/-- Reads the property at the cursor. -/
def property (kind : TokenKind) (flow : Bool) : Parse Landmark := do
  let s ← get
  let token ← emit kind (Lexeme.property flow s.cursor.rest)
  return ⟨token, s.cursor.column⟩

/-- Reads the properties on the rest of the line, with the blanks after each. -/
def properties (flow : Bool) (p : Properties) : Parse Properties := do
  let s ← get
  match s.cursor.peek? with
  | some '&' =>
    if _ : p.anchor.isSome then fail .duplicateProperty
    else
      let mark ← property .anchor flow
      skipBlanks
      properties flow (p.withAnchor mark s.cursor.line)
  | some '!' =>
    if _ : p.tag.isSome then fail .duplicateProperty
    else
      let mark ← property .tag flow
      skipBlanks
      properties flow (p.withTag mark s.cursor.line)
  | _ => return p
termination_by p.free
decreasing_by
  · exact Properties.free_withAnchor_lt ‹_› mark _
  · exact Properties.free_withTag_lt ‹_› mark _

/-- Puts properties on a node whose tokens start at `first`. -/
def decorate (p : Properties) (first : TokenId) (node : Node) : Parse Node := do
  if p.isEmpty then return node
  return .decorated ((← get).spanSince first) p.anchor p.tag node

end Parse

end YamlLayout
