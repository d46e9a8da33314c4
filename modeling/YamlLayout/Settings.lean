import YamlLayout.Style
import YamlLayout.Toml.Document

/-!
# Settings

A settings file chooses the format of reports and, for each checker by its name,
whether it runs and the style it asks for. Keys that have no meaning are passed over.
-/
namespace YamlLayout

/-- The settings of one checker, each of which may be left out. -/
structure CheckerSettings where
  enabled : Option Bool
  unit : Option Nat
  indentSequences : Option Bool
  valueIndent : Option Nat
  alignScalars : Option Bool
deriving Repr, DecidableEq, Inhabited

structure Settings where
  format : Option String
  checkers : List (String × CheckerSettings)
deriving Repr, DecidableEq, Inhabited

inductive SettingsError where
  /-- The text is no TOML, or a value is of the wrong type. -/
  | malformed
  /-- A value is outside its limits. -/
  | invalid (reason : String)
deriving Repr, DecidableEq, Inhabited

namespace CheckerSettings

/-- Nothing is set. -/
def none : CheckerSettings := ⟨.none, .none, .none, .none, .none⟩

/-- A checker runs unless it is switched off. -/
def isEnabled (s : CheckerSettings) : Bool := s.enabled.getD true

def style (s : CheckerSettings) : Style where
  unit := s.unit.getD Style.default.unit
  indentSequences := s.indentSequences.getD Style.default.indentSequences
  ownValueIndent := s.valueIndent
  alignScalars := s.alignScalars.getD Style.default.alignScalars

def boolean? : Toml.Value → Option Bool
  | .boolean b => some b
  | _ => .none

/-- Widths have 32 bits. -/
def width? : Toml.Value → Option Nat
  | .integer n => if 0 ≤ n && n < 4294967296 then some n.toNat else .none
  | _ => .none

/-- Reads a value that may be left out. -/
def optional? {α : Type} (read? : Toml.Value → Option α) : Option Toml.Value → Option (Option α)
  | .none => some .none
  | some v => (read? v).map some

/-- Reads the settings from a table by name or from an array by position, in which none
may be left out. A moment in time counts as a table without settings. -/
def ofValue? : Toml.Value → Option CheckerSettings
  | .table _ entries => do
    let enabled ← optional? boolean? (entries.lookup "enabled")
    let unit ← optional? width? (entries.lookup "indent_unit")
    let indentSequences ← optional? boolean? (entries.lookup "indent_block_sequences")
    let valueIndent ← optional? width? (entries.lookup "indicator_value_indent")
    let alignScalars ← optional? boolean? (entries.lookup "align_multiline_flow_scalars")
    some ⟨enabled, unit, indentSequences, valueIndent, alignScalars⟩
  | .array (enabled :: unit :: indentSequences :: valueIndent :: alignScalars :: _) => do
    some ⟨← boolean? enabled, ← width? unit, ← boolean? indentSequences, ← width? valueIndent,
      ← boolean? alignScalars⟩
  | .dateTime => some none
  | _ => .none

/-- The widths that can be asked for. -/
def isAllowedWidth (width : Nat) : Bool := 2 ≤ width && width ≤ 16

/-- One line for each width outside the limits. -/
def complaints (s : CheckerSettings) : List String :=
  let complaint (name : String) (advice : String) (width : Option Nat) : List String :=
    match width with
    | .none => []
    | some w =>
      if isAllowedWidth w then []
      else [name ++ ": " ++ toString w ++ " is outside the range 2-16 - " ++ advice ++ "\n"]
  complaint "indent_unit" "common values are 2 or 4" s.unit ++
    complaint "indicator_value_indent" "the value must leave a space after \x60-\x60" s.valueIndent

end CheckerSettings

namespace Settings

/-- The settings of a checker by its name. -/
def checker (s : Settings) (name : String) : CheckerSettings :=
  (s.checkers.lookup name).getD CheckerSettings.none

def text? : Toml.Value → Option String
  | .text t => some t
  | _ => none

def checkers? : Option Toml.Value → Option (List (String × CheckerSettings))
  | none => some []
  | some (.table _ entries) =>
    entries.mapM fun (name, value) => (CheckerSettings.ofValue? value).map (name, ·)
  | some _ => none

def ofTable? (t : Toml.Table) : Option Settings := do
  let format ← CheckerSettings.optional? text? (t.get? "format")
  let checkers ← checkers? (t.get? "decree")
  some ⟨format, checkers⟩

/-- What is wrong with the settings: the format, or else the widths of the first checker
that has wrong ones. -/
def complaint? (s : Settings) : Option String :=
  match s.format.filter fun f => f != "human" && f != "json" with
  | some f => some ("format: '" ++ f ++ "' is not a valid format - use 'human' or 'json'\n")
  | none =>
    s.checkers.findSome? fun (name, checker) =>
      match checker.complaints with
      | [] => none
      | lines => some ("decree." ++ name ++ ": " ++ String.join lines)

/-- Reads a settings file. -/
def parse (text : List Char) : Except SettingsError Settings :=
  match (Toml.parse? text).bind ofTable? with
  | none => .error .malformed
  | some s =>
    match s.complaint? with
    | some reason => .error (.invalid reason)
    | none => .ok s

end Settings

/-- What is told about settings that cannot be used. -/
def SettingsError.message : SettingsError → String
  | .malformed => "config parse error"
  | .invalid reason => "config validation error: " ++ reason

end YamlLayout
