import YamlLayout.Check
import YamlLayout.Path

/-!
# Checkers

A checker looks at the texts of files with certain extensions, reports findings and may
repair the text.
-/
namespace YamlLayout

/-- What a checker can do. -/
inductive Capability where
  | lint
  | autoFix
  | runtimeConfig
deriving Repr, DecidableEq, Inhabited

structure Profile where
  version : String
  description : String
  /-- The extensions of the files it looks at. It looks at every file if there are none. -/
  extensions : List String
  capabilities : List Capability
deriving Repr, DecidableEq, Inhabited

def Profile.has (p : Profile) (c : Capability) : Bool := p.capabilities.contains c

structure Checker where
  name : String
  profile : Profile
  lint : Path → List Char → List Finding
  /-- The repaired text, or nothing if there is nothing to repair. -/
  fix : Path → List Char → Option (List Char) := fun _ _ => none

/-- ASCII letters in lower case. -/
def lowercase (text : List Char) : List Char := text.map Char.toLower

namespace Checker

/-- The name under which a rule of a checker is reported. -/
def rule (c : Checker) (rule : String) : String := c.name ++ "/" ++ rule

/-- A checker looks at a file if it has one of its extensions, in any case. -/
def appliesTo (c : Checker) (path : Path) : Bool :=
  c.profile.extensions.isEmpty ||
    path.extension?.any fun e =>
      c.profile.extensions.any fun known => lowercase known.toList == lowercase e

/-- The checker of YAML indentation. -/
def yaml (style : Style) : Checker where
  name := "yaml"
  profile := {
    version := "0.1.0"
    description := "YAML indentation inference and auto-fix"
    extensions := ["yml", "yaml"]
    capabilities := [.lint, .autoFix, .runtimeConfig] }
  lint := fun _ text => YamlLayout.lint text style
  fix := fun _ text =>
    let fixed := fixText text style
    if fixed == text then none else some fixed

end Checker

end YamlLayout
