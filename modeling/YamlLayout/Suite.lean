import YamlLayout.Checker
import YamlLayout.Settings

/-!
# Suites

A suite is a sequence of checkers that look at the same files. Its watched extensions
say in advance which files of a directory are worth reading.
-/
namespace YamlLayout

structure Source where
  path : Path
  text : List Char
deriving Repr, DecidableEq, Inhabited

structure Suite where
  checkers : List Checker

namespace Suite

def empty : Suite := ⟨[]⟩

def add (s : Suite) (c : Checker) : Suite := ⟨s.checkers ++ [c]⟩

def isEmpty (s : Suite) : Bool := s.checkers.isEmpty

/-- The extensions that some checker names, in lower case and in order, or nothing if
none names any. -/
def watched (s : Suite) : Option (List String) :=
  let extensions := s.checkers.flatMap fun c =>
    c.profile.extensions.map fun e => String.ofList (lowercase e.toList)
  if extensions.isEmpty then none
  else some (extensions.eraseDups.mergeSort fun a b => decide (a ≤ b))

/-- The findings of every checker about the sources it looks at, checker by checker. -/
def enforce (s : Suite) (sources : List Source) : List Finding :=
  s.checkers.flatMap fun c =>
    (sources.filter fun source => c.appliesTo source.path).flatMap fun source =>
      c.lint source.path source.text

/-- What one checker makes of a text. -/
def fixStep (path : Path) (text : List Char) (c : Checker) : List Char :=
  if c.profile.has .autoFix && c.appliesTo path then (c.fix path text).getD text else text

/-- The text after the repairs of every checker that can make some, each on the result
of the one before; nothing if it is the same text. -/
def fix (s : Suite) (source : Source) : Option (List Char) :=
  let fixed := s.checkers.foldl (fixStep source.path) source.text
  if fixed == source.text then none else some fixed

/-- The suite that settings ask for. -/
def ofSettings (settings : Option Settings) : Suite :=
  match settings.bind fun s => s.checkers.lookup "yaml" with
  | none => empty.add (Checker.yaml Style.default)
  | some checker => if checker.isEnabled then empty.add (Checker.yaml checker.style) else empty

end Suite

/-- A path has one of the extensions. Without extensions every path will do. -/
def Path.isWatched (path : Path) (extensions : Option (List String)) : Bool :=
  extensions.all fun known =>
    path.extension?.any fun e => known.contains (String.ofList (lowercase e))

end YamlLayout
