import YamlLayout.Glob

/-!
# Ignore files

An ignore file lists patterns for paths below its directory. The last pattern that fits
a path decides; a pattern with an exclamation mark keeps what it fits. A pattern with a
slash in front or within fits paths from the directory of its file on, any other fits a
name at any depth, and one with a slash at the end fits directories only.
-/
namespace YamlLayout

structure IgnorePattern where
  glob : Glob
  keeps : Bool
  directoriesOnly : Bool

inductive Verdict where
  | skip
  | keep
deriving Repr, DecidableEq, Inhabited

namespace IgnorePattern

/-- The white space of Unicode. -/
def isWhiteSpace (c : Char) : Bool :=
  let n := c.toNat
  (9 ≤ n && n ≤ 13) || n == 0x20 || n == 0x85 || n == 0xA0 || n == 0x1680 ||
    (0x2000 ≤ n && n ≤ 0x200A) || n == 0x2028 || n == 0x2029 || n == 0x202F || n == 0x205F ||
    n == 0x3000

/-- Drops white space at the end of a line, unless a backslash keeps a last blank. -/
def trimEnd (line : List Char) : List Char :=
  if line.reverse.take 2 == [' ', '\\'] then line
  else (line.reverse.dropWhile isWhiteSpace).reverse

/-- A line without the slash it ends with, and without a backslash before that. -/
def withoutSlash (line : List Char) : List Char :=
  let line := line.dropLast
  if line.getLast? == some '\\' then line.dropLast else line

/-- The glob of a pattern from the directory of its file on. A pattern for a name at any
depth is one behind two stars, and two stars at the end fit what lies within only. -/
def globText (rooted : Bool) (line : List Char) : List Char :=
  let deep := !rooted && !line.contains '/' && line != ['*', '*']
  let line := if deep then ['*', '*', '/'] ++ line else line
  if line.reverse.take 3 == ['*', '*', '/'] then line ++ ['/', '*'] else line

/-- Reads a line of an ignore file; nothing if it holds no pattern. -/
def ofLine? (line : List Char) : Option IgnorePattern := do
  let line := trimEnd line
  if line.isEmpty || line.head? == some '#' then none
  let keeps := line.head? == some '!'
  let line := if keeps then line.drop 1 else line
  let rooted := line.head? == some '/'
  let line := if rooted then line.drop 1 else line
  let directoriesOnly := line.getLast? == some '/'
  let line := if directoriesOnly then withoutSlash line else line
  some ⟨← Glob.read? (globText rooted line), keeps, directoriesOnly⟩

/-- What a pattern says about a path, given by its names. -/
def verdict? (p : IgnorePattern) (names : List String) (isDirectory : Bool) : Option Verdict :=
  let path := ['/'].intercalate (names.map String.toList)
  if (isDirectory || !p.directoriesOnly) && p.glob.fits (path.flatMap String.utf8EncodeChar) then
    some (if p.keeps then .keep else .skip)
  else none

/-- The patterns on the lines of an ignore file. Byte order marks in front of the first
line are passed over. -/
def ofLines : List (List Char) → List IgnorePattern
  | [] => []
  | first :: lines => (first.dropWhile (· == '\ufeff') :: lines).filterMap ofLine?

/-- What the last pattern that fits says. -/
def decide? (patterns : List IgnorePattern) (names : List String) (isDirectory : Bool) :
    Option Verdict :=
  patterns.reverse.findSome? fun p => p.verdict? names isDirectory

end IgnorePattern

/-- The ignore files of one directory. -/
structure IgnoreScope where
  /-- The names that lead from this directory to the one that is being listed. -/
  trail : List String
  patterns : List IgnorePattern
  /-- Patterns that count only within a repository. -/
  repositoryPatterns : List IgnorePattern
  /-- Patterns of the repository itself, after all others. -/
  excludePatterns : List IgnorePattern
  isRepository : Bool

namespace IgnoreScope

/-- Scopes up to the first that is a repository, seen from within. -/
def withinRepository : List IgnoreScope → List IgnoreScope
  | [] => []
  | s :: scopes => if s.isRepository then [s] else s :: withinRepository scopes

/-- What the scopes say about an entry of the directory being listed, the innermost
first. -/
def verdict? (scopes : List IgnoreScope) (name : String) (isDirectory : Bool) : Option Verdict :=
  let ask (scopes : List IgnoreScope) (patterns : IgnoreScope → List IgnorePattern) :=
    scopes.findSome? fun s =>
      IgnorePattern.decide? (patterns s) (s.trail ++ [name]) isDirectory
  let repository := if scopes.any (·.isRepository) then withinRepository scopes else []
  ((ask scopes patterns).orElse fun _ => ask repository repositoryPatterns).orElse fun _ =>
    ask repository excludePatterns

/-- Entries are skipped if a scope says so, or if they are hidden and no scope keeps
them. -/
def skips (scopes : List IgnoreScope) (name : String) (isDirectory : Bool) : Bool :=
  match verdict? scopes name isDirectory with
  | some .skip => true
  | some .keep => false
  | none => name.toList.head? == some '.'

/-- The scopes as seen from a directory within the one being listed. -/
def enter (scopes : List IgnoreScope) (name : String) : List IgnoreScope :=
  scopes.map fun s => { s with trail := s.trail ++ [name] }

end IgnoreScope

end YamlLayout
