import YamlLayout.Host
import YamlLayout.Ignore

/-!
# Collecting files

Paths that name files stand for themselves. Directories stand for the files below them
that are neither ignored nor hidden, as far as their extensions are wanted.
-/
namespace YamlLayout.Collect

variable {m : Type → Type} [Monad m] [Host m]

/-- The patterns of an ignore file, as far as it can be read. -/
def patternsAt (path : Path) : m (List IgnorePattern) :=
  return IgnorePattern.ofLines (← readLines path)

/-- The ignore files of a directory that is being listed. -/
def scopeAt (directory : Path) : m IgnoreScope := do
  let patterns ← patternsAt (directory.join ⟨".ignore"⟩)
  let repositoryPatterns ← patternsAt (directory.join ⟨".gitignore"⟩)
  let excludePatterns ← patternsAt (directory.join ⟨".git/info/exclude"⟩)
  let repository ← Host.kind (directory.join ⟨".git"⟩)
  return ⟨[], patterns, repositoryPatterns, excludePatterns, repository.toBool⟩

/-- The scopes of the directories above one that is given by its names, seen from it,
the innermost first. -/
def scopesAbove (directory : Path) (names : List String) (scopes : List IgnoreScope) :
    m (List IgnoreScope) := do
  match names with
  | [] => return scopes
  | name :: names =>
    let scope ← scopeAt directory
    scopesAbove (directory.join ⟨name⟩) names (IgnoreScope.enter (scope :: scopes) name)

/-- The scopes of all directories above a path. -/
def outerScopes (path : Path) : m (List IgnoreScope) := do
  match ← Host.resolve path with
  | .error _ => return []
  | .ok resolved =>
    let names := resolved.parts.filterMap fun
      | .name n => some (String.ofList n)
      | _ => none
    scopesAbove ⟨"/"⟩ names []

/-- Directories nested deeper than this are left alone; no path is that long. -/
def maxDepth : Nat := 4096

mutual

/-- The files below a directory. -/
def below : Nat → List IgnoreScope → Path → m (Except FileError (List Path))
  | 0, _, _ => return .ok []
  | depth + 1, scopes, directory => do
    match ← Host.entries directory with
    | .error e => return .error e
    | .ok entries =>
      let scope ← scopeAt directory
      among depth (scope :: scopes) directory entries
termination_by depth => (depth, 0)

/-- The files among some entries of a directory and below them. -/
def among (depth : Nat) (scopes : List IgnoreScope) (directory : Path) :
    List FileEntry → m (Except FileError (List Path))
  | [] => return .ok []
  | entry :: entries => do
    let path := directory.join ⟨entry.name⟩
    let here ←
      if IgnoreScope.skips scopes entry.name (entry.kind == .directory) then pure (.ok [])
      else
        match entry.kind with
        | .file => pure (.ok [path])
        | .directory => below depth (IgnoreScope.enter scopes entry.name) path
        | .other => pure (.ok [])
    match here with
    | .error e => return .error e
    | .ok found =>
      match ← among depth scopes directory entries with
      | .error e => return .error e
      | .ok more => return .ok (found ++ more)
termination_by entries => (depth, entries.length + 1)

end

end YamlLayout.Collect
