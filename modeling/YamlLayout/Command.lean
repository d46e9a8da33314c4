import YamlLayout.Collect
import YamlLayout.Command.Arguments
import YamlLayout.Report
import YamlLayout.Suite

/-!
# Commands

`lint` reports findings, `fix` repairs files and `init` writes a settings file. A
command that fails leaves behind what it has written so far.
-/
namespace YamlLayout

/-- Why settings cannot be used. -/
inductive SettingsFault where
  | unreadable (cause : FileError)
  | rejected (cause : SettingsError)
deriving Repr, DecidableEq, Inhabited

def SettingsFault.message : SettingsFault → String
  | .unreadable cause => "config read error: " ++ cause.message ++ ": " ++ cause.message
  | .rejected cause => cause.message

inductive CommandError where
  | inaccessible (path : Path) (cause : FileError)
  | unreadable (path : Path) (cause : FileError)
  | unwritable (path : Path) (cause : FileError)
  /-- The path is told only if it was asked for. -/
  | settings (path : Option Path) (fault : SettingsFault)
  | targetMissing (path : Path)
  | targetNoDirectory (path : Path)
  | targetTaken (path : Path)
  | targetUnwritable (cause : FileError)
deriving Repr, DecidableEq, Inhabited

/-- The name of a settings file. -/
def Settings.fileName : String := ".yindent.toml"

def CommandError.message : CommandError → String
  | .inaccessible path cause => "cannot access " ++ path.text ++ ": " ++ cause.message
  | .unreadable path cause => "failed to read " ++ path.text ++ ": " ++ cause.message
  | .unwritable path cause => "failed to write " ++ path.text ++ ": " ++ cause.message
  | .settings (some path) fault => "failed to load " ++ path.text ++ ": " ++ fault.message
  | .settings none fault => fault.message
  | .targetMissing path => "Target directory does not exist: " ++ path.text
  | .targetNoDirectory path => "Target path is not a directory: " ++ path.text
  | .targetTaken path =>
    Settings.fileName ++ " already exists at " ++ path.text ++ "\nUse --force to overwrite"
  | .targetUnwritable cause => cause.message

/-- What `fix` counted. -/
structure Tally where
  checked : Nat
  changed : Nat
deriving Repr, DecidableEq, Inhabited

inductive CommandResult where
  | linted (reported : Bool)
  | fixed (tally : Tally)
  | created (path : Path)
deriving Repr, DecidableEq, Inhabited

/-- A settings file with the defaults. -/
def Settings.template : String :=
  String.join ([
    "# yindent configuration",
    "#",
    "# Output format for \x60yindent lint\x60: \"human\" or \"json\".",
    "# format = \"human\"",
    "",
    "[decree.yaml]",
    "enabled = true",
    "# Spaces per nesting level (2-16).",
    "indent_unit = 2",
    "# Indent a block sequence that is a mapping value past its key:",
    "#   key:",
    "#     - item",
    "indent_block_sequences = true",
    "# Columns from a \x60-\x60 to its value (2-16). Defaults to indent_unit.",
    "# indicator_value_indent = 2",
    "# Align continuation lines of a multi-line scalar with its first column.",
    "align_multiline_flow_scalars = false"].map (· ++ "\n"))

namespace Command

variable {m : Type → Type} [Monad m] [Host m]

/-- Does something with a file, or fails. -/
def attempt {α : Type} (failure : FileError → CommandError) (action : m (Except FileError α)) :
    ExceptT CommandError m α :=
  ExceptT.mk do
    match ← action with
    | .error e => return .error (failure e)
    | .ok a => return .ok a

def print (line : String) : ExceptT CommandError m Unit :=
  ExceptT.lift (Host.print line)

/-- Reads a settings file. -/
def readSettings (path : Path) (named : Option Path) : ExceptT CommandError m Settings := do
  let text ← attempt (fun e => .settings named (.unreadable e)) (readText path)
  match Settings.parse text with
  | .error e => throw (.settings named (.rejected e))
  | .ok settings => return settings

/-- The settings asked for, or else those of the working directory, if it has some. -/
def loadSettings (named : Option Path) : ExceptT CommandError m (Option Settings) := do
  match named with
  | some path => return some (← readSettings path named)
  | none =>
    let directory ← ExceptT.lift (Host.workingDirectory (m := m))
    let path := directory.join ⟨Settings.fileName⟩
    match ← ExceptT.lift (Host.kind path) with
    | .error _ => return none
    | .ok _ => return some (← readSettings path none)

/-- The files that one path stands for. -/
def filesAt (extensions : Option (List String)) (path : Path) :
    ExceptT CommandError m (List Path) := do
  match ← attempt (.inaccessible path) (Host.kind path) with
  | .file => return [path]
  | _ =>
    let scopes ← ExceptT.lift (Collect.outerScopes path)
    let files ← attempt (.inaccessible path) (Collect.below Collect.maxDepth scopes path)
    return files.filter fun file => file.isWatched extensions

/-- The files that some paths stand for, in order and each once. -/
def files (extensions : Option (List String)) (paths : List Path) :
    ExceptT CommandError m (List Path) := do
  return Path.sort (← paths.mapM (filesAt extensions)).flatten

/-- JSON if it is asked for on the command line or else in the settings. -/
def wantsJson (json : Bool) (settings : Option Settings) : Bool :=
  json || (settings.bind (·.format)) == some "json"

/-- The first of findings that tell the same. -/
def distinctFindings (findings : List Finding) : List Finding :=
  findings.foldl (fun kept f =>
    if kept.any fun k => k.span == f.span && k.rule == f.rule && k.message == f.message then kept
    else kept ++ [f]) []

/-- Prints the findings about files, or collects them as JSON objects. -/
def lintFiles (suite : Suite) (json : Bool) :
    List Path → ExceptT CommandError m (Bool × List String)
  | [] => return (false, [])
  | path :: paths => do
    let text ← attempt (.unreadable path) (readText path)
    let findings := distinctFindings (suite.enforce [⟨path, text⟩])
    if !json then findings.forM fun f => print (Report.line path text f)
    let (reported, objects) ← lintFiles suite json paths
    return (!findings.isEmpty || reported,
      (if json then findings.map (Report.jsonObject path text) else []) ++ objects)

/-- Reports findings; the answer is whether there are any. -/
def lint (request : LintRequest) : ExceptT CommandError m Bool := do
  let settings ← loadSettings request.settings
  let json := wantsJson request.json settings
  let suite := Suite.ofSettings settings
  let paths ← files suite.watched request.paths
  if paths.isEmpty then
    ExceptT.lift (Host.warn (m := m) "No files found")
    return false
  else
    let (reported, objects) ← lintFiles suite json paths
    if json then print (Report.json objects)
    return reported

/-- Repairs files one after the other, or tells which would change. -/
def fixFiles (suite : Suite) (check : Bool) : Tally → List Path → ExceptT CommandError m Tally
  | tally, [] => return tally
  | tally, path :: paths => do
    let text ← attempt (.unreadable path) (readText path)
    match suite.fix ⟨path, text⟩ with
    | none => fixFiles suite check { tally with checked := tally.checked + 1 } paths
    | some fixed =>
      if check then print ("Would fix: " ++ path.text)
      else
        attempt (.unwritable path) (writeText path fixed)
        print ("Fixed: " ++ path.text)
      fixFiles suite check ⟨tally.checked + 1, tally.changed + 1⟩ paths

/-- The last line of `fix`. -/
def summary (check : Bool) (tally : Tally) : String :=
  let checked := toString tally.checked
  let changed := toString tally.changed
  if tally.changed == 0 then "All " ++ checked ++ " file(s) already compliant."
  else if check then changed ++ " file(s) out of " ++ checked ++ " would be fixed."
  else "Fixed " ++ changed ++ " file(s) out of " ++ checked ++ " checked."

def fix (request : FixRequest) : ExceptT CommandError m Tally := do
  let settings ← loadSettings request.settings
  let suite := Suite.ofSettings settings
  let paths ← files suite.watched request.paths
  if paths.isEmpty then
    ExceptT.lift (Host.warn (m := m) "No files found")
    return ⟨0, 0⟩
  else
    let tally ← fixFiles suite request.check ⟨0, 0⟩ paths
    print (summary request.check tally)
    return tally

/-- Writes a settings file; the answer is its path. -/
def init (request : InitRequest) : ExceptT CommandError m Path := do
  let target := (← ExceptT.lift (Host.workingDirectory (m := m))).join request.path
  match ← ExceptT.lift (Host.kind target) with
  | .error _ => throw (.targetMissing target)
  | .ok .directory =>
    let path := target.join ⟨Settings.fileName⟩
    let taken ← ExceptT.lift (Host.kind path)
    if taken.toBool && !request.force then throw (.targetTaken path)
    attempt .targetUnwritable (writeText path Settings.template.toList)
    print ("✓ Created " ++ Settings.fileName ++ " at " ++ path.text)
    return path
  | .ok _ => throw (.targetNoDirectory target)

/-- Runs a command. -/
def run : Request → ExceptT CommandError m CommandResult
  | .lint request => return .linted (← lint request)
  | .fix request => return .fixed (← fix request)
  | .init request => return .created (← init request)

end Command

end YamlLayout
