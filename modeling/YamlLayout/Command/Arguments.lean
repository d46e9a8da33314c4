import YamlLayout.Path

/-!
# Arguments

Arguments are read one after the other and the first one that is wrong decides. The
value of an option is settled only when something else follows it, so a wrong argument
right after it is told first.
-/
namespace YamlLayout

structure LintRequest where
  paths : List Path
  settings : Option Path
  json : Bool
deriving Repr, DecidableEq, Inhabited

structure FixRequest where
  paths : List Path
  settings : Option Path
  /-- Tell what would change and change nothing. -/
  check : Bool
deriving Repr, DecidableEq, Inhabited

structure InitRequest where
  path : Path
  /-- Overwrite settings that are there. -/
  force : Bool
deriving Repr, DecidableEq, Inhabited

inductive Request where
  | lint (request : LintRequest)
  | fix (request : FixRequest)
  | init (request : InitRequest)
deriving Repr, DecidableEq, Inhabited

/-- Why arguments ask for no command. -/
inductive UsageError where
  | noArguments
  | help
  | version
  | unknownCommand
  | unknownArgument
  | missingPath
  /-- An option stands without its value. -/
  | missingValue
  /-- A switch is given a value. -/
  | unwantedValue
  /-- An option or switch is given twice. -/
  | repeated
deriving Repr, DecidableEq, Inhabited

namespace Arguments

/-- What an argument looks like. -/
inductive Shape where
  /-- Two dashes: whatever follows is plain. -/
  | dashes
  | long (name : String) (value : Option String)
  | short (letter : Char)
  | plain
deriving Repr, DecidableEq, Inhabited

def shape (argument : String) : Shape :=
  match argument.toList with
  | '-' :: '-' :: [] => .dashes
  | '-' :: '-' :: cs =>
    let name := cs.takeWhile (· != '=')
    .long (String.ofList name)
      (if name.length < cs.length then some (String.ofList (cs.drop (name.length + 1))) else none)
  | '-' :: c :: _ => .short c
  | _ => .plain

/-- The arguments that a command takes. -/
structure Grammar where
  /-- Its switch. -/
  switch : String
  hasSettings : Bool
  /-- It takes any number of paths, and not just one. -/
  manyPaths : Bool
deriving Repr, DecidableEq

/-- The option for a settings file, as far as it has been read. -/
inductive Pending where
  | nothing
  | awaited
  | given (value : String)
deriving Repr, DecidableEq, Inhabited

/-- Arguments read so far. -/
structure Draft where
  paths : List Path
  settings : Option Path
  switched : Bool
  pending : Pending
  /-- Two dashes have been read. -/
  plainOnly : Bool
deriving Repr, DecidableEq, Inhabited

namespace Draft

def empty : Draft := ⟨[], none, false, .nothing, false⟩

def setSettings (d : Draft) (value : String) : Except UsageError Draft :=
  if d.settings.isSome then .error .repeated
  else .ok { d with settings := some ⟨value⟩, pending := .nothing }

/-- Takes the pending value over. -/
def settle (d : Draft) : Except UsageError Draft :=
  match d.pending with
  | .nothing => .ok d
  | .awaited => .error .missingValue
  | .given value => d.setSettings value

def addPath (g : Grammar) (d : Draft) (argument : String) : Except UsageError Draft := do
  if !g.manyPaths && !d.paths.isEmpty then .error .unknownArgument
  else
    let d ← d.settle
    .ok { d with paths := d.paths ++ [⟨argument⟩] }

def addLong (g : Grammar) (d : Draft) (name : String) (value : Option String) :
    Except UsageError Draft := do
  if name == g.switch || name == "help" then
    if value.isSome then .error .unwantedValue
    else
      let d ← d.settle
      if name == "help" then .error .help
      else if d.switched then .error .repeated
      else .ok { d with switched := true }
  else if name == "config" && g.hasSettings then
    let d ← d.settle
    match value with
    | some v => d.setSettings v
    | none => .ok { d with pending := .awaited }
  else .error .unknownArgument

/-- Reads one more argument. -/
def step (g : Grammar) (d : Draft) (argument : String) : Except UsageError Draft :=
  if d.plainOnly then d.addPath g argument
  else
    match shape argument with
    | .dashes => .ok { d with plainOnly := true }
    | .long name value => d.addLong g name value
    | .short letter =>
      if letter == 'h' then d.settle >>= fun _ => .error .help else .error .unknownArgument
    | .plain =>
      if d.pending == .awaited then .ok { d with pending := .given argument }
      else d.addPath g argument

/-- Reads all arguments of a command. -/
def read (g : Grammar) (arguments : List String) : Except UsageError Draft := do
  let d ← arguments.foldlM (step g) empty
  d.settle

end Draft

def lint? (arguments : List String) : Except UsageError Request := do
  let d ← Draft.read ⟨"json", true, true⟩ arguments
  if d.paths.isEmpty then .error .missingPath
  else .ok (.lint ⟨d.paths, d.settings, d.switched⟩)

def fix? (arguments : List String) : Except UsageError Request := do
  let d ← Draft.read ⟨"check", true, true⟩ arguments
  if d.paths.isEmpty then .error .missingPath
  else .ok (.fix ⟨d.paths, d.settings, d.switched⟩)

/-- The settings go to the working directory unless a path is given. -/
def init? (arguments : List String) : Except UsageError Request := do
  let d ← Draft.read ⟨"force", false, false⟩ arguments
  .ok (.init ⟨d.paths.head?.getD ⟨"."⟩, d.switched⟩)

def isCommand (name : String) : Bool :=
  name == "lint" || name == "fix" || name == "init" || name == "help"

/-- Reads the arguments of the program. Help can be asked for by command. -/
def read (arguments : List String) : Except UsageError Request :=
  match arguments with
  | [] => .error .noArguments
  | first :: rest =>
    match shape first with
    | .dashes =>
      match rest with
      | [] => .error .noArguments
      | name :: _ => .error (if isCommand name then .unknownArgument else .unknownCommand)
    | .long name value =>
      if name == "help" || name == "version" then
        if value.isSome then .error .unwantedValue
        else .error (if name == "help" then .help else .version)
      else .error .unknownArgument
    | .short letter =>
      if letter == 'h' then .error .help
      else if letter == 'V' then .error .version
      else .error .unknownArgument
    | .plain =>
      if first == "lint" then lint? rest
      else if first == "fix" then fix? rest
      else if first == "init" then init? rest
      else if first == "help" then
        match rest with
        | [] => .error .help
        | [name] => .error (if isCommand name then .help else .unknownCommand)
        | _ => .error .unknownCommand
      else .error .unknownCommand

end Arguments

end YamlLayout
