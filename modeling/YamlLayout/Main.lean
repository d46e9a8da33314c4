import YamlLayout.Command

/-!
# The program

Runs a command on the system. It ends with 1 if there was something to report or to
fix, or if the command failed, and with 2 if the arguments ask for no command.
-/
namespace YamlLayout

/-- What went wrong with a file. -/
def FileError.ofSystem (e : IO.Error) : FileError :=
  match e with
  | .noFileOrDirectory .. => .notFound
  | .invalidArgument _ 36 _ => .nameTooLong
  | .inappropriateType _ 20 _ => .notDirectory
  | .inappropriateType _ 21 _ => .isDirectory
  | e => .other (toString e)

def FileKind.ofType : IO.FS.FileType → FileKind
  | .file => .file
  | .dir => .directory
  | _ => .other

/-- Does something with a file. -/
def tryFile {α : Type} (action : IO α) : IO (Except FileError α) := do
  try
    return .ok (← action)
  catch e =>
    return .error (FileError.ofSystem e)

instance : Host IO where
  workingDirectory := return ⟨(← IO.currentDir).toString⟩
  resolve path := tryFile do
    return ⟨(← IO.FS.realPath ⟨path.text⟩).toString⟩
  kind path := tryFile do
    let place ← IO.FS.realPath ⟨path.text⟩
    return FileKind.ofType (← place.metadata).type
  read path := tryFile (IO.FS.readBinFile ⟨path.text⟩)
  write path content := tryFile (IO.FS.writeBinFile ⟨path.text⟩ content)
  entries path := tryFile do
    let place ← IO.FS.realPath ⟨path.text⟩
    (← place.readDir).toList.mapM fun entry => do
      return ⟨entry.fileName, FileKind.ofType (← entry.path.symlinkMetadata).type⟩
  print := IO.println
  warn := IO.eprintln

def UsageError.message : UsageError → String
  | .noArguments | .help => "Usage: yindent <lint|fix|init|help>"
  | .version => "yindent 0.1.0"
  | .unknownCommand => "error: unrecognized subcommand"
  | .unknownArgument => "error: unexpected argument"
  | .missingPath => "error: the following required arguments were not provided: <PATHS>..."
  | .missingValue => "error: a value is required for '--config <CONFIG>' but none was supplied"
  | .unwantedValue => "error: unexpected value for a switch"
  | .repeated => "error: the argument cannot be used multiple times"

/-- The exit code of a command that ran through. -/
def exitCode : Request → CommandResult → UInt32
  | _, .linted reported => if reported then 1 else 0
  | .fix request, .fixed tally => if request.check && 0 < tally.changed then 1 else 0
  | _, _ => 0

def runProgram (arguments : List String) : IO UInt32 := do
  match Arguments.read arguments with
  | .error .help => IO.println UsageError.help.message; return 0
  | .error .version => IO.println UsageError.version.message; return 0
  | .error e => IO.eprintln e.message; return 2
  | .ok request =>
    match ← (Command.run (m := IO) request).run with
    | .error e => IO.eprintln ("Error: " ++ e.message); return 1
    | .ok result => return exitCode request result

end YamlLayout

def main (arguments : List String) : IO UInt32 := YamlLayout.runProgram arguments
