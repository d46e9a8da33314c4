import YamlLayout.Path

/-!
# Hosts

A host is what a command needs of the system it runs on: files and two streams for
messages. Commands are written for any host, so that they run on a real system as well
as on a tree held in memory.
-/
namespace YamlLayout

inductive FileError where
  | notFound
  | notDirectory
  | isDirectory
  /-- A path or one of its names is longer than the system takes. -/
  | nameTooLong
  /-- A path holds the character zero. -/
  | zeroInName
  /-- The content is no UTF-8. -/
  | notText
  | other (reason : String)
deriving Repr, DecidableEq, Inhabited

def FileError.message : FileError → String
  | .notFound => "No such file or directory (os error 2)"
  | .notDirectory => "Not a directory (os error 20)"
  | .isDirectory => "Is a directory (os error 21)"
  | .nameTooLong => "File name too long (os error 36)"
  | .zeroInName => "file name contained an unexpected NUL byte"
  | .notText => "stream did not contain valid UTF-8"
  | .other reason => reason

inductive FileKind where
  | file
  | directory
  | other
deriving Repr, DecidableEq, Inhabited

/-- An entry of a directory. A link is neither a file nor a directory here. -/
structure FileEntry where
  name : String
  kind : FileKind
deriving Repr, DecidableEq, Inhabited

class Host (m : Type → Type) where
  /-- The absolute path of the working directory. -/
  workingDirectory : m Path
  /-- The absolute path of something that is there, without dots. -/
  resolve : Path → m (Except FileError Path)
  kind : Path → m (Except FileError FileKind)
  read : Path → m (Except FileError ByteArray)
  write : Path → ByteArray → m (Except FileError Unit)
  entries : Path → m (Except FileError (List FileEntry))
  /-- Writes a line to the output. -/
  print : String → m Unit
  /-- Writes a line beside the output. -/
  warn : String → m Unit

/-- The content of a file as a text. -/
def readText {m : Type → Type} [Monad m] [Host m] (path : Path) :
    m (Except FileError (List Char)) := do
  match ← Host.read path with
  | .error e => return .error e
  | .ok bytes =>
    match String.fromUTF8? bytes with
    | none => return .error .notText
    | some text => return .ok text.toList

/-- The text of each line of a file, up to the first that is no UTF-8. Every line but the
last was ended by a line feed, and loses a carriage return before it too. -/
def decodeLines : List (List UInt8) → List (List Char)
  | [] => []
  | line :: lines =>
    match String.fromUTF8? line.toByteArray with
    | none => []
    | some text =>
      let ended := !lines.isEmpty && text.toList.getLast? == some '\r'
      (if ended then text.toList.dropLast else text.toList) :: decodeLines lines

/-- The lines of a file as far as they are text, none if it cannot be read. -/
def readLines {m : Type → Type} [Monad m] [Host m] (path : Path) : m (List (List Char)) := do
  match ← Host.read path with
  | .error _ => return []
  | .ok bytes => return decodeLines (Text.splitOn 10 bytes.toList)

/-- Replaces the content of a file by a text. -/
def writeText {m : Type → Type} [Host m] (path : Path) (text : List Char) :
    m (Except FileError Unit) :=
  Host.write path (String.ofList text).toUTF8

end YamlLayout
