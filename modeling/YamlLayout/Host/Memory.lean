import YamlLayout.Host

/-!
# A host in memory

A tree of files, a working directory in it, and the lines that were written. Paths are
followed segment by segment: every segment but the last has to lead to a directory.
-/
namespace YamlLayout

inductive Tree where
  | file (content : ByteArray)
  | directory (entries : List (String × Tree))
deriving Inhabited

namespace Tree

def entries : Tree → List (String × Tree)
  | .file _ => []
  | .directory entries => entries

def kind : Tree → FileKind
  | .file _ => .file
  | .directory _ => .directory

/-- What stands at a sequence of names. -/
def get? : Tree → List String → Option Tree
  | t, [] => some t
  | .file _, _ :: _ => none
  | .directory entries, name :: names =>
    match entries.lookup name with
    | none => none
    | some t => t.get? names
termination_by _ names => names.length

/-- Replaces or adds an entry. -/
def putEntry (entries : List (String × Tree)) (name : String) (t : Tree) : List (String × Tree) :=
  if (entries.lookup name).isSome then
    entries.map fun entry => if entry.1 == name then (name, t) else entry
  else entries ++ [(name, t)]

/-- Puts something at a sequence of names. Directories on the way are made if they are
missing. -/
def put (t : Tree) (names : List String) (new : Tree) : Tree :=
  match names with
  | [] => new
  | name :: names =>
    let child := (t.entries.lookup name).getD (.directory [])
    .directory (putEntry t.entries name (child.put names new))
termination_by names.length

end Tree

structure Memory where
  root : Tree
  /-- The names that lead from the root to the working directory. -/
  directory : List String
  output : List String
  warnings : List String
deriving Inhabited

namespace Memory

/-- The absolute path of a sequence of names. -/
def pathOf (names : List String) : Path :=
  ⟨if names.isEmpty then "/" else String.join (names.map ("/" ++ ·))⟩

/-- The most bytes a name may have. -/
def maxName : Nat := 255

/-- Paths have fewer bytes than this. -/
def pathLimit : Nat := 4096

/-- Goes on by one segment from a directory. -/
def step (root : Tree) (names : List String) (segment : List Char) :
    Except FileError (List String) :=
  match root.get? names with
  | none => .error .notFound
  | some (.file _) => .error .notDirectory
  | some (.directory _) =>
    if segment.isEmpty || segment == ['.'] then .ok names
    else if segment == ['.', '.'] then .ok names.dropLast
    else if maxName < Text.byteLength segment then .error .nameTooLong
    else .ok (names ++ [String.ofList segment])

/-- The names that a path leads to. Nothing need stand there yet. -/
def locate (s : Memory) (path : Path) : Except FileError (List String) :=
  if path.text.toList.contains '\x00' then .error .zeroInName
  else if path.text.isEmpty then .error .notFound
  else if pathLimit ≤ Text.byteLength path.text.toList then .error .nameTooLong
  else path.segments.foldlM (step s.root) (if path.isAbsolute then [] else s.directory)

/-- What a path leads to. -/
def find (s : Memory) (path : Path) : Except FileError (List String × Tree) := do
  let names ← s.locate path
  match s.root.get? names with
  | none => .error .notFound
  | some t => .ok (names, t)

def read (s : Memory) (path : Path) : Except FileError ByteArray := do
  match ← s.find path with
  | (_, .file content) => .ok content
  | (_, .directory _) => .error .isDirectory

/-- Writes a file into a directory that is there. -/
def write (s : Memory) (path : Path) (content : ByteArray) : Except FileError Memory := do
  let names ← s.locate path
  match s.root.get? names, s.root.get? names.dropLast with
  | some (.directory _), _ => .error .isDirectory
  | _, some (.directory _) => .ok { s with root := s.root.put names (.file content) }
  | _, _ => .error .notFound

def entries (s : Memory) (path : Path) : Except FileError (List FileEntry) := do
  match ← s.find path with
  | (_, .file _) => .error .notDirectory
  | (_, .directory entries) => .ok (entries.map fun (name, t) => ⟨name, t.kind⟩)

instance : Host (StateM Memory) where
  workingDirectory := return pathOf (← get).directory
  resolve path := return ((← get).find path).map fun (names, _) => pathOf names
  kind path := return ((← get).find path).map fun (_, t) => t.kind
  read path := return (← get).read path
  write path content := do
    match (← get).write path content with
    | .error e => return .error e
    | .ok s =>
      set s
      return .ok ()
  entries path := return (← get).entries path
  print line := modify fun s => { s with output := s.output ++ [line] }
  warn line := modify fun s => { s with warnings := s.warnings ++ [line] }

end Memory

end YamlLayout
