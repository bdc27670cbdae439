import BlockLang.CommandLine.Run

/-! # Directories in memory

A directory holds files and directories under their names. A path is a list of
names divided by slashes and is followed from the working directory, each name
but the last having to be a directory. `.` stays where it is and `..` goes back.
Nothing outside the working directory can be reached. -/

namespace BlockLang.CommandLine

inductive Directory where
  | empty
  | file (name : String) (contents : ByteArray) (rest : Directory)
  | folder (name : String) (inner : Directory) (rest : Directory)

/-- What a name in a directory stands for. -/
inductive Entry where
  | file (contents : ByteArray)
  | folder (inner : Directory)

namespace Directory

def find? (name : String) : Directory → Option Entry
  | .empty => none
  | .file n contents rest => if n = name then some (.file contents) else rest.find? name
  | .folder n inner rest => if n = name then some (.folder inner) else rest.find? name

/-- The entry reached by a list of names; none of them reaches the directory. -/
def entryAt (d : Directory) : List String → Option Entry
  | [] => some (.folder d)
  | name :: names =>
    match d.find? name with
    | some (.folder inner) => inner.entryAt names
    | some (.file contents) => if names = [] then some (.file contents) else none
    | none => none

/-- Replace the contents of a file, or add a file after the other entries. A
directory of that name is left alone. -/
def putFile (name : String) (contents : ByteArray) : Directory → Directory
  | .empty => .file name contents .empty
  | .file n old rest =>
    if n = name then .file n contents rest else .file n old (rest.putFile name contents)
  | .folder n inner rest =>
    if n = name then .folder n inner rest else .folder n inner (rest.putFile name contents)

def updateFolder (name : String) (f : Directory → Directory) : Directory → Directory
  | .empty => .empty
  | .file n contents rest => .file n contents (rest.updateFolder name f)
  | .folder n inner rest =>
    if n = name then .folder n (f inner) rest else .folder n inner (rest.updateFolder name f)

/-- Put a file into the directory reached by a list of names. -/
def putFileAt (name : String) (contents : ByteArray) : List String → Directory → Directory
  | [], d => d.putFile name contents
  | outer :: names, d => d.updateFolder outer (putFileAt name contents names)

/-- The files directly in a directory that another one does not hold with the same
contents. -/
def changes (before : Directory) : Directory → List (String × ByteArray)
  | .empty => []
  | .file name contents rest =>
    match before.find? name with
    | some (.file old) =>
      if old.data = contents.data then changes before rest
      else (name, contents) :: changes before rest
    | _ => (name, contents) :: changes before rest
  | .folder _ _ rest => changes before rest

end Directory

/-! ### Paths -/

/-- The names of a path, and whether it ends in a slash. -/
structure Path where
  absolute : Bool
  names : List String
  trailingSlash : Bool
deriving DecidableEq, Repr

def Path.ofText (text : String) : Path :=
  let (part, parts) := splitAtChar '/' text.toList
  let names := (part :: parts).filter (fun part => part ≠ [])
  ⟨text.toList.head? = some '/', names.map String.ofList, text.toList.getLast? = some '/'⟩

/-- Follow names that must all be directories, from the directory reached by
`trail`. -/
def Directory.follow (d : Directory) (trail : List String) :
    List String → Except AccessError (List String)
  | [] => .ok trail
  | name :: names =>
    if name = "." then d.follow trail names
    else if name = ".." then
      if trail = [] then .error .noSuchFile else d.follow trail.dropLast names
    else
      match d.entryAt (trail ++ [name]) with
      | none => .error .noSuchFile
      | some (.file _) => .error .notADirectory
      | some (.folder _) => d.follow (trail ++ [name]) names

def Directory.read (d : Directory) (text : String) : Except AccessError ByteArray := do
  let path := Path.ofText text
  if text = "" then throw .noSuchFile
  match path.names.getLast? with
  | none => throw .isADirectory
  | some last =>
    if path.absolute then throw .noSuchFile
    let trail ← d.follow [] path.names.dropLast
    if last = "." ∨ last = ".." then throw .isADirectory
    match d.entryAt (trail ++ [last]) with
    | none => throw .noSuchFile
    | some (.folder _) => throw .isADirectory
    | some (.file contents) =>
      if path.trailingSlash then throw .notADirectory else return contents

def Directory.write (d : Directory) (text : String) (contents : ByteArray) :
    Except AccessError Directory := do
  let path := Path.ofText text
  if text = "" then throw .noSuchFile
  match path.names.getLast? with
  | none => throw .isADirectory
  | some last =>
    if path.absolute then throw .noSuchFile
    let trail ← d.follow [] path.names.dropLast
    if last = "." ∨ last = ".." ∨ path.trailingSlash then throw .isADirectory
    match d.entryAt (trail ++ [last]) with
    | some (.folder _) => throw .isADirectory
    | _ => return d.putFileAt last contents trail

/-- Access to the files of a directory in memory. -/
def Directory.access : FileAccess (StateM Directory) where
  read path := do return (← get).read path
  write path contents := do
    match (← get).write path contents with
    | .ok d => set d; return .ok ()
    | .error e => return .error e

end BlockLang.CommandLine
