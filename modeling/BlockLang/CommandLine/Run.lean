import BlockLang.CommandLine.Arguments
import BlockLang.CommandLine.Logging
import BlockLang.Compile
import BlockLang.Encoding

/-! # A run of the command

A run reads one file, compiles its text and writes the listing, to standard
output or to a file. It writes nothing unless the whole text is accepted. Files
are reached through `FileAccess`, so that a run is the same on a disk and on a
directory held in memory. The parser of the arguments and the logger are
parameters. -/

namespace BlockLang.CommandLine

inductive AccessError where
  | noSuchFile
  | notADirectory
  | isADirectory
  | other (reason : String)
deriving DecidableEq, Repr

def AccessError.reason : AccessError → String
  | .noSuchFile => "No such file or directory (os error 2)"
  | .notADirectory => "Not a directory (os error 20)"
  | .isADirectory => "Is a directory (os error 21)"
  | .other reason => reason

/-- How files are read and written. A file is written as a whole. -/
structure FileAccess (m : Type → Type) where
  read : (path : String) → m (Except AccessError ByteArray)
  write : (path : String) → (contents : ByteArray) → m (Except AccessError Unit)

/-- How a run ends: its exit status and what it prints. -/
structure Outcome where
  status : Nat
  stdout : String
  stderr : String
deriving DecidableEq, Repr

def accessStatus : Nat := 1

def refusalStatus : Nat := 255

/-- The text of an access error met while doing something with a file. -/
def accessText (action path : String) (e : AccessError) : String :=
  "Error: " ++ action ++ ": " ++ path ++ "\n\nCaused by:\n    " ++ e.reason ++ "\n"

inductive Destination where
  | standardOutput
  | file (path : String)
deriving DecidableEq, Repr

def destinationOf (output : String) : Destination :=
  if output = "-" then .standardOutput else .file output

/-- What the command has to do: the file to read, the target, and where the listing
goes. -/
structure Invocation where
  input : String
  target : Target
  output : Destination
deriving DecidableEq, Repr

def Matches.invocation? (m : Matches) : Option Invocation :=
  let target := (m.target.bind Target.ofName?).getD default
  m.input.map (⟨·, target, destinationOf (m.output.getD "-")⟩)

/-- The records left before compiling. -/
def Invocation.preamble (i : Invocation) : Encoding → List Record
  | .utf8 => [.reading i.input i.target]
  | .latin1 => [.latin1 i.input, .reading i.input i.target]

def Invocation.compile (i : Invocation) (contents : ByteArray) : Traced String :=
  let (encoding, source) := decode contents
  let listing := BlockLang.compile source i.target
  ⟨i.preamble encoding ++ listing.records, listing.result⟩

def Invocation.deliver {m : Type → Type} [Monad m] (i : Invocation) (files : FileAccess m)
    (log listing : String) : m Outcome :=
  match i.output with
  | .standardOutput => return ⟨0, listing, log⟩
  | .file path => do
    match ← files.write path listing.toUTF8 with
    | .ok () => return ⟨0, "", log⟩
    | .error e => return ⟨accessStatus, "", log ++ accessText "Failed to write to file" path e⟩

/-- Read, compile and write. The lines that are logged come before the diagnostic. -/
def Invocation.run {m : Type → Type} [Monad m] (i : Invocation) (print : List LogLine → String)
    (files : FileAccess m) : m Outcome := do
  match ← files.read i.input with
  | .error e =>
    return ⟨accessStatus, "", print [] ++ accessText "Failed to read source file" i.input e⟩
  | .ok contents =>
    let compiled := i.compile contents
    let log := print compiled.log
    match compiled.result with
    | .error d => return ⟨refusalStatus, "", log ++ d.text ++ "\n"⟩
    | .ok listing => i.deliver files log listing

def usageStatus : Nat := 2

/-- The command, with the parser of its arguments and the logger that it uses. -/
def command {m : Type → Type} [Monad m] (parse : List String → Answer) (logger : Logger)
    (env : Environment) (files : FileAccess m) (arguments : List String) : m Outcome :=
  match parse arguments with
  | .printed text => return ⟨0, text, ""⟩
  | .refused text => return ⟨usageStatus, "", text⟩
  | .found found =>
    let print := logger (logSettings env found.verbose)
    match found.invocation? with
    | none => return ⟨accessStatus, "", print [] ++ "Error: Missing input file\n"⟩
    | some i => i.run print files

end BlockLang.CommandLine
