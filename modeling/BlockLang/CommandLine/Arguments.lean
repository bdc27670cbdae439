import BlockLang.Target

/-! # Command-line arguments

    [-t|--target pascal|c] [-o|--output FILE] [-v|--verbose] [-h|--help] [-V|--version] FILE

A parser of arguments gives an `Answer`: the values that it has found, or a text
to print. The command works with any such parser, and `parse` is one.

The value of an option may be attached (`-tc`, `-t=c`, `--target=c`) or follow as
an argument of its own, and short options may share a dash (`-vtc`). Options may
come after the file. After `--` every argument is a file.

Arguments are first gathered from left to right. An option that is unknown, a
value that an option does not take and a second file end this at once, and so
does a request for help or for the version. What has been gathered is then
validated as a whole. -/

namespace BlockLang.CommandLine

/-- What has been found in the arguments. An option with a default has a value
even if it is not there. -/
structure Matches where
  target : Option String
  output : Option String
  input : Option String
  verbose : Bool
deriving DecidableEq, Repr

inductive Answer where
  | found (m : Matches)
  /-- Help or the version, for standard output. -/
  | printed (text : String)
  /-- The arguments are no valid usage. -/
  | refused (text : String)
deriving DecidableEq, Repr

/-- The options that take a value. -/
inductive Setting where
  | target
  | output
deriving DecidableEq, Repr

inductive UsageError where
  | unknownOption (option : String)
  | unneededValue (option value : String)
  | extraFile (file : String)
  | missingFile
  | missingValue (s : Setting)
  | badTarget (name : String)
  | repeatedSetting (s : Setting)
  | repeatedVerbose
deriving DecidableEq, Repr

/-- Why gathering ends before the last argument. -/
inductive Stop where
  | help
  | version
  | refused (e : UsageError)
deriving DecidableEq, Repr

/-! ### Texts -/

def versionText : String := "traductor 1.0.0\n"

def usageText : String := "USAGE:\n    traductor [OPTIONS] <FILE>\n"

def helpText : String :=
  versionText ++ "Traductor de un lenguaje imperativo pequeño\n\n" ++ usageText ++
    "\nARGS:\n    <FILE>    Archivo fuente\n\nOPTIONS:\n" ++
    "    -h, --help               Print help information\n" ++
    "    -o, --output <FILE>      Archivo de salida ('-' para stdout) [default: -]\n" ++
    "    -t, --target <TARGET>    Lenguaje objetivo [default: pascal] " ++
    "[possible values: pascal, c]\n" ++
    "    -v, --verbose            Bitácora de depuración en stderr\n" ++
    "    -V, --version            Print version information\n"

def Setting.text : Setting → String
  | .target => "--target <TARGET>"
  | .output => "--output <FILE>"

def unexpectedText (argument : String) : String :=
  "Found argument '" ++ argument ++ "' which wasn't expected, or isn't valid in this context"

def repeatedText (option : String) : String :=
  "The argument '" ++ option ++ "' was provided more than once, but cannot be used multiple times"

def UsageError.message : UsageError → String
  | .unknownOption option => unexpectedText option
  | .unneededValue option value =>
    "The value '" ++ value ++ "' was provided to '" ++ option ++
      "' but it wasn't expecting any more values"
  | .extraFile file => unexpectedText file
  | .missingFile => "The following required arguments were not provided:\n    <FILE>"
  | .missingValue s =>
    "The argument '" ++ s.text ++ "' requires a value but none was supplied"
  | .badTarget name =>
    "\"" ++ name ++ "\" isn't a valid value for '" ++ Setting.text .target ++
      "'\n\t[possible values: pascal, c]"
  | .repeatedSetting s => repeatedText s.text
  | .repeatedVerbose => repeatedText "--verbose"

def UsageError.text (e : UsageError) : String :=
  "error: " ++ e.message ++ "\n\n" ++ usageText ++ "\nFor more information try --help\n"

/-! ### The shape of an argument -/

/-- What an argument looks like before `--`. -/
inductive Shape where
  /-- The argument `--`. -/
  | separator
  /-- A long option with the value after its first `=`, if there is one. -/
  | long (option : String) (value : Option String)
  /-- Short options that share a dash. -/
  | short (letters : List Char)
  /-- Anything else; a lone dash and the empty text are plain too. -/
  | plain
deriving DecidableEq, Repr

/-- The shape of a long option, its two dashes taken off. -/
def longShape (cs : List Char) : Shape :=
  let option := String.ofList (cs.takeWhile (fun c => c ≠ '='))
  match cs.dropWhile (fun c => c ≠ '=') with
  | [] => .long option none
  | _ :: value => .long option (some (String.ofList value))

def shape (argument : String) : Shape :=
  match argument.toList with
  | ['-', '-'] => .separator
  | '-' :: '-' :: rest => longShape rest
  | '-' :: c :: rest => .short (c :: rest)
  | _ => .plain

/-! ### Gathering -/

/-- What has been gathered: each occurrence of an option that takes a value, with
its value if it has one, the number of requests for debugging records, and the
file. -/
structure Gathered where
  settings : List (Setting × Option String)
  verbose : Nat
  file : Option String
deriving DecidableEq, Repr

namespace Gathered

def empty : Gathered := ⟨[], 0, none⟩

def set (g : Gathered) (s : Setting) (value : Option String) : Gathered :=
  { g with settings := g.settings ++ [(s, value)] }

def setVerbose (g : Gathered) : Gathered := { g with verbose := g.verbose + 1 }

/-- Add the file, of which there may be only one. -/
def setFile (g : Gathered) (file : String) : Except Stop Gathered :=
  match g.file with
  | none => .ok { g with file := some file }
  | some _ => .error (.refused (.extraFile file))

/-- An option that still waits for its value does without. -/
def giveUp (g : Gathered) : Option Setting → Gathered
  | none => g
  | some s => g.set s none

end Gathered

/-- What has been gathered, and an option that waits for its value. -/
abbrev Gathering := Gathered × Option Setting

/-- The value attached to a short option: an equals sign before it is dropped. -/
def attached : List Char → String
  | '=' :: value => String.ofList value
  | value => String.ofList value

/-- A short option that takes a value, with the characters after it. -/
def shortSetting (g : Gathered) (s : Setting) : List Char → Gathering
  | [] => (g, some s)
  | c :: rest => (g.set s (some (attached (c :: rest))), none)

def shortOptions (g : Gathered) : List Char → Except Stop Gathering
  | [] => .ok (g, none)
  | 'v' :: rest => shortOptions g.setVerbose rest
  | 'h' :: _ => .error .help
  | 'V' :: _ => .error .version
  | 't' :: rest => .ok (shortSetting g .target rest)
  | 'o' :: rest => .ok (shortSetting g .output rest)
  | c :: _ => .error (.refused (.unknownOption ("-" ++ String.singleton c)))

def longSetting (g : Gathered) (s : Setting) : Option String → Gathering
  | none => (g, some s)
  | some value => (g.set s (some value), none)

/-- A long option that takes no value. -/
def longFlag (option : String) (next : Except Stop Gathering) :
    Option String → Except Stop Gathering
  | none => next
  | some value => .error (.refused (.unneededValue ("--" ++ option) value))

def longOption (g : Gathered) (option : String) (value : Option String) :
    Except Stop Gathering :=
  if option = "target" then .ok (longSetting g .target value)
  else if option = "output" then .ok (longSetting g .output value)
  else if option = "verbose" then longFlag option (.ok (g.setVerbose, none)) value
  else if option = "help" then longFlag option (.error .help) value
  else if option = "version" then longFlag option (.error .version) value
  else .error (.refused (.unknownOption ("--" ++ option)))

def gatherFiles (g : Gathered) : List String → Except Stop Gathered
  | [] => .ok g
  | file :: rest => do gatherFiles (← g.setFile file) rest

/-- Gather arguments, an option possibly waiting for its value. -/
def gather (g : Gathered) (waiting : Option Setting) : List String → Except Stop Gathered
  | [] => .ok (g.giveUp waiting)
  | argument :: rest =>
    match shape argument, waiting with
    | .separator, _ => gatherFiles (g.giveUp waiting) rest
    | .long option value, _ => do
      let (g, waiting) ← longOption (g.giveUp waiting) option value
      gather g waiting rest
    | .short letters, _ => do
      let (g, waiting) ← shortOptions (g.giveUp waiting) letters
      gather g waiting rest
    | .plain, some s => gather (g.set s (some argument)) none rest
    | .plain, none => do gather (← g.setFile argument) none rest

/-! ### Validation -/

/-- The value of an option that may be given once. -/
def Gathered.value (g : Gathered) (s : Setting) : Except Stop (Option String) :=
  match g.settings.filter (fun occurrence => occurrence.1 = s) with
  | [] => .ok none
  | [(_, some value)] => .ok (some value)
  | [(_, none)] => .error (.refused (.missingValue s))
  | _ => .error (.refused (.repeatedSetting s))

/-- Validate what has been gathered, and put in the defaults. -/
def Gathered.validate (g : Gathered) : Except Stop Matches := do
  let target := (← g.value .target).getD "pascal"
  if Target.ofName? target = none then throw (.refused (.badTarget target))
  let output := (← g.value .output).getD "-"
  if 1 < g.verbose then throw (.refused .repeatedVerbose)
  if g.file = none then throw (.refused .missingFile)
  return ⟨some target, some output, g.file, g.verbose = 1⟩

def parse (arguments : List String) : Answer :=
  match gather .empty none arguments >>= Gathered.validate with
  | .ok m => .found m
  | .error .help => .printed helpText
  | .error .version => .printed versionText
  | .error (.refused e) => .refused e.text

end BlockLang.CommandLine
