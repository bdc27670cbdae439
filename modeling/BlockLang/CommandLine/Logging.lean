import BlockLang.Trace

/-! # The log of the command

Which lines of the log are printed is up to a logger. It is set up with a filter,
which comes from the environment, and with a level that `-v` asks for whatever the
filter says.

`directiveLogger` is a logger that reads a filter as directives divided by commas,
`LEVEL`, `CHANNEL` or `CHANNEL=LEVEL`, and a pattern after a slash that the lines
have to match. A line is shown as the directive with the longest channel says that
its own channel begins with. -/

namespace BlockLang.CommandLine

structure Environment where
  /-- The value of the variable `RUST_LOG`, if it is set. -/
  logFilter : Option String
deriving DecidableEq, Repr

structure LogSettings where
  filter : String
  /-- Show all lines down to this level. -/
  level : Option Level
deriving DecidableEq, Repr

abbrev Logger := LogSettings → List LogLine → String

/-- Without the variable only errors are to be shown. -/
def logSettings (env : Environment) (verbose : Bool) : LogSettings :=
  ⟨env.logFilter.getD "error", if verbose then some .debug else none⟩

/-! ### Directives -/

inductive Threshold where
  | off
  | error
  | warn
  | info
  | debug
  | trace
deriving DecidableEq, Repr

namespace Threshold

def name : Threshold → String
  | .off => "off"
  | .error => "error"
  | .warn => "warn"
  | .info => "info"
  | .debug => "debug"
  | .trace => "trace"

def ofText? (text : String) : Option Threshold :=
  [.off, .error, .warn, .info, .debug, .trace].find?
    (fun t => t.name.toList = text.toList.map Char.toLower)

def admits : Threshold → Level → Bool
  | .trace, _ => true
  | .debug, .debug => true
  | _, _ => false

def ofLevel : Level → Threshold
  | .debug => .debug
  | .trace => .trace

end Threshold

/-- Lines whose channel begins like this are shown down to a threshold. All channels
begin with the empty one. -/
structure Directive where
  channel : String
  threshold : Threshold
deriving DecidableEq, Repr

/-- The part up to the first occurrence of a character, and the parts between the
occurrences after it; parts may be empty. -/
def splitAtChar (mark : Char) : List Char → List Char × List (List Char)
  | [] => ([], [])
  | c :: rest =>
    let (part, parts) := splitAtChar mark rest
    if c = mark then ([], part :: parts) else (c :: part, parts)

def trimmed (cs : List Char) : List Char :=
  ((cs.dropWhile Char.isWhitespace).reverse.dropWhile Char.isWhitespace).reverse

/-- The directive that a part of a filter spells. A channel alone shows all its
lines. -/
def Directive.ofText? (text : List Char) : Option Directive :=
  match splitAtChar '=' text with
  | (word, []) =>
    match Threshold.ofText? (String.ofList word) with
    | some t => some ⟨"", t⟩
    | none => some ⟨String.ofList word, .trace⟩
  | (channel, [level]) =>
    if trimmed level = [] then some ⟨String.ofList channel, .trace⟩
    else (Threshold.ofText? (String.ofList (trimmed level))).map (⟨String.ofList channel, ·⟩)
  | _ => none

/-- A later directive for a channel replaces an earlier one. -/
def insertDirective (d : Directive) (directives : List Directive) : List Directive :=
  directives.filter (fun other => other.channel ≠ d.channel) ++ [d]

structure Filter where
  directives : List Directive
  pattern : Option String
  /-- The parts that are no directives. -/
  ignored : List String
deriving DecidableEq, Repr

namespace Filter

def addPart (f : Filter) (part : List Char) : Filter :=
  if part = [] then f
  else
    match Directive.ofText? part with
    | some d => { f with directives := insertDirective d f.directives }
    | none => { f with ignored := f.ignored ++ [String.ofList part] }

def ofText (text : String) : Filter :=
  match splitAtChar '/' text.toList with
  | (parts, patterns) =>
    if 1 < patterns.length then ⟨[], none, [text]⟩
    else
      let (first, others) := splitAtChar ',' parts
      ((first :: others).map trimmed).foldl addPart
        ⟨[], patterns.head?.map String.ofList, []⟩

/-- The filter with a level for all channels. With no directive at all errors are
shown. -/
def raise (f : Filter) : Option Level → Filter
  | some level => { f with directives := insertDirective ⟨"", .ofLevel level⟩ f.directives }
  | none =>
    if f.directives = [] then { f with directives := [⟨"", .error⟩] } else f

/-- The directive with the longest channel that a channel begins with. -/
def governing (f : Filter) (channel : String) : Option Directive :=
  f.directives.foldl (fun best d =>
    if d.channel.toList.isPrefixOf channel.toList ∧
      best.all (fun b => b.channel.length < d.channel.length) then some d else best) none

def shows (search : String → String → Bool) (f : Filter) (line : LogLine) : Bool :=
  (f.governing line.channel).any (fun d => d.threshold.admits line.level) &&
    f.pattern.all (fun pattern => search pattern line.message)

end Filter

def lineText (line : LogLine) : String :=
  "[" ++ line.level.name ++ " " ++ line.channel ++ "] " ++ line.message ++ "\n"

def ignoredText (part : String) : String :=
  "warning: invalid logging spec '" ++ part ++ "', ignoring it\n"

/-- The logger that filters by directives. How a pattern is looked for is left to
`search`. -/
def directiveLogger (search : String → String → Bool) : Logger := fun settings lines =>
  let filter := Filter.ofText settings.filter
  String.join (filter.ignored.map ignoredText ++
    (lines.filter ((filter.raise settings.level).shows search)).map lineText)

end BlockLang.CommandLine
