import BlockLang.Program.Builder
import BlockLang.Scope
import BlockLang.Target

/-! # The trace of a run

Every stage leaves records of what it does. A record is an event; its level, the
channel that it belongs to and its wording make the line that is logged for it.
`Traced` is a computation that leaves records and ends with a value or a diagnostic; what was
recorded before a failure is kept. -/

namespace BlockLang

inductive Level where
  | trace
  | debug
deriving DecidableEq, Repr

def Level.name : Level → String
  | .trace => "TRACE"
  | .debug => "DEBUG"

/-- An event of a run. -/
inductive Record where
  /-- The scanner yields a token. -/
  | token (t : Located Token)
  /-- The heading of a function has been read. -/
  | functionHeading (name : Located String)
  /-- The heading of the main block has been read. -/
  | mainHeading
  /-- A block opens; `depth` frames are open around it. -/
  | opening (depth block : Nat)
  /-- A block that declares these names closes; `depth` frames stay open. -/
  | closing (depth block : Nat) (names : List String)
  /-- A name is declared. -/
  | declared (s : Symbol)
  /-- A subprogram is complete. -/
  | completed (h : Heading)
  /-- The listing of the program is made. -/
  | listing (t : Target)
  /-- The text of this file is not UTF-8. -/
  | latin1 (file : String)
  /-- The text of this file is about to be read. -/
  | reading (file : String) (t : Target)
deriving DecidableEq, Repr

def SymbolKind.recordName : SymbolKind → String
  | .scalar => "Variable"
  | .array => "Array"
  | .function => "Function"

def Ty.recordName : Ty → String
  | .int => "Int"
  | .real => "Real"

namespace Record

/-- Tokens, frames and symbols are details; the rest is for debugging. -/
def level : Record → Level
  | .token _ | .opening _ _ | .closing _ _ _ | .declared _ => .trace
  | _ => .debug

def channel : Record → String
  | .token _ => "traductor::lex"
  | .functionHeading _ | .mainHeading => "traductor::parse"
  | .opening _ _ | .closing _ _ _ | .declared _ => "traductor::semantic"
  | .completed _ | .listing _ => "traductor::codegen"
  | .latin1 _ | .reading _ _ => "traductor"

/-- A list of names, each in double quotes. Names are letters and digits, so there
is nothing to escape in them. -/
def quotedList (names : List String) : String :=
  "[" ++ ", ".intercalate (names.map (fun name => "\"" ++ name ++ "\"")) ++ "]"

def message : Record → String
  | .token t => "token " ++ t.value.quoted ++ " at " ++ t.position.text
  | .functionHeading name => "function `" ++ name.value ++ "` at " ++ name.position.text
  | .mainHeading => "main block"
  | .opening depth block =>
    "opening scope " ++ toString depth ++ " (block " ++ toString block ++ ")"
  | .closing depth block names =>
    "closing scope " ++ toString depth ++ " (block " ++ toString block ++ "): " ++
      quotedList names
  | .declared s =>
    "declared Symbol \x7b name: Identifier(\"" ++ s.name ++ "\"), kind: " ++ s.kind.recordName ++
      ", typ: " ++ s.ty.recordName ++ ", block: " ++ toString s.block ++ " \x7d"
  | .completed (.function name _) => "generated function `" ++ name ++ "`"
  | .completed .main => "generated main block"
  | .listing t => "materializing for target " ++ t.name
  | .latin1 file => file ++ " is not UTF-8, reading as Latin-1"
  | .reading file t => "translating " ++ file ++ " for target " ++ t.name

end Record

/-- What is logged: a level, a channel and a text. -/
structure LogLine where
  level : Level
  channel : String
  message : String
deriving DecidableEq, Repr

def Record.line (r : Record) : LogLine := ⟨r.level, r.channel, r.message⟩

/-- A computation that leaves records and ends with a value or a diagnostic. -/
structure Traced (α : Type) where
  records : List Record
  result : Except Diagnostic α

namespace Traced

def log {α : Type} (x : Traced α) : List LogLine := x.records.map Record.line

def ok {α : Type} (a : α) : Traced α := ⟨[], .ok a⟩

def fail {α : Type} (d : Diagnostic) : Traced α := ⟨[], .error d⟩

/-- Go on with the value of a computation, if it has one. -/
def andThen {α β : Type} (x : Traced α) (f : α → Traced β) : Traced β :=
  match x.result with
  | .ok a => ⟨x.records ++ (f a).records, (f a).result⟩
  | .error d => ⟨x.records, .error d⟩

instance : Monad Traced where
  pure := ok
  bind := andThen

def emit (r : Record) : Traced Unit := ⟨[r], .ok ()⟩

@[simp] theorem ok_bind {α β : Type} (a : α) (f : α → Traced β) : (ok a >>= f) = f a := rfl

@[simp] theorem pure_eq_ok {α : Type} (a : α) : (pure a : Traced α) = ok a := rfl

@[simp] theorem fail_bind {α β : Type} (d : Diagnostic) (f : α → Traced β) :
    (fail d >>= f) = fail d := rfl

@[simp] theorem emit_bind {β : Type} (r : Record) (f : Unit → Traced β) :
    (emit r >>= f) = ⟨r :: (f ()).records, (f ()).result⟩ := rfl

theorem bind_of_ok {α β : Type} {x : Traced α} {a : α} (h : x.result = .ok a) (f : α → Traced β) :
    (x >>= f) = ⟨x.records ++ (f a).records, (f a).result⟩ := by
  show x.andThen f = _
  simp only [andThen, h]

theorem bind_of_error {α β : Type} {x : Traced α} {d : Diagnostic} (h : x.result = .error d)
    (f : α → Traced β) : (x >>= f) = ⟨x.records, .error d⟩ := by
  show x.andThen f = _
  simp only [andThen, h]

instance : LawfulMonad Traced := by
  refine LawfulMonad.mk' Traced ?_ ?_ ?_
  · intro α x
    show x.andThen (fun a => ok a) = x
    obtain ⟨records, result⟩ := x
    cases result <;> simp [andThen, ok]
  · intro α β a f
    rfl
  · intro α β γ x f g
    obtain ⟨records, result⟩ := x
    cases result with
    | error d => rfl
    | ok a =>
      cases h : (f a).result with
      | error d => simp [bind, andThen, h]
      | ok b => simp [bind, andThen, h, List.append_assoc]

/-- Fail with the diagnostic of a semantic error. -/
def check {α : Type} : Except (Located SemanticError) α → Traced α
  | .ok a => ok a
  | .error e => fail (.semantic e)

end Traced

end BlockLang
