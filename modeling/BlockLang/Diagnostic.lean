import BlockLang.Position
import BlockLang.TokenClass

/-! # Diagnostics

A text is refused at its first fault. A fault belongs to one of three phases,
each with its own causes, and `Fault.message` holds all their wording. A
diagnostic is a fault with the position shown to the user; a fault caused by
the end of the text shows none. -/

namespace BlockLang

/-- Why the scanner cannot go on. -/
inductive LexicalError where
  /-- A character that begins no token. -/
  | badChar (c : Char)
  /-- The text ends inside a comment. -/
  | unexpectedEnd
deriving DecidableEq, Repr

/-- The greatest number of blocks that may be open at once. -/
def maxNesting : Nat := 256

/-- Why the token sequence is not a program. -/
inductive GrammarError where
  /-- A token of none of the classes that may stand here. -/
  | unexpectedToken (found : Token) (expected : ClassSet)
  /-- A block nested in `maxNesting` others. -/
  | tooDeep
deriving DecidableEq, Repr

/-- Why a name or a size is not admitted where it stands. -/
inductive SemanticError where
  | undeclared (name : String)
  | notAVariable (name : String)
  | redeclared (name : String)
  | expectedReal (name : String)
  | nonPositiveSize (lexeme : String)
deriving DecidableEq, Repr

inductive Phase where
  | lexical
  | syntactic
  | semantic
deriving DecidableEq, Repr

def Phase.text : Phase → String
  | .lexical => "lexico"
  | .syntactic => "sintactico"
  | .semantic => "semantico"

namespace LexicalError

def message : LexicalError → String
  | .badChar c => "caracter '" ++ String.singleton c ++ "' incorrecto"
  | .unexpectedEnd => "fin de fichero inesperado"

end LexicalError

namespace GrammarError

def message : GrammarError → String
  | .unexpectedToken found expected =>
    "encontrado " ++ found.quoted ++ ", esperaba " ++ expected.text
  | .tooDeep =>
    "anidamiento de bloques excesivo (maximo " ++ toString maxNesting ++ ")"

end GrammarError

namespace SemanticError

def message : SemanticError → String
  | .undeclared name => "'" ++ name ++ "' no ha sido declarado"
  | .notAVariable name => "'" ++ name ++ "' no es una variable"
  | .redeclared name => "'" ++ name ++ "' ya existe en este ambito"
  | .expectedReal name => "'" ++ name ++ "' debe ser de tipo real"
  | .nonPositiveSize lexeme => "'" ++ lexeme ++ "' debe ser mayor que cero"

end SemanticError

/-- The cause of a refusal, of any phase. -/
inductive Fault where
  | lexical (e : LexicalError)
  | syntactic (e : GrammarError)
  | semantic (e : SemanticError)
deriving DecidableEq, Repr

namespace Fault

def phase : Fault → Phase
  | .lexical _ => .lexical
  | .syntactic _ => .syntactic
  | .semantic _ => .semantic

def message : Fault → String
  | .lexical e => e.message
  | .syntactic e => e.message
  | .semantic e => e.message

/-- Whether the end of the text is what is wrong. -/
def atEnd : Fault → Bool
  | .lexical .unexpectedEnd => true
  | .syntactic (.unexpectedToken .endOfText _) => true
  | _ => false

end Fault

/-- A fault and the position shown with it. -/
structure Diagnostic where
  fault : Fault
  position : Option Position
deriving DecidableEq, Repr

namespace Diagnostic

/-- The diagnostic of a fault found at a position, which is left out when the
end of the text is what is wrong. -/
def ofFault (p : Position) (f : Fault) : Diagnostic :=
  ⟨f, if f.atEnd then none else some p⟩

def lexical (e : Located LexicalError) : Diagnostic :=
  ofFault e.position (.lexical e.value)

def syntactic (e : Located GrammarError) : Diagnostic :=
  ofFault e.position (.syntactic e.value)

def semantic (e : Located SemanticError) : Diagnostic :=
  ofFault e.position (.semantic e.value)

/-- The line shown to the user. -/
def text (d : Diagnostic) : String :=
  let place := match d.position with
    | some p => " " ++ p.text
    | none => ""
  "Error " ++ d.fault.phase.text ++ place ++ ": " ++ d.fault.message

end Diagnostic

end BlockLang
