import BlockLang.Layout
import BlockLang.Program

/-! # C listings

The blocks of C are those of the source language, so declarations stay where they
are and names are kept, except that a keyword of C gets an underscore after it.
Names of the source language have no underscores, so this makes no two of them
equal. Integers lose their leading zeros, which would make them octal.

`Listing` is what is listed, with names and numbers in their output form, and
`Listing.text` writes it down. -/

namespace BlockLang.C

/-- The keywords of C that a program may use as names. -/
def keywords : List String :=
  ["auto", "break", "case", "char", "const", "continue", "default", "do", "else",
    "enum", "extern", "float", "for", "goto", "if", "inline", "long", "register",
    "restrict", "return", "short", "signed", "sizeof", "static", "struct", "switch",
    "typedef", "union", "unsigned", "void", "volatile", "while"]

def outputName (name : String) : String := if name ∈ keywords then name ++ "_" else name

/-- Digits without leading zeros; zero itself keeps one. -/
def stripZeros (digits : List Char) : List Char :=
  match digits.dropWhile (fun c => c = '0') with
  | [] => ['0']
  | rest => rest

def outputInteger (lexeme : String) : String := String.ofList (stripZeros lexeme.toList)

/-- The operators of C that a listing uses. What a division divides is decided by
its operands. -/
inductive Sign where
  | plus
  | minus
  | times
  | slash
deriving DecidableEq, Repr

inductive Operand where
  | integer (digits : String)
  | real (lexeme : String)
  | variable (name : String)
deriving DecidableEq, Repr

/-- A listed expression: its operands in order, each with the operator before it. -/
abbrev Formula := List (Option Sign × Operand)

/-- The items of a listed block. -/
inductive Body where
  | empty
  | declare (ty : Ty) (name : String) (sizes : List String) (rest : Body)
  | assign (target : String) (value : Formula) (rest : Body)
  | group (inner : Body) (rest : Body)
deriving DecidableEq, Repr

structure Routine where
  returns : Ty
  name : String
  body : Body
deriving DecidableEq, Repr

/-- A listed program: its functions, the main one last. -/
structure Listing where
  routines : List Routine
deriving DecidableEq, Repr

/-! ### From programs to listings -/

def Sign.ofOperator : Operator → Sign
  | .add => .plus
  | .sub => .minus
  | .mul => .times
  | .div => .slash
  | .intDiv => .slash

def Operand.ofFactor : Factor → Operand
  | .integer lexeme => .integer (outputInteger lexeme)
  | .real lexeme => .real lexeme
  | .read v => .variable (outputName v.name)

def Formula.ofExpr (value : Expr) : Formula :=
  value.factors.map (fun step => (step.1.map .ofOperator, .ofFactor step.2))

def Body.ofBlock : Block → Body
  | .empty => .empty
  | .declare d rest =>
    .declare d.target.ty (outputName d.target.name) (d.sizes.map outputInteger) (ofBlock rest)
  | .assign target value rest =>
    .assign (outputName target.name) (.ofExpr value) (ofBlock rest)
  | .nest inner rest => .group (ofBlock inner) (ofBlock rest)

def Routine.ofFunction (f : Function) : Routine :=
  ⟨f.returns, outputName f.name, .ofBlock f.body⟩

def Listing.ofProgram (p : Program) : Listing :=
  ⟨p.functions.map .ofFunction ++ [⟨.int, "main", .ofBlock p.main⟩]⟩

/-! ### The text of a listing -/

def tyName : Ty → String
  | .int => "int"
  | .real => "double"

def Sign.text : Sign → String
  | .plus => "+"
  | .minus => "-"
  | .times => "*"
  | .slash => "/"

def Operand.text : Operand → String
  | .integer digits => digits
  | .real lexeme => lexeme
  | .variable name => name

def stepText : Option Sign × Operand → String
  | (none, o) => o.text
  | (some s, o) => " " ++ s.text ++ " " ++ o.text

def Formula.text (value : Formula) : String := String.join (value.map stepText)

def sizesText (sizes : List String) : String :=
  String.join (sizes.map (fun size => "[" ++ size ++ "]"))

def Body.text (depth : Nat) : Body → String
  | .empty => ""
  | .declare ty name sizes rest =>
    margin depth ++ tyName ty ++ " " ++ name ++ sizesText sizes ++ ";\n" ++ rest.text depth
  | .assign target value rest =>
    margin depth ++ target ++ " = " ++ Formula.text value ++ ";\n" ++ rest.text depth
  | .group inner rest =>
    margin depth ++ "\x7b\n" ++ inner.text (depth + 1) ++ margin depth ++ "\x7d\n" ++
      rest.text depth

def Routine.text (r : Routine) : String :=
  tyName r.returns ++ " " ++ r.name ++ "(void)\n\x7b\n" ++ r.body.text 1 ++ "\x7d\n"

/-- The lines of a program, with an empty line between functions. -/
def Listing.text (l : Listing) : String := "\n".intercalate (l.routines.map Routine.text)

end BlockLang.C
