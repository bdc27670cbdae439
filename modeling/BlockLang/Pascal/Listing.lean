import BlockLang.Layout
import BlockLang.Pascal.Names

/-! # Pascal listings

Pascal admits no declarations inside nested blocks, so all variables of a
subprogram go to one `var` section, in the order of the text. The variables of
the main block come before the functions. `Listing` is what is listed, with every
name in its output form, and `Listing.text` writes it down. -/

namespace BlockLang.Pascal

/-- A variable of a `var` section. -/
structure Entry where
  name : String
  sizes : List String
  ty : Ty
deriving DecidableEq, Repr

inductive Operand where
  | integer (lexeme : String)
  | real (lexeme : String)
  | variable (name : String)
deriving DecidableEq, Repr

/-- A listed expression: its operands in order, each with the operator before it. -/
abbrev Formula := List (Option Operator × Operand)

/-- The statements of a listed body. -/
inductive Body where
  | empty
  | assign (target : String) (value : Formula) (rest : Body)
  | group (inner : Body) (rest : Body)
deriving DecidableEq, Repr

structure Routine where
  name : String
  returns : Ty
  entries : List Entry
  body : Body
deriving DecidableEq, Repr

structure Listing where
  entries : List Entry
  routines : List Routine
  body : Body
deriving DecidableEq, Repr

/-! ### From programs to listings -/

/-- Claim names for all declarations of a block and of the blocks inside it, in
the order of the text. -/
def hoist (n : Namespace) : Block → List Entry × Namespace
  | .empty => ([], n)
  | .declare d rest =>
    let (name, n) := n.bind d.target
    let (entries, n) := hoist n rest
    (⟨name, d.sizes, d.target.ty⟩ :: entries, n)
  | .assign _ _ rest => hoist n rest
  | .nest inner rest =>
    let (first, n) := hoist n inner
    let (second, n) := hoist n rest
    (first ++ second, n)

def Operand.ofFactor (n : Namespace) : Factor → Operand
  | .integer lexeme => .integer lexeme
  | .real lexeme => .real lexeme
  | .read v => .variable (n.resolve v)

def Formula.ofExpr (n : Namespace) (value : Expr) : Formula :=
  value.factors.map (fun step => (step.1, .ofFactor n step.2))

/-- The statements of a block, declarations left out. -/
def Body.ofBlock (n : Namespace) : Block → Body
  | .empty => .empty
  | .declare _ rest => ofBlock n rest
  | .assign target value rest => .assign (n.resolve target) (.ofExpr n value) (ofBlock n rest)
  | .nest inner rest => .group (ofBlock n inner) (ofBlock n rest)

/-- List a function under a name that has been claimed for it. A function is also
a variable of its own body. -/
def Routine.ofFunction (name : String) (f : Function) : Routine :=
  let n := (Namespace.new.claim name).2
  let (entries, n) := hoist n f.body
  ⟨name, f.returns, entries, .ofBlock n f.body⟩

/-- List functions in order, claiming a name for each. -/
def Routine.ofFunctions (n : Namespace) : List Function → List Routine
  | [] => []
  | f :: rest =>
    let (name, n) := n.claim f.name
    .ofFunction name f :: ofFunctions n rest

def Listing.ofProgram (p : Program) : Listing :=
  let n := (Namespace.new.claim "main").2
  let (entries, n) := hoist n p.main
  ⟨entries, Routine.ofFunctions n p.functions, .ofBlock n p.main⟩

/-! ### The text of a listing -/

def tyName : Ty → String
  | .int => "integer"
  | .real => "real"

def Entry.typeText (e : Entry) : String :=
  if e.sizes = [] then tyName e.ty
  else "array [" ++ ", ".intercalate (e.sizes.map (fun size => "1.." ++ size)) ++ "] of " ++
    tyName e.ty

def Entry.text (e : Entry) : String := "  " ++ e.name ++ ": " ++ e.typeText ++ ";\n"

/-- A `var` section, or nothing if there are no variables. -/
def sectionText (entries : List Entry) : String :=
  if entries = [] then "" else "var\n" ++ String.join (entries.map Entry.text)

def sign : Operator → String
  | .add => "+"
  | .sub => "-"
  | .mul => "*"
  | .div => "/"
  | .intDiv => "div"

def Operand.text : Operand → String
  | .integer lexeme => lexeme
  | .real lexeme => lexeme
  | .variable name => name

def stepText : Option Operator × Operand → String
  | (none, o) => o.text
  | (some op, o) => " " ++ sign op ++ " " ++ o.text

def Formula.text (value : Formula) : String := String.join (value.map stepText)

def Body.text (depth : Nat) : Body → String
  | .empty => ""
  | .assign target value rest =>
    margin depth ++ target ++ " := " ++ Formula.text value ++ ";\n" ++ rest.text depth
  | .group inner rest =>
    margin depth ++ "begin\n" ++ inner.text (depth + 1) ++ margin depth ++ "end;\n" ++
      rest.text depth

def Routine.text (r : Routine) : String :=
  "\nfunction " ++ r.name ++ ": " ++ tyName r.returns ++ ";\n" ++ sectionText r.entries ++
    "begin\n" ++ r.body.text 1 ++ "end;\n"

def Listing.text (l : Listing) : String :=
  "program main;\n" ++ sectionText l.entries ++ String.join (l.routines.map Routine.text) ++
    "\nbegin\n" ++ l.body.text 1 ++ "end.\n"

end BlockLang.Pascal
