import BlockLang.Token.Scanner
import BlockLang.Trace

/-! # Reading a program

The grammar, with the tokens in quotes:

    Program     = Function* "main" "(" ")" Block
    Function    = Type name "(" ")" Block
    Type        = "int" | "double"
    Block       = "{" Item* "}"
    Item        = Block | Declaration | Assignment
    Declaration = Type Variable ("," Variable)* ";"
    Variable    = name ("[" integer "]")*
    Assignment  = name "=" Expr ";"
    Expr        = Term (("+" | "-") Term)*
    Term        = Factor (("*" | "/") Factor)*
    Factor      = integer | name | real

Only blocks nest, so a reader needs no stack beyond the number of open blocks: a
place in the grammar (`Point`) says which tokens may come next and what has been
gathered of the construct being read. The reader takes the tokens one at a time
and stops at the first fault.

A token takes effect in two stages. `Reader.take` checks that it may stand here.
What it means for the names and the program (`Effect`) is settled by
`Reader.settle` only when the next token is known to be there, so that a lexical
error right after a token is found before a semantic error about it. What a token
ends, a declared variable or the value of an assignment, is complete without it
and is dealt with at once. -/

namespace BlockLang

/-- The part of an expression that has been read when an operand is due. -/
inductive OperandContext where
  /-- The first operand of the expression. -/
  | first
  /-- The first operand of a further term. -/
  | term (before : Expr) (op : Operator)
  /-- A further operand of a term; `before` is what precedes the term. -/
  | factor (before : Option (Expr × Operator)) (t : Term) (divide : Bool)
deriving DecidableEq, Repr

/-- What has been read of an expression after an operand: its last term and what
precedes it. -/
structure Operation where
  before : Option (Expr × Operator)
  last : Term
deriving DecidableEq, Repr

/-- Supply the operand that was due. -/
def OperandContext.supply : OperandContext → Factor → Operation
  | .first, f => ⟨none, .ofFactor f⟩
  | .term before op, f => ⟨some (before, op), .ofFactor f⟩
  | .factor before t divide, f => ⟨before, t.push divide f⟩

def Operation.toExpr (o : Operation) : Expr :=
  match o.before with
  | none => .ofTerm o.last
  | some (before, op) => before.push op o.last

/-- The variable being declared: its type, its name and the sizes read so far. -/
structure Declarator where
  ty : Ty
  name : Located String
  sizes : List String
deriving DecidableEq, Repr

/-- The variable being assigned to: its name where it stands, and what it is. -/
structure Assignee where
  name : Located String
  target : Variable
deriving DecidableEq, Repr

/-- A place in the grammar. -/
inductive Point where
  /-- Before a function or the main block. -/
  | top
  /-- After the type of a function. -/
  | functionName (ty : Ty)
  /-- After the name of a function. -/
  | functionOpen (ty : Ty) (name : Located String)
  /-- After the opening parenthesis of a function. -/
  | functionClose (ty : Ty) (name : Located String)
  /-- After the word `main`. -/
  | mainOpen
  /-- After the opening parenthesis of the main block. -/
  | mainClose
  /-- Before the body of a subprogram. -/
  | body
  /-- Inside a block, before an item or the end of the block. -/
  | item
  /-- Before the name of a variable to declare. -/
  | variableName (ty : Ty)
  /-- After the name or a size of a variable to declare. -/
  | declarator (d : Declarator)
  /-- After the opening bracket of a size. -/
  | size (d : Declarator)
  /-- After a size. -/
  | sizeClose (d : Declarator)
  /-- After the name of a variable to assign to. -/
  | assignSign (a : Assignee)
  /-- Before an operand. -/
  | operand (a : Assignee) (context : OperandContext)
  /-- After an operand. -/
  | operator (a : Assignee) (o : Operation)
  /-- After the main block. -/
  | finish
deriving DecidableEq, Repr

/-- What an accepted token does once the next one is known to be there. -/
inductive Effect where
  /-- Nothing but go on at this place. -/
  | goTo (p : Point)
  /-- Declare the function with this name. -/
  | nameFunction (ty : Ty) (name : Located String)
  /-- Begin the body of this function. -/
  | beginFunction (ty : Ty) (name : Located String)
  /-- Begin the main block. -/
  | beginMain
  /-- Open a block whose brace stands here. -/
  | openBlock (brace : Position)
  /-- Close the innermost block. -/
  | closeBlock
  /-- Refuse a variable that the block already declares. -/
  | nameVariable (ty : Ty) (name : Located String)
  /-- Refuse a size that is not positive. -/
  | addSize (d : Declarator) (size : Located String)
  /-- Resolve the variable to assign to. -/
  | nameAssignee (name : Located String)
  /-- Resolve an operand. -/
  | readOperand (a : Assignee) (context : OperandContext) (name : Located String)
  /-- Add an assignment to the program. -/
  | assign (target : Variable) (value : Expr)
deriving DecidableEq, Repr

/-- The names and the program as far as they have been read, and the number of
open blocks. -/
structure Reader where
  nesting : Nat
  scopes : Scopes
  builder : Builder
deriving DecidableEq, Repr

def Reader.new : Reader := ⟨0, .new, .empty⟩

namespace Point

/-- The classes of the tokens that may stand at a place. -/
def expected : Point → ClassSet
  | .top => .ofList [.double, .int, .main]
  | .functionName _ => .ofList [.name]
  | .functionOpen _ _ => .ofList [.openParen]
  | .functionClose _ _ => .ofList [.closeParen]
  | .mainOpen => .ofList [.openParen]
  | .mainClose => .ofList [.closeParen]
  | .body => .ofList [.openBrace]
  | .item => .ofList [.openBrace, .closeBrace, .double, .int, .name]
  | .variableName _ => .ofList [.name]
  | .declarator _ => .ofList [.semicolon, .comma, .openBracket]
  | .size _ => .ofList [.integer]
  | .sizeClose _ => .ofList [.closeBracket]
  | .assignSign _ => .ofList [.assign]
  | .operand _ _ => .ofList [.integer, .name, .real]
  | .operator _ _ => .ofList [.multiplicative, .additive, .semicolon]
  | .finish => .ofList [.endOfText]

end Point

namespace Reader

/-- Refuse a token that may not stand at a place. -/
def unexpected {α : Type} (p : Point) (t : Located Token) : Traced α :=
  .fail (.syntactic ⟨t.position, .unexpectedToken t.value p.expected⟩)

/-- Declare the variable that has been read, and go on after it. -/
def declare (r : Reader) (d : Declarator) (e : Effect) : Traced (Reader × Effect) := do
  let (symbol, declaration, scopes) ← Traced.check (r.scopes.declareVariable d.name d.ty d.sizes)
  Traced.emit (.declared symbol)
  return ({ r with scopes := scopes, builder := r.builder.declare declaration }, e)

/-- Accept the token that stands at a place, or refuse it. -/
def take (r : Reader) (p : Point) (t : Located Token) : Traced (Reader × Effect) :=
  match p, t.value with
  | .top, .keyword .int => return (r, .goTo (.functionName .int))
  | .top, .keyword .double => return (r, .goTo (.functionName .real))
  | .top, .keyword .main => return (r, .goTo .mainOpen)
  | .functionName ty, .name name => return (r, .nameFunction ty ⟨t.position, name⟩)
  | .functionOpen ty name, .mark .openParen => return (r, .goTo (.functionClose ty name))
  | .functionClose ty name, .mark .closeParen => return (r, .beginFunction ty name)
  | .mainOpen, .mark .openParen => return (r, .goTo .mainClose)
  | .mainClose, .mark .closeParen => return (r, .beginMain)
  | .body, .mark .openBrace => return (r, .openBlock t.position)
  | .item, .mark .openBrace => return (r, .openBlock t.position)
  | .item, .mark .closeBrace => return (r, .closeBlock)
  | .item, .keyword .int => return (r, .goTo (.variableName .int))
  | .item, .keyword .double => return (r, .goTo (.variableName .real))
  | .item, .name name => return (r, .nameAssignee ⟨t.position, name⟩)
  | .variableName ty, .name name => return (r, .nameVariable ty ⟨t.position, name⟩)
  | .declarator d, .mark .openBracket => return (r, .goTo (.size d))
  | .declarator d, .mark .comma => r.declare d (.goTo (.variableName d.ty))
  | .declarator d, .mark .semicolon => r.declare d (.goTo .item)
  | .size d, .integer size => return (r, .addSize d ⟨t.position, size⟩)
  | .sizeClose d, .mark .closeBracket => return (r, .goTo (.declarator d))
  | .assignSign a, .mark .assign => return (r, .goTo (.operand a .first))
  | .operand a context, .integer lexeme =>
    return (r, .goTo (.operator a (context.supply (.integer lexeme))))
  | .operand a context, .real lexeme =>
    return (r, .goTo (.operator a (context.supply (.real lexeme))))
  | .operand a context, .name name => return (r, .readOperand a context ⟨t.position, name⟩)
  | .operator a o, .mark .times => return (r, .goTo (.operand a (.factor o.before o.last false)))
  | .operator a o, .mark .slash => return (r, .goTo (.operand a (.factor o.before o.last true)))
  | .operator a o, .mark .plus => return (r, .goTo (.operand a (.term o.toExpr .add)))
  | .operator a o, .mark .minus => return (r, .goTo (.operand a (.term o.toExpr .sub)))
  | .operator a o, .mark .semicolon => do
    Traced.check (checkAssignment a.name a.target o.toExpr)
    return (r, .assign a.target o.toExpr)
  | p, _ => unexpected p t

/-- Open a block, unless too many are open. -/
def openBlock (r : Reader) (brace : Position) : Traced (Reader × Point) := do
  if r.nesting = maxNesting then
    Traced.fail (.syntactic ⟨brace, .tooDeep⟩)
  else
    Traced.emit (.opening r.scopes.depth r.scopes.nextBlock)
    return (⟨r.nesting + 1, r.scopes.openFrame, r.builder.openBlock⟩, .item)

/-- The place after a closed block, which may have completed a subprogram. -/
def afterBlock : Option Heading → Point
  | none => .item
  | some (.function _ _) => .top
  | some .main => .finish

def closeBlock (r : Reader) : Traced (Reader × Point) := do
  match r.builder.completes with
  | none => pure ()
  | some h => Traced.emit (.completed h)
  let scopes := r.scopes.closeFrame
  Traced.emit (.closing scopes.depth r.scopes.current.block r.scopes.current.names)
  return (⟨r.nesting - 1, scopes, r.builder.closeBlock⟩, afterBlock r.builder.completes)

/-- Settle what the last accepted token does, and find the place after it. -/
def settle (r : Reader) : Effect → Traced (Reader × Point)
  | .goTo p => return (r, p)
  | .nameFunction ty name => do
    let (symbol, scopes) ← Traced.check (r.scopes.declare name .function ty)
    Traced.emit (.declared symbol)
    return ({ r with scopes := scopes }, .functionOpen ty name)
  | .beginFunction ty name => do
    Traced.emit (.functionHeading name)
    return ({ r with builder := r.builder.start (.function name.value ty) }, .body)
  | .beginMain => do
    Traced.emit .mainHeading
    return ({ r with builder := r.builder.start .main }, .body)
  | .openBlock brace => r.openBlock brace
  | .closeBlock => r.closeBlock
  | .nameVariable ty name => do
    Traced.check (r.scopes.checkUndeclared name)
    return (r, .declarator ⟨ty, name, []⟩)
  | .addSize d size => do
    Traced.check (checkSize size)
    return (r, .sizeClose { d with sizes := d.sizes ++ [size.value] })
  | .nameAssignee name => do
    let target ← Traced.check (r.scopes.resolve name)
    return (r, .assignSign ⟨name, target⟩)
  | .readOperand a context name => do
    let v ← Traced.check (r.scopes.resolve name)
    return (r, .operator a (context.supply (.read v)))
  | .assign target value =>
    return ({ r with builder := r.builder.assign target value }, .item)

/-- Read the tokens of a stream, the last accepted one having yet to take effect,
up to the end of the program or the first fault. -/
def run (r : Reader) (e : Effect) : TokenStream → Traced Reader
  | .token t rest => do
    Traced.emit (.token t)
    let (r, p) ← r.settle e
    let (r, e) ← r.take p t
    r.run e rest
  | .done position => do
    let (r, p) ← r.settle e
    if TokenClass.endOfText ∈ p.expected then return r
    else unexpected p ⟨position, .endOfText⟩
  | .failure e => .fail (.lexical e)

end Reader

def Scanner.program (s : Scanner) : Traced Program := do
  let r ← Reader.new.run (.goTo .top) s.stream
  return r.builder.program

def readProgram (source : String) : Traced Program :=
  (Scanner.ofText source).program

end BlockLang
