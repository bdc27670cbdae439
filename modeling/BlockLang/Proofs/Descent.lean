import BlockLang.Proofs.CharacterSteps
import BlockLang.Trace

/-!
# Reading by recursive descent

`Descent.parse` reads a program with one procedure for each rule of the grammar and one token of
lookahead, on top of the character machine `Lexer`. It is written without regard to what can happen:
wherever it relies on something that it does not test, the other case is there and leads to a
`DeadEnd`. The stack of frames is a plain list that may be empty, the number of open blocks may be
0 when one closes, and a variable that passed the test for a new name is tested again when it is
declared. Every loop is bounded by `fuel`.

A run leaves records and may be refused, as any run of a reader; apart from that it may get stuck.
-/

namespace BlockLang

/-- A case for which the descent has no provision. -/
inductive DeadEnd where
  /-- The state of the lexer was thought to hold a token. -/
  | lexer
  /-- A token of the class of the names is no name. -/
  | name
  /-- A token of a class of literals is no literal. -/
  | literal
  /-- A name is declared where there is not even the global frame. -/
  | frame
  /-- A block closes and none is open. -/
  | nesting
  /-- A variable that was found to be new is in the frame. -/
  | redeclared
deriving DecidableEq, Repr

/-- Why a descent does not come to an end of its own. -/
inductive Stuck where
  | dead (e : DeadEnd)
  /-- The fuel is used up. -/
  | unfinished
deriving DecidableEq, Repr

/-- The frames, innermost first, and the number of the block opened last. -/
structure FrameStack where
  frames : List Frame
  blocks : Nat

namespace FrameStack

def nextBlock (s : FrameStack) : Nat := if s.frames.length = 1 then 0 else s.blocks + 1

def push (s : FrameStack) : FrameStack := ⟨.new s.nextBlock :: s.frames, s.nextBlock⟩

/-- A stack without frames has no name. -/
def checkUndeclared (s : FrameStack) (name : Located String) :
    Except (Located SemanticError) Unit :=
  match s.frames.head?.bind (fun f => f.find? name.value) with
  | some _ => .error ⟨name.position, .redeclared name.value⟩
  | none => .ok ()

def lookup (s : FrameStack) (name : String) : Option Symbol :=
  s.frames.findSome? (fun f => f.find? name)

def resolve (s : FrameStack) (name : Located String) : Except (Located SemanticError) Variable :=
  match s.lookup name.value with
  | none => .error ⟨name.position, .undeclared name.value⟩
  | some ⟨_, .scalar, ty, block⟩ => .ok ⟨name.value, block, ty⟩
  | some _ => .error ⟨name.position, .notAVariable name.value⟩

end FrameStack

structure Parser where
  lexer : Lexer
  look : Located Token
  stack : FrameStack
  builder : Builder
  nesting : Nat

/-- Only the global frame; the lookahead is yet to be read. -/
def Parser.ofStream (cs : List (Located Char)) : Parser :=
  ⟨.ofStream cs, ⟨.start, .endOfText⟩, ⟨[.new 0], 0⟩, .empty, 0⟩

abbrev Descent := StateT Parser (ExceptT Stuck Traced)

namespace Descent

variable {α : Type}

def log (r : Record) : Descent Unit := liftM (Traced.emit r)

def refuse (d : Diagnostic) : Descent α := liftM (Traced.fail d : Traced α)

def check (x : Except (Located SemanticError) α) : Descent α := liftM (Traced.check x)

def fail (expected : ClassSet) : Descent α := do
  let σ ← get
  refuse (.syntactic ⟨σ.look.position, .unexpectedToken σ.look.value expected⟩)

/-- Read the next token, and yield the one that was ahead. -/
def advance (fuel : Nat) : Descent (Located Token) := do
  let σ ← get
  match σ.lexer.next fuel with
  | .result (.token t) l =>
    log (.token t)
    set { σ with lexer := l, look := t }
    return σ.look
  | .result .done l =>
    set { σ with lexer := l, look := ⟨l.position, .endOfText⟩ }
    return σ.look
  | .result (.failure e) _ => refuse (.lexical e)
  | .dead => throw (.dead .lexer)
  | .unfinished => throw .unfinished

def expect (fuel : Nat) (expected : ClassSet) : Descent (Located Token) := do
  let σ ← get
  if σ.look.value.kind ∈ expected then advance fuel else fail expected

def name (fuel : Nat) : Descent (Located String) := do
  let t ← expect fuel (.ofList [.name])
  match t.value with
  | .name text => return ⟨t.position, text⟩
  | _ => throw (.dead .name)

def literal (fuel : Nat) (expected : ClassSet) : Descent (Located String) := do
  let t ← expect fuel expected
  match t.value with
  | .integer lexeme | .real lexeme => return ⟨t.position, lexeme⟩
  | _ => throw (.dead .literal)

def typeWord (fuel : Nat) : Descent Ty := do
  let σ ← get
  match σ.look.value with
  | .keyword .int =>
    let _ ← advance fuel
    return .int
  | .keyword .double =>
    let _ ← advance fuel
    return .real
  | _ => fail (.ofList [.double, .int])

/-! ### Expressions -/

def factor (fuel : Nat) : Descent Factor := do
  let σ ← get
  match σ.look.value with
  | .integer lexeme =>
    let _ ← advance fuel
    return .integer lexeme
  | .real lexeme =>
    let _ ← advance fuel
    return .real lexeme
  | .name _ =>
    let name ← name fuel
    let σ ← get
    let v ← check (σ.stack.resolve name)
    return .read v
  | _ => fail (.ofList [.integer, .name, .real])

/-- The further factors of a term. -/
def factors : (fuel : Nat) → Term → Descent Term
  | 0, _ => throw .unfinished
  | fuel + 1, t => do
    let σ ← get
    match σ.look.value with
    | .mark .times =>
      let _ ← advance fuel
      let f ← factor fuel
      factors fuel (t.push false f)
    | .mark .slash =>
      let _ ← advance fuel
      let f ← factor fuel
      factors fuel (t.push true f)
    | .mark .plus | .mark .minus | .mark .semicolon => return t
    | _ => fail (.ofList [.multiplicative, .additive, .semicolon])

def term (fuel : Nat) : Descent Term := do
  let f ← factor fuel
  factors fuel (.ofFactor f)

/-- The further terms of an expression. -/
def terms : (fuel : Nat) → Expr → Descent Expr
  | 0, _ => throw .unfinished
  | fuel + 1, e => do
    let σ ← get
    match σ.look.value with
    | .mark .plus =>
      let _ ← advance fuel
      let t ← term fuel
      terms fuel (e.push .add t)
    | .mark .minus =>
      let _ ← advance fuel
      let t ← term fuel
      terms fuel (e.push .sub t)
    | .mark .semicolon => return e
    | _ => fail (.ofList [.additive, .semicolon])

def expr (fuel : Nat) : Descent Expr := do
  let t ← term fuel
  terms fuel (.ofTerm t)

/-! ### Items of a block -/

def assignment (fuel : Nat) : Descent Unit := do
  let name ← name fuel
  let σ ← get
  let target ← check (σ.stack.resolve name)
  let _ ← expect fuel (.ofList [.assign])
  let value ← expr fuel
  check (checkAssignment name target value)
  let _ ← expect fuel (.ofList [.semicolon])
  modify fun σ => { σ with builder := σ.builder.assign target value }

/-- Declare a name in the innermost frame. What to do if the frame has the name depends on the
caller. -/
def declare (clash : Located SemanticError → Descent Symbol) (name : Located String)
    (kind : SymbolKind) (ty : Ty) : Descent Symbol := do
  let σ ← get
  match σ.stack.checkUndeclared name with
  | .error e => clash e
  | .ok () =>
    match σ.stack.frames with
    | [] => throw (.dead .frame)
    | f :: rest =>
      log (.declared ⟨name.value, kind, ty, f.block⟩)
      set { σ with stack := ⟨f.insert ⟨name.value, kind, ty, f.block⟩ :: rest, σ.stack.blocks⟩ }
      return ⟨name.value, kind, ty, f.block⟩

def declareFunction (name : Located String) (ty : Ty) : Descent Symbol :=
  declare (fun e => refuse (.semantic e)) name .function ty

/-- The name has been checked when it was read, so that it cannot be in the frame now. -/
def declareVariable (name : Located String) (ty : Ty) (sizes : List String) : Descent Unit := do
  let symbol ← declare (fun _ => throw (.dead .redeclared)) name (Scopes.kindOf sizes) ty
  modify fun σ =>
    { σ with builder := σ.builder.declare ⟨⟨symbol.name, symbol.block, ty⟩, sizes⟩ }

/-- The further sizes of a variable. -/
def sizes : (fuel : Nat) → List String → Descent (List String)
  | 0, _ => throw .unfinished
  | fuel + 1, before => do
    let σ ← get
    match σ.look.value with
    | .mark .openBracket =>
      let _ ← advance fuel
      let size ← literal fuel (.ofList [.integer])
      check (checkSize size)
      let _ ← expect fuel (.ofList [.closeBracket])
      sizes fuel (before ++ [size.value])
    | .mark .semicolon | .mark .comma => return before
    | _ => fail (.ofList [.semicolon, .comma, .openBracket])

def declarator (fuel : Nat) (ty : Ty) : Descent Unit := do
  let name ← name fuel
  let σ ← get
  check (σ.stack.checkUndeclared name)
  let sizes ← sizes fuel []
  declareVariable name ty sizes

/-- The further variables of a declaration. -/
def declarators : (fuel : Nat) → Ty → Descent Unit
  | 0, _ => throw .unfinished
  | fuel + 1, ty => do
    let σ ← get
    match σ.look.value with
    | .mark .comma =>
      let _ ← advance fuel
      declarator fuel ty
      declarators fuel ty
    | _ => return ()

def declaration (fuel : Nat) : Descent Unit := do
  let ty ← typeWord fuel
  declarator fuel ty
  declarators fuel ty
  let _ ← expect fuel (.ofList [.semicolon])

/-! ### Blocks -/

def openBlock (brace : Position) : Descent Unit := do
  let σ ← get
  if σ.nesting = maxNesting then refuse (.syntactic ⟨brace, .tooDeep⟩)
  else
    log (.opening σ.stack.frames.length σ.stack.nextBlock)
    set { σ with
      nesting := σ.nesting + 1, stack := σ.stack.push, builder := σ.builder.openBlock }

def finishBlock : Descent Unit := do
  let σ ← get
  match σ.builder.completes with
  | none => pure ()
  | some h => log (.completed h)
  set { σ with builder := σ.builder.closeBlock }

/-- The last frame is never closed. -/
def closeFrame : Descent Unit := do
  let σ ← get
  match σ.stack.frames with
  | f :: g :: rest =>
    log (.closing (g :: rest).length f.block f.names)
    set { σ with stack := ⟨g :: rest, σ.stack.blocks⟩ }
  | _ => return ()

def leaveBlock : Descent Unit := do
  let σ ← get
  match σ.nesting with
  | 0 => throw (.dead .nesting)
  | n + 1 => set { σ with nesting := n }

def closeBlock : Descent Unit := do
  finishBlock
  closeFrame
  leaveBlock

mutual

def block : (fuel : Nat) → Descent Unit
  | 0 => throw .unfinished
  | fuel + 1 => do
    let brace ← expect fuel (.ofList [.openBrace])
    openBlock brace.position
    items fuel
    let _ ← advance fuel
    closeBlock

/-- The items of a block up to the brace that closes it. -/
def items : (fuel : Nat) → Descent Unit
  | 0 => throw .unfinished
  | fuel + 1 => do
    let σ ← get
    match σ.look.value with
    | .mark .openBrace =>
      block fuel
      items fuel
    | .mark .closeBrace => return ()
    | .keyword .int | .keyword .double =>
      declaration fuel
      items fuel
    | .name _ =>
      assignment fuel
      items fuel
    | _ => fail (.ofList [.openBrace, .closeBrace, .double, .int, .name])

end

/-! ### Programs -/

/-- The body of this subprogram comes next. -/
def beginBody (r : Record) (h : Heading) : Descent Unit := do
  log r
  modify fun σ => { σ with builder := σ.builder.start h }

def function (fuel : Nat) : Descent Unit := do
  let ty ← typeWord fuel
  let name ← name fuel
  let _ ← declareFunction name ty
  let _ ← expect fuel (.ofList [.openParen])
  let _ ← expect fuel (.ofList [.closeParen])
  beginBody (.functionHeading name) (.function name.value ty)
  block fuel

def functions : (fuel : Nat) → Descent Unit
  | 0 => throw .unfinished
  | fuel + 1 => do
    let σ ← get
    match σ.look.value with
    | .keyword .int | .keyword .double =>
      function fuel
      functions fuel
    | .keyword .main => return ()
    | _ => fail (.ofList [.double, .int, .main])

def mainBlock (fuel : Nat) : Descent Unit := do
  let _ ← expect fuel (.ofList [.main])
  let _ ← expect fuel (.ofList [.openParen])
  let _ ← expect fuel (.ofList [.closeParen])
  beginBody .mainHeading .main
  block fuel

def program (fuel : Nat) : Descent Unit := do
  functions fuel
  mainBlock fuel
  let σ ← get
  match σ.look.value with
  | .endOfText => return ()
  | _ => fail (.ofList [.endOfText])

/-- Run a procedure from a state. -/
def outcome (x : Descent α) (σ : Parser) : Traced (Except Stuck (α × Parser)) := (x.run σ).run

/-- Read a program from a stream of characters. -/
def parse (fuel : Nat) (cs : List (Located Char)) : Traced (Except Stuck Program) := do
  let result ← outcome (do let _ ← advance fuel; program fuel) (.ofStream cs)
  return result.map (fun x => x.2.builder.program)

end Descent

end BlockLang
