import BlockLang.Diagnostic
import BlockLang.Program

/-! # Scopes

The names in force are held in a stack of frames. The global frame holds the
functions and is never closed; each open block has a frame of its own inside it.
A name is looked up from the innermost frame outwards, and may be declared once
in a frame whatever the frames around it hold. -/

namespace BlockLang

/-- What a name stands for. -/
inductive SymbolKind where
  | scalar
  | array
  | function
deriving DecidableEq, Repr

structure Symbol where
  name : String
  kind : SymbolKind
  ty : Ty
  block : Nat
deriving DecidableEq, Repr

/-- The names declared in one block, in order, and the number of the block. -/
structure Frame where
  block : Nat
  symbols : List Symbol
deriving DecidableEq, Repr

namespace Frame

def new (block : Nat) : Frame := ⟨block, []⟩

def find? (f : Frame) (name : String) : Option Symbol :=
  f.symbols.find? (fun s => s.name = name)

/-- The names in the order of their declaration. -/
def names (f : Frame) : List String := f.symbols.map Symbol.name

def insert (f : Frame) (s : Symbol) : Frame := { f with symbols := f.symbols ++ [s] }

theorem find?_insert (f : Frame) (s : Symbol) (name : String) (h : f.find? name = none) :
    (f.insert s).find? name = if s.name = name then some s else none := by
  have absent : f.symbols.find? (fun s => s.name = name) = none := h
  simp only [find?, insert, List.find?_append, absent, Option.none_or]
  by_cases same : s.name = name <;> simp [same]

end Frame

/-- The frames of the open blocks, innermost first, the global frame, and the
number of the block opened last. -/
structure Scopes where
  inner : List Frame
  global : Frame
  blocks : Nat
deriving DecidableEq, Repr

namespace Scopes

/-- Only the global frame, without names. -/
def new : Scopes := ⟨[], .new 0, 0⟩

/-- The number of frames, the global one included. -/
def depth (s : Scopes) : Nat := s.inner.length + 1

def current (s : Scopes) : Frame := s.inner.headD s.global

def frames (s : Scopes) : List Frame := s.inner ++ [s.global]

/-- The number of the next block to open: 0 for the body of a subprogram, and one
more than that of the block opened last inside a body. -/
def nextBlock (s : Scopes) : Nat := if s.inner = [] then 0 else s.blocks + 1

def openFrame (s : Scopes) : Scopes :=
  { s with inner := .new s.nextBlock :: s.inner, blocks := s.nextBlock }

/-- Close the innermost frame, unless only the global one is left. -/
def closeFrame (s : Scopes) : Scopes := { s with inner := s.inner.tail }

/-- The symbol that a name stands for, that of the innermost frame that has one. -/
def lookup (s : Scopes) (name : String) : Option Symbol :=
  s.frames.findSome? (fun f => f.find? name)

/-- Refuse a name that the innermost frame already has. -/
def checkUndeclared (s : Scopes) (name : Located String) :
    Except (Located SemanticError) Unit :=
  match s.current.find? name.value with
  | some _ => .error ⟨name.position, .redeclared name.value⟩
  | none => .ok ()

def insert (s : Scopes) (symbol : Symbol) : Scopes :=
  match s.inner with
  | f :: rest => { s with inner := f.insert symbol :: rest }
  | [] => { s with global := s.global.insert symbol }

def declare (s : Scopes) (name : Located String) (kind : SymbolKind) (ty : Ty) :
    Except (Located SemanticError) (Symbol × Scopes) := do
  s.checkUndeclared name
  let symbol : Symbol := ⟨name.value, kind, ty, s.current.block⟩
  return (symbol, s.insert symbol)

def kindOf (sizes : List String) : SymbolKind :=
  if sizes = [] then .scalar else .array

/-- Declare a variable, or an array if there are sizes. -/
def declareVariable (s : Scopes) (name : Located String) (ty : Ty) (sizes : List String) :
    Except (Located SemanticError) (Symbol × Declaration × Scopes) := do
  let (symbol, s') ← s.declare name (kindOf sizes) ty
  return (symbol, ⟨⟨symbol.name, symbol.block, ty⟩, sizes⟩, s')

/-- Resolve a name that is used as a simple variable. -/
def resolve (s : Scopes) (name : Located String) : Except (Located SemanticError) Variable :=
  match s.lookup name.value with
  | none => .error ⟨name.position, .undeclared name.value⟩
  | some ⟨_, .scalar, ty, block⟩ => .ok ⟨name.value, block, ty⟩
  | some _ => .error ⟨name.position, .notAVariable name.value⟩

/-! ### What the operations do to the frames -/

@[simp] theorem depth_openFrame (s : Scopes) : s.openFrame.depth = s.depth + 1 := rfl

theorem depth_closeFrame (s : Scopes) (h : s.inner ≠ []) : s.closeFrame.depth + 1 = s.depth := by
  cases eq : s.inner with
  | nil => exact absurd eq h
  | cons f rest => simp [depth, closeFrame, eq]

@[simp] theorem frames_closeFrame_openFrame (s : Scopes) :
    s.openFrame.closeFrame.frames = s.frames := rfl

@[simp] theorem current_openFrame (s : Scopes) : s.openFrame.current = .new s.nextBlock := rfl

@[simp] theorem depth_insert (s : Scopes) (symbol : Symbol) :
    (s.insert symbol).depth = s.depth := by
  unfold insert
  split <;> simp_all [depth]

@[simp] theorem current_insert (s : Scopes) (symbol : Symbol) :
    (s.insert symbol).current = s.current.insert symbol := by
  unfold insert
  split <;> simp_all [current]

end Scopes

/-- Refuse the size of an array unless some digit of it differs from 0. No number
is formed, so that sizes have no bound. -/
def checkSize (size : Located String) : Except (Located SemanticError) Unit :=
  if size.value.toList.any (fun c => c ≠ '0') then .ok ()
  else .error ⟨size.position, .nonPositiveSize size.value⟩

/-- Refuse a real value for an integer variable. -/
def checkAssignment (name : Located String) (target : Variable) (value : Expr) :
    Except (Located SemanticError) Unit :=
  match target.ty, value.ty with
  | .int, .real => .error ⟨name.position, .expectedReal name.value⟩
  | _, _ => .ok ()

end BlockLang
