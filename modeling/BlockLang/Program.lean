import BlockLang.Expr

/-! # Programs

A program is a list of functions and a main block. A block holds declarations,
assignments and inner blocks in the order of the text, with every name already
resolved to its declaration. -/

namespace BlockLang

/-- The declaration of a variable, or of an array if it has sizes. The sizes are
lexemes. -/
structure Declaration where
  target : Variable
  sizes : List String
deriving DecidableEq, Repr

/-- The items of a block, in order. -/
inductive Block where
  | empty
  | declare (d : Declaration) (rest : Block)
  | assign (target : Variable) (value : Expr) (rest : Block)
  | nest (inner : Block) (rest : Block)
deriving DecidableEq, Repr

namespace Block

def append : Block → Block → Block
  | .empty, b => b
  | .declare d rest, b => .declare d (rest.append b)
  | .assign target value rest, b => .assign target value (rest.append b)
  | .nest inner rest, b => .nest inner (rest.append b)

instance : Append Block := ⟨append⟩

/-- The number of items, an inner block counting as one. -/
def size : Block → Nat
  | .empty => 0
  | .declare _ rest => rest.size + 1
  | .assign _ _ rest => rest.size + 1
  | .nest _ rest => rest.size + 1

@[simp] theorem empty_append (b : Block) : .empty ++ b = b := rfl

@[simp] theorem declare_append (d : Declaration) (rest b : Block) :
    .declare d rest ++ b = .declare d (rest ++ b) := rfl

@[simp] theorem assign_append (target : Variable) (value : Expr) (rest b : Block) :
    .assign target value rest ++ b = .assign target value (rest ++ b) := rfl

@[simp] theorem nest_append (inner rest b : Block) :
    .nest inner rest ++ b = .nest inner (rest ++ b) := rfl

@[simp] theorem append_empty (b : Block) : b ++ .empty = b := by
  induction b with
  | empty => rfl
  | declare d rest ih => simp [ih]
  | assign target value rest ih => simp [ih]
  | nest inner rest _ ih => simp [ih]

theorem append_assoc (a b c : Block) : a ++ b ++ c = a ++ (b ++ c) := by
  induction a with
  | empty => rfl
  | declare d rest ih => simp [ih]
  | assign target value rest ih => simp [ih]
  | nest inner rest _ ih => simp [ih]

end Block

/-- A function without parameters. -/
structure Function where
  name : String
  returns : Ty
  body : Block
deriving DecidableEq, Repr

/-- Functions in order, then the main block. -/
structure Program where
  functions : List Function
  main : Block
deriving DecidableEq, Repr

/-- No functions and an empty main block. -/
def Program.empty : Program := ⟨[], .empty⟩

end BlockLang
