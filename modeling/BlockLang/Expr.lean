/-! # Types and expressions

An expression is a sum of terms and a term a product of factors; neither nests.
A name is kept with the block that declares it and its type, and a division
already says whether it is a division of integers: it is one as long as every
factor of the term up to it is an integer. Literals stay lexemes, so that no
number is ever converted. -/

namespace BlockLang

inductive Ty where
  | int
  | real
deriving DecidableEq, Repr

/-- The type of an operation on two values: an integer only if both are. -/
def Ty.join : Ty → Ty → Ty
  | .int, .int => .int
  | _, _ => .real

/-- A declared variable: its name, the block of its subprogram that declares it,
and its type. The body of a subprogram is block 0, and the blocks inside it are
numbered from 1 in the order in which they open. -/
structure Variable where
  name : String
  block : Nat
  ty : Ty
deriving DecidableEq, Repr

inductive Operator where
  | add
  | sub
  | mul
  | div
  | intDiv
deriving DecidableEq, Repr

inductive Factor where
  | integer (lexeme : String)
  | real (lexeme : String)
  | read (v : Variable)
deriving DecidableEq, Repr

def Factor.ty : Factor → Ty
  | .integer _ => .int
  | .real _ => .real
  | .read v => v.ty

/-- A product: a first factor and the further ones, each after its operator. -/
structure Term where
  head : Factor
  tail : List (Operator × Factor)
deriving DecidableEq, Repr

/-- A sum: a first term and the further ones, each after its operator. -/
structure Expr where
  head : Term
  tail : List (Operator × Term)
deriving DecidableEq, Repr

namespace Term

def ofFactor (f : Factor) : Term := ⟨f, []⟩

def ty (t : Term) : Ty :=
  t.tail.foldl (fun ty step => ty.join step.2.ty) t.head.ty

/-- The operator that joins a factor to a term: a division is one of integers
only if the term so far and the factor are integers. -/
def operator (t : Term) (divide : Bool) (f : Factor) : Operator :=
  match divide, t.ty, f.ty with
  | false, _, _ => .mul
  | true, .int, .int => .intDiv
  | true, _, _ => .div

/-- Multiply or divide by one more factor. -/
def push (t : Term) (divide : Bool) (f : Factor) : Term :=
  ⟨t.head, t.tail ++ [(t.operator divide f, f)]⟩

/-- The factors, each with the operator before it; the first one follows `lead`. -/
def factors (lead : Option Operator) (t : Term) : List (Option Operator × Factor) :=
  (lead, t.head) :: t.tail.map (fun step => (some step.1, step.2))

@[simp] theorem ty_ofFactor (f : Factor) : (ofFactor f).ty = f.ty := rfl

@[simp] theorem ty_push (t : Term) (divide : Bool) (f : Factor) :
    (t.push divide f).ty = t.ty.join f.ty := by
  simp [ty, push]

end Term

namespace Expr

def ofTerm (t : Term) : Expr := ⟨t, []⟩

def ty (e : Expr) : Ty :=
  e.tail.foldl (fun ty step => ty.join step.2.ty) e.head.ty

def push (e : Expr) (op : Operator) (t : Term) : Expr :=
  ⟨e.head, e.tail ++ [(op, t)]⟩

/-- All factors in order, each with the operator before it. -/
def factors (e : Expr) : List (Option Operator × Factor) :=
  e.head.factors none ++ e.tail.flatMap (fun step => step.2.factors (some step.1))

@[simp] theorem ty_ofTerm (t : Term) : (ofTerm t).ty = t.ty := rfl

@[simp] theorem ty_push (e : Expr) (op : Operator) (t : Term) :
    (e.push op t).ty = e.ty.join t.ty := by
  simp [ty, push]

end Expr

end BlockLang
