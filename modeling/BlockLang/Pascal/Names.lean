import BlockLang.Program

/-! # Names in Pascal

Pascal ignores the case of letters and reserves words that a program may use as
names. So every name of a listing is claimed in a `Namespace`, which knows the
names already taken, ignoring case, and hands out the first free one of
`base`, `base_1`, `base_2` and so on.

At most as many candidates are taken as there are names taken, so the search for
a free one needs no more steps than that. -/

namespace BlockLang.Pascal

/-- The words that no name may be. -/
def reserved : List String :=
  ["and", "array", "begin", "case", "const", "div", "do", "downto", "else", "end",
    "file", "for", "function", "goto", "if", "in", "integer", "label", "mod", "nil",
    "not", "of", "or", "packed", "procedure", "program", "real", "record", "repeat",
    "set", "then", "to", "type", "until", "var", "while", "with"]

/-- A name with its ASCII letters in lower case. Two names clash if these agree. -/
def fold (name : String) : String := String.ofList (name.toList.map Char.toLower)

/-- The names taken, folded, and the output name of each declared variable, the
latest binding first. -/
structure Namespace where
  taken : List String
  bound : List ((String × Nat) × String)
deriving DecidableEq, Repr

def numbered (base : String) (k : Nat) : String := base ++ "_" ++ toString k

/-- The `k`-th name to try: the base itself, then the base with numbers from 1. -/
def candidate (base : String) (k : Nat) : String :=
  if k = 0 then base else numbered base k

namespace Namespace

/-- Only the reserved words are taken. -/
def new : Namespace := ⟨reserved.map fold, []⟩

def isFree (n : Namespace) (name : String) : Bool := fold name ∉ n.taken

/-- The first free candidate from the `k`-th on, after at most `steps` that are
taken. -/
def firstFree (n : Namespace) (base : String) : (steps : Nat) → (k : Nat) → String
  | 0, k => candidate base k
  | steps + 1, k =>
    if n.isFree (candidate base k) then candidate base k else n.firstFree base steps (k + 1)

def freeName (n : Namespace) (base : String) : String := n.firstFree base n.taken.length 0

def claim (n : Namespace) (base : String) : String × Namespace :=
  (n.freeName base, { n with taken := fold (n.freeName base) :: n.taken })

/-- The base of a variable's output name: its name, with the number of its block
if that is not the body. -/
def baseName (v : Variable) : String :=
  if v.block = 0 then v.name else numbered v.name v.block

def bind (n : Namespace) (v : Variable) : String × Namespace :=
  let (name, n) := n.claim (baseName v)
  (name, { n with bound := ((v.name, v.block), name) :: n.bound })

/-- The output name of a variable, or its own name if it is not declared. -/
def resolve (n : Namespace) (v : Variable) : String :=
  (n.bound.lookup (v.name, v.block)).getD v.name

end Namespace

end BlockLang.Pascal
