import BlockLang.Token

/-! # Token classes

The grammar looks at a token only through its class: the two multiplicative
operators share one, the two additive ones another, and all names, all integers
and all reals are one class each. A set of classes says which tokens may come
next. Messages list its members in one fixed order, that of `TokenClass.all`. -/

namespace BlockLang

/-- What the grammar sees of a token. -/
inductive TokenClass where
  | openParen
  | closeParen
  | multiplicative
  | additive
  | semicolon
  | comma
  | openBracket
  | closeBracket
  | assign
  | openBrace
  | closeBrace
  | double
  | int
  | main
  | integer
  | name
  | real
  | endOfText
deriving DecidableEq, Repr

def Token.kind : Token → TokenClass
  | .mark .openParen => .openParen
  | .mark .closeParen => .closeParen
  | .mark .times => .multiplicative
  | .mark .slash => .multiplicative
  | .mark .plus => .additive
  | .mark .minus => .additive
  | .mark .semicolon => .semicolon
  | .mark .comma => .comma
  | .mark .openBracket => .openBracket
  | .mark .closeBracket => .closeBracket
  | .mark .assign => .assign
  | .mark .openBrace => .openBrace
  | .mark .closeBrace => .closeBrace
  | .keyword .double => .double
  | .keyword .int => .int
  | .keyword .main => .main
  | .integer _ => .integer
  | .name _ => .name
  | .real _ => .real
  | .endOfText => .endOfText

namespace TokenClass

/-- Every class, in the order in which messages list them. -/
def all : List TokenClass :=
  [.openParen, .closeParen, .multiplicative, .additive, .semicolon, .comma,
    .openBracket, .closeBracket, .assign, .openBrace, .closeBrace, .double, .int,
    .main, .integer, .name, .real, .endOfText]

def index : TokenClass → Fin 18
  | .openParen => 0
  | .closeParen => 1
  | .multiplicative => 2
  | .additive => 3
  | .semicolon => 4
  | .comma => 5
  | .openBracket => 6
  | .closeBracket => 7
  | .assign => 8
  | .openBrace => 9
  | .closeBrace => 10
  | .double => 11
  | .int => 12
  | .main => 13
  | .integer => 14
  | .name => 15
  | .real => 16
  | .endOfText => 17

/-- How messages name a class. -/
def spelling : TokenClass → String
  | .openParen => "("
  | .closeParen => ")"
  | .multiplicative => "* /"
  | .additive => "+ -"
  | .semicolon => ";"
  | .comma => ","
  | .openBracket => "["
  | .closeBracket => "]"
  | .assign => "="
  | .openBrace => "\x7b"
  | .closeBrace => "\x7d"
  | .double => "'double'"
  | .int => "'int'"
  | .main => "'main'"
  | .integer => "numero entero"
  | .name => "identificador"
  | .real => "numero real"
  | .endOfText => "fin de fichero"

theorem mem_all (k : TokenClass) : k ∈ all := by
  cases k <;> decide

end TokenClass

/-- A set of token classes, one bit each. -/
structure ClassSet where
  bits : BitVec 18
deriving DecidableEq, Repr

namespace ClassSet

def contains (s : ClassSet) (k : TokenClass) : Bool := s.bits.getLsbD k.index

instance : Membership TokenClass ClassSet := ⟨fun s k => s.contains k = true⟩

instance (k : TokenClass) (s : ClassSet) : Decidable (k ∈ s) :=
  inferInstanceAs (Decidable (s.contains k = true))

def empty : ClassSet := ⟨0⟩

def singleton (k : TokenClass) : ClassSet := ⟨BitVec.twoPow 18 k.index⟩

def union (s t : ClassSet) : ClassSet := ⟨s.bits ||| t.bits⟩

def ofList (ks : List TokenClass) : ClassSet :=
  ks.foldr (fun k s => (singleton k).union s) empty

/-- The set whose bits are those of a number, if it has no others. -/
def ofNat? (n : Nat) : Option ClassSet :=
  if n < 1 <<< 18 then some ⟨BitVec.ofNat 18 n⟩ else none

/-- The set whose bits are the low 18 bits of a number. -/
def truncating (n : Nat) : ClassSet := ⟨BitVec.ofNat 18 n⟩

/-- The members in the order in which messages list them. -/
def toList (s : ClassSet) : List TokenClass := TokenClass.all.filter s.contains

/-- The members as messages list them, each followed by a space. -/
def text (s : ClassSet) : String :=
  String.join (s.toList.map (fun k => k.spelling ++ " "))

@[simp] theorem not_mem_empty (k : TokenClass) : k ∉ empty := by
  cases k <;> decide

theorem mem_singleton {j k : TokenClass} : j ∈ singleton k ↔ j = k := by
  cases j <;> cases k <;> decide

theorem mem_union {k : TokenClass} {s t : ClassSet} : k ∈ s.union t ↔ k ∈ s ∨ k ∈ t := by
  show (s.bits ||| t.bits).getLsbD k.index = true ↔
    s.bits.getLsbD k.index = true ∨ t.bits.getLsbD k.index = true
  simp

@[simp] theorem mem_ofList {k : TokenClass} {ks : List TokenClass} : k ∈ ofList ks ↔ k ∈ ks := by
  induction ks with
  | nil => simp [ofList]
  | cons j rest ih =>
    have step : ofList (j :: rest) = (singleton j).union (ofList rest) := rfl
    rw [step, mem_union, mem_singleton, ih, List.mem_cons]

@[simp] theorem mem_toList {k : TokenClass} {s : ClassSet} : k ∈ s.toList ↔ k ∈ s := by
  simp only [toList, List.mem_filter, TokenClass.mem_all, true_and]
  exact Iff.rfl

end ClassSet

end BlockLang
