import BlockLang.Reading

/-!
# Derivations of the grammar

The grammar has twelve rules, with tokens in quotes:

    Program     = Function* Main
    Function    = Type name "(" ")" Block
    Main        = "main" "(" ")" Block
    Type        = "int" | "double"
    Block       = "{" Item* "}"
    Item        = Block | Declaration | Assignment
    Declaration = Type Variable ("," Variable)* ";"
    Variable    = name ("[" integer "]")*
    Assignment  = name "=" Expr ";"
    Expr        = Term (("+" | "-") Term)*
    Term        = Factor (("*" | "/") Factor)*
    Factor      = integer | name | real

A derivation tree keeps, rule by rule, which alternative was taken and what the
names and literals are. `tokens` is the word that a tree derives, and a sentence
is a word derived by some tree of `Program`.
-/

namespace BlockLang

inductive FactorTree where
  | integer (lexeme : String)
  | name (text : String)
  | real (lexeme : String)

/-- Factors after the first are divided by where the flag is set, and multiplied
by where it is not. -/
structure TermTree where
  head : FactorTree
  tail : List (Bool × FactorTree)

/-- Terms after the first are subtracted where the flag is set, and added where
it is not. -/
structure ExprTree where
  head : TermTree
  tail : List (Bool × TermTree)

structure AssignmentTree where
  target : String
  value : ExprTree

structure VariableTree where
  name : String
  sizes : List String

structure DeclarationTree where
  ty : Ty
  first : VariableTree
  more : List VariableTree

/-- The items of a block, in order. -/
inductive ItemTree where
  | nil
  | declare (d : DeclarationTree) (rest : ItemTree)
  | assign (a : AssignmentTree) (rest : ItemTree)
  | block (inner : ItemTree) (rest : ItemTree)

structure FunctionTree where
  returns : Ty
  name : String
  body : ItemTree

structure ProgramTree where
  functions : List FunctionTree
  main : ItemTree

/-! ### The word of a tree -/

def Ty.token : Ty → Token
  | .int => .keyword .int
  | .real => .keyword .double

def FactorTree.token : FactorTree → Token
  | .integer lexeme => .integer lexeme
  | .name text => .name text
  | .real lexeme => .real lexeme

def mulToken (divide : Bool) : Token := .mark (if divide then .slash else .times)

def addToken (subtract : Bool) : Token := .mark (if subtract then .minus else .plus)

def factorTokens (step : Bool × FactorTree) : List Token := [mulToken step.1, step.2.token]

def TermTree.tokens (t : TermTree) : List Token := t.head.token :: t.tail.flatMap factorTokens

def termTokens (step : Bool × TermTree) : List Token := addToken step.1 :: step.2.tokens

def ExprTree.tokens (e : ExprTree) : List Token := e.head.tokens ++ e.tail.flatMap termTokens

def AssignmentTree.tokens (a : AssignmentTree) : List Token :=
  .name a.target :: .mark .assign :: (a.value.tokens ++ [.mark .semicolon])

def sizeTokens (size : String) : List Token :=
  [.mark .openBracket, .integer size, .mark .closeBracket]

def VariableTree.tokens (v : VariableTree) : List Token :=
  .name v.name :: v.sizes.flatMap sizeTokens

def moreTokens (v : VariableTree) : List Token := .mark .comma :: v.tokens

def DeclarationTree.tokens (d : DeclarationTree) : List Token :=
  d.ty.token :: (d.first.tokens ++ d.more.flatMap moreTokens ++ [.mark .semicolon])

/-- Items between braces. -/
def braced (items : List Token) : List Token :=
  .mark .openBrace :: (items ++ [.mark .closeBrace])

def ItemTree.tokens : ItemTree → List Token
  | .nil => []
  | .declare d rest => d.tokens ++ rest.tokens
  | .assign a rest => a.tokens ++ rest.tokens
  | .block inner rest => braced inner.tokens ++ rest.tokens

def FunctionTree.tokens (f : FunctionTree) : List Token :=
  f.returns.token :: .name f.name :: .mark .openParen :: .mark .closeParen ::
    braced f.body.tokens

/-- The main block with its heading. -/
def mainTokens (main : ItemTree) : List Token :=
  .keyword .main :: .mark .openParen :: .mark .closeParen :: braced main.tokens

def ProgramTree.tokens (p : ProgramTree) : List Token :=
  p.functions.flatMap FunctionTree.tokens ++ mainTokens p.main

/-- A word that the grammar derives from `Program`. -/
def Sentence (ts : List Token) : Prop := ∃ tree : ProgramTree, tree.tokens = ts

/-! ### The classes of tokens in a tree -/

/-- The classes of the tokens that make up an assignment. -/
def assignmentKinds : List TokenClass :=
  [.name, .integer, .real, .multiplicative, .additive, .assign, .semicolon]

theorem TermTree.kind_of_mem {t : TermTree} {u : Token} (h : u ∈ t.tokens) :
    u.kind ∈ assignmentKinds := by
  have hfactor : ∀ f : FactorTree, f.token.kind ∈ assignmentKinds := by
    intro f
    cases f <;> simp [FactorTree.token, Token.kind, assignmentKinds]
  rcases List.mem_cons.mp h with rfl | htail
  · exact hfactor t.head
  · obtain ⟨⟨divide, f⟩, -, hstep⟩ := List.mem_flatMap.mp htail
    rcases List.mem_cons.mp hstep with rfl | hf
    · cases divide <;> simp [mulToken, Token.kind, assignmentKinds]
    · rw [List.mem_singleton.mp hf]
      exact hfactor f

theorem AssignmentTree.kind_of_mem {a : AssignmentTree} {u : Token} (h : u ∈ a.tokens) :
    u.kind ∈ assignmentKinds := by
  rcases List.mem_cons.mp h with rfl | h
  · simp [Token.kind, assignmentKinds]
  rcases List.mem_cons.mp h with rfl | h
  · simp [Token.kind, assignmentKinds]
  rcases List.mem_append.mp h with hvalue | hend
  · rcases List.mem_append.mp hvalue with hhead | htail
    · exact TermTree.kind_of_mem hhead
    · obtain ⟨⟨subtract, t⟩, -, hstep⟩ := List.mem_flatMap.mp htail
      rcases List.mem_cons.mp hstep with rfl | ht
      · cases subtract <;> simp [addToken, Token.kind, assignmentKinds]
      · exact TermTree.kind_of_mem ht
  · rw [List.mem_singleton.mp hend]
    simp [Token.kind, assignmentKinds]

theorem VariableTree.kind_of_mem {v : VariableTree} {u : Token} (h : u ∈ v.tokens) :
    u.kind ∈ [.name, .integer, .openBracket, .closeBracket] := by
  rcases List.mem_cons.mp h with rfl | hsizes
  · simp [Token.kind]
  · obtain ⟨size, -, hsize⟩ := List.mem_flatMap.mp hsizes
    simp only [sizeTokens, List.mem_cons, List.not_mem_nil, or_false] at hsize
    rcases hsize with rfl | rfl | rfl <;> simp [Token.kind]

end BlockLang
