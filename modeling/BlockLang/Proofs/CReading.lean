import BlockLang.Proofs.CWords
import BlockLang.Proofs.Precedence
import Mathlib.Data.List.Forall2
import Mathlib.Data.List.Nodup

/-!
# Reading a C listing

`Body.meaning?` reads a listed block by the rules of C. A name stands for its latest declaration
in the blocks around it, tight operators bind before the others and group from the left, and a
slash divides integers exactly if both of its operands are of type `int`. Nothing of the program
is used in reading but its listing, and the meaning found is that of the program
(`meaning?_ofBlock`): no listed name hides another that the program keeps apart.
-/

namespace BlockLang.C

/-! ### The rules of C -/

/-- The variable that a name stands for, where the scope lists the declarations in force, the
latest first. An array is no operand. -/
def resolve (scope : List Declaration) (name : String) : Option Variable :=
  match scope.find? (fun d => d.target.name = name) with
  | some ⟨v, []⟩ => some v
  | _ => none

def Sign.tight : Sign → Bool
  | .plus => false
  | .minus => false
  | .times => true
  | .slash => true

/-- An operation is of type `int` if both operands are. -/
def operationType (left right : Ty) : Ty := if left = .int ∧ right = .int then .int else .real

/-- The static type of an expression. -/
def typeOf (value : Tree Operator Factor) : Ty := value.eval (fun _ => operationType) Factor.ty

/-- The operation of a sign between operands of these types. -/
def Sign.operator : Sign → Ty → Ty → Operator
  | .plus, _, _ => .add
  | .minus, _, _ => .sub
  | .times, _, _ => .mul
  | .slash, left, right => if left = .int ∧ right = .int then .intDiv else .div

def Operand.meaning? (scope : List Declaration) : Operand → Option Factor
  | .integer digits => some (.integer digits)
  | .real lexeme => some (.real lexeme)
  | .variable name => (resolve scope name).map .read

def treeMeaning? (scope : List Declaration) : Tree Sign Operand → Option (Tree Operator Factor)
  | .leaf o => (o.meaning? scope).map .leaf
  | .node sign left right => do
    let left ← treeMeaning? scope left
    let right ← treeMeaning? scope right
    some (.node (sign.operator (typeOf left) (typeOf right)) left right)

def Formula.meaning? (scope : List Declaration) (value : Formula) :
    Option (Tree Operator Factor) :=
  (Tree.ofSteps? Sign.tight value).bind (treeMeaning? scope)

/-- The items of a block with names resolved and expressions grouped. -/
inductive Meaning where
  | empty
  | declare (d : Declaration) (rest : Meaning)
  | assign (target : Variable) (value : Tree Operator Factor) (rest : Meaning)
  | nest (inner rest : Meaning)

/-- How many blocks a listed block holds, at any depth. -/
def Body.groups : Body → Nat
  | .empty => 0
  | .declare _ _ _ rest => rest.groups
  | .assign _ _ rest => rest.groups
  | .group inner rest => inner.groups + 1 + rest.groups

/-- The meaning of the items of a block of this number, where the blocks inside it are numbered
from `next` in the order in which they open. A declaration is in force up to the end of its
block. -/
def Body.meaning? (scope : List Declaration) (block next : Nat) : Body → Option Meaning
  | .empty => some .empty
  | .declare ty name sizes rest => do
    let d : Declaration := ⟨⟨name, block, ty⟩, sizes⟩
    let rest ← rest.meaning? (d :: scope) block next
    some (.declare d rest)
  | .assign target value rest => do
    let target ← resolve scope target
    let value ← Formula.meaning? scope value
    let rest ← rest.meaning? scope block next
    some (.assign target value rest)
  | .group inner rest => do
    let first ← inner.meaning? scope next (next + 1)
    let rest ← rest.meaning? scope block (next + (inner.groups + 1))
    some (.nest first rest)

/-- The names declared directly in a listed block. -/
def Body.declared : Body → List String
  | .empty => []
  | .declare _ name _ rest => name :: rest.declared
  | .assign _ _ rest => rest.declared
  | .group _ rest => rest.declared

/-- The blocks inside a listed block, at any depth. -/
def Body.inner : Body → List Body
  | .empty => []
  | .declare _ _ _ rest => rest.inner
  | .assign _ _ rest => rest.inner
  | .group inner rest => inner :: (inner.inner ++ rest.inner)

end BlockLang.C

/-! ### What a program means, in the words of its listing -/

namespace BlockLang

/-- The variable under its listed name. -/
def Variable.listed (v : Variable) : Variable := ⟨C.outputName v.name, v.block, v.ty⟩

def Factor.listed : Factor → Factor
  | .integer lexeme => .integer (C.outputInteger lexeme)
  | .real lexeme => .real lexeme
  | .read v => .read v.listed

/-- The items of a block as the program has them, with listed names and integers. -/
def Block.meaning : Block → C.Meaning
  | .empty => .empty
  | .declare d rest => .declare ⟨d.target.listed, d.sizes.map C.outputInteger⟩ rest.meaning
  | .assign target value rest =>
    .assign target.listed (value.tree.map id Factor.listed) rest.meaning
  | .nest inner rest => .nest inner.meaning rest.meaning

end BlockLang

namespace BlockLang.C

/-! ### Expressions -/

theorem typeOf_listed (t : Tree Operator Factor) : typeOf (t.map id Factor.listed) = typeOf t := by
  have hfactor : (fun f : Factor => f.listed.ty) = Factor.ty := by
    funext f
    cases f <;> rfl
  rw [typeOf, Tree.eval_map, hfactor]
  rfl

theorem operationType_eq_join : operationType = Ty.join := by
  funext left right
  cases left <;> cases right <;> rfl

theorem typeOf_term (t : Term) : typeOf t.tree = t.ty := by
  rw [typeOf, operationType_eq_join, Term.tree, Tree.eval_foldl Tree.leaf]
  rfl

/-- Every operation is the one of its sign between operands of these types. -/
def Typed : Tree Operator Factor → Prop
  | .leaf _ => True
  | .node op left right =>
    (Sign.ofOperator op).operator (typeOf left) (typeOf right) = op ∧ Typed left ∧ Typed right

theorem typed_term {t : Term} (h : t.Built) : Typed t.tree := by
  induction h with
  | ofFactor f => exact trivial
  | @push t h divide f ih =>
    have htree : (t.push divide f).tree = .node (t.operator divide f) t.tree (.leaf f) := by
      simp [Term.tree, Term.push]
    have hleaf : typeOf (.leaf f) = f.ty := rfl
    rw [htree]
    refine ⟨?_, ih, trivial⟩
    rw [typeOf_term, hleaf]
    unfold Term.operator
    cases divide
    · rfl
    · cases t.ty <;> cases f.ty <;> rfl

theorem typed_expr {e : Expr} (h : e.Built) : Typed e.tree := by
  induction h with
  | ofTerm h => exact typed_term h
  | @push e t he subtract ht ih =>
    have htree : (e.push (addOperator subtract) t).tree =
        .node (addOperator subtract) e.tree t.tree := by
      simp [Expr.tree, Expr.push]
    rw [htree]
    refine ⟨?_, ih, typed_term ht⟩
    cases subtract <;> rfl

theorem treeMeaning?_map {scope : List Declaration} {t : Tree Operator Factor} (htyped : Typed t)
    (hleaves : ∀ f ∈ t.leaves, (Operand.ofFactor f).meaning? scope = some f.listed) :
    treeMeaning? scope (t.map .ofOperator .ofFactor) = some (t.map id Factor.listed) := by
  induction t with
  | leaf f =>
    have hf := hleaves f (List.mem_singleton.mpr rfl)
    rw [Tree.map, treeMeaning?, hf]
    rfl
  | node op left right ihLeft ihRight =>
    obtain ⟨hop, htypedLeft, htypedRight⟩ := htyped
    obtain ⟨hleft, hright⟩ := List.forall_mem_append.mp hleaves
    rw [Tree.map, treeMeaning?, ihLeft htypedLeft hleft, ihRight htypedRight hright,
      Option.bind_eq_bind, Option.bind_some, Option.bind_some, typeOf_listed, typeOf_listed, hop]
    rfl

theorem meaning?_ofExpr {scope : List Declaration} {value : Expr} (h : value.Built)
    (hreads : ∀ v ∈ value.reads, resolve scope (outputName v.name) = some v.listed) :
    (Formula.ofExpr value).meaning? scope = some (value.tree.map id Factor.listed) := by
  have htight : ∀ op, (Sign.ofOperator op).tight = op.tight := by
    intro op
    cases op <;> rfl
  have hleaves : ∀ f ∈ value.tree.leaves, (Operand.ofFactor f).meaning? scope = some f.listed := by
    intro f hf
    cases f with
    | integer lexeme => rfl
    | real lexeme => rfl
    | read v =>
      rw [Operand.ofFactor, Operand.meaning?, hreads v (mem_reads_of_leaf hf)]
      rfl
  rw [Formula.meaning?, Formula.ofExpr, Tree.ofSteps?_map _ htight, ofSteps?_factors h,
    Option.map_some, Option.bind_some]
  exact treeMeaning?_map (typed_expr h) hleaves

/-! ### Resolution -/

theorem resolve_cons_of_ne {d : Declaration} {scope : List Declaration} {name : String}
    (h : d.target.name ≠ name) : resolve (d :: scope) name = resolve scope name := by
  rw [resolve, List.find?_cons_of_neg (by simpa using h)]
  rfl

theorem resolve_cons_self (v : Variable) (scope : List Declaration) :
    resolve (⟨v, []⟩ :: scope) v.name = some v := by
  rw [resolve, List.find?_cons_of_pos (by simp)]

/-- The listed names resolve as the frames resolve the names of the program. -/
def Visible (s : Scopes) (scope : List Declaration) : Prop :=
  ∀ v, '_' ∉ v.name.toList → s.scalar? v.name = some v →
    resolve scope (outputName v.name) = some v.listed

section Resolution
variable {s s' : Scopes} {scope : List Declaration} {b : Block}

def listedDeclaration (d : Declaration) : Declaration :=
  ⟨d.target.listed, d.sizes.map outputInteger⟩

theorem Visible.declare (h : Visible s scope) (ty : Ty) (v : VariableTree) (fresh : s.Fresh v.name)
    (hv : '_' ∉ v.name.toList) :
    Visible (v.declare s ty) (listedDeclaration (v.declaration s ty) :: scope) := by
  intro w hw hscalar
  obtain ⟨found, hlookup, -⟩ := Scopes.lookup_of_scalar? hscalar
  have hsymbol : (s.symbol v.name (Scopes.kindOf v.sizes) ty).name = v.name := rfl
  rw [VariableTree.declare, Scopes.lookup_insert s _ fresh, hsymbol] at hlookup
  by_cases hname : v.name = w.name
  · rw [if_pos hname] at hlookup
    simp only [Scopes.symbol, Option.some.injEq, Symbol.mk.injEq] at hlookup
    obtain ⟨-, hkind, hty, hblock⟩ := hlookup
    have hsizes : v.sizes = [] := by
      by_contra hne
      rw [Scopes.kindOf, if_neg hne] at hkind
      cases hkind
    have hlisted : listedDeclaration (v.declaration s ty) = ⟨w.listed, []⟩ := by
      rw [listedDeclaration, VariableTree.declaration, hsizes, Variable.listed, Variable.listed,
        hname, hty, hblock]
      rfl
    rw [hlisted]
    exact resolve_cons_self w.listed scope
  · rw [if_neg hname] at hlookup
    have houtput : (listedDeclaration (v.declaration s ty)).target.name ≠ outputName w.name :=
      fun heq => hname (outputName_injective hv hw heq)
    rw [resolve_cons_of_ne houtput]
    refine h w hw ?_
    rw [Scopes.scalar?, hlookup]

theorem blocks_declare (s : Scopes) (ty : Ty) (v : VariableTree) :
    (v.declare s ty).blocks = s.blocks ∧ (v.declare s ty).current.block = s.current.block := by
  obtain ⟨inner, global, blocks⟩ := s
  cases inner <;> exact ⟨rfl, rfl⟩

theorem blocks_variables {ty : Ty} {vs : List VariableTree}
    (h : elaborateVariables ty vs s = some (b, s')) :
    s'.blocks = s.blocks ∧ s'.current.block = s.current.block ∧ b.blocks = 0 := by
  induction vs generalizing s b with
  | nil =>
    cases h
    exact ⟨rfl, rfl, rfl⟩
  | cons v vs ih =>
    obtain ⟨-, later, hlater, rfl⟩ := elaborateVariables_cons_eq_some h
    obtain ⟨hblocks, hcurrent, hlaterBlocks⟩ := ih hlater
    obtain ⟨hblocks', hcurrent'⟩ := blocks_declare s ty v
    exact ⟨hblocks.trans hblocks', hcurrent.trans hcurrent', hlaterBlocks⟩

/-- Elaboration counts the blocks. -/
theorem blocks_of_elaborates {items : ItemTree} (h : Elaborates items s b s') (hs : s.inner ≠ []) :
    s'.blocks = s.blocks + b.blocks := by
  induction h with
  | nil s => rfl
  | declare first later ih =>
    obtain ⟨hblocks, -, hnone⟩ := blocks_variables first
    rw [ih ((elaborateVariables_around hs first).inner_ne_nil hs), hblocks, Block.blocks_append,
      hnone, Nat.zero_add]
  | assign first later ih => exact ih hs
  | @block inner rest s s₁ s' b₁ b₂ room first later ihFirst ih =>
    have hopened : s.openFrame.inner ≠ [] := List.cons_ne_nil _ _
    have hfirst : s₁.closeFrame.blocks = s.nextBlock + b₁.blocks := ihFirst hopened
    have hnext : s.nextBlock = s.blocks + 1 := if_neg hs
    have hlater := ih (Scopes.inner_closeFrame_ne_nil (first.around hopened) hs)
    have hnest : (Block.nest b₁ b₂).blocks = b₁.blocks + 1 + b₂.blocks := rfl
    omega

theorem groups_ofBlock (b : Block) : (Body.ofBlock b).groups = b.blocks := by
  induction b with
  | empty => rfl
  | declare d rest ih => exact ih
  | assign target value rest ih => exact ih
  | nest inner rest ihInner ih => rw [Body.ofBlock, Body.groups, ihInner, ih, Block.blocks]

/-- Declarations extend the scope for the items after them. -/
theorem meaning?_variables {ty : Ty} {vs : List VariableTree} (hvisible : Visible s scope)
    (hbare : Bare b) (h : elaborateVariables ty vs s = some (b, s')) :
    ∃ scope', Visible s' scope' ∧ ∀ later next,
      (Body.ofBlock later).meaning? scope' s.current.block next = some later.meaning →
      (Body.ofBlock (b ++ later)).meaning? scope s.current.block next =
        some (b ++ later).meaning := by
  induction vs generalizing s b scope with
  | nil =>
    cases h
    exact ⟨scope, hvisible, fun later next hlater => hlater⟩
  | cons v vs ih =>
    obtain ⟨fresh, more, hmore, rfl⟩ := elaborateVariables_cons_eq_some h
    obtain ⟨hname, hbare⟩ := bare_declare hbare
    obtain ⟨scope', hvisible', hrest⟩ := ih (hvisible.declare ty v fresh hname) hbare hmore
    rw [(blocks_declare s ty v).2] at hrest
    refine ⟨scope', hvisible', fun later next hlater => ?_⟩
    have hmeaning := hrest later next hlater
    rw [Block.declare_append, Body.ofBlock, Body.meaning?, Block.meaning]
    exact congrArg (Option.bind · _) hmeaning

/-- The listed items mean what the program says. -/
theorem meaning?_ofBlock {items : ItemTree} (h : Elaborates items s b s') (hs : s.inner ≠ [])
    (hbare : Bare b) (hvisible : Visible s scope) :
    (Body.ofBlock b).meaning? scope s.current.block (s.blocks + 1) = some b.meaning := by
  -- What the frames resolve, the scope resolves: declarations extend both, and the end of an
  -- inner block takes both back to where they were.
  induction h generalizing scope with
  | nil s => rfl
  | declare first later ih =>
    obtain ⟨hfirst, hlater⟩ := bare_append hbare
    obtain ⟨scope', hvisible', hrest⟩ := meaning?_variables hvisible hfirst first
    obtain ⟨hblocks, hcurrent, -⟩ := blocks_variables first
    have hinner := (elaborateVariables_around hs first).inner_ne_nil hs
    have hmeaning := ih hinner hlater hvisible'
    rw [hcurrent, hblocks] at hmeaning
    exact hrest _ _ hmeaning
  | @assign a rest s s' target value b first later ih =>
    obtain ⟨hnames, hlater⟩ := bare_assign hbare
    obtain ⟨-, hvalue, -⟩ := AssignmentTree.elaborate_eq_some first
    have hresolve : ∀ v ∈ target :: value.reads,
        resolve scope (outputName v.name) = some v.listed := by
      intro v hv
      obtain ⟨name, hname⟩ := exists_scalar?_of_assignment first v hv
      obtain ⟨-, -, rfl⟩ := Scopes.lookup_of_scalar? hname
      exact hvisible v (hnames v hv) hname
    obtain ⟨htarget, hreads⟩ := List.forall_mem_cons.mp hresolve
    rw [Body.ofBlock, Body.meaning?, htarget, meaning?_ofExpr (built_expr hvalue) hreads,
      ih hs hlater hvisible]
    rfl
  | @block inner rest s s₁ s' b₁ b₂ room first later ihFirst ih =>
    obtain ⟨hbareInner, hbareRest⟩ := bare_nest hbare
    have hopened : s.openFrame.inner ≠ [] := List.cons_ne_nil _ _
    have haround := first.around hopened
    obtain ⟨hlookup, hcurrent⟩ := Scopes.lookup_closeFrame haround
    have hnext : s.nextBlock = s.blocks + 1 := if_neg hs
    have hclosed := Scopes.inner_closeFrame_ne_nil haround hs
    have hvisible' : Visible s₁.closeFrame scope := by
      intro v hv hscalar
      rw [Scopes.scalar?, hlookup] at hscalar
      exact hvisible v hv hscalar
    have hinner := ihFirst hopened hbareInner hvisible
    have hrest := ih hclosed hbareRest hvisible'
    have hblocks : s₁.closeFrame.blocks = s.nextBlock + b₁.blocks :=
      blocks_of_elaborates first hopened
    have hstart : s.openFrame.current.block = s.nextBlock := rfl
    have hopenedBlocks : s.openFrame.blocks = s.nextBlock := rfl
    have hafter : s.blocks + 1 + b₁.blocks + 1 = s.blocks + 1 + (b₁.blocks + 1) := by omega
    rw [hstart, hopenedBlocks, hnext] at hinner
    rw [hcurrent, hblocks, hnext, hafter] at hrest
    rw [Body.ofBlock, Body.meaning?, groups_ofBlock, hinner, hrest]
    rfl

end Resolution

/-! ### Declared names -/

/-- The names of the innermost block stay apart when listed. -/
structure Tidy (s : Scopes) : Prop where
  bare : ∀ name ∈ s.current.names, '_' ∉ name.toList
  nodup : s.current.names.Nodup

theorem declared_append (a b : Block) : (Body.ofBlock (a ++ b)).declared =
    (Body.ofBlock a).declared ++ (Body.ofBlock b).declared := by
  induction a with
  | empty => rfl
  | declare d rest ih => exact congrArg (outputName d.target.name :: ·) ih
  | assign target value rest ih => exact ih
  | nest inner rest _ ih => exact ih

theorem inner_append (a b : Block) : (Body.ofBlock (a ++ b)).inner =
    (Body.ofBlock a).inner ++ (Body.ofBlock b).inner := by
  induction a with
  | empty => rfl
  | declare d rest ih => exact ih
  | assign target value rest ih => exact ih
  | nest inner rest _ ih => simp [Body.ofBlock, Body.inner, ih]

section Declared
variable {s s' : Scopes} {b : Block}

theorem Tidy.nodup_listed (h : Tidy s) : (s.current.names.map outputName).Nodup :=
  List.Nodup.map_on (fun a ha b hb => outputName_injective (h.bare a ha) (h.bare b hb)) h.nodup

theorem Tidy.declare (h : Tidy s) (ty : Ty) (v : VariableTree) (fresh : s.Fresh v.name)
    (hv : '_' ∉ v.name.toList) : Tidy (v.declare s ty) := by
  have hnew := (s.fresh_iff v.name).mp fresh
  constructor
  · rw [names_declare, List.forall_mem_append, List.forall_mem_singleton]
    exact ⟨h.bare, hv⟩
  · rw [names_declare]
    exact List.nodup_append.mpr ⟨h.nodup, List.nodup_singleton _,
      fun a ha b hb heq => hnew (List.mem_singleton.mp hb ▸ heq ▸ ha)⟩

theorem tidy_variables {ty : Ty} {vs : List VariableTree} (hs : Tidy s) (hbare : Bare b)
    (h : elaborateVariables ty vs s = some (b, s')) :
    Tidy s' ∧ s'.current.names.map outputName =
      s.current.names.map outputName ++ (Body.ofBlock b).declared ∧
    (Body.ofBlock b).inner = [] := by
  induction vs generalizing s b with
  | nil =>
    cases h
    exact ⟨hs, (List.append_nil _).symm, rfl⟩
  | cons v vs ih =>
    obtain ⟨fresh, later, hlater, rfl⟩ := elaborateVariables_cons_eq_some h
    obtain ⟨hname, hbare⟩ := bare_declare hbare
    obtain ⟨htidy, hnames, hinner⟩ := ih (hs.declare ty v fresh hname) hbare hlater
    refine ⟨htidy, ?_, hinner⟩
    rw [hnames, names_declare, List.map_append, List.append_assoc]
    rfl

/-- No block of elaborated items lists a name twice. -/
theorem tidy_items {items : ItemTree} (h : Elaborates items s b s') (hs : Tidy s)
    (hopen : s.inner ≠ []) (hbare : Bare b) :
    Tidy s' ∧ s'.current.names.map outputName =
      s.current.names.map outputName ++ (Body.ofBlock b).declared ∧
      ∀ inner ∈ (Body.ofBlock b).inner, inner.declared.Nodup := by
  induction h with
  | nil s => exact ⟨hs, (List.append_nil _).symm, List.forall_mem_nil _⟩
  | declare first later ih =>
    obtain ⟨hfirst, hlater⟩ := bare_append hbare
    obtain ⟨htidy, hnames, hinner⟩ := tidy_variables hs hfirst first
    have hopen' := (elaborateVariables_around hopen first).inner_ne_nil hopen
    obtain ⟨htidy', hnames', hinner'⟩ := ih htidy hopen' hlater
    refine ⟨htidy', ?_, ?_⟩
    · rw [hnames', hnames, declared_append, List.append_assoc]
    · rw [inner_append, hinner]
      exact hinner'
  | assign first later ih => exact ih hs hopen (bare_assign hbare).2
  | @block inner rest s s₁ s' b₁ b₂ room first later ihFirst ih =>
    obtain ⟨hbareInner, hbareRest⟩ := bare_nest hbare
    have hopened : s.openFrame.inner ≠ [] := List.cons_ne_nil _ _
    have haround := first.around hopened
    have hcurrent := (Scopes.lookup_closeFrame haround).2
    have hclosed := Scopes.inner_closeFrame_ne_nil haround hopen
    have hclosedTidy : Tidy s₁.closeFrame := by
      constructor <;> rw [hcurrent]
      · exact hs.bare
      · exact hs.nodup
    have hnew : Tidy s.openFrame := ⟨List.forall_mem_nil _, List.nodup_nil⟩
    obtain ⟨htidy, hnames, hinner⟩ := ihFirst hnew hopened hbareInner
    obtain ⟨htidy', hnames', hinner'⟩ := ih hclosedTidy hclosed hbareRest
    refine ⟨htidy', ?_, ?_⟩
    · rw [hnames', hcurrent]
      rfl
    · have hdeclared : (Body.ofBlock b₁).declared.Nodup := by
        have hlisted := htidy.nodup_listed
        rwa [hnames] at hlisted
      exact List.forall_mem_cons.mpr ⟨hdeclared, List.forall_mem_append.mpr ⟨hinner, hinner'⟩⟩

end Declared

/-! ### Listings -/

theorem bodies_ofProgram (p : Program) :
    (Listing.ofProgram p).routines.map Routine.body = p.bodies.map Body.ofBlock := by
  simp [Listing.ofProgram, Program.bodies, Routine.ofFunction]

/-- The listing says what the program does. -/
structure Faithful (source : String) (p : Program) (l : Listing) : Prop where
  names : ∀ name, .variable name ∈ l.words → name ∉ reserved
  /-- No block declares a name twice. -/
  distinct : ∀ r ∈ l.routines, ∀ b ∈ r.body :: r.body.inner, b.declared.Nodup
  /-- Names resolve to the same declarations, and operators to the same operations. -/
  meanings : l.routines.map (fun r => r.body.meaning? [] 0 1) =
    p.bodies.map (fun b => some b.meaning)
  /-- The integers are those of the text, in order. -/
  integers : ∃ ts ending, (Scanner.ofText source).stream = .prepend ts (.done ending) ∧
    List.Forall₂ SameNumber (ts.filterMap (fun t => t.value.integer?))
      (l.words.filterMap Operand.integer?)

section Accepted
variable {source : String} {p : Program}

theorem nodup_declared (h : (readProgram source).result = .ok p) {b : Block} (hb : b ∈ p.bodies) :
    ∀ inner ∈ Body.ofBlock b :: (Body.ofBlock b).inner, inner.declared.Nodup := by
  obtain ⟨items, s, s', -, -, heq⟩ := exists_items_of_readProgram h hb
  obtain ⟨s₁, hitems, -⟩ := elaborateBody_eq_some heq
  have hnew : Tidy s.openFrame := ⟨List.forall_mem_nil _, List.nodup_nil⟩
  obtain ⟨htidy, hnames, hinner⟩ :=
    tidy_items hitems hnew (List.cons_ne_nil _ _) (bare_bodies h b hb)
  have hdeclared := htidy.nodup_listed
  rw [hnames] at hdeclared
  exact List.forall_mem_cons.mpr ⟨hdeclared, hinner⟩

theorem meaning?_body (h : (readProgram source).result = .ok p) {b : Block} (hb : b ∈ p.bodies) :
    (Body.ofBlock b).meaning? [] 0 1 = some b.meaning := by
  obtain ⟨items, s, s', houter, -, heq⟩ := exists_items_of_readProgram h hb
  obtain ⟨s₁, hitems, -⟩ := elaborateBody_eq_some heq
  have hnext : s.nextBlock = 0 := if_pos houter.inner
  have hvisible : Visible s.openFrame [] := by
    intro v _ hscalar
    obtain ⟨found, hlookup, -⟩ := Scopes.lookup_of_scalar? hscalar
    -- Only functions are known before the body.
    rw [Scopes.lookup_openFrame, Scopes.lookup, Scopes.frames, houter.inner, List.nil_append,
      List.findSome?_singleton] at hlookup
    have hkind := houter.functions _ (List.mem_of_find?_eq_some hlookup)
    cases hkind
  have hmeaning := meaning?_ofBlock hitems (List.cons_ne_nil _ _) (bare_bodies h b hb) hvisible
  have hstart : s.openFrame.current.block = s.nextBlock := rfl
  have hblocks : s.openFrame.blocks = s.nextBlock := rfl
  rwa [hstart, hblocks, hnext] at hmeaning

/-- A keyword as a name in two blocks, where its type decides what is divided. -/
def hidden : Program := ⟨[],
  .declare ⟨⟨"do", 0, .int⟩, []⟩ (.assign ⟨"do", 0, .int⟩
    ⟨⟨.integer "07", [(.intDiv, .integer "2")]⟩, []⟩ (.nest
      (.declare ⟨⟨"do", 1, .real⟩, []⟩ (.assign ⟨"do", 1, .real⟩
        ⟨⟨.read ⟨"do", 1, .real⟩, [(.div, .integer "2")]⟩, []⟩ .empty)) .empty))⟩

end Accepted

end BlockLang.C
