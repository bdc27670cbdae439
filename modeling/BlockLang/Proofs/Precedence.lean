import BlockLang.Proofs.Bodies

/-!
# Precedence of operators

A listing writes an expression as a flat list of operands, each after its operator. Such a list
is understood as a tree: tight operators bind before the others, and operators of one kind group
from the left. The expressions of an accepted program are built by `push`, with multiplicative
operators in their terms and additive ones between them, so that their list of factors is
understood as the sum of products that they are (`ofSteps?_factors`).
-/

universe u

namespace BlockLang

/-- Operands joined two by two. -/
inductive Tree (ω α : Type) where
  | leaf (a : α)
  | node (op : ω) (left right : Tree ω α)

namespace Tree
variable {ω ω' α β : Type}

def leaves : Tree ω α → List α
  | .leaf a => [a]
  | .node _ left right => left.leaves ++ right.leaves

def map (g : ω → ω') (f : α → β) : Tree ω α → Tree ω' β
  | .leaf a => .leaf (f a)
  | .node op left right => .node (g op) (left.map g f) (right.map g f)

/-- The value of a tree, given that of the operands. -/
def eval {V : Type u} (operate : ω → V → V → V) (value : α → V) : Tree ω α → V
  | .leaf a => value a
  | .node op left right => operate op (left.eval operate value) (right.eval operate value)

theorem eval_map {V : Type u} (operate : ω' → V → V → V) (value : β → V) (g : ω → ω') (f : α → β)
    (t : Tree ω α) :
    (t.map g f).eval operate value = t.eval (fun op => operate (g op)) (fun a => value (f a)) := by
  induction t with
  | leaf a => rfl
  | node op left right ihLeft ihRight => rw [map, eval, ihLeft, ihRight, eval]

theorem eval_congr {V : Type u} {operate : ω → V → V → V} {value value' : α → V} {t : Tree ω α}
    (h : ∀ a ∈ t.leaves, value a = value' a) : t.eval operate value = t.eval operate value' := by
  induction t with
  | leaf a => exact h a (List.mem_singleton.mpr rfl)
  | node op left right ihLeft ihRight =>
    obtain ⟨hleft, hright⟩ := List.forall_mem_append.mp h
    rw [eval, eval, ihLeft hleft, ihRight hright]

/-- Joining trees from the left evaluates from the left. -/
theorem eval_foldl {σ : Type} {V : Type u} (tree : σ → Tree ω α) (operate : ω → V → V → V)
    (value : α → V) (tail : List (ω × σ)) (first : Tree ω α) :
    (tail.foldl (fun t step => .node step.1 t (tree step.2)) first).eval operate value =
      tail.foldl (fun v step => operate step.1 v ((tree step.2).eval operate value))
        (first.eval operate value) := by
  induction tail generalizing first with
  | nil => rfl
  | cons step tail ih =>
    rw [List.foldl_cons, ih, List.foldl_cons]
    rfl

theorem leaves_foldl {σ : Type} (tree : σ → Tree ω α) (tail : List (ω × σ)) (first : Tree ω α) :
    (tail.foldl (fun t step => .node step.1 t (tree step.2)) first).leaves =
      first.leaves ++ tail.flatMap (fun step => (tree step.2).leaves) := by
  induction tail generalizing first with
  | nil => simp
  | cons step tail ih =>
    rw [List.foldl_cons, ih, List.flatMap_cons, ← List.append_assoc]
    rfl

/-! ### Reading a flat list -/

/-- Join what has been read of a product to the sum before it. -/
def close (sum : Option (Tree ω α × ω)) (product : Tree ω α) : Tree ω α :=
  match sum with
  | none => product
  | some (before, op) => .node op before product

/-- A tight operator extends the product being read, and any other one ends it. -/
def extend? (tight : ω → Bool) (sum : Option (Tree ω α × ω)) (product : Tree ω α) :
    List (Option ω × α) → Option (Tree ω α)
  | [] => some (close sum product)
  | (none, _) :: _ => none
  | (some op, a) :: rest =>
    if tight op then extend? tight sum (.node op product (.leaf a)) rest
    else extend? tight (some (close sum product, op)) (.leaf a) rest

/-- The tree of a list whose first operand follows no operator, and all others one. -/
def ofSteps? (tight : ω → Bool) : List (Option ω × α) → Option (Tree ω α)
  | (none, a) :: rest => extend? tight none (.leaf a) rest
  | _ => none

theorem map_close (g : ω → ω') (f : α → β) (sum : Option (Tree ω α × ω)) (product : Tree ω α) :
    (close sum product).map g f =
      close (sum.map (fun x => (x.1.map g f, g x.2))) (product.map g f) := by
  cases sum <;> rfl

theorem extend?_map {tight : ω → Bool} {tight' : ω' → Bool} {g : ω → ω'} (f : α → β)
    (h : ∀ op, tight' (g op) = tight op) (sum : Option (Tree ω α × ω)) (product : Tree ω α)
    (steps : List (Option ω × α)) :
    extend? tight' (sum.map (fun x => (x.1.map g f, g x.2))) (product.map g f)
        (steps.map (fun step => (step.1.map g, f step.2))) =
      (extend? tight sum product steps).map (map g f) := by
  induction steps generalizing sum product with
  | nil => exact congrArg some (map_close g f sum product).symm
  | cons step rest ih =>
    obtain ⟨_ | op, a⟩ := step
    · rfl
    · rw [List.map_cons, Option.map_some, extend?, extend?, h op]
      split
      · exact ih sum (.node op product (.leaf a))
      · rw [← map_close]
        exact ih (some (close sum product, op)) (.leaf a)

/-- Operators and operands can be renamed before reading or after it. -/
theorem ofSteps?_map {tight : ω → Bool} {tight' : ω' → Bool} {g : ω → ω'} (f : α → β)
    (h : ∀ op, tight' (g op) = tight op) (steps : List (Option ω × α)) :
    ofSteps? tight' (steps.map (fun step => (step.1.map g, f step.2))) =
      (ofSteps? tight steps).map (map g f) := by
  cases steps with
  | nil => rfl
  | cons step rest =>
    obtain ⟨_ | op, a⟩ := step
    · exact extend?_map f h none (.leaf a) rest
    · rfl

end Tree

/-! ### Expressions as trees -/

/-- Whether an operator binds before addition and subtraction. -/
def Operator.tight : Operator → Bool
  | .add => false
  | .sub => false
  | .mul => true
  | .div => true
  | .intDiv => true

/-- The factors of a term, joined from the left. -/
def Term.tree (t : Term) : Tree Operator Factor :=
  t.tail.foldl (fun tree step => .node step.1 tree (.leaf step.2)) (.leaf t.head)

/-- The terms of an expression, joined from the left. -/
def Expr.tree (e : Expr) : Tree Operator Factor :=
  e.tail.foldl (fun tree step => .node step.1 tree step.2.tree) e.head.tree

theorem Term.leaves_tree (lead : Option Operator) (t : Term) :
    t.tree.leaves = (t.factors lead).map Prod.snd := by
  rw [tree, Tree.leaves_foldl Tree.leaf, factors, List.map_cons, List.map_map,
    List.map_eq_flatMap]
  rfl

theorem Expr.leaves_tree (e : Expr) : e.tree.leaves = e.factors.map Prod.snd := by
  rw [tree, Tree.leaves_foldl Term.tree, factors, List.map_append, List.map_flatMap,
    e.head.leaves_tree none]
  simp only [fun step : Operator × Term => step.2.leaves_tree (some step.1)]

theorem mem_reads_of_leaf {e : Expr} {v : Variable} (h : .read v ∈ e.tree.leaves) :
    v ∈ e.reads := by
  rw [Expr.leaves_tree] at h
  obtain ⟨step, hstep, heq⟩ := List.mem_map.mp h
  refine List.mem_filterMap.mpr ⟨step, hstep, ?_⟩
  rw [heq]

/-! ### The value of an expression -/

section Value
variable {V : Type u} (operate : Operator → V → V → V) (value : Factor → V)

/-- A product, from the left. -/
def Term.valueOf (t : Term) : V :=
  t.tail.foldl (fun v step => operate step.1 v (value step.2)) (value t.head)

/-- A sum of products, from the left. -/
def Expr.valueOf (e : Expr) : V :=
  e.tail.foldl (fun v step => operate step.1 v (step.2.valueOf operate value))
    (e.head.valueOf operate value)

theorem Term.eval_tree (t : Term) : t.tree.eval operate value = t.valueOf operate value :=
  Tree.eval_foldl Tree.leaf operate value t.tail (.leaf t.head)

theorem Expr.eval_tree (e : Expr) : e.tree.eval operate value = e.valueOf operate value := by
  rw [tree, Tree.eval_foldl Term.tree, Term.eval_tree]
  simp only [Term.eval_tree]
  rfl

end Value

/-! ### Built expressions -/

/-- A term made of a factor by multiplying and dividing. -/
inductive Term.Built : Term → Prop
  | ofFactor (f : Factor) : Built (.ofFactor f)
  | push {t : Term} (h : Built t) (divide : Bool) (f : Factor) : Built (t.push divide f)

/-- An expression made of a built term by adding and subtracting others. -/
inductive Expr.Built : Expr → Prop
  | ofTerm {t : Term} (h : t.Built) : Built (.ofTerm t)
  | push {e : Expr} {t : Term} (he : Built e) (subtract : Bool) (ht : t.Built) :
      Built (e.push (addOperator subtract) t)

theorem Term.tight_operator (t : Term) (divide : Bool) (f : Factor) :
    (t.operator divide f).tight = true := by
  unfold operator
  split <;> rfl

theorem Term.Built.tight {t : Term} (h : t.Built) : ∀ step ∈ t.tail, step.1.tight = true := by
  induction h with
  | ofFactor f => simp [Term.ofFactor]
  | push h divide f ih =>
    rw [Term.push, List.forall_mem_append, List.forall_mem_singleton]
    exact ⟨ih, Term.tight_operator _ divide f⟩

theorem Expr.Built.loose {e : Expr} (h : e.Built) :
    e.head.Built ∧ ∀ step ∈ e.tail, step.1.tight = false ∧ step.2.Built := by
  induction h with
  | ofTerm h => exact ⟨h, by simp [Expr.ofTerm]⟩
  | push he subtract ht ih =>
    rw [Expr.push, List.forall_mem_append, List.forall_mem_singleton]
    refine ⟨ih.1, ih.2, ?_, ht⟩
    cases subtract <;> rfl

theorem extend?_factors {sum : Option (Tree Operator Factor × Operator)}
    {product : Tree Operator Factor} {tail : List (Operator × Factor)}
    (h : ∀ step ∈ tail, step.1.tight = true) (rest : List (Option Operator × Factor)) :
    Tree.extend? Operator.tight sum product (tail.map (fun step => (some step.1, step.2)) ++ rest) =
      Tree.extend? Operator.tight sum
        (tail.foldl (fun tree step => .node step.1 tree (.leaf step.2)) product) rest := by
  induction tail generalizing product with
  | nil => rfl
  | cons step tail ih =>
    obtain ⟨hstep, htail⟩ := List.forall_mem_cons.mp h
    rw [List.map_cons, List.cons_append, Tree.extend?, if_pos hstep, ih htail, List.foldl_cons]

theorem extend?_terms {sum : Option (Tree Operator Factor × Operator)}
    {product : Tree Operator Factor} {tail : List (Operator × Term)}
    (h : ∀ step ∈ tail, step.1.tight = false ∧ step.2.Built) :
    Tree.extend? Operator.tight sum product
        (tail.flatMap (fun step => step.2.factors (some step.1))) =
      some (tail.foldl (fun tree step => .node step.1 tree step.2.tree) (.close sum product)) := by
  induction tail generalizing sum product with
  | nil => rfl
  | cons step tail ih =>
    obtain ⟨⟨hloose, hbuilt⟩, htail⟩ := List.forall_mem_cons.mp h
    have hnot : ¬step.1.tight = true := by
      rw [hloose]
      exact Bool.false_ne_true
    rw [List.flatMap_cons, Term.factors, List.cons_append, Tree.extend?, if_neg hnot,
      extend?_factors hbuilt.tight, ih htail, List.foldl_cons]
    rfl

/-- The list of factors of a built expression is understood as the expression. -/
theorem ofSteps?_factors {e : Expr} (h : e.Built) :
    Tree.ofSteps? Operator.tight e.factors = some e.tree := by
  obtain ⟨hhead, htail⟩ := h.loose
  rw [Expr.factors, Term.factors, List.cons_append, Tree.ofSteps?, extend?_factors hhead.tight,
    extend?_terms htail]
  rfl

/-! ### The expressions of a program are built -/

/-- Every value assigned in a block or inside it is built. -/
def Block.Built : Block → Prop
  | .empty => True
  | .declare _ rest => rest.Built
  | .assign _ value rest => value.Built ∧ rest.Built
  | .nest inner rest => inner.Built ∧ rest.Built

theorem Block.built_append {a b : Block} (ha : a.Built) (hb : b.Built) : (a ++ b).Built := by
  induction a with
  | empty => exact hb
  | declare d rest ih => exact ih ha
  | assign target value rest ih => exact ⟨ha.1, ih ha.2⟩
  | nest inner rest _ ih => exact ⟨ha.1, ih ha.2⟩

section Elaborated
variable {s s' : Scopes}

theorem built_factors {t t' : Term} {tail : List (Bool × FactorTree)} (ht : t.Built)
    (h : elaborateFactors s t tail = some t') : t'.Built := by
  induction tail generalizing t with
  | nil =>
    cases h
    exact ht
  | cons step tail ih =>
    obtain ⟨f, -, hrest⟩ := Option.bind_eq_some_iff.mp h
    exact ih (ht.push step.1 f) hrest

theorem built_term {t : TermTree} {t' : Term} (h : t.elaborate s = some t') : t'.Built := by
  obtain ⟨f, -, hrest⟩ := Option.bind_eq_some_iff.mp h
  exact built_factors (.ofFactor f) hrest

theorem built_terms {e e' : Expr} {tail : List (Bool × TermTree)} (he : e.Built)
    (h : elaborateTerms s e tail = some e') : e'.Built := by
  induction tail generalizing e with
  | nil =>
    cases h
    exact he
  | cons step tail ih =>
    obtain ⟨t, ht, hrest⟩ := Option.bind_eq_some_iff.mp h
    exact ih (he.push step.1 (built_term ht)) hrest

theorem built_expr {e : ExprTree} {e' : Expr} (h : e.elaborate s = some e') : e'.Built := by
  obtain ⟨t, ht, hrest⟩ := Option.bind_eq_some_iff.mp h
  exact built_terms (.ofTerm (built_term ht)) hrest

theorem built_variables {ty : Ty} {vs : List VariableTree} {b : Block}
    (h : elaborateVariables ty vs s = some (b, s')) : b.Built := by
  induction vs generalizing s b with
  | nil =>
    cases h
    exact trivial
  | cons v vs ih =>
    obtain ⟨-, later, hlater, rfl⟩ := elaborateVariables_cons_eq_some h
    have hbuilt : later.Built := ih hlater
    exact hbuilt

theorem Elaborates.built {items : ItemTree} {b : Block} (h : Elaborates items s b s') :
    b.Built := by
  induction h with
  | nil s => exact trivial
  | declare first later ih => exact Block.built_append (built_variables first) ih
  | assign first later ih =>
    obtain ⟨-, hvalue, -⟩ := AssignmentTree.elaborate_eq_some first
    exact ⟨built_expr hvalue, ih⟩
  | block room first later ihFirst ih => exact ⟨ihFirst, ih⟩

end Elaborated

theorem built_bodies {source : String} {p : Program} (h : (readProgram source).result = .ok p) :
    ∀ body ∈ p.bodies, body.Built := by
  intro body hbody
  obtain ⟨items, s, s', -, -, heq⟩ := exists_items_of_readProgram h hbody
  obtain ⟨s₁, hitems, -⟩ := elaborateBody_eq_some heq
  exact hitems.built

end BlockLang
