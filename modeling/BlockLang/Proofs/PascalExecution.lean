import BlockLang.Proofs.PascalReadBack
import BlockLang.Proofs.Precedence
import Mathlib.Logic.Function.Basic

/-!
# Running a Pascal listing

The variables of nested blocks are moved to the head of their subprogram. This changes no value:
a body run block by block, with a store that tells variables by declaration, and its listing run
statement by statement, with a store that tells them by name ignoring case, end with the same
values (`run_ofBlock`). What is run is the listing that is read from the text. Values, operators
and literals are left open.
-/

universe u

namespace BlockLang

/-- What operators and literals stand for. -/
structure Interpretation (V : Type u) where
  operate : Operator → V → V → V
  integer : String → V
  real : String → V

section Run
variable {V : Type u} (m : Interpretation V)

/-! ### Running a body -/

def Factor.eval (store : String × Nat → V) : Factor → V
  | .integer lexeme => m.integer lexeme
  | .real lexeme => m.real lexeme
  | .read v => store v.key

/-- Run the assignments of a block in order, an inner block where it stands. -/
def Block.run : Block → (String × Nat → V) → String × Nat → V
  | .empty, store => store
  | .declare _ rest, store => rest.run store
  | .assign target value rest, store =>
    rest.run (Function.update store target.key
      (value.valueOf m.operate (Factor.eval m store)))
  | .nest inner rest, store => rest.run (inner.run store)

end Run

end BlockLang

namespace BlockLang.Pascal

/-! ### Running a listing -/

/-- A listed expression as its operators group it. -/
def Formula.tree? (value : Formula) : Option (Tree Operator Operand) :=
  Tree.ofSteps? Operator.tight value

section Run
variable {V : Type u} (m : Interpretation V)

def Operand.eval (store : String → V) : Operand → V
  | .integer lexeme => m.integer lexeme
  | .real lexeme => m.real lexeme
  | .variable name => store (fold name)

/-- Run statements in order. There is no result if the value of an assignment is not an
expression. -/
def Body.run : Body → (String → V) → Option (String → V)
  | .empty, store => some store
  | .assign target value rest, store =>
    (Formula.tree? value).bind (fun tree => rest.run (Function.update store (fold target)
      (tree.eval m.operate (Operand.eval m store))))
  | .group inner rest, store => (inner.run store).bind (fun store => rest.run store)

end Run

theorem tree?_ofExpr (n : Namespace) {value : Expr} (h : value.Built) :
    (Formula.ofExpr n value).tree? = some (value.tree.map id (Operand.ofFactor n)) := by
  have hmap : Tree.ofSteps? Operator.tight
      (value.factors.map (fun step => (step.1.map id, Operand.ofFactor n step.2))) =
      (Tree.ofSteps? Operator.tight value.factors).map (Tree.map id (Operand.ofFactor n)) :=
    Tree.ofSteps?_map _ (fun _ => rfl) _
  simp only [Option.map_id, id_eq] at hmap
  rw [Formula.tree?, Formula.ofExpr, hmap, ofSteps?_factors h, Option.map_some]

/-! ### The two runs agree -/

/-- Every declared variable without sizes has one value in both stores. -/
def SameValues {V : Type u} (pairs : List (Declaration × Entry)) (store : String × Nat → V)
    (store' : String → V) : Prop :=
  ∀ x ∈ pairs, x.1.sizes = [] → store' (fold x.2.name) = store x.1.key

section Agreement
variable {V : Type u} {m : Interpretation V} {pairs : List (Declaration × Entry)} {n : Namespace}
  {store : String × Nat → V} {store' : String → V}

/-- The variable is printed under the name of its entry. -/
def Printed (pairs : List (Declaration × Entry)) (n : Namespace) (v : Variable) : Prop :=
  ∃ e, (⟨v, []⟩, e) ∈ pairs ∧ n.resolve v = e.name

theorem SameValues.read (h : SameValues pairs store store') {v : Variable}
    (hv : Printed pairs n v) : store' (fold (n.resolve v)) = store v.key := by
  obtain ⟨e, he, hname⟩ := hv
  rw [hname]
  exact h (⟨v, []⟩, e) he rfl

theorem SameValues.write (h : SameValues pairs store store') {v : Variable}
    (hv : Printed pairs n v)
    (hnames : ∀ x ∈ pairs, ∀ y ∈ pairs, fold x.2.name = fold y.2.name → x = y)
    (hkeys : ∀ x ∈ pairs, ∀ y ∈ pairs, x.1.key = y.1.key → x = y) (value : V) :
    SameValues pairs (Function.update store v.key value)
      (Function.update store' (fold (n.resolve v)) value) := by
  obtain ⟨e, he, hname⟩ := hv
  intro x hx hsizes
  rw [hname]
  by_cases heq : x = (⟨v, []⟩, e)
  · subst heq
    have hkey : Declaration.key ⟨v, []⟩ = v.key := rfl
    rw [Function.update_self, hkey, Function.update_self]
  · have hname' : fold x.2.name ≠ fold e.name := fun hfold => heq (hnames x hx _ he hfold)
    have hkey' : x.1.key ≠ v.key := fun hkey => heq (hkeys x hx _ he hkey)
    rw [Function.update_of_ne hname', Function.update_of_ne hkey']
    exact h x hx hsizes

theorem SameValues.eval (h : SameValues pairs store store') {value : Expr}
    (hreads : ∀ v ∈ value.reads, Printed pairs n v) :
    (value.tree.map id (Operand.ofFactor n)).eval m.operate (Operand.eval m store') =
      value.valueOf m.operate (Factor.eval m store) := by
  have hleaves : ∀ f ∈ value.tree.leaves,
      Operand.eval m store' (Operand.ofFactor n f) = f.eval m store := by
    intro f hf
    cases f with
    | integer lexeme => rfl
    | real lexeme => rfl
    | read v => exact h.read (hreads v (mem_reads_of_leaf hf))
  rw [Tree.eval_map, ← Expr.eval_tree]
  exact Tree.eval_congr hleaves

/-- Running a body and running its listing keep the stores in agreement. -/
theorem run_ofBlock (hnames : ∀ x ∈ pairs, ∀ y ∈ pairs, fold x.2.name = fold y.2.name → x = y)
    (hkeys : ∀ x ∈ pairs, ∀ y ∈ pairs, x.1.key = y.1.key → x = y) {b : Block} (hbuilt : b.Built)
    (huses : ∀ v ∈ b.uses, Printed pairs n v) (h : SameValues pairs store store') :
    ∃ final, (Body.ofBlock n b).run m store' = some final ∧
      SameValues pairs (b.run m store) final := by
  induction b generalizing store store' with
  | empty => exact ⟨store', rfl, h⟩
  | declare d rest ih => exact ih hbuilt huses h
  | assign target value rest ih =>
    obtain ⟨hvalue, hrest⟩ := hbuilt
    obtain ⟨hhere, hlater⟩ := List.forall_mem_append.mp huses
    obtain ⟨htarget, hreads⟩ := List.forall_mem_cons.mp hhere
    have hwrite := h.write htarget hnames hkeys (value.valueOf m.operate (Factor.eval m store))
    rw [Body.ofBlock, Body.run, tree?_ofExpr n hvalue, Option.bind_some,
      h.eval hreads]
    exact ih hrest hlater hwrite
  | nest inner rest ihInner ih =>
    obtain ⟨hinner, hrest⟩ := List.forall_mem_append.mp huses
    obtain ⟨middle, hmiddle, hsame⟩ := ihInner hbuilt.1 hinner h
    rw [Body.ofBlock, Body.run, hmiddle, Option.bind_some]
    exact ih hbuilt.2 hrest hsame

/-- Any values of the declared variables can be stored under their names. -/
theorem exists_sameValues
    (hnames : ∀ x ∈ pairs, ∀ y ∈ pairs, fold x.2.name = fold y.2.name → x = y)
    (store : String × Nat → V) : ∃ store' : String → V, SameValues pairs store store' := by
  refine ⟨fun name => match pairs.find? (fun x => fold x.2.name = name) with
    | some x => store x.1.key
    | none => store ("", 0), ?_⟩
  intro x hx _
  have hsome : (pairs.find? (fun y => fold y.2.name = fold x.2.name)).isSome = true :=
    List.find?_isSome.mpr ⟨x, hx, decide_eq_true rfl⟩
  obtain ⟨y, hy⟩ := Option.isSome_iff_exists.mp hsome
  have hname : fold y.2.name = fold x.2.name := by simpa using List.find?_some hy
  have heq : y = x := hnames y (List.mem_of_find?_eq_some hy) x hx hname
  simp only [hy, heq]

end Agreement

/-- The listing of a subprogram computes what its body does. -/
structure Simulates {V : Type u} (m : Interpretation V) (b : Block) (part : Part) : Prop where
  /-- Every declaration has an entry. -/
  length : b.declarations.length = part.entries.length
  /-- The declared variables can have any values at first. -/
  start : ∀ store : String × Nat → V, ∃ store', SameValues (part.pairs b) store store'
  /-- Both runs leave the same values in them. -/
  run : ∀ store store', SameValues (part.pairs b) store store' →
    ∃ final, part.body.run m store' = some final ∧
      SameValues (part.pairs b) (b.run m store) final

theorem simulates_of_lists {V : Type u} (m : Interpretation V) {b : Block} {part : Part}
    (h : Lists b part) (hbound : b.WellBound) (hbuilt : b.Built) : Simulates m b part := by
  have hnames : ∀ x ∈ part.pairs b, ∀ y ∈ part.pairs b,
      fold x.2.name = fold y.2.name → x = y := fun x hx y hy => h.eq_of_fold_eq hx hy
  have hkeys : ∀ x ∈ part.pairs b, ∀ y ∈ part.pairs b,
      x.1.key = y.1.key → x = y := fun x hx y hy => h.eq_of_key_eq hbound hx hy
  refine ⟨h.length_eq, exists_sameValues hnames, fun store store' hsame => ?_⟩
  obtain ⟨n, ⟨-, -, hempty⟩, rfl⟩ := h
  have huses : ∀ v ∈ b.uses, Printed (Part.pairs ⟨(hoist n b).1, .ofBlock (hoist n b).2 b⟩ b)
      (hoist n b).2 v := fun v hv => exists_entry_of_mem_uses hempty hbound hv
  exact run_ofBlock hnames hkeys hbuilt huses hsame

/-- An accepted program is listed, and every subprogram of it is simulated by what the text of the
listing is read as, whatever operators and literals stand for. -/
theorem run_listing {V : Type u} (m : Interpretation V) {source : String} {p : Program}
    (h : (readProgram source).result = .ok p) :
    ∃ text l, (compile source .pascal).result = .ok text ∧ Listing.read? text = some l ∧
      List.Forall₂ (Simulates m) p.bodies l.parts := by
  have hcompile := (compile_eq_ok_iff source .pascal _).mpr ⟨p, h, rfl⟩
  refine ⟨p.list .pascal, .ofProgram p, hcompile, read?_list h, ?_⟩
  have hbodies : ∀ b ∈ p.bodies, b.WellBound ∧ b.Built :=
    fun b hb => ⟨wellBound_bodies h b hb, built_bodies h b hb⟩
  refine ((List.forall₂_and_left _ _).mpr ⟨hbodies, lists_parts p⟩).imp ?_
  rintro b part ⟨⟨hbound, hbuilt⟩, hlists⟩
  exact simulates_of_lists m hlists hbound hbuilt

/-- Operators and literals over the integers, a real literal standing for 0. -/
def integers : Interpretation Int where
  operate op a b := match op with
    | .add => a + b
    | .sub => a - b
    | .mul => a * b
    | .div => a / b
    | .intDiv => a / b
  integer lexeme := decimalValue lexeme
  real _ := 0

/-- The inner `a` leaves the outer one alone, and the division comes before the product. -/
def shadowing : Program := ⟨[],
  .declare ⟨⟨"a", 0, .int⟩, []⟩ (.assign ⟨"a", 0, .int⟩ ⟨⟨.integer "7", []⟩, []⟩ (.nest
    (.declare ⟨⟨"a", 1, .int⟩, []⟩ (.assign ⟨"a", 1, .int⟩ ⟨⟨.integer "2", []⟩, []⟩ .empty))
    (.assign ⟨"a", 0, .int⟩ ⟨⟨.read ⟨"a", 0, .int⟩, []⟩, [(.sub, ⟨.read ⟨"a", 0, .int⟩,
      [(.intDiv, .integer "2"), (.mul, .integer "3")]⟩)]⟩ .empty)))⟩

def shadowingText : String := "program main;\nvar\n  a: integer;\n  a_1: integer;\n\nbegin\n" ++
  "  a := 7;\n  begin\n    a_1 := 2;\n  end;\n  a := a - a div 2 * 3;\nend.\n"

theorem run_shadowing :
    (readProgram "main()\x7bint a;a=7;\x7bint a;a=2;\x7da=a-a/2*3;\x7d").result = .ok shadowing ∧
    (compile "main()\x7bint a;a=7;\x7bint a;a=2;\x7da=a-a/2*3;\x7d" .pascal).result =
      .ok shadowingText ∧
    shadowing.main.run integers (fun _ => 0) ("a", 0) = -2 ∧
    ∃ l, Listing.read? shadowingText = some l ∧
      List.Forall₂ (Simulates integers) shadowing.bodies l.parts := by
  have h : (readProgram "main()\x7bint a;a=7;\x7bint a;a=2;\x7da=a-a/2*3;\x7d").result =
      .ok shadowing := Traced.result_eq_ok_iff.mpr (by decide +kernel)
  have htext : (compile "main()\x7bint a;a=7;\x7bint a;a=2;\x7da=a-a/2*3;\x7d" .pascal).result =
      .ok shadowingText := Traced.result_eq_ok_iff.mpr (by decide +kernel)
  have hvalue : shadowing.main.run integers (fun _ => 0) ("a", 0) = -2 := by decide +kernel
  obtain ⟨text, l, hcompile, hread, hruns⟩ := run_listing integers h
  obtain rfl := Except.ok.inj (hcompile.symm.trans htext)
  exact ⟨h, htext, hvalue, l, hread, hruns⟩

end BlockLang.Pascal
