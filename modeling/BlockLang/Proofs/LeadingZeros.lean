import BlockLang.Proofs.CWords

/-!
# Programs without leading zeros

`Program.stripped` is a program with its integers in output form. It is the program of a tree of
its own (`elaborate_stripped`), one that declares each variable by itself, and it has the same C
listing (`ofProgram_stripped`).
-/

namespace BlockLang

/-! ### Programs -/

def Factor.stripped : Factor → Factor
  | .integer lexeme => .integer (C.outputInteger lexeme)
  | .real lexeme => .real lexeme
  | .read v => .read v

def Term.stripped (t : Term) : Term :=
  ⟨t.head.stripped, t.tail.map (fun step => (step.1, step.2.stripped))⟩

def Expr.stripped (e : Expr) : Expr :=
  ⟨e.head.stripped, e.tail.map (fun step => (step.1, step.2.stripped))⟩

def Declaration.stripped (d : Declaration) : Declaration := ⟨d.target, d.sizes.map C.outputInteger⟩

def Block.stripped : Block → Block
  | .empty => .empty
  | .declare d rest => .declare d.stripped rest.stripped
  | .assign target value rest => .assign target value.stripped rest.stripped
  | .nest inner rest => .nest inner.stripped rest.stripped

def Function.stripped (f : Function) : Function := ⟨f.name, f.returns, f.body.stripped⟩

/-- The program with its integers, sizes among them, in output form. -/
def Program.stripped (p : Program) : Program := ⟨p.functions.map Function.stripped, p.main.stripped⟩

theorem Factor.ty_stripped (f : Factor) : f.stripped.ty = f.ty := by
  cases f <;> rfl

theorem Term.ty_stripped (t : Term) : t.stripped.ty = t.ty := by
  simp only [ty, stripped, List.foldl_map, Factor.ty_stripped]

theorem Expr.ty_stripped (e : Expr) : e.stripped.ty = e.ty := by
  simp only [ty, stripped, List.foldl_map, Term.ty_stripped]

theorem Term.stripped_push (t : Term) (divide : Bool) (f : Factor) :
    (t.push divide f).stripped = t.stripped.push divide f.stripped := by
  have hoperator : t.stripped.operator divide f.stripped = t.operator divide f := by
    unfold operator
    rw [t.ty_stripped, f.ty_stripped]
  rw [push, push, hoperator]
  simp [stripped]

theorem Expr.stripped_push (e : Expr) (op : Operator) (t : Term) :
    (e.push op t).stripped = e.stripped.push op t.stripped := by
  simp [push, stripped]

theorem Block.stripped_append (a b : Block) : (a ++ b).stripped = a.stripped ++ b.stripped := by
  induction a with
  | empty => rfl
  | declare d rest ih => simp [stripped, ih]
  | assign target value rest ih => simp [stripped, ih]
  | nest inner rest _ ih => simp [stripped, ih]

theorem Expr.factors_stripped (e : Expr) :
    e.stripped.factors = e.factors.map (fun step => (step.1, step.2.stripped)) := by
  have hterm : ∀ (lead : Option Operator) (t : Term),
      t.stripped.factors lead = (t.factors lead).map (fun step => (step.1, step.2.stripped)) := by
    intro lead t
    simp [Term.factors, Term.stripped]
  simp [factors, stripped, hterm, List.map_flatMap, List.flatMap_map]

/-! ### Trees -/

def FactorTree.stripped : FactorTree → FactorTree
  | .integer lexeme => .integer (C.outputInteger lexeme)
  | .name text => .name text
  | .real lexeme => .real lexeme

def TermTree.stripped (t : TermTree) : TermTree :=
  ⟨t.head.stripped, t.tail.map (fun step => (step.1, step.2.stripped))⟩

def ExprTree.stripped (e : ExprTree) : ExprTree :=
  ⟨e.head.stripped, e.tail.map (fun step => (step.1, step.2.stripped))⟩

def AssignmentTree.stripped (a : AssignmentTree) : AssignmentTree := ⟨a.target, a.value.stripped⟩

def VariableTree.stripped (v : VariableTree) : VariableTree := ⟨v.name, v.sizes.map C.outputInteger⟩

/-- Each variable in a declaration of its own, before the items. -/
def declareEach (ty : Ty) (vs : List VariableTree) (items : ItemTree) : ItemTree :=
  vs.foldr (fun v items => .declare ⟨ty, v.stripped, []⟩ items) items

def ItemTree.stripped : ItemTree → ItemTree
  | .nil => .nil
  | .declare d rest => declareEach d.ty (d.first :: d.more) rest.stripped
  | .assign a rest => .assign a.stripped rest.stripped
  | .block inner rest => .block inner.stripped rest.stripped

def FunctionTree.stripped (f : FunctionTree) : FunctionTree := ⟨f.returns, f.name, f.body.stripped⟩

def ProgramTree.stripped (p : ProgramTree) : ProgramTree :=
  ⟨p.functions.map FunctionTree.stripped, p.main.stripped⟩

/-! ### Elaboration -/

section Elaborated
variable {s s' : Scopes}

theorem elaborate_stripped_factor {f : FactorTree} {f' : Factor} (h : f.elaborate s = some f') :
    f.stripped.elaborate s = some f'.stripped := by
  cases f with
  | integer lexeme =>
    cases h
    rfl
  | real lexeme =>
    cases h
    rfl
  | name text =>
    obtain ⟨v, hv, rfl⟩ := Option.map_eq_some_iff.mp h
    rw [FactorTree.stripped, FactorTree.elaborate, hv]
    rfl

theorem elaborate_stripped_factors {t t' : Term} {tail : List (Bool × FactorTree)}
    (h : elaborateFactors s t tail = some t') :
    elaborateFactors s t.stripped (tail.map (fun step => (step.1, step.2.stripped))) =
      some t'.stripped := by
  induction tail generalizing t with
  | nil =>
    cases h
    rfl
  | cons step tail ih =>
    obtain ⟨f, hf, hrest⟩ := Option.bind_eq_some_iff.mp h
    have htail := ih hrest
    rw [Term.stripped_push] at htail
    rw [List.map_cons, elaborateFactors, elaborate_stripped_factor hf]
    exact htail

theorem elaborate_stripped_term {t : TermTree} {t' : Term} (h : t.elaborate s = some t') :
    t.stripped.elaborate s = some t'.stripped := by
  obtain ⟨f, hf, hrest⟩ := Option.bind_eq_some_iff.mp h
  rw [TermTree.elaborate, TermTree.stripped, elaborate_stripped_factor hf]
  exact elaborate_stripped_factors hrest

theorem elaborate_stripped_terms {e e' : Expr} {tail : List (Bool × TermTree)}
    (h : elaborateTerms s e tail = some e') :
    elaborateTerms s e.stripped (tail.map (fun step => (step.1, step.2.stripped))) =
      some e'.stripped := by
  induction tail generalizing e with
  | nil =>
    cases h
    rfl
  | cons step tail ih =>
    obtain ⟨t, ht, hrest⟩ := Option.bind_eq_some_iff.mp h
    have htail := ih hrest
    rw [Expr.stripped_push] at htail
    rw [List.map_cons, elaborateTerms, elaborate_stripped_term ht]
    exact htail

theorem elaborate_stripped_expr {e : ExprTree} {e' : Expr} (h : e.elaborate s = some e') :
    e.stripped.elaborate s = some e'.stripped := by
  obtain ⟨t, ht, hrest⟩ := Option.bind_eq_some_iff.mp h
  rw [ExprTree.elaborate, ExprTree.stripped, elaborate_stripped_term ht]
  exact elaborate_stripped_terms hrest

theorem elaborate_stripped_assignment {a : AssignmentTree} {target : Variable} {value : Expr}
    (h : a.elaborate s = some (target, value)) :
    a.stripped.elaborate s = some (target, value.stripped) := by
  obtain ⟨htarget, hvalue, hfits⟩ := AssignmentTree.elaborate_eq_some h
  have hfits' : Fits target.ty value.stripped.ty := by
    rw [value.ty_stripped]
    exact hfits
  exact Option.bind_eq_some_iff.mpr ⟨target, htarget, Option.bind_eq_some_iff.mpr
    ⟨value.stripped, elaborate_stripped_expr hvalue, if_pos hfits'⟩⟩

theorem positive_outputInteger {size : String} (h : Positive size) :
    Positive (C.outputInteger size) := by
  have hstrip : ∀ cs : List Char, (∃ c ∈ cs, c ≠ '0') → ∃ c ∈ C.stripZeros cs, c ≠ '0' := by
    intro cs
    induction cs with
    | nil => simp
    | cons c cs ih =>
      intro hcs
      by_cases hc : c = '0'
      · subst hc
        exact ih (by simpa using hcs)
      · rw [C.stripZeros_of_ne cs hc]
        exact hcs
  rw [Positive, C.outputInteger, String.toList_ofList]
  exact hstrip size.toList h

theorem declare_stripped (s : Scopes) (ty : Ty) (v : VariableTree) :
    v.stripped.declare s ty = v.declare s ty := by
  have hkind : Scopes.kindOf v.stripped.sizes = Scopes.kindOf v.sizes := by
    simp [Scopes.kindOf, VariableTree.stripped]
  rw [VariableTree.declare, hkind]
  rfl

/-- A declaration of several variables, one by one. -/
theorem elaborates_declareEach {ty : Ty} {vs : List VariableTree} {items : ItemTree}
    {s'' : Scopes} {b b' : Block} (h : elaborateVariables ty vs s = some (b, s'))
    (hitems : Elaborates items s' b' s'') :
    Elaborates (declareEach ty vs items) s (b.stripped ++ b') s'' := by
  induction vs generalizing s b with
  | nil =>
    cases h
    exact hitems
  | cons v vs ih =>
    rw [elaborateVariables, Option.ite_none_right_eq_some] at h
    obtain ⟨⟨fresh, hpositive⟩, h⟩ := h
    obtain ⟨⟨later, s₁⟩, hlater, heq⟩ := Option.bind_eq_some_iff.mp h
    cases heq
    have hsizes : ∀ size ∈ v.stripped.sizes, Positive size := by
      intro size hsize
      obtain ⟨size', hsize', rfl⟩ := List.mem_map.mp hsize
      exact positive_outputInteger (hpositive size' hsize')
    have hfirst : elaborateVariables ty [v.stripped] s =
        some (.declare (v.declaration s ty).stripped .empty, v.declare s ty) := by
      rw [elaborateVariables, if_pos ⟨fresh, hsizes⟩, declare_stripped]
      rfl
    have hall : Elaborates (.declare ⟨ty, v.stripped, []⟩ (declareEach ty vs items)) s
        (.declare (v.declaration s ty).stripped .empty ++ (later.stripped ++ b')) s'' :=
      .declare hfirst (ih hlater)
    exact hall

theorem Elaborates.stripped {items : ItemTree} {b : Block} (h : Elaborates items s b s') :
    Elaborates items.stripped s b.stripped s' := by
  induction h with
  | nil s => exact .nil s
  | declare first later ih =>
    rw [Block.stripped_append]
    exact elaborates_declareEach first ih
  | assign first later ih => exact .assign (elaborate_stripped_assignment first) ih
  | block room first later ihFirst ih => exact .block room ihFirst ih

theorem elaborateBody_stripped {items : ItemTree} {b : Block}
    (h : items.elaborateBody s = some (b, s')) :
    items.stripped.elaborateBody s = some (b.stripped, s') := by
  obtain ⟨s₁, hitems, rfl⟩ := elaborateBody_eq_some h
  rw [ItemTree.elaborateBody, hitems.stripped.elaborate_eq]
  rfl

theorem elaborateFunctions_stripped {fs : List FunctionTree} {gs : List Function}
    (h : elaborateFunctions fs s = some (gs, s')) :
    elaborateFunctions (fs.map FunctionTree.stripped) s =
      some (gs.map Function.stripped, s') := by
  induction fs generalizing s gs with
  | nil =>
    cases h
    rfl
  | cons f fs ih =>
    rw [elaborateFunctions, Option.ite_none_right_eq_some] at h
    obtain ⟨fresh, h⟩ := h
    obtain ⟨⟨body, s₁⟩, hbody, h⟩ := Option.bind_eq_some_iff.mp h
    obtain ⟨⟨later, s₂⟩, hlater, heq⟩ := Option.bind_eq_some_iff.mp h
    cases heq
    have hfresh : s.Fresh f.stripped.name := fresh
    rw [List.map_cons, elaborateFunctions, if_pos hfresh]
    exact Option.bind_eq_some_iff.mpr ⟨_, elaborateBody_stripped hbody,
      Option.bind_eq_some_iff.mpr ⟨_, ih hlater, rfl⟩⟩

end Elaborated

theorem elaborate_stripped {tree : ProgramTree} {p : Program} (h : tree.elaborate = some p) :
    tree.stripped.elaborate = some p.stripped := by
  obtain ⟨⟨functions, s⟩, hfunctions, hrest⟩ := Option.bind_eq_some_iff.mp h
  obtain ⟨⟨main, s'⟩, hmain, heq⟩ := Option.bind_eq_some_iff.mp hrest
  cases heq
  exact Option.bind_eq_some_iff.mpr ⟨_, elaborateFunctions_stripped hfunctions,
    Option.bind_eq_some_iff.mpr ⟨_, elaborateBody_stripped hmain, rfl⟩⟩

/-! ### Tokens -/

/-- No declaration is of several variables. -/
def Single (ts : List Token) : Prop := ∀ t ∈ ts, t.kind ≠ .comma

theorem splitFrom_single {ts : List Token} (ty : Option Ty) (h : Single ts) :
    splitFrom ty ts = ts := by
  induction ts generalizing ty with
  | nil => rfl
  | cons t ts ih =>
    obtain ⟨ht, hts⟩ := List.forall_mem_cons.mp h
    have hsplit : splitToken ty t = [t] := by
      unfold splitToken
      split
      · exact absurd rfl ht
      · rfl
    rw [splitFrom, hsplit, ih _ hts]
    rfl

theorem single_append {ts us : List Token} (h : Single ts) (h' : Single us) : Single (ts ++ us) :=
  List.forall_mem_append.mpr ⟨h, h'⟩

theorem single_cons {t : Token} {ts : List Token} (ht : t.kind ≠ .comma) (h : Single ts) :
    Single (t :: ts) :=
  List.forall_mem_cons.mpr ⟨ht, h⟩

theorem single_nil : Single [] := List.forall_mem_nil _

theorem Plain.single {ts : List Token} (h : Plain ts) : Single ts := fun t ht => (h t ht).1

theorem single_braced {ts : List Token} (h : Single ts) : Single (braced ts) :=
  single_cons (by decide) (single_append h (single_cons (by decide) single_nil))

theorem Ty.kind_token (ty : Ty) : ty.token.kind ≠ .comma := by
  cases ty <;> decide

theorem single_declareEach (ty : Ty) (vs : List VariableTree) {items : ItemTree}
    (h : Single items.tokens) : Single (declareEach ty vs items).tokens := by
  induction vs with
  | nil => exact h
  | cons v vs ih =>
    refine single_append (single_cons ty.kind_token ?_) ih
    have hvariable := (plain_variable v.stripped).single
    exact single_append (single_append hvariable single_nil) (single_cons (by decide) single_nil)

theorem single_items (items : ItemTree) : Single items.stripped.tokens := by
  induction items with
  | nil => exact single_nil
  | declare d rest ih => exact single_declareEach d.ty _ ih
  | assign a rest ih => exact single_append (plain_assignment a.stripped).single ih
  | block inner rest ihInner ih => exact single_append (single_braced ihInner) ih

theorem single_program (tree : ProgramTree) : Single tree.stripped.tokens := by
  refine single_append ?_ ?_
  · intro t ht
    obtain ⟨f, hf, ht⟩ := List.mem_flatMap.mp ht
    obtain ⟨f', -, rfl⟩ := List.mem_map.mp hf
    have hbody := single_braced (single_items f'.body)
    have hfunction : Single f'.stripped.tokens := single_cons f'.returns.kind_token
      (single_cons (by simp [Token.kind]) (single_cons (by decide) (single_cons (by decide) hbody)))
    exact hfunction t ht
  · exact single_cons (by decide) (single_cons (by decide) (single_cons (by decide)
      (single_braced (single_items tree.main))))

theorem tokens_stripped {tree : ProgramTree} {p : Program} (h : tree.elaborate = some p) :
    tree.stripped.tokens = p.stripped.tokens := by
  rw [← split_program (elaborate_stripped h), splitDeclarations,
    splitFrom_single none (single_program tree)]

/-! ### Listings -/

theorem C.stripZeros_stripZeros (cs : List Char) : stripZeros (stripZeros cs) = stripZeros cs := by
  induction cs with
  | nil => rfl
  | cons c cs ih =>
    by_cases hc : c = '0'
    · subst hc
      exact ih
    · rw [stripZeros_of_ne cs hc, stripZeros_of_ne cs hc]

theorem C.outputInteger_outputInteger (lexeme : String) :
    outputInteger (outputInteger lexeme) = outputInteger lexeme := by
  rw [outputInteger, outputInteger, String.toList_ofList, stripZeros_stripZeros]

theorem C.ofExpr_stripped (value : Expr) : Formula.ofExpr value.stripped = .ofExpr value := by
  have hfactor : ∀ f : Factor, Operand.ofFactor f.stripped = .ofFactor f := by
    intro f
    cases f with
    | integer lexeme =>
      exact congrArg Operand.integer (outputInteger_outputInteger lexeme)
    | real lexeme => rfl
    | read v => rfl
  rw [Formula.ofExpr, Expr.factors_stripped, List.map_map, Formula.ofExpr]
  exact List.map_congr_left (fun step _ => by simp [hfactor])

theorem C.ofBlock_stripped (b : Block) : Body.ofBlock b.stripped = .ofBlock b := by
  induction b with
  | empty => rfl
  | declare d rest ih =>
    simp [Block.stripped, Declaration.stripped, Body.ofBlock, outputInteger_outputInteger, ih]
  | assign target value rest ih => simp [Block.stripped, Body.ofBlock, ofExpr_stripped, ih]
  | nest inner rest ihInner ih => simp [Block.stripped, Body.ofBlock, ihInner, ih]

theorem C.ofProgram_stripped (p : Program) : Listing.ofProgram p.stripped = .ofProgram p := by
  simp [Listing.ofProgram, Program.stripped, Routine.ofFunction, Function.stripped,
    ofBlock_stripped]

end BlockLang
