import BlockLang.Proofs.Derivation

/-!
# Elaboration of derivation trees

Elaboration resolves the names of a derivation tree, checks it and yields the
program that it stands for. It follows the tree, one function for each rule, and
threads the scopes through in the order of the text. It has no result where some
check fails, and does not say which.
-/

namespace BlockLang

/-! ### Checks without their messages -/

theorem toOption_bind {ε α β : Type} (x : Except ε α) (f : α → Except ε β) :
    (x >>= f).toOption = x.toOption.bind (fun a => (f a).toOption) := by
  cases x <;> rfl

namespace Scopes

/-- The variable that a name stands for, if it stands for one without sizes. -/
def scalar? (s : Scopes) (name : String) : Option Variable :=
  match s.lookup name with
  | some ⟨_, .scalar, ty, block⟩ => some ⟨name, block, ty⟩
  | _ => none

theorem lookup_of_scalar? {s : Scopes} {name : String} {v : Variable}
    (h : s.scalar? name = some v) :
    ∃ found, s.lookup name = some ⟨found, .scalar, v.ty, v.block⟩ ∧ v.name = name := by
  unfold scalar? at h
  split at h
  · next found ty block hlookup =>
    cases h
    exact ⟨found, hlookup, rfl⟩
  · cases h

/-- The innermost frame has no such name. -/
def Fresh (s : Scopes) (name : String) : Prop := s.current.find? name = none

instance (s : Scopes) (name : String) : Decidable (s.Fresh name) :=
  inferInstanceAs (Decidable (s.current.find? name = none))

/-- The symbol of a name declared in the innermost frame. -/
def symbol (s : Scopes) (name : String) (kind : SymbolKind) (ty : Ty) : Symbol :=
  ⟨name, kind, ty, s.current.block⟩

theorem toOption_checkUndeclared (s : Scopes) (name : Located String) :
    (s.checkUndeclared name).toOption = if s.Fresh name.value then some () else none := by
  unfold checkUndeclared
  by_cases fresh : s.Fresh name.value
  · have hnone : s.current.find? name.value = none := fresh
    rw [hnone, if_pos fresh]
    rfl
  · obtain ⟨symbol, hsome⟩ := Option.ne_none_iff_exists'.mp fresh
    rw [hsome, if_neg fresh]
    rfl

theorem toOption_declare (s : Scopes) (name : Located String) (kind : SymbolKind) (ty : Ty) :
    (s.declare name kind ty).toOption = if s.Fresh name.value then
      some (s.symbol name.value kind ty, s.insert (s.symbol name.value kind ty)) else none := by
  simp only [declare, toOption_bind, toOption_checkUndeclared]
  split <;> rfl

theorem toOption_declareVariable (s : Scopes) (name : Located String) (ty : Ty)
    (sizes : List String) :
    (s.declareVariable name ty sizes).toOption = if s.Fresh name.value then
      some (s.symbol name.value (kindOf sizes) ty, ⟨⟨name.value, s.current.block, ty⟩, sizes⟩,
        s.insert (s.symbol name.value (kindOf sizes) ty)) else none := by
  simp only [declareVariable, toOption_bind, toOption_declare]
  split <;> rfl

theorem toOption_resolve (s : Scopes) (name : Located String) :
    (s.resolve name).toOption = s.scalar? name.value := by
  unfold resolve scalar?
  rcases s.lookup name.value with _ | ⟨_, kind, ty, block⟩
  · rfl
  · cases kind <;> rfl

end Scopes

/-- Some digit of a size differs from 0. -/
def Positive (size : String) : Prop := ∃ c ∈ size.toList, c ≠ '0'

instance (size : String) : Decidable (Positive size) :=
  inferInstanceAs (Decidable (∃ c ∈ size.toList, c ≠ '0'))

theorem toOption_checkSize (size : Located String) :
    (checkSize size).toOption = if Positive size.value then some () else none := by
  have h : (size.value.toList.any (fun c => c ≠ '0') = true) ↔ Positive size.value := by
    simp [Positive]
  unfold checkSize
  by_cases hp : Positive size.value
  · rw [if_pos (h.mpr hp), if_pos hp]
    rfl
  · rw [if_neg (fun ha => hp (h.mp ha)), if_neg hp]
    rfl

/-- A value of this type may be assigned to a variable of that type. -/
def Fits (target value : Ty) : Prop := target = .int → value = .int

instance (target value : Ty) : Decidable (Fits target value) :=
  inferInstanceAs (Decidable (target = .int → value = .int))

theorem toOption_checkAssignment (name : Located String) (target : Variable) (value : Expr) :
    (checkAssignment name target value).toOption =
      if Fits target.ty value.ty then some () else none := by
  unfold checkAssignment
  cases target.ty <;> cases value.ty <;> simp [Fits, Except.toOption]

/-! ### Elaboration, rule by rule -/

def FactorTree.elaborate (s : Scopes) : FactorTree → Option Factor
  | .integer lexeme => some (.integer lexeme)
  | .real lexeme => some (.real lexeme)
  | .name text => (s.scalar? text).map .read

def elaborateFactors (s : Scopes) (t : Term) : List (Bool × FactorTree) → Option Term
  | [] => some t
  | step :: tail => do
    let f ← step.2.elaborate s
    elaborateFactors s (t.push step.1 f) tail

def TermTree.elaborate (s : Scopes) (t : TermTree) : Option Term := do
  let f ← t.head.elaborate s
  elaborateFactors s (.ofFactor f) t.tail

def addOperator (subtract : Bool) : Operator := if subtract then .sub else .add

def elaborateTerms (s : Scopes) (e : Expr) : List (Bool × TermTree) → Option Expr
  | [] => some e
  | step :: tail => do
    let t ← step.2.elaborate s
    elaborateTerms s (e.push (addOperator step.1) t) tail

def ExprTree.elaborate (s : Scopes) (e : ExprTree) : Option Expr := do
  let t ← e.head.elaborate s
  elaborateTerms s (.ofTerm t) e.tail

def AssignmentTree.elaborate (s : Scopes) (a : AssignmentTree) : Option (Variable × Expr) := do
  let target ← s.scalar? a.target
  let value ← a.value.elaborate s
  if Fits target.ty value.ty then some (target, value) else none

def VariableTree.declaration (s : Scopes) (ty : Ty) (v : VariableTree) : Declaration :=
  ⟨⟨v.name, s.current.block, ty⟩, v.sizes⟩

def VariableTree.declare (s : Scopes) (ty : Ty) (v : VariableTree) : Scopes :=
  s.insert (s.symbol v.name (Scopes.kindOf v.sizes) ty)

def elaborateVariables (ty : Ty) : List VariableTree → Scopes → Option (Block × Scopes)
  | [], s => some (.empty, s)
  | v :: vs, s =>
    if s.Fresh v.name ∧ ∀ size ∈ v.sizes, Positive size then do
      let later ← elaborateVariables ty vs (v.declare s ty)
      some (.declare (v.declaration s ty) later.1, later.2)
    else none

def ItemTree.elaborate : ItemTree → Scopes → Option (Block × Scopes)
  | .nil, s => some (.empty, s)
  | .declare d rest, s => do
    let first ← elaborateVariables d.ty (d.first :: d.more) s
    let later ← rest.elaborate first.2
    some (first.1 ++ later.1, later.2)
  | .assign a rest, s => do
    let first ← a.elaborate s
    let later ← rest.elaborate s
    some (.assign first.1 first.2 later.1, later.2)
  | .block inner rest, s =>
    if s.inner.length < maxNesting then do
      let first ← inner.elaborate s.openFrame
      let later ← rest.elaborate first.2.closeFrame
      some (.nest first.1 later.1, later.2)
    else none

/-- The body of a subprogram is a block inside the global frame. -/
def ItemTree.elaborateBody (items : ItemTree) (s : Scopes) : Option (Block × Scopes) := do
  let body ← items.elaborate s.openFrame
  some (body.1, body.2.closeFrame)

def elaborateFunctions : List FunctionTree → Scopes → Option (List Function × Scopes)
  | [], s => some ([], s)
  | f :: fs, s =>
    if s.Fresh f.name then do
      let body ← f.body.elaborateBody (s.insert (s.symbol f.name .function f.returns))
      let later ← elaborateFunctions fs body.2
      some (⟨f.name, f.returns, body.1⟩ :: later.1, later.2)
    else none

def ProgramTree.elaborate (p : ProgramTree) : Option Program := do
  let functions ← elaborateFunctions p.functions .new
  let main ← p.main.elaborateBody functions.2
  some ⟨functions.1, main.1⟩

/-! ### What a successful elaboration consists of -/

theorem Term.factors_push (lead : Option Operator) (t : Term) (divide : Bool) (f : Factor) :
    (t.push divide f).factors lead = t.factors lead ++ [(some (t.operator divide f), f)] := by
  simp [factors, push]

theorem Expr.factors_push (e : Expr) (op : Operator) (t : Term) :
    (e.push op t).factors = e.factors ++ t.factors (some op) := by
  simp [factors, push]

theorem Expr.factors_ofTerm (t : Term) : (ofTerm t).factors = t.factors none := by
  simp [factors, ofTerm]

theorem AssignmentTree.elaborate_eq_some {s : Scopes} {a : AssignmentTree} {target : Variable}
    {value : Expr} (h : a.elaborate s = some (target, value)) :
    s.scalar? a.target = some target ∧ a.value.elaborate s = some value ∧
      Fits target.ty value.ty := by
  obtain ⟨target', htarget, h⟩ := Option.bind_eq_some_iff.mp h
  obtain ⟨value', hvalue, h⟩ := Option.bind_eq_some_iff.mp h
  obtain ⟨fits, heq⟩ := Option.ite_none_right_eq_some.mp h
  cases heq
  exact ⟨htarget, hvalue, fits⟩

theorem elaborateVariables_cons_eq_some {ty : Ty} {v : VariableTree} {vs : List VariableTree}
    {s s' : Scopes} {b : Block} (h : elaborateVariables ty (v :: vs) s = some (b, s')) :
    s.Fresh v.name ∧ ∃ later, elaborateVariables ty vs (v.declare s ty) = some (later, s') ∧
      b = .declare (v.declaration s ty) later := by
  rw [elaborateVariables, Option.ite_none_right_eq_some] at h
  obtain ⟨⟨fresh, -⟩, h⟩ := h
  obtain ⟨⟨later, s''⟩, hlater, heq⟩ := Option.bind_eq_some_iff.mp h
  cases heq
  exact ⟨fresh, later, hlater, rfl⟩

/-- The items are elaborated from one state of the scopes to another, rule by rule. -/
inductive Elaborates : ItemTree → Scopes → Block → Scopes → Prop
  | nil (s : Scopes) : Elaborates .nil s .empty s
  | declare {d : DeclarationTree} {rest : ItemTree} {s s₁ s' : Scopes} {b₁ b₂ : Block}
      (first : elaborateVariables d.ty (d.first :: d.more) s = some (b₁, s₁))
      (later : Elaborates rest s₁ b₂ s') : Elaborates (.declare d rest) s (b₁ ++ b₂) s'
  | assign {a : AssignmentTree} {rest : ItemTree} {s s' : Scopes} {target : Variable}
      {value : Expr} {b : Block} (first : a.elaborate s = some (target, value))
      (later : Elaborates rest s b s') : Elaborates (.assign a rest) s (.assign target value b) s'
  | block {inner rest : ItemTree} {s s₁ s' : Scopes} {b₁ b₂ : Block}
      (room : s.inner.length < maxNesting) (first : Elaborates inner s.openFrame b₁ s₁)
      (later : Elaborates rest s₁.closeFrame b₂ s') :
      Elaborates (.block inner rest) s (.nest b₁ b₂) s'

theorem elaborates_of_elaborate {items : ItemTree} {s s' : Scopes} {b : Block}
    (h : items.elaborate s = some (b, s')) : Elaborates items s b s' := by
  induction items generalizing s b s' with
  | nil =>
    cases h
    exact .nil s
  | declare d rest ih =>
    obtain ⟨⟨b₁, s₁⟩, first, h⟩ := Option.bind_eq_some_iff.mp h
    obtain ⟨⟨b₂, s₂⟩, later, heq⟩ := Option.bind_eq_some_iff.mp h
    cases heq
    exact .declare first (ih later)
  | assign a rest ih =>
    obtain ⟨⟨target, value⟩, first, h⟩ := Option.bind_eq_some_iff.mp h
    obtain ⟨⟨b₂, s₂⟩, later, heq⟩ := Option.bind_eq_some_iff.mp h
    cases heq
    exact .assign first (ih later)
  | block inner rest ihInner ih =>
    rw [ItemTree.elaborate, Option.ite_none_right_eq_some] at h
    obtain ⟨room, h⟩ := h
    obtain ⟨⟨b₁, s₁⟩, first, h⟩ := Option.bind_eq_some_iff.mp h
    obtain ⟨⟨b₂, s₂⟩, later, heq⟩ := Option.bind_eq_some_iff.mp h
    cases heq
    exact .block room (ihInner first) (ih later)

theorem Elaborates.elaborate_eq {items : ItemTree} {s s' : Scopes} {b : Block}
    (h : Elaborates items s b s') : items.elaborate s = some (b, s') := by
  induction h with
  | nil s => rfl
  | declare first later ih =>
    rw [ItemTree.elaborate, first, Option.bind_eq_bind, Option.bind_some, ih]
    rfl
  | assign first later ih =>
    rw [ItemTree.elaborate, first, Option.bind_eq_bind, Option.bind_some, ih]
    rfl
  | block room first later ihFirst ih =>
    rw [ItemTree.elaborate, if_pos room, ihFirst, Option.bind_eq_bind, Option.bind_some, ih]
    rfl

theorem elaborateBody_eq_some {items : ItemTree} {s s' : Scopes} {b : Block}
    (h : items.elaborateBody s = some (b, s')) :
    ∃ s₁, Elaborates items s.openFrame b s₁ ∧ s' = s₁.closeFrame := by
  obtain ⟨⟨b₁, s₁⟩, hitems, heq⟩ := Option.bind_eq_some_iff.mp h
  cases heq
  exact ⟨s₁, elaborates_of_elaborate hitems, rfl⟩

theorem elaborateFunctions_cons_eq_some {f : FunctionTree} {fs : List FunctionTree}
    {s s' : Scopes} {gs : List Function} (h : elaborateFunctions (f :: fs) s = some (gs, s')) :
    ∃ body s₁ later,
      f.body.elaborateBody (s.insert (s.symbol f.name .function f.returns)) = some (body, s₁) ∧
      elaborateFunctions fs s₁ = some (later, s') ∧ gs = ⟨f.name, f.returns, body⟩ :: later := by
  rw [elaborateFunctions, Option.ite_none_right_eq_some] at h
  obtain ⟨-, h⟩ := h
  obtain ⟨⟨body, s₁⟩, hbody, h⟩ := Option.bind_eq_some_iff.mp h
  obtain ⟨⟨later, s₂⟩, hlater, heq⟩ := Option.bind_eq_some_iff.mp h
  cases heq
  exact ⟨body, s₁, later, hbody, hlater, rfl⟩

/-! ### Items touch the innermost frame only -/

/-- Nothing but the innermost frame and the number of blocks may differ. -/
structure Scopes.SameAround (s s' : Scopes) : Prop where
  length : s'.inner.length = s.inner.length
  outer : s'.inner.tail = s.inner.tail
  global : s'.global = s.global

theorem Scopes.SameAround.trans {s s' s'' : Scopes} (h : s.SameAround s') (h' : s'.SameAround s'') :
    s.SameAround s'' :=
  ⟨h'.length.trans h.length, h'.outer.trans h.outer, h'.global.trans h.global⟩

theorem Scopes.SameAround.inner_ne_nil {s s' : Scopes} (h : s.SameAround s') (hs : s.inner ≠ []) :
    s'.inner ≠ [] := by
  intro hnil
  have hlength := h.length
  rw [hnil, List.length_nil] at hlength
  exact hs (List.length_eq_zero_iff.mp hlength.symm)

theorem Scopes.sameAround_declare (s : Scopes) (hs : s.inner ≠ []) (ty : Ty) (v : VariableTree) :
    s.SameAround (v.declare s ty) := by
  obtain ⟨inner, global, blocks⟩ := s
  cases inner with
  | nil => exact absurd rfl hs
  | cons f rest => exact ⟨rfl, rfl, rfl⟩

/-- A block that opens and closes leaves the frames around it as they were. -/
theorem Scopes.sameAround_closeFrame {s s' : Scopes} (h : s.openFrame.SameAround s') :
    s'.closeFrame.inner = s.inner ∧ s'.closeFrame.global = s.global :=
  ⟨h.outer, h.global⟩

theorem Scopes.inner_closeFrame_ne_nil {s s' : Scopes} (h : s.openFrame.SameAround s')
    (hs : s.inner ≠ []) : s'.closeFrame.inner ≠ [] := by
  rw [(sameAround_closeFrame h).1]
  exact hs

theorem elaborateVariables_around {ty : Ty} {vs : List VariableTree} {s s' : Scopes} {b : Block}
    (hs : s.inner ≠ []) (h : elaborateVariables ty vs s = some (b, s')) : s.SameAround s' := by
  induction vs generalizing s b with
  | nil =>
    cases h
    exact ⟨rfl, rfl, rfl⟩
  | cons v vs ih =>
    obtain ⟨-, later, hlater, -⟩ := elaborateVariables_cons_eq_some h
    have hfirst := s.sameAround_declare hs ty v
    exact hfirst.trans (ih (hfirst.inner_ne_nil hs) hlater)

theorem Elaborates.around {items : ItemTree} {s s' : Scopes} {b : Block}
    (h : Elaborates items s b s') (hs : s.inner ≠ []) : s.SameAround s' := by
  induction h with
  | nil s => exact ⟨rfl, rfl, rfl⟩
  | declare first later ih =>
    have hfirst := elaborateVariables_around hs first
    exact hfirst.trans (ih (hfirst.inner_ne_nil hs))
  | assign first later ih => exact ih hs
  | block room first later ihFirst ih =>
    obtain ⟨hclosed, hglobal⟩ := Scopes.sameAround_closeFrame (ihFirst (List.cons_ne_nil _ _))
    have hsame := Scopes.SameAround.mk (congrArg List.length hclosed) (congrArg List.tail hclosed)
      hglobal
    exact hsame.trans (ih (hsame.inner_ne_nil hs))

/-! ### Between the subprograms -/

/-- Only functions are known outside the blocks. -/
structure Outermost (s : Scopes) : Prop where
  inner : s.inner = []
  functions : ∀ symbol ∈ s.global.symbols, symbol.kind = .function

theorem outermost_new : Outermost .new := ⟨rfl, by simp [Scopes.new, Frame.new]⟩

theorem outermost_of_elaborateBody {items : ItemTree} {s s' : Scopes} {b : Block}
    (hs : Outermost s) (h : items.elaborateBody s = some (b, s')) :
    Outermost s' ∧ s'.global = s.global := by
  obtain ⟨s₁, hitems, rfl⟩ := elaborateBody_eq_some h
  obtain ⟨hinner, hglobal⟩ := Scopes.sameAround_closeFrame (hitems.around (List.cons_ne_nil _ _))
  refine ⟨⟨hinner.trans hs.inner, ?_⟩, hglobal⟩
  rw [hglobal]
  exact hs.functions

theorem Outermost.declareFunction {s : Scopes} (h : Outermost s) (f : FunctionTree) :
    Outermost (s.insert (s.symbol f.name .function f.returns)) ∧
      (s.insert (s.symbol f.name .function f.returns)).global.names =
        s.global.names ++ [f.name] := by
  obtain ⟨inner, global, blocks⟩ := s
  obtain ⟨hinner, hfunctions⟩ := h
  subst hinner
  refine ⟨⟨rfl, ?_⟩, ?_⟩
  · intro symbol hsymbol
    rcases List.mem_append.mp hsymbol with hold | hnew
    · exact hfunctions symbol hold
    · rw [List.mem_singleton.mp hnew]
      rfl
  · simp [Scopes.insert, Frame.insert, Frame.names, Scopes.symbol]

theorem outermost_of_elaborateFunctions {fs : List FunctionTree} {s s' : Scopes}
    {gs : List Function} (hs : Outermost s) (h : elaborateFunctions fs s = some (gs, s')) :
    Outermost s' := by
  induction fs generalizing s gs with
  | nil =>
    cases h
    exact hs
  | cons f fs ih =>
    obtain ⟨body, s₁, later, hbody, hlater, -⟩ := elaborateFunctions_cons_eq_some h
    exact ih (outermost_of_elaborateBody (hs.declareFunction f).1 hbody).1 hlater

end BlockLang
