import BlockLang.Proofs.Elaboration

/-!
# The static rules

What a derivation tree has to obey beyond the grammar, said about the tree alone:
which names may be declared together, which declaration a use of a name denotes,
and which values an integer variable takes. `isSome_elaborate_iff` says that the
items of a block can be elaborated exactly when they obey the rules.
-/

namespace BlockLang

/-- A variable as its declaration has it. -/
structure Declared where
  ty : Ty
  name : String
  sizes : List String

/-- The first declaration of a name in a scope. A scope lists the declarations that
precede a place in the blocks around it, from the nearest one backwards, hence
those of the innermost block first. -/
def visible (scope : List Declared) (name : String) : Option Declared :=
  scope.find? (fun d => d.name = name)

namespace FactorTree

def names : FactorTree → List String
  | .name text => [text]
  | _ => []

/-- A real literal, or a variable of type real. -/
def IsReal (scope : List Declared) : FactorTree → Prop
  | .integer _ => False
  | .real _ => True
  | .name text => ∃ d, visible scope text = some d ∧ d.ty = .real

end FactorTree

def TermTree.factors (t : TermTree) : List FactorTree := t.head :: t.tail.map Prod.snd

def ExprTree.factors (e : ExprTree) : List FactorTree :=
  e.head.factors ++ e.tail.flatMap (fun step => step.2.factors)

namespace AssignmentTree

/-- The names that an assignment uses, its target first. -/
def names (a : AssignmentTree) : List String :=
  a.target :: a.value.factors.flatMap FactorTree.names

/-- Every name denotes a variable without sizes. -/
def Resolved (scope : List Declared) (a : AssignmentTree) : Prop :=
  ∀ name ∈ a.names, ∃ d, visible scope name = some d ∧ d.sizes = []

/-- An integer variable is assigned no real operand. -/
def Fitting (scope : List Declared) (a : AssignmentTree) : Prop :=
  ∀ d, visible scope a.target = some d → d.ty = .int →
    ∀ f ∈ a.value.factors, ¬f.IsReal scope

end AssignmentTree

def DeclarationTree.variables (d : DeclarationTree) : List VariableTree := d.first :: d.more

def DeclarationTree.declared (d : DeclarationTree) : List Declared :=
  d.variables.map (fun v => ⟨d.ty, v.name, v.sizes⟩)

namespace ItemTree

/-- The names declared directly in a block. -/
def names : ItemTree → List String
  | .nil => []
  | .declare d rest => d.variables.map VariableTree.name ++ rest.names
  | .assign _ rest => rest.names
  | .block _ rest => rest.names

/-- The blocks inside a block, at any depth. -/
def blocks : ItemTree → List ItemTree
  | .nil => []
  | .declare _ rest => rest.blocks
  | .assign _ rest => rest.blocks
  | .block inner rest => inner :: (inner.blocks ++ rest.blocks)

/-- The sizes of all arrays declared in a block or inside it. -/
def sizes : ItemTree → List String
  | .nil => []
  | .declare d rest => d.variables.flatMap VariableTree.sizes ++ rest.sizes
  | .assign _ rest => rest.sizes
  | .block inner rest => inner.sizes ++ rest.sizes

/-- All assignments in a block or inside it, each with the scope in which it stands. -/
def assignments (scope : List Declared) : ItemTree → List (List Declared × AssignmentTree)
  | .nil => []
  | .declare d rest => rest.assignments (d.declared.reverse ++ scope)
  | .assign a rest => (scope, a) :: rest.assignments scope
  | .block inner rest => inner.assignments scope ++ rest.assignments scope

/-- How many blocks are nested in one another inside a block. -/
def depth : ItemTree → Nat
  | .nil => 0
  | .declare _ rest => rest.depth
  | .assign _ rest => rest.depth
  | .block inner rest => max (inner.depth + 1) rest.depth

end ItemTree

/-! ### Lookup after a declaration -/

namespace Scopes

theorem frames_eq (s : Scopes) : s.frames = s.current :: s.frames.tail := by
  obtain ⟨inner, global, blocks⟩ := s
  cases inner <;> rfl

theorem frames_tail_insert (s : Scopes) (symbol : Symbol) :
    (s.insert symbol).frames.tail = s.frames.tail := by
  obtain ⟨inner, global, blocks⟩ := s
  cases inner <;> rfl

theorem lookup_eq (s : Scopes) (name : String) :
    s.lookup name = (s.current.find? name).or
      (s.frames.tail.findSome? (fun f => f.find? name)) := by
  rw [lookup, frames_eq, List.findSome?_cons]
  cases s.current.find? name <;> rfl

theorem find?_insert_of_ne (f : Frame) (symbol : Symbol) (name : String) (h : symbol.name ≠ name) :
    (f.insert symbol).find? name = f.find? name := by
  simp [Frame.find?, Frame.insert, List.find?_append, h]

/-- A name that the innermost frame lacked denotes its new symbol, and every other
name what it denoted before. -/
theorem lookup_insert (s : Scopes) (symbol : Symbol) (fresh : s.Fresh symbol.name) (name : String) :
    (s.insert symbol).lookup name = if symbol.name = name then some symbol else s.lookup name := by
  rw [lookup_eq, lookup_eq, current_insert, frames_tail_insert]
  by_cases h : symbol.name = name
  · subst h
    rw [Frame.find?_insert _ _ _ fresh, if_pos rfl, if_pos rfl]
    rfl
  · rw [find?_insert_of_ne _ _ _ h, if_neg h]

theorem lookup_openFrame (s : Scopes) (name : String) :
    s.openFrame.lookup name = s.lookup name := rfl

/-- After a block has opened and closed, names denote what they did before it. -/
theorem lookup_closeFrame {s s' : Scopes} (h : s.openFrame.SameAround s') :
    s'.closeFrame.lookup = s.lookup ∧ s'.closeFrame.current = s.current := by
  obtain ⟨hinner, hglobal⟩ := sameAround_closeFrame h
  have hframes : s'.closeFrame.frames = s.frames := by rw [frames, frames, hinner, hglobal]
  refine ⟨?_, ?_⟩
  · funext name
    rw [lookup, lookup, hframes]
  · rw [current, current, hinner, hglobal]

theorem fresh_iff (s : Scopes) (name : String) : s.Fresh name ↔ name ∉ s.current.names := by
  unfold Fresh Frame.find? Frame.names
  simp [List.find?_eq_none]

end Scopes

/-! ### Uses -/

/-- The frames give each name the declaration that is visible in the scope. A name
that has none there may still be that of a function. -/
structure Agrees (s : Scopes) (scope : List Declared) : Prop where
  known : ∀ name d, visible scope name = some d →
    ∃ block, s.lookup name = some ⟨name, Scopes.kindOf d.sizes, d.ty, block⟩
  unknown : ∀ name, visible scope name = none →
    ∀ symbol, s.lookup name = some symbol → symbol.kind = .function

section Uses
variable {s : Scopes} {scope : List Declared}

theorem Agrees.scalar?_of_visible (h : Agrees s scope) {name : String} {d : Declared}
    (hd : visible scope name = some d) :
    ∃ block, s.scalar? name = if d.sizes = [] then some ⟨name, block, d.ty⟩ else none := by
  obtain ⟨block, hlookup⟩ := h.known name d hd
  refine ⟨block, ?_⟩
  rw [Scopes.scalar?, hlookup]
  by_cases hsizes : d.sizes = []
  · simp [Scopes.kindOf, hsizes]
  · simp [Scopes.kindOf, hsizes]

theorem Agrees.scalar?_of_hidden (h : Agrees s scope) {name : String}
    (hd : visible scope name = none) : s.scalar? name = none := by
  rw [Scopes.scalar?]
  cases hlookup : s.lookup name with
  | none => rfl
  | some symbol =>
    have hkind := h.unknown name hd symbol hlookup
    obtain ⟨name', kind, ty, block⟩ := symbol
    subst hkind
    rfl

theorem Agrees.isSome_scalar?_iff (h : Agrees s scope) (name : String) :
    (s.scalar? name).isSome ↔ ∃ d, visible scope name = some d ∧ d.sizes = [] := by
  cases hd : visible scope name with
  | none => simp [h.scalar?_of_hidden hd]
  | some d =>
    obtain ⟨block, hv⟩ := h.scalar?_of_visible hd
    rw [hv]
    by_cases hsizes : d.sizes = [] <;> simp [hsizes]

theorem Agrees.ty_of_scalar? (h : Agrees s scope) {name : String} {v : Variable}
    (hv : s.scalar? name = some v) : ∃ d, visible scope name = some d ∧ d.ty = v.ty := by
  cases hd : visible scope name with
  | none =>
    rw [h.scalar?_of_hidden hd] at hv
    exact absurd hv (by simp)
  | some d =>
    obtain ⟨block, hv'⟩ := h.scalar?_of_visible hd
    rw [hv', Option.ite_none_right_eq_some] at hv
    obtain ⟨-, heq⟩ := hv
    cases heq
    exact ⟨d, rfl, rfl⟩

theorem Agrees.isSome_factor_iff (h : Agrees s scope) (f : FactorTree) :
    (f.elaborate s).isSome ↔
      ∀ name ∈ f.names, ∃ d, visible scope name = some d ∧ d.sizes = [] := by
  cases f with
  | integer lexeme => simp [FactorTree.elaborate, FactorTree.names]
  | real lexeme => simp [FactorTree.elaborate, FactorTree.names]
  | name text => simp [FactorTree.elaborate, FactorTree.names, h.isSome_scalar?_iff]

theorem Agrees.factor_ty_iff (h : Agrees s scope) {f : FactorTree} {g : Factor}
    (hg : f.elaborate s = some g) : g.ty = .int ↔ ¬f.IsReal scope := by
  cases f with
  | integer lexeme =>
    cases hg
    simp [FactorTree.IsReal, Factor.ty]
  | real lexeme =>
    cases hg
    simp [FactorTree.IsReal, Factor.ty]
  | name text =>
    obtain ⟨v, hv, rfl⟩ := Option.map_eq_some_iff.mp hg
    obtain ⟨d, hd, hty⟩ := h.ty_of_scalar? hv
    simp only [FactorTree.IsReal, hd, Option.some.injEq, exists_eq_left', Factor.ty, ← hty]
    cases d.ty <;> simp

/-- The operand is known and an integer. -/
def FactorTree.IsInt (s : Scopes) (f : FactorTree) : Prop :=
  ∃ g, f.elaborate s = some g ∧ g.ty = .int

theorem Ty.join_eq_int_iff (a b : Ty) : a.join b = .int ↔ a = .int ∧ b = .int := by
  cases a <;> cases b <;> simp [Ty.join]

theorem isSome_elaborateFactors_iff (t : Term) (tail : List (Bool × FactorTree)) :
    (elaborateFactors s t tail).isSome ↔ ∀ step ∈ tail, (step.2.elaborate s).isSome := by
  induction tail generalizing t with
  | nil => simp [elaborateFactors]
  | cons step tail ih =>
    cases hf : step.2.elaborate s with
    | none => simp [elaborateFactors, hf]
    | some g => simp [elaborateFactors, hf, ih]

theorem elaborateFactors_ty {t t' : Term} {tail : List (Bool × FactorTree)}
    (h : elaborateFactors s t tail = some t') :
    t'.ty = .int ↔ t.ty = .int ∧ ∀ step ∈ tail, step.2.IsInt s := by
  induction tail generalizing t with
  | nil =>
    cases h
    simp
  | cons step tail ih =>
    obtain ⟨g, hg, hrest⟩ := Option.bind_eq_some_iff.mp h
    have hint : step.2.IsInt s ↔ g.ty = .int := by simp [FactorTree.IsInt, hg]
    rw [ih hrest, Term.ty_push, Ty.join_eq_int_iff, List.forall_mem_cons, hint, and_assoc]

theorem isSome_term_iff (t : TermTree) :
    (t.elaborate s).isSome ↔ ∀ f ∈ t.factors, (f.elaborate s).isSome := by
  rw [TermTree.factors, List.forall_mem_cons, List.forall_mem_map]
  cases hf : t.head.elaborate s with
  | none => simp [TermTree.elaborate, hf]
  | some g =>
    rw [TermTree.elaborate, hf, Option.bind_eq_bind, Option.bind_some, isSome_elaborateFactors_iff]
    simp

theorem term_ty {t : TermTree} {t' : Term} (h : t.elaborate s = some t') :
    t'.ty = .int ↔ ∀ f ∈ t.factors, f.IsInt s := by
  obtain ⟨g, hg, hrest⟩ := Option.bind_eq_some_iff.mp h
  have hint : t.head.IsInt s ↔ g.ty = .int := by simp [FactorTree.IsInt, hg]
  rw [elaborateFactors_ty hrest, Term.ty_ofFactor, TermTree.factors, List.forall_mem_cons, hint,
    List.forall_mem_map]

theorem isSome_elaborateTerms_iff (e : Expr) (tail : List (Bool × TermTree)) :
    (elaborateTerms s e tail).isSome ↔ ∀ step ∈ tail, (step.2.elaborate s).isSome := by
  induction tail generalizing e with
  | nil => simp [elaborateTerms]
  | cons step tail ih =>
    cases ht : step.2.elaborate s with
    | none => simp [elaborateTerms, ht]
    | some t => simp [elaborateTerms, ht, ih]

theorem elaborateTerms_ty {e e' : Expr} {tail : List (Bool × TermTree)}
    (h : elaborateTerms s e tail = some e') :
    e'.ty = .int ↔ e.ty = .int ∧ ∀ step ∈ tail, ∀ f ∈ step.2.factors, f.IsInt s := by
  induction tail generalizing e with
  | nil =>
    cases h
    simp
  | cons step tail ih =>
    obtain ⟨t, ht, hrest⟩ := Option.bind_eq_some_iff.mp h
    rw [ih hrest, Expr.ty_push, Ty.join_eq_int_iff, List.forall_mem_cons, term_ty ht, and_assoc]

theorem isSome_expr_iff (e : ExprTree) :
    (e.elaborate s).isSome ↔ ∀ f ∈ e.factors, (f.elaborate s).isSome := by
  rw [ExprTree.factors, List.forall_mem_append, List.forall_mem_flatMap, ← isSome_term_iff]
  cases ht : e.head.elaborate s with
  | none => simp [ExprTree.elaborate, ht]
  | some t =>
    rw [ExprTree.elaborate, ht, Option.bind_eq_bind, Option.bind_some, isSome_elaborateTerms_iff]
    simp only [isSome_term_iff, Option.isSome_some, true_and]

theorem expr_ty {e : ExprTree} {e' : Expr} (h : e.elaborate s = some e') :
    e'.ty = .int ↔ ∀ f ∈ e.factors, f.IsInt s := by
  obtain ⟨t, ht, hrest⟩ := Option.bind_eq_some_iff.mp h
  rw [elaborateTerms_ty hrest, Expr.ty_ofTerm, term_ty ht, ExprTree.factors,
    List.forall_mem_append, List.forall_mem_flatMap]

theorem Agrees.isSome_assignment_iff (h : Agrees s scope) (a : AssignmentTree) :
    (a.elaborate s).isSome ↔ a.Resolved scope ∧ a.Fitting scope := by
  have hnames : a.Resolved scope ↔
      (s.scalar? a.target).isSome ∧ ∀ f ∈ a.value.factors, (f.elaborate s).isSome := by
    rw [AssignmentTree.Resolved, AssignmentTree.names, List.forall_mem_cons,
      List.forall_mem_flatMap, h.isSome_scalar?_iff]
    simp only [h.isSome_factor_iff]
  rw [hnames, ← isSome_expr_iff]
  cases hv : s.scalar? a.target with
  | none => simp [AssignmentTree.elaborate, hv]
  | some v =>
    cases he : a.value.elaborate s with
    | none => simp [AssignmentTree.elaborate, hv, he]
    | some e =>
      obtain ⟨d, hd, hty⟩ := h.ty_of_scalar? hv
      have hreal : (∀ f ∈ a.value.factors, f.IsInt s) ↔
          ∀ f ∈ a.value.factors, ¬f.IsReal scope := by
        refine forall₂_congr fun f hf => ?_
        have hsome := (isSome_expr_iff a.value).mp (by rw [he]; rfl) f hf
        obtain ⟨g, hg⟩ := Option.isSome_iff_exists.mp hsome
        simp [FactorTree.IsInt, hg, h.factor_ty_iff hg]
      have hfits : Fits v.ty e.ty ↔ a.Fitting scope := by
        simp only [Fits, AssignmentTree.Fitting, hd, Option.some.injEq, forall_eq', expr_ty he,
          hreal, hty]
      simp [AssignmentTree.elaborate, hv, he, hfits]

end Uses

/-! ### Declarations -/

theorem names_declare (s : Scopes) (ty : Ty) (v : VariableTree) :
    (v.declare s ty).current.names = s.current.names ++ [v.name] := by
  simp [VariableTree.declare, Frame.names, Frame.insert, Scopes.symbol]

theorem isSome_bind_some {α β : Type} (x : Option α) (f : α → β) :
    (x.bind fun a => some (f a)).isSome = x.isSome := by
  cases x <;> rfl

theorem isSome_elaborateVariables_cons (ty : Ty) (v : VariableTree) (vs : List VariableTree)
    (s : Scopes) :
    (elaborateVariables ty (v :: vs) s).isSome ↔
      (s.Fresh v.name ∧ ∀ size ∈ v.sizes, Positive size) ∧
        (elaborateVariables ty vs (v.declare s ty)).isSome := by
  rw [elaborateVariables]
  split
  · next hok =>
    rw [Option.bind_eq_bind, isSome_bind_some, and_iff_right hok]
  · next hbad => exact iff_of_false (by simp) (fun h => hbad h.1)

theorem isSome_elaborateVariables_iff (ty : Ty) (vs : List VariableTree) (s : Scopes) :
    (elaborateVariables ty vs s).isSome ↔ (vs.map VariableTree.name).Nodup ∧
      (∀ v ∈ vs, v.name ∉ s.current.names) ∧ ∀ v ∈ vs, ∀ size ∈ v.sizes, Positive size := by
  induction vs generalizing s with
  | nil => simp [elaborateVariables]
  | cons v vs ih =>
    have hsplit : (∀ w ∈ vs, w.name ∉ s.current.names ++ [v.name]) ↔
        (∀ w ∈ vs, w.name ∉ s.current.names) ∧ v.name ∉ vs.map VariableTree.name := by
      simp only [List.mem_append, List.mem_singleton, not_or, List.mem_map, not_exists, not_and]
      constructor
      · intro h
        exact ⟨fun w hw => (h w hw).1, fun w hw => (h w hw).2⟩
      · rintro ⟨hnames, hname⟩ w hw
        exact ⟨hnames w hw, hname w hw⟩
    rw [isSome_elaborateVariables_cons, ih, names_declare, hsplit, s.fresh_iff, List.map_cons,
      List.nodup_cons, List.forall_mem_cons, List.forall_mem_cons]
    constructor
    · rintro ⟨⟨hv, hsizes⟩, hnodup, ⟨hvs, hname⟩, hrest⟩
      exact ⟨⟨hname, hnodup⟩, ⟨hv, hvs⟩, hsizes, hrest⟩
    · rintro ⟨⟨hname, hnodup⟩, ⟨hv, hvs⟩, hsizes, hrest⟩
      exact ⟨⟨hv, hsizes⟩, hnodup, ⟨hvs, hname⟩, hrest⟩

theorem Agrees.declare {s : Scopes} {scope : List Declared} (h : Agrees s scope) (ty : Ty)
    (v : VariableTree) (fresh : s.Fresh v.name) :
    Agrees (v.declare s ty) (⟨ty, v.name, v.sizes⟩ :: scope) := by
  have hlookup : ∀ name, (v.declare s ty).lookup name =
      if v.name = name then some (s.symbol v.name (Scopes.kindOf v.sizes) ty)
      else s.lookup name := fun name => s.lookup_insert _ fresh name
  have hvisible : ∀ name, visible (⟨ty, v.name, v.sizes⟩ :: scope) name =
      if v.name = name then some ⟨ty, v.name, v.sizes⟩ else visible scope name := by
    intro name
    by_cases hname : v.name = name <;> simp [visible, hname]
  constructor
  · intro name d hd
    rw [hvisible] at hd
    rw [hlookup]
    by_cases hname : v.name = name
    · rw [if_pos hname, Option.some.injEq] at hd
      subst hd hname
      exact ⟨s.current.block, if_pos rfl⟩
    · rw [if_neg hname] at hd ⊢
      exact h.known name d hd
  · intro name hd
    rw [hvisible] at hd
    rw [hlookup]
    by_cases hname : v.name = name
    · rw [if_pos hname] at hd
      exact absurd hd (by simp)
    · rw [if_neg hname] at hd ⊢
      exact h.unknown name hd

theorem elaborateVariables_agrees {ty : Ty} {vs : List VariableTree} {s s' : Scopes} {b : Block}
    {scope : List Declared} (hs : Agrees s scope) (h : elaborateVariables ty vs s = some (b, s')) :
    s'.current.names = s.current.names ++ vs.map VariableTree.name ∧
      Agrees s' ((vs.map (fun v => ⟨ty, v.name, v.sizes⟩)).reverse ++ scope) := by
  induction vs generalizing s b scope with
  | nil =>
    cases h
    simpa using hs
  | cons v vs ih =>
    obtain ⟨fresh, later, hlater, -⟩ := elaborateVariables_cons_eq_some h
    obtain ⟨hnames, hagrees⟩ := ih (hs.declare ty v fresh) hlater
    rw [names_declare] at hnames
    refine ⟨by simpa using hnames, ?_⟩
    simpa using hagrees

/-! ### Blocks -/

/-- The static rules for the items of a block, where the block has already declared
the names `taken` and `room` more blocks may be nested. -/
structure ItemTree.Obeys (items : ItemTree) (taken : List String) (scope : List Declared)
    (room : Nat) : Prop where
  distinct : items.names.Nodup
  fresh : ∀ name ∈ items.names, name ∉ taken
  blocks : ∀ b ∈ items.blocks, b.names.Nodup
  positive : ∀ size ∈ items.sizes, Positive size
  resolved : ∀ use ∈ items.assignments scope, use.2.Resolved use.1
  fitting : ∀ use ∈ items.assignments scope, use.2.Fitting use.1
  depth : items.depth ≤ room

section Obeys
variable {taken : List String} {scope : List Declared} {room : Nat}

theorem obeys_declare_iff (d : DeclarationTree) (rest : ItemTree) :
    (ItemTree.declare d rest).Obeys taken scope room ↔
      ((d.variables.map VariableTree.name).Nodup ∧ (∀ v ∈ d.variables, v.name ∉ taken) ∧
        ∀ v ∈ d.variables, ∀ size ∈ v.sizes, Positive size) ∧
      rest.Obeys (taken ++ d.variables.map VariableTree.name) (d.declared.reverse ++ scope)
        room := by
  constructor
  · rintro ⟨distinct, fresh, blocks, positive, resolved, fitting, depth⟩
    simp only [ItemTree.names, List.nodup_append] at distinct
    simp only [ItemTree.names, List.forall_mem_append, List.forall_mem_map] at fresh
    simp only [ItemTree.sizes, List.forall_mem_append, List.forall_mem_flatMap] at positive
    refine ⟨⟨distinct.1, fresh.1, positive.1⟩, distinct.2.1, ?_, blocks, positive.2, resolved,
      fitting, depth⟩
    intro name hname htaken
    rcases List.mem_append.mp htaken with htaken | htaken
    · exact fresh.2 name hname htaken
    · exact distinct.2.2 name htaken name hname rfl
  · rintro ⟨⟨hnodup, hfresh, hpositive⟩, hrest⟩
    obtain ⟨distinct, fresh, blocks, positive, resolved, fitting, depth⟩ := hrest
    constructor
    · simp only [ItemTree.names, List.nodup_append]
      refine ⟨hnodup, distinct, ?_⟩
      rintro name hname other hother rfl
      exact fresh name hother (List.mem_append_right _ hname)
    · simp only [ItemTree.names, List.forall_mem_append, List.forall_mem_map]
      exact ⟨hfresh, fun name hname htaken => fresh name hname (List.mem_append_left _ htaken)⟩
    · exact blocks
    · simp only [ItemTree.sizes, List.forall_mem_append, List.forall_mem_flatMap]
      exact ⟨hpositive, positive⟩
    · exact resolved
    · exact fitting
    · exact depth

theorem obeys_assign_iff (a : AssignmentTree) (rest : ItemTree) :
    (ItemTree.assign a rest).Obeys taken scope room ↔
      (a.Resolved scope ∧ a.Fitting scope) ∧ rest.Obeys taken scope room := by
  constructor
  · rintro ⟨distinct, fresh, blocks, positive, resolved, fitting, depth⟩
    rw [ItemTree.assignments, List.forall_mem_cons] at resolved fitting
    exact ⟨⟨resolved.1, fitting.1⟩, distinct, fresh, blocks, positive, resolved.2, fitting.2, depth⟩
  · rintro ⟨⟨hresolved, hfitting⟩, distinct, fresh, blocks, positive, resolved, fitting, depth⟩
    refine ⟨distinct, fresh, blocks, positive, ?_, ?_, depth⟩
    · rw [ItemTree.assignments, List.forall_mem_cons]
      exact ⟨hresolved, resolved⟩
    · rw [ItemTree.assignments, List.forall_mem_cons]
      exact ⟨hfitting, fitting⟩

theorem obeys_block_iff (inner rest : ItemTree) :
    (ItemTree.block inner rest).Obeys taken scope room ↔
      0 < room ∧ inner.Obeys [] scope (room - 1) ∧ rest.Obeys taken scope room := by
  constructor
  · rintro ⟨distinct, fresh, blocks, positive, resolved, fitting, depth⟩
    simp only [ItemTree.blocks, List.forall_mem_cons, List.forall_mem_append] at blocks
    simp only [ItemTree.sizes, List.forall_mem_append] at positive
    simp only [ItemTree.assignments, List.forall_mem_append] at resolved fitting
    simp only [ItemTree.depth] at depth
    refine ⟨by omega, ⟨blocks.1, by simp, blocks.2.1, positive.1, resolved.1, fitting.1, by omega⟩,
      distinct, fresh, blocks.2.2, positive.2, resolved.2, fitting.2, by omega⟩
  · rintro ⟨hroom, hinner, hrest⟩
    have hdepth := hinner.depth
    have hdepth' := hrest.depth
    constructor
    · exact hrest.distinct
    · exact hrest.fresh
    · simp only [ItemTree.blocks, List.forall_mem_cons, List.forall_mem_append]
      exact ⟨hinner.distinct, hinner.blocks, hrest.blocks⟩
    · simp only [ItemTree.sizes, List.forall_mem_append]
      exact ⟨hinner.positive, hrest.positive⟩
    · simp only [ItemTree.assignments, List.forall_mem_append]
      exact ⟨hinner.resolved, hrest.resolved⟩
    · simp only [ItemTree.assignments, List.forall_mem_append]
      exact ⟨hinner.fitting, hrest.fitting⟩
    · simp only [ItemTree.depth]
      omega

end Obeys

/-- Items can be elaborated exactly when they obey the static rules. -/
theorem isSome_elaborate_iff (items : ItemTree) (s : Scopes) (scope : List Declared)
    (hs : s.inner ≠ []) (hagrees : Agrees s scope) :
    (items.elaborate s).isSome ↔
      items.Obeys s.current.names scope (maxNesting - s.inner.length) := by
  induction items generalizing s scope with
  | nil =>
    simp only [ItemTree.elaborate, Option.isSome_some, true_iff]
    exact ⟨List.nodup_nil, by simp [ItemTree.names], by simp [ItemTree.blocks],
      by simp [ItemTree.sizes], by simp [ItemTree.assignments], by simp [ItemTree.assignments],
      Nat.zero_le _⟩
  | declare d rest ih =>
    rw [obeys_declare_iff, ← isSome_elaborateVariables_iff d.ty, DeclarationTree.variables,
      ItemTree.elaborate]
    cases hd : elaborateVariables d.ty (d.first :: d.more) s with
    | none => simp
    | some x =>
      obtain ⟨b, s'⟩ := x
      have haround := elaborateVariables_around hs hd
      obtain ⟨hnames, hagrees'⟩ := elaborateVariables_agrees hagrees hd
      have hrest := ih s' _ (haround.inner_ne_nil hs) hagrees'
      rw [hnames, haround.length] at hrest
      rw [Option.isSome_some, and_iff_right rfl, Option.bind_eq_bind, Option.bind_some,
        isSome_bind_some]
      exact hrest
  | assign a rest ih =>
    rw [obeys_assign_iff, ← hagrees.isSome_assignment_iff, ItemTree.elaborate]
    cases ha : a.elaborate s with
    | none => simp
    | some x =>
      rw [Option.isSome_some, and_iff_right rfl, Option.bind_eq_bind, Option.bind_some,
        Option.bind_eq_bind, isSome_bind_some]
      exact ih s scope hs hagrees
  | block inner rest ihInner ih =>
    -- The inner block starts without names of its own, and sees the scope around it.
    rw [obeys_block_iff, ItemTree.elaborate]
    split
    · next room =>
      have hopen : Agrees s.openFrame scope := ⟨hagrees.known, hagrees.unknown⟩
      have hinner := ihInner s.openFrame scope (List.cons_ne_nil _ _) hopen
      have hroom : maxNesting - s.openFrame.inner.length = maxNesting - s.inner.length - 1 := by
        simp only [Scopes.openFrame, List.length_cons]
        omega
      rw [hroom] at hinner
      have hempty : s.openFrame.current.names = [] := rfl
      rw [hempty] at hinner
      rw [and_iff_right (show 0 < maxNesting - s.inner.length by omega), ← hinner]
      cases hi : inner.elaborate s.openFrame with
      | none => simp
      | some x =>
        obtain ⟨b, s'⟩ := x
        have haround := (elaborates_of_elaborate hi).around (List.cons_ne_nil _ _)
        obtain ⟨hclosed, -⟩ := Scopes.sameAround_closeFrame haround
        obtain ⟨hlookup, hcurrent⟩ := Scopes.lookup_closeFrame haround
        have hafter : Agrees s'.closeFrame scope :=
          ⟨hlookup ▸ hagrees.known, hlookup ▸ hagrees.unknown⟩
        have hrest := ih s'.closeFrame scope (hclosed ▸ hs) hafter
        rw [hcurrent, hclosed] at hrest
        rw [Option.isSome_some, and_iff_right rfl, ← hrest, Option.bind_eq_bind, Option.bind_some,
          isSome_bind_some]
    · next full => exact iff_of_false (by simp) (fun h => by omega)

end BlockLang
