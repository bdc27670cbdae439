import BlockLang.Proofs.StaticRules

/-!
# Types and division kinds

A recipe lists the calls that make a term or an expression, so that what is stored can be compared
with what was asked for. A value is real as soon as one operand is, and a division is one of
integers as long as all operands of its term up to it are (`stored_build`). What a call has stored
stays, and a term is the same in every expression (`typed_build`).
-/

namespace BlockLang

theorem Ty.join_eq_real_iff (a b : Ty) : a.join b = .real ↔ a = .real ∨ b = .real := by
  cases a <;> cases b <;> simp [Ty.join]

theorem Ty.eq_int_iff (ty : Ty) : ty = .int ↔ ty ≠ .real := by
  cases ty <;> simp

/-- A type joined with others is real if one of all these is. -/
theorem foldl_join_eq_real_iff {σ : Type} (ty : σ → Ty) (tail : List (Operator × σ)) (first : Ty) :
    tail.foldl (fun joined step => joined.join (ty step.2)) first = .real ↔
      first = .real ∨ ∃ x ∈ tail.map Prod.snd, ty x = .real := by
  induction tail generalizing first with
  | nil => simp
  | cons step tail ih =>
    rw [List.foldl_cons, ih, Ty.join_eq_real_iff, List.map_cons, or_assoc]
    simp only [List.mem_cons, exists_eq_or_imp]

/-! ### Terms -/

namespace Term

/-- The factors alone. -/
def operands (t : Term) : List Factor := t.head :: t.tail.map Prod.snd

theorem ty_eq_real_iff (t : Term) : t.ty = .real ↔ ∃ f ∈ t.operands, f.ty = .real := by
  rw [ty, foldl_join_eq_real_iff, operands]
  simp only [List.mem_cons, exists_eq_or_imp]

section Operator
variable (t : Term) (divide : Bool) (f : Factor)

theorem operator_eq_mul_iff : t.operator divide f = .mul ↔ divide = false := by
  unfold operator
  cases divide <;> cases t.ty <;> cases f.ty <;> simp

theorem operator_eq_intDiv_iff :
    t.operator divide f = .intDiv ↔ divide = true ∧ t.ty = .int ∧ f.ty = .int := by
  unfold operator
  cases divide <;> cases t.ty <;> cases f.ty <;> simp

theorem operator_eq_div_iff :
    t.operator divide f = .div ↔ divide = true ∧ (t.ty = .real ∨ f.ty = .real) := by
  unfold operator
  cases divide <;> cases t.ty <;> cases f.ty <;> simp

end Operator

/-- Multiply and divide by some factors in order. -/
def pushAll (t : Term) (steps : List (Bool × Factor)) : Term :=
  steps.foldl (fun t step => t.push step.1 step.2) t

theorem pushAll_cons (t : Term) (divide : Bool) (f : Factor) (steps : List (Bool × Factor)) :
    t.pushAll ((divide, f) :: steps) = (t.push divide f).pushAll steps := rfl

/-- Pushing only adds at the end. -/
theorem tail_pushAll (t : Term) (steps : List (Bool × Factor)) :
    (t.pushAll steps).head = t.head ∧ ∃ added, (t.pushAll steps).tail = t.tail ++ added ∧
      added.map Prod.snd = steps.map Prod.snd := by
  induction steps generalizing t with
  | nil => exact ⟨rfl, [], by simp [pushAll], rfl⟩
  | cons step steps ih =>
    obtain ⟨hhead, added, htail, hadded⟩ := ih (t.push step.1 step.2)
    refine ⟨hhead, (t.operator step.1 step.2, step.2) :: added, ?_, ?_⟩
    · rw [pushAll_cons, htail, push]
      simp
    · simp only [List.map_cons, hadded]

end Term

/-- The calls that make a term: its first factor, and the further ones, each with whether the term
is divided by it. -/
structure TermRecipe where
  first : Factor
  more : List (Bool × Factor)

namespace TermRecipe
variable (b : TermRecipe)

def build : Term := (Term.ofFactor b.first).pushAll b.more

def factors : List Factor := b.first :: b.more.map Prod.snd

/-- The same calls, and some more after them. -/
def extend (more : List (Bool × Factor)) : TermRecipe := ⟨b.first, b.more ++ more⟩

/-- The calls before the `j`-th push. -/
def upTo (j : Nat) : TermRecipe := ⟨b.first, b.more.take j⟩

theorem build_extend (more : List (Bool × Factor)) :
    (b.extend more).build = b.build.pushAll more :=
  List.foldl_append

theorem operands_build : b.build.operands = b.factors := by
  obtain ⟨hhead, added, htail, hadded⟩ := (Term.ofFactor b.first).tail_pushAll b.more
  rw [Term.operands, build, hhead, htail, factors, ← hadded]
  rfl

theorem ty_build_eq_real_iff : b.build.ty = .real ↔ ∃ f ∈ b.factors, f.ty = .real := by
  rw [Term.ty_eq_real_iff, operands_build]

theorem ty_build_eq_int_iff : b.build.ty = .int ↔ ∀ f ∈ b.factors, f.ty = .int := by
  rw [Ty.eq_int_iff, ne_eq, ty_build_eq_real_iff]
  simp only [Ty.eq_int_iff, not_exists, not_and]

theorem length_tail_build : b.build.tail.length = b.more.length := by
  have h := congrArg List.length b.operands_build
  simp only [Term.operands, factors, List.length_cons, List.length_map] at h
  omega

section Push
variable {b} {j : Nat} {divide : Bool} {f : Factor} (h : b.more[j]? = some (divide, f))
include h

theorem lt_of_push : j < b.more.length := (List.getElem?_eq_some_iff.mp h).1

theorem factors_take : b.factors.take (j + 2) = (b.upTo j).factors ++ [f] := by
  have hsplit : b.more.take (j + 1) = b.more.take j ++ [(divide, f)] := by
    rw [List.take_add_one, h]
    rfl
  rw [factors, List.take_succ_cons, ← List.map_take, hsplit, List.map_append]
  rfl

/-- The operator of a push is the one that the term before it gives. -/
theorem getElem?_build : b.build.tail[j]? = some ((b.upTo j).build.operator divide f, f) := by
  have hlength : (b.upTo j).build.tail.length = j := by
    rw [length_tail_build, upTo, List.length_take]
    have := lt_of_push h
    omega
  have hmore : b.more = b.more.take j ++ (divide, f) :: b.more.drop (j + 1) := by
    obtain ⟨hlt, heq⟩ := List.getElem?_eq_some_iff.mp h
    rw [← heq, List.getElem_cons_drop, List.take_append_drop]
  have hbuild : b.build = ((b.upTo j).build.push divide f).pushAll (b.more.drop (j + 1)) := by
    rw [← Term.pushAll_cons, ← build_extend, extend, upTo, ← hmore]
  obtain ⟨-, added, htail, -⟩ :=
    ((b.upTo j).build.push divide f).tail_pushAll (b.more.drop (j + 1))
  rw [hbuild, htail, Term.push, List.append_assoc, List.getElem?_append_right (by omega), hlength,
    Nat.sub_self]
  rfl

theorem ty_int_iff_of_push : (b.upTo j).build.ty = .int ∧ f.ty = .int ↔
    ∀ g ∈ b.factors.take (j + 2), g.ty = .int := by
  rw [factors_take h, List.forall_mem_append, List.forall_mem_singleton, ty_build_eq_int_iff]

theorem ty_real_iff_of_push : (b.upTo j).build.ty = .real ∨ f.ty = .real ↔
    ∃ g ∈ b.factors.take (j + 2), g.ty = .real := by
  rw [factors_take h, ty_build_eq_real_iff]
  simp only [List.mem_append, List.mem_singleton, or_and_right, exists_or, exists_eq_left]

end Push

/-- The term is what the calls say. -/
structure Stored (t : Term) : Prop where
  operands : t.operands = b.factors
  ty : t.ty = .real ↔ ∃ f ∈ b.factors, f.ty = .real
  /-- The factor of the `j`-th push has `j + 1` others before it in the term. -/
  operators : ∀ j divide f, b.more[j]? = some (divide, f) → ∃ op, t.tail[j]? = some (op, f) ∧
    (op = .mul ↔ divide = false) ∧
    (op = .intDiv ↔ divide = true ∧ ∀ g ∈ b.factors.take (j + 2), g.ty = .int) ∧
    (op = .div ↔ divide = true ∧ ∃ g ∈ b.factors.take (j + 2), g.ty = .real)
  /-- More calls leave what is there. -/
  stays : ∀ more, (b.extend more).build.head = t.head ∧ t.tail <+: (b.extend more).build.tail

theorem stored_build : b.Stored b.build := by
  refine ⟨b.operands_build, b.ty_build_eq_real_iff, ?_, ?_⟩
  · intro j divide f h
    refine ⟨_, getElem?_build h, Term.operator_eq_mul_iff .., ?_, ?_⟩
    · rw [Term.operator_eq_intDiv_iff, ty_int_iff_of_push h]
    · rw [Term.operator_eq_div_iff, ty_real_iff_of_push h]
  · intro more
    obtain ⟨hhead, added, htail, -⟩ := b.build.tail_pushAll more
    rw [build_extend, htail]
    exact ⟨hhead, List.prefix_append ..⟩

end TermRecipe

/-! ### Expressions -/

/-- The terms alone. -/
def Expr.terms (e : Expr) : List Term := e.head :: e.tail.map Prod.snd

theorem Expr.ty_eq_real_iff (e : Expr) : e.ty = .real ↔ ∃ t ∈ e.terms, t.ty = .real := by
  rw [ty, foldl_join_eq_real_iff, terms]
  simp only [List.mem_cons, exists_eq_or_imp]

/-- The calls that make an expression: those of its first term, and those of the further ones, each
with the operator before it. -/
structure ExprRecipe where
  first : TermRecipe
  more : List (Operator × TermRecipe)

namespace ExprRecipe
variable (b : ExprRecipe)

def build : Expr :=
  b.more.foldl (fun e step => e.push step.1 step.2.build) (.ofTerm b.first.build)

def terms : List TermRecipe := b.first :: b.more.map Prod.snd

/-- The same calls, and some more after them. -/
def extend (more : List (Operator × TermRecipe)) : ExprRecipe := ⟨b.first, b.more ++ more⟩

theorem foldl_push (e : Expr) (more : List (Operator × TermRecipe)) :
    more.foldl (fun e step => e.push step.1 step.2.build) e =
      ⟨e.head, e.tail ++ more.map (fun step => (step.1, step.2.build))⟩ := by
  induction more generalizing e with
  | nil => simp
  | cons step more ih =>
    rw [List.foldl_cons, ih, Expr.push]
    simp

theorem build_eq : b.build =
    ⟨b.first.build, b.more.map (fun step => (step.1, step.2.build))⟩ :=
  foldl_push (.ofTerm b.first.build) b.more

theorem terms_build : b.build.terms = b.terms.map TermRecipe.build := by
  rw [build_eq, Expr.terms, terms, List.map_cons, List.map_map, List.map_map]
  rfl

/-- The expression is what the calls say. -/
structure Typed (e : Expr) : Prop where
  /-- Each term is what its own calls make of it, whatever the others are. -/
  terms : e.terms = b.terms.map TermRecipe.build
  operators : e.tail.map Prod.fst = b.more.map Prod.fst
  stored : ∀ r ∈ b.terms, r.Stored r.build
  ty : e.ty = .real ↔ ∃ r ∈ b.terms, ∃ f ∈ r.factors, f.ty = .real
  /-- More calls leave what is there. -/
  stays : ∀ more, (b.extend more).build.head = e.head ∧ e.tail <+: (b.extend more).build.tail

theorem typed_build : b.Typed b.build := by
  refine ⟨b.terms_build, ?_, fun r _ => r.stored_build, ?_, ?_⟩
  · rw [build_eq, List.map_map]
    rfl
  · rw [Expr.ty_eq_real_iff, terms_build]
    constructor
    · intro ⟨t, ht, hreal⟩
      obtain ⟨r, hr, rfl⟩ := List.mem_map.mp ht
      exact ⟨r, hr, r.ty_build_eq_real_iff.mp hreal⟩
    · intro ⟨r, hr, hreal⟩
      exact ⟨r.build, List.mem_map_of_mem hr, r.ty_build_eq_real_iff.mpr hreal⟩
  · intro more
    simp only [build_eq, extend, List.map_append]
    exact ⟨trivial, List.prefix_append ..⟩

/-- Seven halved, then divided by a real: the first division is one of integers, and no later one
is. The next term begins anew. -/
example : (build ⟨⟨.integer "7", [(true, .integer "2"), (true, .real "0.5"), (true, .integer "3")]⟩,
      [(.add, ⟨.integer "9", [(true, .integer "4")]⟩)]⟩).factors.map Prod.fst =
    [none, some .intDiv, some .div, some .div, some .add, some .intDiv] := by
  decide

end ExprRecipe

end BlockLang
