import BlockLang.Proofs.Precedence
import Mathlib.Data.List.SplitBy

/-!
# Flat lists of factors

A listing writes the factors of an expression in one line without parentheses. Nothing is lost by
that: cut before every operator that is not tight, the line falls into the terms of the expression
(`ofFactors?_factors`), and evaluated from the left, with a sum and a product pending, it has the
value of the sum of products (`flatValue?_factors`).
-/

universe u

namespace BlockLang

/-! ### Cutting a list into terms -/

/-- The list, cut before every operator that is not tight. -/
def pieces (steps : List (Option Operator × Factor)) : List (List (Option Operator × Factor)) :=
  steps.splitBy (fun _ step => step.1.all Operator.tight)

/-- The list, if every element of it follows an operator. -/
def led? {σ : Type} (steps : List (Option Operator × σ)) : Option (List (Operator × σ)) :=
  steps.mapM (fun step => step.1.map (fun op => (op, step.2)))

/-- A piece as a term, with the operator before it. -/
def Term.ofPiece? : List (Option Operator × Factor) → Option (Option Operator × Term)
  | [] => none
  | (lead, f) :: rest => (led? rest).map (fun tail => (lead, ⟨f, tail⟩))

/-- Terms as an expression. Only the first one follows no operator. -/
def Expr.ofTerms? : List (Option Operator × Term) → Option Expr
  | (none, t) :: rest => (led? rest).map (fun tail => ⟨t, tail⟩)
  | _ => none

/-- The expression whose terms are the pieces of a list. -/
def Expr.ofFactors? (steps : List (Option Operator × Factor)) : Option Expr :=
  ((pieces steps).mapM Term.ofPiece?).bind Expr.ofTerms?

theorem mapM_map_of_forall {σ τ : Type} {f : σ → τ} {g : τ → Option σ} {l : List σ}
    (h : ∀ x ∈ l, g (f x) = some x) : (l.map f).mapM g = some l := by
  induction l with
  | nil => rfl
  | cons x l ih =>
    have hx : g (f x) = some x := h x (List.mem_cons_self ..)
    have hl : (l.map f).mapM g = some l := ih (fun y hy => h y (List.mem_cons_of_mem _ hy))
    rw [List.map_cons, List.mapM_cons, hx, hl]
    rfl

theorem led?_map {σ : Type} (tail : List (Operator × σ)) :
    led? (tail.map (fun step => (some step.1, step.2))) = some tail :=
  mapM_map_of_forall (fun _ _ => rfl)

theorem Term.ofPiece?_factors (lead : Option Operator) (t : Term) :
    ofPiece? (t.factors lead) = some (lead, t) := by
  rw [factors, ofPiece?, led?_map]
  rfl

/-- Where whatever follows any element is related to it, neighbours are. -/
theorem isChain_of_forall {σ : Type} {R : σ → σ → Prop} {a : σ} {l : List σ}
    (h : ∀ x ∈ a :: l, ∀ y ∈ l, R x y) : (a :: l).IsChain R := by
  have htail : l.Pairwise R :=
    List.pairwise_of_forall_mem_list (fun x hx => h x (List.mem_cons_of_mem _ hx))
  exact (List.pairwise_cons.mpr ⟨h a (List.mem_cons_self ..), htail⟩).isChain

/-- The terms, each with the operator before it. -/
def Expr.ledTerms (e : Expr) : List (Option Operator × Term) :=
  (none, e.head) :: e.tail.map (fun step => (some step.1, step.2))

theorem Expr.factors_eq_flatten (e : Expr) :
    e.factors = (e.ledTerms.map (fun x => x.2.factors x.1)).flatten := by
  rw [factors, ledTerms, List.map_cons, List.flatten_cons, List.map_map, List.flatMap_def]
  rfl

theorem Term.Built.isChain_factors {t : Term} (h : t.Built) (lead : Option Operator) :
    (t.factors lead).IsChain (fun _ step => step.1.all Operator.tight = true) := by
  apply isChain_of_forall
  intro _ _ step hstep
  obtain ⟨x, hx, rfl⟩ := List.mem_map.mp hstep
  exact h.tight x hx

/-- The pieces of a built expression are its terms. -/
theorem Expr.Built.pieces_factors {e : Expr} (h : e.Built) :
    pieces e.factors = e.ledTerms.map (fun x => x.2.factors x.1) := by
  obtain ⟨hhead, htail⟩ := h.loose
  rw [pieces, factors_eq_flatten]
  apply List.splitBy_flatten
  · simp [Term.factors]
  · rw [ledTerms, List.map_cons, List.forall_mem_cons, List.map_map, List.forall_mem_map]
    exact ⟨hhead.isChain_factors none, fun step hstep => (htail step hstep).2.isChain_factors _⟩
  · -- Every piece but the first begins with the operator between two terms.
    rw [ledTerms, List.map_cons, List.map_map]
    apply isChain_of_forall
    intro piece hpiece next hnext
    have hne : piece ≠ [] := by
      rintro rfl
      simp [Term.factors] at hpiece
    obtain ⟨step, hstep, rfl⟩ := List.mem_map.mp hnext
    exact ⟨hne, List.cons_ne_nil _ _, (htail step hstep).1⟩

theorem Expr.Built.ofFactors?_factors {e : Expr} (h : e.Built) :
    Expr.ofFactors? e.factors = some e := by
  have hterms : (e.ledTerms.map (fun x => x.2.factors x.1)).mapM Term.ofPiece? =
      some e.ledTerms :=
    mapM_map_of_forall (fun x _ => x.2.ofPiece?_factors x.1)
  rw [ofFactors?, h.pieces_factors, hterms, Option.bind_some, ledTerms, ofTerms?, led?_map]
  rfl

/-! ### Evaluating a list from the left -/

section Value
variable {V : Type u} (operate : Operator → V → V → V) (value : Factor → V)

/-- The pending product joined to the sum pending before it. -/
def total (sum : Option (V × Operator)) (product : V) : V :=
  match sum with
  | none => product
  | some (before, op) => operate op before product

/-- The value of a list, given what is pending before it. A tight operator goes on with the
product, and any other one ends it. -/
def flatValueFrom? (sum : Option (V × Operator)) (product : V) :
    List (Option Operator × Factor) → Option V
  | [] => some (total operate sum product)
  | (none, _) :: _ => none
  | (some op, f) :: rest =>
    if op.tight then flatValueFrom? sum (operate op product (value f)) rest
    else flatValueFrom? (some (total operate sum product, op)) (value f) rest

/-- The value of a list whose first factor follows no operator, and all others one. -/
def flatValue? : List (Option Operator × Factor) → Option V
  | (none, f) :: rest => flatValueFrom? operate value none (value f) rest
  | _ => none

theorem total_eval (sum : Option (Tree Operator Factor × Operator))
    (product : Tree Operator Factor) :
    total operate (sum.map (fun x => (x.1.eval operate value, x.2)))
        (product.eval operate value) =
      (Tree.close sum product).eval operate value := by
  cases sum <;> rfl

/-- What is pending is the value of the trees read so far. -/
theorem flatValueFrom?_eval (sum : Option (Tree Operator Factor × Operator))
    (product : Tree Operator Factor) (steps : List (Option Operator × Factor)) :
    flatValueFrom? operate value (sum.map (fun x => (x.1.eval operate value, x.2)))
        (product.eval operate value) steps =
      (Tree.extend? Operator.tight sum product steps).map (Tree.eval operate value) := by
  induction steps generalizing sum product with
  | nil => exact congrArg some (total_eval operate value sum product)
  | cons step rest ih =>
    obtain ⟨lead, f⟩ := step
    cases lead with
    | none => rfl
    | some op =>
      rw [flatValueFrom?, Tree.extend?]
      split
      · exact ih sum (.node op product (.leaf f))
      · rw [total_eval]
        exact ih (some (.close sum product, op)) (.leaf f)

theorem flatValue?_eq (steps : List (Option Operator × Factor)) :
    flatValue? operate value steps =
      (Tree.ofSteps? Operator.tight steps).map (Tree.eval operate value) := by
  cases steps with
  | nil => rfl
  | cons step rest =>
    obtain ⟨lead, f⟩ := step
    cases lead with
    | none => exact flatValueFrom?_eval operate value none (.leaf f) rest
    | some op => rfl

theorem Expr.Built.flatValue?_factors {e : Expr} (h : e.Built) :
    flatValue? operate value e.factors = some (e.valueOf operate value) := by
  rw [flatValue?_eq, ofSteps?_factors h, Option.map_some, Expr.eval_tree]

end Value

/-- The flat list of a built expression determines the expression and its value. -/
theorem Expr.factors_lossless {e : Expr} (h : e.Built) :
    Expr.ofFactors? e.factors = some e ∧
      ∀ (V : Type u) (operate : Operator → V → V → V) (value : Factor → V),
        flatValue? operate value e.factors = some (e.valueOf operate value) :=
  ⟨h.ofFactors?_factors, fun _ operate value => h.flatValue?_factors operate value⟩

/-- `7 - 7 / 2 * 0.5 + 1`, in which integers are divided. -/
def difference : Expr :=
  ((Expr.ofTerm (.ofFactor (.integer "7"))).push .sub
    (((Term.ofFactor (.integer "7")).push true (.integer "2")).push false (.real "0.5"))).push .add
    (.ofFactor (.integer "1"))

theorem Expr.lossless_difference :
    difference.Built ∧ Expr.ofFactors? difference.factors = some difference ∧
      flatValue? Tree.node Tree.leaf difference.factors =
        some (.node .add
          (.node .sub (.leaf (.integer "7"))
            (.node .mul (.node .intDiv (.leaf (.integer "7")) (.leaf (.integer "2")))
              (.leaf (.real "0.5"))))
          (.leaf (.integer "1"))) := by
  have hproduct : Term.Built
      (((Term.ofFactor (.integer "7")).push true (.integer "2")).push false (.real "0.5")) :=
    .push (.push (.ofFactor _) true _) false _
  have hbuilt : difference.Built :=
    .push (.push (.ofTerm (.ofFactor _)) true hproduct) false (.ofFactor _)
  obtain ⟨hexpr, hvalue⟩ := Expr.factors_lossless hbuilt
  exact ⟨hbuilt, hexpr, hvalue _ Tree.node Tree.leaf⟩

end BlockLang
