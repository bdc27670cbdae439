import BlockLang.Proofs.Refusal

/-!
# Tokens that are at fault

A token is refused where it does not belong, or it belongs there and is refused when it takes
effect. A fault that shows when a token takes effect quotes that token (`blames_of_settle`). A
real value for an integer variable shows at the semicolon instead, and quotes the target of the
assignment (`assigning_of_reads`).
-/

namespace BlockLang

/-! ### What a token can do -/

/-- The token that an effect is about, if it may be refused when it takes effect. -/
def Effect.subject? : Effect → Option (Located Token)
  | .nameFunction _ name => some ⟨name.position, .name name.value⟩
  | .openBlock brace => some ⟨brace, .mark .openBrace⟩
  | .nameVariable _ name => some ⟨name.position, .name name.value⟩
  | .addSize _ size => some ⟨size.position, .integer size.value⟩
  | .nameAssignee name => some ⟨name.position, .name name.value⟩
  | .readOperand _ _ name => some ⟨name.position, .name name.value⟩
  | _ => none

/-- The token that a fault quotes, if the fault is about a token that belongs where it stands. -/
def Fault.subject? : Fault → Option Token
  | .syntactic .tooDeep => some (.mark .openBrace)
  | .semantic (.undeclared name) => some (.name name)
  | .semantic (.notAVariable name) => some (.name name)
  | .semantic (.redeclared name) => some (.name name)
  | .semantic (.nonPositiveSize lexeme) => some (.integer lexeme)
  | _ => none

/-- The diagnostic quotes this token and stands where it does. -/
def Diagnostic.Blames (d : Diagnostic) (t : Located Token) : Prop :=
  ∃ fault, fault.subject? = some t.value ∧ d = ⟨fault, some t.position⟩

namespace Reader
open Traced

theorem Row.subject {p : Point} {t : Located Token} {e : Effect} (row : Row p t e) :
    ∀ u ∈ e.subject?, u = t := by
  cases row <;> simp [Effect.subject?]

theorem quiet_take (r : Reader) (p : Point) (t : Located Token) :
    pulled (r.take p t).records = [] := by
  have htakes := takes_take r p t
  generalize r.take p t = x at htakes
  cases htakes with
  | accepts row => rfl
  | comma q d => exact (r.inert_declare d _).quiet
  | semicolon q d => exact (r.inert_declare d _).quiet
  | assigns q a o => exact (inert_bind (inert_check _) fun _ => inert_ok _).quiet
  | refuses misplaced => rfl

theorem effect_of_declare {r : Reader} {d : Declarator} {e : Effect} {s : Reader × Effect}
    (h : (r.declare d e).value? = some s) : s.2 = e := by
  obtain ⟨declared, -, hrest⟩ := Option.bind_eq_some_iff.mp ((value?_bind ..).symm.trans h)
  cases hrest
  rfl

theorem subject_of_take {r : Reader} {p : Point} {t : Located Token} {s : Reader × Effect}
    (h : (r.take p t).value? = some s) : ∀ u ∈ s.2.subject?, u = t := by
  have htakes := takes_take r p t
  generalize r.take p t = x at h htakes
  cases htakes with
  | accepts row =>
    cases h
    exact row.subject
  | comma q d =>
    rw [effect_of_declare h]
    simp [Effect.subject?]
  | semicolon q d =>
    rw [effect_of_declare h]
    simp [Effect.subject?]
  | assigns q a o =>
    obtain ⟨u, -, hrest⟩ := Option.bind_eq_some_iff.mp ((value?_bind ..).symm.trans h)
    cases hrest
    simp [Effect.subject?]
  | refuses misplaced => cases h

/-! ### Faults of a token that takes effect -/

theorem error_of_check_bind {α β : Type} {x : Except (Located SemanticError) α} {f : α → Traced β}
    {d : Diagnostic} (h : (check x >>= f).result = .error d)
    (hf : ∀ a, ∃ b, (f a).result = .ok b) : ∃ e, x = .error e ∧ d = .semantic e := by
  cases x with
  | error e =>
    cases h
    exact ⟨e, rfl, rfl⟩
  | ok a =>
    obtain ⟨b, hb⟩ := hf a
    have hbind : (check (.ok a) >>= f).result = (f a).result := rfl
    rw [hbind, hb] at h
    cases h

theorem blames_redeclared {s : Scopes} {name : Located String} {e : Located SemanticError}
    (h : s.checkUndeclared name = .error e) :
    (Diagnostic.semantic e).Blames ⟨name.position, .name name.value⟩ := by
  unfold Scopes.checkUndeclared at h
  split at h
  · cases h
    exact ⟨.semantic (.redeclared name.value), rfl, rfl⟩
  · cases h

theorem checkUndeclared_of_declare {s : Scopes} {name : Located String} {kind : SymbolKind}
    {ty : Ty} {e : Located SemanticError} (h : s.declare name kind ty = .error e) :
    s.checkUndeclared name = .error e := by
  unfold Scopes.declare at h
  cases hcheck : s.checkUndeclared name with
  | error e' =>
    rw [hcheck] at h
    cases h
    rfl
  | ok u =>
    rw [hcheck] at h
    cases h

theorem blames_unresolved {s : Scopes} {name : Located String} {e : Located SemanticError}
    (h : s.resolve name = .error e) :
    (Diagnostic.semantic e).Blames ⟨name.position, .name name.value⟩ := by
  unfold Scopes.resolve at h
  split at h
  · cases h
    exact ⟨.semantic (.undeclared name.value), rfl, rfl⟩
  · cases h
  · cases h
    exact ⟨.semantic (.notAVariable name.value), rfl, rfl⟩

theorem blames_size {size : Located String} {e : Located SemanticError}
    (h : checkSize size = .error e) :
    (Diagnostic.semantic e).Blames ⟨size.position, .integer size.value⟩ := by
  unfold checkSize at h
  split at h
  · cases h
  · cases h
    exact ⟨.semantic (.nonPositiveSize size.value), rfl, rfl⟩

/-- A token that is refused when it takes effect is the one that the diagnostic quotes. -/
theorem blames_of_settle {r : Reader} {e : Effect} {d : Diagnostic}
    (h : (r.settle e).result = .error d) : ∃ t, e.subject? = some t ∧ d.Blames t := by
  cases e with
  | goTo p => cases h
  | nameFunction ty name =>
    obtain ⟨error, herror, rfl⟩ := error_of_check_bind h (fun _ => ⟨_, rfl⟩)
    exact ⟨_, rfl, blames_redeclared (checkUndeclared_of_declare herror)⟩
  | beginFunction ty name => cases h
  | beginMain => cases h
  | openBlock brace =>
    have hopen : (r.openBlock brace).result = .error d := h
    unfold openBlock at hopen
    split at hopen
    · cases hopen
      exact ⟨_, rfl, .syntactic .tooDeep, rfl, rfl⟩
    · cases hopen
  | closeBlock =>
    have hclose : r.closeBlock.result = .error d := h
    unfold closeBlock at hclose
    cases hcompletes : r.builder.completes with
    | none =>
      rw [hcompletes] at hclose
      cases hclose
    | some heading =>
      rw [hcompletes] at hclose
      cases hclose
  | nameVariable ty name =>
    obtain ⟨error, herror, rfl⟩ := error_of_check_bind h (fun _ => ⟨_, rfl⟩)
    exact ⟨_, rfl, blames_redeclared herror⟩
  | addSize declarator size =>
    obtain ⟨error, herror, rfl⟩ := error_of_check_bind h (fun _ => ⟨_, rfl⟩)
    exact ⟨_, rfl, blames_size herror⟩
  | nameAssignee name =>
    obtain ⟨error, herror, rfl⟩ := error_of_check_bind h (fun _ => ⟨_, rfl⟩)
    exact ⟨_, rfl, blames_unresolved herror⟩
  | readOperand a context name =>
    obtain ⟨error, herror, rfl⟩ := error_of_check_bind h (fun _ => ⟨_, rfl⟩)
    exact ⟨_, rfl, blames_unresolved herror⟩
  | assign target value => cases h

/-! ### What holds of the tokens read so far -/

theorem invariant_of_reads {P : Reader → Point → List (Located Token) → Prop}
    (hstep : ∀ {r p t r' p' ts}, P r p ts → Step r p t r' p' → P r' p' (ts ++ [t]))
    {r : Reader} {p : Point} {ts : List (Located Token)} {s : Reader × Point}
    (before : List (Located Token)) (hP : P r p before) (h : r.reads p ts = some s) :
    P s.1 s.2 (before ++ ts) := by
  induction ts generalizing r p before with
  | nil =>
    cases h
    rwa [List.append_nil]
  | cons t ts ih =>
    obtain ⟨next, hnext, hrest⟩ := Option.bind_eq_some_iff.mp h
    have hrun := ih (before ++ [t]) (hstep hP (step_iff.mp hnext)) hrest
    rwa [List.append_assoc] at hrun

/-- The block does not declare the variable that is being declared. -/
def Undeclared (r : Reader) : Point → Prop
  | .declarator d => r.scopes.Fresh d.name.value
  | .size d => r.scopes.Fresh d.name.value
  | .sizeClose d => r.scopes.Fresh d.name.value
  | _ => True

theorem undeclared_step {r r' : Reader} {p p' : Point} {t : Located Token} (h : r.Undeclared p)
    (hstep : Step r p t r' p') : r'.Undeclared p' := by
  cases hstep with
  | variableName q ty name fresh => exact fresh
  | sizeOpen q d => exact h
  | size q d size positive => exact h
  | sizeClose q d => exact h
  | blockClose q =>
    rcases r.builder.completes with _ | ⟨_ | _⟩ <;> trivial
  | _ => trivial

/-- The tokens end with an assignment up to this part of its value. -/
def AssignsUpTo (a : Assignee) (value : List Token) (ts : List (Located Token)) : Prop :=
  ∃ before q us, us.map Located.value = value ∧
    ts = before ++ ⟨a.name.position, .name a.name.value⟩ :: ⟨q, .mark .assign⟩ :: us

theorem AssignsUpTo.concat {a : Assignee} {value : List Token} {ts : List (Located Token)}
    (h : AssignsUpTo a value ts) (t : Located Token) :
    AssignsUpTo a (value ++ [t.value]) (ts ++ [t]) := by
  obtain ⟨before, q, us, rfl, rfl⟩ := h
  refine ⟨before, q, us ++ [t], ?_, ?_⟩
  · rw [List.map_append, List.map_singleton]
  · rw [List.append_assoc]
    rfl

/-- With any operand after it the part of an expression is an expression. -/
def OperandDue (value : List Token) : Prop :=
  ∀ f : FactorTree, ∃ e : ExprTree, e.tokens = value ++ [f.token]

theorem operandDue_nil : OperandDue [] := fun f => ⟨⟨⟨f, []⟩, []⟩, rfl⟩

theorem operandDue_add (e : ExprTree) (subtract : Bool) :
    OperandDue (e.tokens ++ [addToken subtract]) := by
  intro f
  refine ⟨⟨e.head, e.tail ++ [(subtract, ⟨f, []⟩)]⟩, ?_⟩
  simp [ExprTree.tokens, termTokens, TermTree.tokens]

theorem operandDue_mul (e : ExprTree) (divide : Bool) :
    OperandDue (e.tokens ++ [mulToken divide]) := by
  intro f
  obtain ⟨⟨first, factors⟩, tail⟩ := e
  -- The factor goes to the last term, which is the head if there is no other.
  rcases List.eq_nil_or_concat tail with rfl | ⟨terms, ⟨subtract, last⟩, rfl⟩
  · refine ⟨⟨⟨first, factors ++ [(divide, f)]⟩, []⟩, ?_⟩
    simp [ExprTree.tokens, TermTree.tokens, factorTokens]
  · refine ⟨⟨⟨first, factors⟩, terms ++ [(subtract, ⟨last.head, last.tail ++ [(divide, f)]⟩)]⟩, ?_⟩
    simp [ExprTree.tokens, termTokens, TermTree.tokens, factorTokens]

/-- What the tokens read so far end with, where an assignment is being read. -/
def Assigning (ts : List (Located Token)) : Point → Prop
  | .assignSign a => ∃ before, ts = before ++ [⟨a.name.position, .name a.name.value⟩]
  | .operand a _ => ∃ value, OperandDue value ∧ AssignsUpTo a value ts
  | .operator a _ => ∃ e : ExprTree, AssignsUpTo a e.tokens ts
  | _ => True

theorem assigning_step {r r' : Reader} {p p' : Point} {t : Located Token}
    {ts : List (Located Token)} (h : Assigning ts p) (hstep : Step r p t r' p') :
    Assigning (ts ++ [t]) p' := by
  cases hstep with
  | itemName q name v known => exact ⟨ts, rfl⟩
  | assignSign q a =>
    obtain ⟨before, rfl⟩ := h
    refine ⟨[], operandDue_nil, before, q, [], rfl, ?_⟩
    rw [List.append_assoc]
    rfl
  | operand q a context f g known =>
    obtain ⟨value, hdue, hassigns⟩ := h
    obtain ⟨e, he⟩ := hdue f
    refine ⟨e, ?_⟩
    rw [he]
    exact hassigns.concat ⟨q, f.token⟩
  | mul q a o divide =>
    obtain ⟨e, hassigns⟩ := h
    exact ⟨_, operandDue_mul e divide, hassigns.concat ⟨q, mulToken divide⟩⟩
  | add q a o subtract =>
    obtain ⟨e, hassigns⟩ := h
    exact ⟨_, operandDue_add e subtract, hassigns.concat ⟨q, addToken subtract⟩⟩
  | blockClose q =>
    rcases r.builder.completes with _ | ⟨_ | _⟩ <;> trivial
  | _ => trivial

section Reached
variable {ts : List (Located Token)} {s : Reader × Point} (h : Reader.new.reads .top ts = some s)
include h

theorem undeclared_of_reads : s.1.Undeclared s.2 := by
  have htop : Reader.new.Undeclared .top := trivial
  exact invariant_of_reads (P := fun r p _ => r.Undeclared p) undeclared_step [] htop h

theorem assigning_of_reads : Assigning ts s.2 := by
  have htop : Assigning [] .top := trivial
  exact invariant_of_reads (P := fun _ p ts => Assigning ts p) assigning_step [] htop h

end Reached

/-! ### Tokens that are refused when they are taken -/

theorem not_error_of_declare {r : Reader} {declarator : Declarator} {e : Effect} {d : Diagnostic}
    (hfresh : r.scopes.Fresh declarator.name.value) :
    (r.declare declarator e).result ≠ .error d := by
  intro h
  obtain ⟨error, herror, -⟩ := error_of_check_bind h (fun _ => ⟨_, rfl⟩)
  have hsome := Scopes.toOption_declareVariable r.scopes declarator.name declarator.ty
    declarator.sizes
  rw [herror, if_pos hfresh] at hsome
  cases hsome

/-- A token is refused because it does not belong where it stands, or because it ends an assignment
of a real value to an integer variable. The variable that it ends is not declared yet. -/
theorem refused_of_take {r : Reader} {p : Point} (hp : r.Undeclared p) {t : Located Token}
    {d : Diagnostic} (h : (r.take p t).result = .error d) :
    d = .syntactic ⟨t.position, .unexpectedToken t.value p.expected⟩ ∨
      ∃ a o q, p = .operator a o ∧ t = ⟨q, .mark .semicolon⟩ ∧
        d = .semantic ⟨a.name.position, .expectedReal a.name.value⟩ := by
  have htakes := takes_take r p t
  generalize r.take p t = x at h htakes
  cases htakes with
  | accepts row => cases h
  | comma q declarator => exact absurd h (not_error_of_declare hp)
  | semicolon q declarator => exact absurd h (not_error_of_declare hp)
  | assigns q a o =>
    obtain ⟨error, herror, rfl⟩ := error_of_check_bind h (fun _ => ⟨_, rfl⟩)
    unfold checkAssignment at herror
    split at herror
    · cases herror
      exact .inr ⟨a, o, q, rfl, rfl, rfl⟩
    · cases herror
  | refuses misplaced =>
    cases h
    exact .inl rfl

end Reader

end BlockLang
