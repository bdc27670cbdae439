import BlockLang.Proofs.TreeReading

/-!
# Programs as tokens

A program keeps all that its text says. Written back as tokens it is the text it was
read from, except that a declaration of several variables has become several
declarations. `Elaborates.split` says so of the items of a block.
-/

namespace BlockLang

/-! ### Writing a program -/

/-- Both divisions are written alike. -/
def Operator.token : Operator → Token
  | .add => .mark .plus
  | .sub => .mark .minus
  | .mul => .mark .times
  | .div => .mark .slash
  | .intDiv => .mark .slash

def Factor.token : Factor → Token
  | .integer lexeme => .integer lexeme
  | .real lexeme => .real lexeme
  | .read v => .name v.name

/-- An operand after the operator that leads to it. -/
def operandTokens (step : Option Operator × Factor) : List Token :=
  (step.1.map Operator.token).toList ++ [step.2.token]

def Expr.tokens (e : Expr) : List Token := e.factors.flatMap operandTokens

def Declaration.tokens (d : Declaration) : List Token :=
  d.target.ty.token :: .name d.target.name :: (d.sizes.flatMap sizeTokens ++ [.mark .semicolon])

def Block.tokens : Block → List Token
  | .empty => []
  | .declare d rest => d.tokens ++ rest.tokens
  | .assign target value rest =>
    .name target.name :: .mark .assign :: (value.tokens ++ [.mark .semicolon]) ++ rest.tokens
  | .nest inner rest => braced inner.tokens ++ rest.tokens

def Function.tokens (f : Function) : List Token :=
  f.returns.token :: .name f.name :: .mark .openParen :: .mark .closeParen :: braced f.body.tokens

def Program.tokens (p : Program) : List Token :=
  p.functions.flatMap Function.tokens ++
    .keyword .main :: .mark .openParen :: .mark .closeParen :: braced p.main.tokens

/-! ### Splitting declarations -/

/-- The type of the declaration that a token stands in, given that of the token before it. -/
def latestType (ty : Option Ty) : Token → Option Ty
  | .keyword .int => some .int
  | .keyword .double => some .real
  | _ => ty

/-- A comma ends the declaration and starts another of the same type. -/
def splitToken (ty : Option Ty) (t : Token) : List Token :=
  match ty, t with
  | some ty, .mark .comma => [.mark .semicolon, ty.token]
  | _, t => [t]

def splitFrom (ty : Option Ty) : List Token → List Token
  | [] => []
  | t :: rest => splitToken ty t ++ splitFrom (latestType ty t) rest

/-- The text with a declaration of its own for every variable. -/
def splitDeclarations (ts : List Token) : List Token := splitFrom none ts

theorem splitFrom_append (ty : Option Ty) (ts us : List Token) :
    splitFrom ty (ts ++ us) = splitFrom ty ts ++ splitFrom (ts.foldl latestType ty) us := by
  induction ts generalizing ty with
  | nil => rfl
  | cons t ts ih =>
    rw [List.cons_append, splitFrom, splitFrom, ih, List.append_assoc]
    rfl

/-- Tokens that neither start a declaration nor separate its variables. -/
def Plain (ts : List Token) : Prop :=
  ∀ t ∈ ts, t.kind ≠ .comma ∧ t.kind ≠ .int ∧ t.kind ≠ .double

theorem latestType_of_plain {t : Token} (ty : Option Ty)
    (h : t.kind ≠ .comma ∧ t.kind ≠ .int ∧ t.kind ≠ .double) :
    latestType ty t = ty ∧ splitToken ty t = [t] := by
  obtain ⟨hcomma, hint, hdouble⟩ := h
  constructor
  · unfold latestType
    split
    · exact absurd rfl hint
    · exact absurd rfl hdouble
    · rfl
  · unfold splitToken
    split
    · exact absurd rfl hcomma
    · rfl

theorem splitFrom_plain {ts : List Token} (ty : Option Ty) (h : Plain ts) :
    splitFrom ty ts = ts ∧ ts.foldl latestType ty = ty := by
  induction ts with
  | nil => exact ⟨rfl, rfl⟩
  | cons t ts ih =>
    obtain ⟨hlatest, hsplit⟩ := latestType_of_plain ty (h t (List.mem_cons_self ..))
    obtain ⟨hfrom, hfold⟩ := ih (fun u hu => h u (List.mem_cons_of_mem _ hu))
    rw [splitFrom, List.foldl_cons, hlatest, hsplit, hfrom]
    exact ⟨rfl, hfold⟩

theorem splitFrom_plain_append {ts : List Token} (ty : Option Ty) (h : Plain ts)
    (us : List Token) : splitFrom ty (ts ++ us) = ts ++ splitFrom ty us := by
  obtain ⟨hfrom, hfold⟩ := splitFrom_plain ty h
  rw [splitFrom_append, hfrom, hfold]

theorem splitFrom_type (ty : Option Ty) (ty' : Ty) (us : List Token) :
    splitFrom ty (ty'.token :: us) = ty'.token :: splitFrom (some ty') us := by
  cases ty' <;> cases ty <;> rfl

theorem splitFrom_comma (ty : Ty) (us : List Token) :
    splitFrom (some ty) (.mark .comma :: us) =
      .mark .semicolon :: ty.token :: splitFrom (some ty) us := rfl

theorem splitFrom_braced (ty : Option Ty) (us : List Token) :
    splitFrom ty (braced us) = braced (splitFrom ty us) := by
  have hopen : Plain [.mark .openBrace] := by simp [Plain, Token.kind]
  have hclose : Plain [.mark .closeBrace] := by simp [Plain, Token.kind]
  have hbraced : braced us = [.mark .openBrace] ++ (us ++ [.mark .closeBrace]) := rfl
  rw [hbraced, splitFrom_plain_append ty hopen, splitFrom_append, (splitFrom_plain _ hclose).1]
  rfl

theorem plain_variable (v : VariableTree) : Plain v.tokens := by
  intro t ht
  have hkind := VariableTree.kind_of_mem ht
  refine ⟨?_, ?_, ?_⟩ <;> intro heq <;> simp [heq] at hkind

theorem plain_assignment (a : AssignmentTree) : Plain a.tokens := by
  intro t ht
  have hkind := AssignmentTree.kind_of_mem ht
  refine ⟨?_, ?_, ?_⟩ <;> intro heq <;> simp [heq, assignmentKinds] at hkind

def singleTokens (ty : Ty) (v : VariableTree) : List Token :=
  ty.token :: (v.tokens ++ [.mark .semicolon])

theorem split_variables (ty : Ty) (v : VariableTree) (vs : List VariableTree) :
    ty.token :: splitFrom (some ty) (v.tokens ++ vs.flatMap moreTokens ++ [.mark .semicolon]) =
      (v :: vs).flatMap (singleTokens ty) := by
  induction vs generalizing v with
  | nil =>
    have hsemicolon : Plain [.mark .semicolon] := by simp [Plain, Token.kind]
    rw [List.flatMap_nil, List.append_nil, splitFrom_plain_append _ (plain_variable v),
      (splitFrom_plain _ hsemicolon).1, List.flatMap_singleton]
    rfl
  | cons w vs ih =>
    have hassoc : v.tokens ++ (w :: vs).flatMap moreTokens ++ [.mark .semicolon] =
        v.tokens ++ .mark .comma :: (w.tokens ++ vs.flatMap moreTokens ++ [.mark .semicolon]) := by
      simp [moreTokens]
    rw [hassoc, splitFrom_plain_append _ (plain_variable v), splitFrom_comma, ih]
    simp [singleTokens]

theorem split_declaration (ty : Option Ty) (d : DeclarationTree) :
    splitFrom ty d.tokens = (d.first :: d.more).flatMap (singleTokens d.ty) := by
  rw [DeclarationTree.tokens, splitFrom_type, split_variables]

/-! ### Elaboration keeps the tokens -/

section Elaborated
variable {s s' : Scopes} {b : Block}

theorem tokens_factor {f : FactorTree} {g : Factor} (h : f.elaborate s = some g) :
    g.token = f.token := by
  cases f with
  | integer lexeme =>
    cases h
    rfl
  | real lexeme =>
    cases h
    rfl
  | name text =>
    obtain ⟨v, hv, rfl⟩ := Option.map_eq_some_iff.mp h
    obtain ⟨-, -, hname⟩ := Scopes.lookup_of_scalar? hv
    exact congrArg Token.name hname

theorem token_operator (t : Term) (divide : Bool) (f : Factor) :
    (t.operator divide f).token = mulToken divide := by
  unfold Term.operator
  cases divide
  · rfl
  · cases t.ty <;> cases f.ty <;> rfl

theorem token_addOperator (subtract : Bool) : (addOperator subtract).token = addToken subtract := by
  cases subtract <;> rfl

theorem tokens_factors {lead : Option Operator} {t t' : Term} {tail : List (Bool × FactorTree)}
    (h : elaborateFactors s t tail = some t') :
    (t'.factors lead).flatMap operandTokens =
      (t.factors lead).flatMap operandTokens ++ tail.flatMap factorTokens := by
  induction tail generalizing t with
  | nil =>
    cases h
    simp
  | cons step tail ih =>
    obtain ⟨g, hg, hrest⟩ := Option.bind_eq_some_iff.mp h
    rw [ih hrest, Term.factors_push, List.flatMap_append, List.flatMap_singleton,
      List.flatMap_cons, List.append_assoc]
    simp [operandTokens, factorTokens, token_operator, tokens_factor hg]

theorem tokens_term {lead : Option Operator} {t : TermTree} {t' : Term}
    (h : t.elaborate s = some t') :
    (t'.factors lead).flatMap operandTokens = (lead.map Operator.token).toList ++ t.tokens := by
  obtain ⟨g, hg, hrest⟩ := Option.bind_eq_some_iff.mp h
  rw [tokens_factors hrest]
  simp [Term.factors, Term.ofFactor, operandTokens, TermTree.tokens, tokens_factor hg]

theorem tokens_terms {e e' : Expr} {tail : List (Bool × TermTree)}
    (h : elaborateTerms s e tail = some e') : e'.tokens = e.tokens ++ tail.flatMap termTokens := by
  induction tail generalizing e with
  | nil =>
    cases h
    simp
  | cons step tail ih =>
    obtain ⟨t, ht, hrest⟩ := Option.bind_eq_some_iff.mp h
    rw [ih hrest, Expr.tokens, Expr.factors_push, List.flatMap_append, tokens_term ht,
      List.flatMap_cons, List.append_assoc]
    simp [Expr.tokens, termTokens, token_addOperator]

theorem tokens_expr {e : ExprTree} {e' : Expr} (h : e.elaborate s = some e') :
    e'.tokens = e.tokens := by
  obtain ⟨t, ht, hrest⟩ := Option.bind_eq_some_iff.mp h
  rw [tokens_terms hrest, Expr.tokens, Expr.factors_ofTerm, tokens_term ht]
  rfl

theorem tokens_variables {ty : Ty} {vs : List VariableTree}
    (h : elaborateVariables ty vs s = some (b, s')) : b.tokens = vs.flatMap (singleTokens ty) := by
  induction vs generalizing s b with
  | nil =>
    cases h
    rfl
  | cons v vs ih =>
    obtain ⟨-, later, hlater, rfl⟩ := elaborateVariables_cons_eq_some h
    rw [Block.tokens, ih hlater, List.flatMap_cons]
    rfl

theorem tokens_append (a b : Block) : (a ++ b).tokens = a.tokens ++ b.tokens := by
  induction a with
  | empty => rfl
  | declare d rest ih => simp [Block.tokens, ih]
  | assign target value rest ih => simp [Block.tokens, ih]
  | nest inner rest _ ih => simp [Block.tokens, ih]

theorem Elaborates.split {items : ItemTree} (h : Elaborates items s b s') (ty : Option Ty) :
    splitFrom ty items.tokens = b.tokens := by
  induction h generalizing ty with
  | nil s => rfl
  | declare first later ih =>
    rw [ItemTree.tokens, splitFrom_append, split_declaration, ih, tokens_append,
      tokens_variables first]
  | assign first later ih =>
    obtain ⟨htarget, hvalue, -⟩ := AssignmentTree.elaborate_eq_some first
    obtain ⟨-, -, hname⟩ := Scopes.lookup_of_scalar? htarget
    rw [ItemTree.tokens, splitFrom_plain_append ty (plain_assignment _), ih, Block.tokens,
      AssignmentTree.tokens, hname, tokens_expr hvalue]
  | block room first later ihFirst ih =>
    rw [ItemTree.tokens, splitFrom_append, splitFrom_braced, ihFirst, ih, Block.tokens]

theorem split_body {items : ItemTree} (h : items.elaborateBody s = some (b, s'))
    (ty : Option Ty) : splitFrom ty (braced items.tokens) = braced b.tokens := by
  obtain ⟨s₁, hitems, -⟩ := elaborateBody_eq_some h
  rw [splitFrom_braced, hitems.split]

theorem split_functions {fs : List FunctionTree} {gs : List Function}
    (h : elaborateFunctions fs s = some (gs, s')) (ty : Option Ty) :
    splitFrom ty (fs.flatMap FunctionTree.tokens) = gs.flatMap Function.tokens := by
  induction fs generalizing s gs ty with
  | nil =>
    cases h
    rfl
  | cons f fs ih =>
    obtain ⟨body, s₁, later, hbody, hlater, rfl⟩ := elaborateFunctions_cons_eq_some h
    have hhead : Plain [.name f.name, .mark .openParen, .mark .closeParen] := by
      simp [Plain, Token.kind]
    have htokens : f.tokens = f.returns.token ::
        ([.name f.name, .mark .openParen, .mark .closeParen] ++ braced f.body.tokens) := rfl
    rw [List.flatMap_cons, splitFrom_append, ih hlater, htokens, splitFrom_type,
      splitFrom_plain_append _ hhead, split_body hbody]
    rfl

end Elaborated

theorem split_program {tree : ProgramTree} {p : Program} (h : tree.elaborate = some p) :
    splitDeclarations tree.tokens = p.tokens := by
  obtain ⟨⟨functions, s⟩, hfunctions, hrest⟩ := Option.bind_eq_some_iff.mp h
  obtain ⟨⟨main, s'⟩, hmain, heq⟩ := Option.bind_eq_some_iff.mp hrest
  cases heq
  have hhead : Plain [.keyword .main, .mark .openParen, .mark .closeParen] := by
    simp [Plain, Token.kind]
  have htokens : mainTokens tree.main =
      [.keyword .main, .mark .openParen, .mark .closeParen] ++ braced tree.main.tokens := rfl
  rw [splitDeclarations, ProgramTree.tokens, splitFrom_append, split_functions hfunctions, htokens,
    splitFrom_plain_append _ hhead, split_body hmain]
  rfl

/-- An accepted program, written as tokens, is its text with the declarations split. -/
theorem tokens_of_readProgram {source : String} {p : Program}
    (h : (readProgram source).result = .ok p) :
    ∃ ts ending, (Scanner.ofText source).stream = .prepend ts (.done ending) ∧
      p.tokens = splitDeclarations (ts.map Located.value) := by
  obtain ⟨ts, ending, tree, hstream, hspells, helaborate⟩ := (readProgram_eq_ok_iff source p).mp h
  refine ⟨ts, ending, hstream, ?_⟩
  rw [hspells, split_program helaborate]

/-- Two variables in one declaration, and a division of integers. -/
def Program.halving : Program := ⟨[],
  .declare ⟨⟨"a", 0, .int⟩, []⟩ (.declare ⟨⟨"b", 0, .int⟩, ["2"]⟩ (.assign ⟨"a", 0, .int⟩
    ⟨⟨.read ⟨"a", 0, .int⟩, [(.intDiv, .integer "2")]⟩, []⟩ .empty))⟩

theorem tokens_halving :
    (readProgram "main() \x7b int a, b[2]; a = a / 2; \x7d").result = .ok .halving ∧
    ∃ ts ending, (Scanner.ofText "main() \x7b int a, b[2]; a = a / 2; \x7d").stream =
        .prepend ts (.done ending) ∧
      Program.halving.tokens = splitDeclarations (ts.map Located.value) := by
  have h : (readProgram "main() \x7b int a, b[2]; a = a / 2; \x7d").result = .ok .halving :=
    Traced.result_eq_ok_iff.mpr (by decide +kernel)
  exact ⟨h, tokens_of_readProgram h⟩

end BlockLang
