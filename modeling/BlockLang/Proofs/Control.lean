import BlockLang.Proofs.Derivation

/-!
# The control of the reader

What the reader accepts next depends on its place in the grammar, on the number
of open blocks and on whether the subprogram being read is the main block.
`Control` keeps these three and forgets names, values and scopes. It is a counter
automaton, and it accepts exactly the sentences of the grammar
(`sentence_iff_accepts`).
-/

namespace BlockLang

/-- A place in the grammar, without what has been gathered there. -/
inductive Place where
  | top
  | functionName
  | functionOpen
  | functionClose
  | mainOpen
  | mainClose
  | body
  | item
  | variableName
  | declarator
  | size
  | sizeClose
  | assignSign
  | operand
  | operator
  | finish
deriving DecidableEq

/-- The classes of the tokens that may stand at a place. -/
def Place.expected : Place → List TokenClass
  | .top => [.double, .int, .main]
  | .functionName => [.name]
  | .functionOpen => [.openParen]
  | .functionClose => [.closeParen]
  | .mainOpen => [.openParen]
  | .mainClose => [.closeParen]
  | .body => [.openBrace]
  | .item => [.openBrace, .closeBrace, .double, .int, .name]
  | .variableName => [.name]
  | .declarator => [.semicolon, .comma, .openBracket]
  | .size => [.integer]
  | .sizeClose => [.closeBracket]
  | .assignSign => [.assign]
  | .operand => [.integer, .name, .real]
  | .operator => [.multiplicative, .additive, .semicolon]
  | .finish => [.endOfText]

structure Control where
  place : Place
  depth : Nat
  inMain : Bool
deriving DecidableEq

namespace Token

theorem exists_name_of_kind {t : Token} (h : t.kind = .name) : ∃ name, t = .name name := by
  rcases t with name | k | _ | _ | k | _ <;> try cases k
  all_goals simp_all [kind]

theorem exists_integer_of_kind {t : Token} (h : t.kind = .integer) :
    ∃ lexeme, t = .integer lexeme := by
  rcases t with _ | k | lexeme | _ | k | _ <;> try cases k
  all_goals simp_all [kind]

theorem eq_endOfText_of_kind {t : Token} (h : t.kind = .endOfText) : t = .endOfText := by
  rcases t with _ | k | _ | _ | k | _ <;> try cases k
  all_goals simp_all [kind]

/-- A mark is the only token of its class, unless it is an operator of two. -/
theorem eq_mark_of_kind {t : Token} {k : Mark} (h : t.kind = (Token.mark k).kind)
    (hm : (Token.mark k).kind ≠ .multiplicative) (ha : (Token.mark k).kind ≠ .additive) :
    t = .mark k := by
  rcases t with _ | j | _ | _ | j | _ <;> try cases j
  all_goals cases k <;> simp_all [kind]

theorem exists_factor_of_kind {t : Token} (h : t.kind ∈ Place.operand.expected) :
    ∃ f : FactorTree, t = f.token := by
  rcases t with name | k | lexeme | lexeme | k | _
  case name => exact ⟨.name name, rfl⟩
  case integer => exact ⟨.integer lexeme, rfl⟩
  case real => exact ⟨.real lexeme, rfl⟩
  all_goals try cases k
  all_goals simp [kind, Place.expected] at h

theorem operator_of_kind {t : Token} (h : t.kind ∈ Place.operator.expected) :
    (∃ divide, t = mulToken divide) ∨ (∃ subtract, t = addToken subtract) ∨
      t = .mark .semicolon := by
  rcases t with _ | k | _ | _ | k | _ <;> try cases k
  case mark.times => exact .inl ⟨false, rfl⟩
  case mark.slash => exact .inl ⟨true, rfl⟩
  case mark.plus => exact .inr (.inl ⟨false, rfl⟩)
  case mark.minus => exact .inr (.inl ⟨true, rfl⟩)
  case mark.semicolon => exact .inr (.inr rfl)
  all_goals simp [kind, Place.expected] at h

theorem declarator_of_kind {t : Token} (h : t.kind ∈ Place.declarator.expected) :
    t = .mark .semicolon ∨ t = .mark .comma ∨ t = .mark .openBracket := by
  rcases t with _ | k | _ | _ | k | _ <;> try cases k
  all_goals simp_all [kind, Place.expected]

theorem item_of_kind {t : Token} (h : t.kind ∈ Place.item.expected) :
    t = .mark .openBrace ∨ t = .mark .closeBrace ∨ (∃ ty : Ty, t = ty.token) ∨
      ∃ name, t = .name name := by
  rcases t with name | k | _ | _ | k | _ <;> try cases k
  case keyword.int => exact .inr (.inr (.inl ⟨.int, rfl⟩))
  case keyword.double => exact .inr (.inr (.inl ⟨.real, rfl⟩))
  all_goals simp_all [kind, Place.expected]

theorem top_of_kind {t : Token} (h : t.kind ∈ Place.top.expected) :
    (∃ ty : Ty, t = ty.token) ∨ t = .keyword .main := by
  rcases t with _ | k | _ | _ | k | _ <;> try cases k
  case keyword.int => exact .inl ⟨.int, rfl⟩
  case keyword.double => exact .inl ⟨.real, rfl⟩
  all_goals simp_all [kind, Place.expected]

end Token

namespace Control

def start : Control := ⟨.top, 0, true⟩

/-- The state after the innermost of `depth` blocks closes. -/
def closed (depth : Nat) (inMain : Bool) : Control :=
  match depth with
  | d + 2 => ⟨.item, d + 1, inMain⟩
  | _ => ⟨if inMain then .finish else .top, 0, true⟩

def step : Control → Token → Option Control
  | ⟨.top, d, m⟩, .keyword .int => some ⟨.functionName, d, m⟩
  | ⟨.top, d, m⟩, .keyword .double => some ⟨.functionName, d, m⟩
  | ⟨.top, d, m⟩, .keyword .main => some ⟨.mainOpen, d, m⟩
  | ⟨.functionName, d, m⟩, .name _ => some ⟨.functionOpen, d, m⟩
  | ⟨.functionOpen, d, m⟩, .mark .openParen => some ⟨.functionClose, d, m⟩
  | ⟨.functionClose, d, _⟩, .mark .closeParen => some ⟨.body, d, false⟩
  | ⟨.mainOpen, d, m⟩, .mark .openParen => some ⟨.mainClose, d, m⟩
  | ⟨.mainClose, d, _⟩, .mark .closeParen => some ⟨.body, d, true⟩
  | ⟨.body, d, m⟩, .mark .openBrace => some ⟨.item, d + 1, m⟩
  | ⟨.item, d, m⟩, .mark .openBrace => some ⟨.item, d + 1, m⟩
  | ⟨.item, d, m⟩, .mark .closeBrace => some (closed d m)
  | ⟨.item, d, m⟩, .keyword .int => some ⟨.variableName, d, m⟩
  | ⟨.item, d, m⟩, .keyword .double => some ⟨.variableName, d, m⟩
  | ⟨.item, d, m⟩, .name _ => some ⟨.assignSign, d, m⟩
  | ⟨.variableName, d, m⟩, .name _ => some ⟨.declarator, d, m⟩
  | ⟨.declarator, d, m⟩, .mark .openBracket => some ⟨.size, d, m⟩
  | ⟨.declarator, d, m⟩, .mark .comma => some ⟨.variableName, d, m⟩
  | ⟨.declarator, d, m⟩, .mark .semicolon => some ⟨.item, d, m⟩
  | ⟨.size, d, m⟩, .integer _ => some ⟨.sizeClose, d, m⟩
  | ⟨.sizeClose, d, m⟩, .mark .closeBracket => some ⟨.declarator, d, m⟩
  | ⟨.assignSign, d, m⟩, .mark .assign => some ⟨.operand, d, m⟩
  | ⟨.operand, d, m⟩, .integer _ => some ⟨.operator, d, m⟩
  | ⟨.operand, d, m⟩, .real _ => some ⟨.operator, d, m⟩
  | ⟨.operand, d, m⟩, .name _ => some ⟨.operator, d, m⟩
  | ⟨.operator, d, m⟩, .mark .times => some ⟨.operand, d, m⟩
  | ⟨.operator, d, m⟩, .mark .slash => some ⟨.operand, d, m⟩
  | ⟨.operator, d, m⟩, .mark .plus => some ⟨.operand, d, m⟩
  | ⟨.operator, d, m⟩, .mark .minus => some ⟨.operand, d, m⟩
  | ⟨.operator, d, m⟩, .mark .semicolon => some ⟨.item, d, m⟩
  | _, _ => none

def run (c : Control) : List Token → Option Control
  | [] => some c
  | t :: ts => (c.step t).bind (fun c' => c'.run ts)

def Accepts (c : Control) (ts : List Token) : Prop :=
  ∃ c', c.run ts = some c' ∧ c'.place = .finish

/-- A token moves the control iff it belongs to a class that may stand at the
place; the end of the text moves it nowhere. -/
theorem isSome_step_iff (c : Control) (t : Token) (ht : t ≠ .endOfText) :
    (c.step t).isSome ↔ t.kind ∈ c.place.expected := by
  have hstep : (c.step t).isSome = decide (t.kind ∈ c.place.expected) := by
    obtain ⟨p, d, m⟩ := c
    rcases t with _ | k | _ | _ | k | _
    case endOfText => exact absurd rfl ht
    case keyword => cases p <;> cases k <;> rfl
    case mark => cases p <;> cases k <;> rfl
    all_goals cases p <;> rfl
  rw [hstep, decide_eq_true_iff]

theorem step_endOfText (c : Control) : c.step .endOfText = none := by
  obtain ⟨p, d, m⟩ := c
  cases p <;> rfl

theorem kind_mem_expected {c c' : Control} {t : Token} (h : c.step t = some c') :
    t.kind ∈ c.place.expected := by
  have ht : t ≠ .endOfText := by
    rintro rfl
    rw [step_endOfText] at h
    exact absurd h (by simp)
  rw [← isSome_step_iff c t ht, h]
  rfl

@[simp] theorem run_nil (c : Control) : c.run [] = some c := rfl

@[simp] theorem run_cons (c : Control) (t : Token) (ts : List Token) :
    c.run (t :: ts) = (c.step t).bind (fun c' => c'.run ts) := rfl

theorem run_append (c : Control) (ts us : List Token) :
    c.run (ts ++ us) = (c.run ts).bind (fun c' => c'.run us) := by
  induction ts generalizing c with
  | nil => rfl
  | cons t ts ih =>
    rw [List.cons_append, run_cons, run_cons, Option.bind_assoc]
    cases c.step t with
    | none => rfl
    | some c' => exact ih c'

theorem accepts_append {c c' : Control} {ts : List Token} (h : c.run ts = some c')
    (us : List Token) : c.Accepts (ts ++ us) ↔ c'.Accepts us := by
  unfold Accepts
  rw [run_append, h, Option.bind_some]

theorem accepts_cons {c : Control} {t : Token} {ts : List Token} :
    c.Accepts (t :: ts) ↔ ∃ c', c.step t = some c' ∧ c'.Accepts ts := by
  constructor
  · rintro ⟨last, hrun, hlast⟩
    obtain ⟨c', hstep, hrest⟩ := Option.bind_eq_some_iff.mp hrun
    exact ⟨c', hstep, last, hrest, hlast⟩
  · rintro ⟨c', hstep, last, hrest, hlast⟩
    exact ⟨last, by rw [run_cons, hstep]; exact hrest, hlast⟩

theorem exists_cons_of_accepts {c : Control} {ts : List Token} (hc : c.place ≠ .finish)
    (h : c.Accepts ts) : ∃ t rest c', ts = t :: rest ∧ c.step t = some c' ∧ c'.Accepts rest := by
  cases ts with
  | nil =>
    obtain ⟨last, hrun, hlast⟩ := h
    rw [run_nil, Option.some.injEq] at hrun
    rw [← hrun] at hlast
    exact absurd hlast hc
  | cons t rest =>
    obtain ⟨c', hstep, hrest⟩ := accepts_cons.mp h
    exact ⟨t, rest, c', rfl, hstep, hrest⟩

/-! ### What a step does at each place -/

section Table
variable (d : Nat) (m : Bool)

@[simp] theorem step_top_type (ty : Ty) :
    step ⟨.top, d, m⟩ ty.token = some ⟨.functionName, d, m⟩ := by
  cases ty <;> rfl

@[simp] theorem step_top_main :
    step ⟨.top, d, m⟩ (.keyword .main) = some ⟨.mainOpen, d, m⟩ := rfl

@[simp] theorem step_functionName (name : String) :
    step ⟨.functionName, d, m⟩ (.name name) = some ⟨.functionOpen, d, m⟩ := rfl

@[simp] theorem step_functionOpen :
    step ⟨.functionOpen, d, m⟩ (.mark .openParen) = some ⟨.functionClose, d, m⟩ := rfl

@[simp] theorem step_functionClose :
    step ⟨.functionClose, d, m⟩ (.mark .closeParen) = some ⟨.body, d, false⟩ := rfl

@[simp] theorem step_mainOpen :
    step ⟨.mainOpen, d, m⟩ (.mark .openParen) = some ⟨.mainClose, d, m⟩ := rfl

@[simp] theorem step_mainClose :
    step ⟨.mainClose, d, m⟩ (.mark .closeParen) = some ⟨.body, d, true⟩ := rfl

@[simp] theorem step_body :
    step ⟨.body, d, m⟩ (.mark .openBrace) = some ⟨.item, d + 1, m⟩ := rfl

@[simp] theorem step_item_open :
    step ⟨.item, d, m⟩ (.mark .openBrace) = some ⟨.item, d + 1, m⟩ := rfl

@[simp] theorem step_item_close :
    step ⟨.item, d, m⟩ (.mark .closeBrace) = some (closed d m) := rfl

@[simp] theorem step_item_type (ty : Ty) :
    step ⟨.item, d, m⟩ ty.token = some ⟨.variableName, d, m⟩ := by
  cases ty <;> rfl

@[simp] theorem step_item_name (name : String) :
    step ⟨.item, d, m⟩ (.name name) = some ⟨.assignSign, d, m⟩ := rfl

@[simp] theorem step_variableName (name : String) :
    step ⟨.variableName, d, m⟩ (.name name) = some ⟨.declarator, d, m⟩ := rfl

@[simp] theorem step_declarator_open :
    step ⟨.declarator, d, m⟩ (.mark .openBracket) = some ⟨.size, d, m⟩ := rfl

@[simp] theorem step_declarator_comma :
    step ⟨.declarator, d, m⟩ (.mark .comma) = some ⟨.variableName, d, m⟩ := rfl

@[simp] theorem step_declarator_semicolon :
    step ⟨.declarator, d, m⟩ (.mark .semicolon) = some ⟨.item, d, m⟩ := rfl

@[simp] theorem step_size (size : String) :
    step ⟨.size, d, m⟩ (.integer size) = some ⟨.sizeClose, d, m⟩ := rfl

@[simp] theorem step_sizeClose :
    step ⟨.sizeClose, d, m⟩ (.mark .closeBracket) = some ⟨.declarator, d, m⟩ := rfl

@[simp] theorem step_assignSign :
    step ⟨.assignSign, d, m⟩ (.mark .assign) = some ⟨.operand, d, m⟩ := rfl

@[simp] theorem step_operand (f : FactorTree) :
    step ⟨.operand, d, m⟩ f.token = some ⟨.operator, d, m⟩ := by
  cases f <;> rfl

@[simp] theorem step_mulToken (divide : Bool) :
    step ⟨.operator, d, m⟩ (mulToken divide) = some ⟨.operand, d, m⟩ := by
  cases divide <;> rfl

@[simp] theorem step_addToken (subtract : Bool) :
    step ⟨.operator, d, m⟩ (addToken subtract) = some ⟨.operand, d, m⟩ := by
  cases subtract <;> rfl

@[simp] theorem step_operator_semicolon :
    step ⟨.operator, d, m⟩ (.mark .semicolon) = some ⟨.item, d, m⟩ := rfl

end Table

/-! ### Derived words are accepted -/

section Derived
variable (d : Nat) (m : Bool)

theorem run_factors (tail : List (Bool × FactorTree)) :
    run ⟨.operator, d, m⟩ (tail.flatMap factorTokens) = some ⟨.operator, d, m⟩ := by
  induction tail with
  | nil => rfl
  | cons step tail ih => simp [factorTokens, ih]

theorem run_term (t : TermTree) : run ⟨.operand, d, m⟩ t.tokens = some ⟨.operator, d, m⟩ := by
  simp [TermTree.tokens, run_factors]

theorem run_terms (tail : List (Bool × TermTree)) :
    run ⟨.operator, d, m⟩ (tail.flatMap termTokens) = some ⟨.operator, d, m⟩ := by
  induction tail with
  | nil => rfl
  | cons step tail ih => simp [termTokens, run_append, run_term, ih]

theorem run_expr (e : ExprTree) : run ⟨.operand, d, m⟩ e.tokens = some ⟨.operator, d, m⟩ := by
  simp [ExprTree.tokens, run_append, run_term, run_terms]

theorem run_assignment (a : AssignmentTree) :
    run ⟨.item, d, m⟩ a.tokens = some ⟨.item, d, m⟩ := by
  simp [AssignmentTree.tokens, run_append, run_expr]

theorem run_sizes (sizes : List String) :
    run ⟨.declarator, d, m⟩ (sizes.flatMap sizeTokens) = some ⟨.declarator, d, m⟩ := by
  induction sizes with
  | nil => rfl
  | cons size sizes ih => simp [sizeTokens, ih]

theorem run_variable (v : VariableTree) :
    run ⟨.variableName, d, m⟩ v.tokens = some ⟨.declarator, d, m⟩ := by
  simp [VariableTree.tokens, run_sizes]

theorem run_variables (more : List VariableTree) :
    run ⟨.declarator, d, m⟩ (more.flatMap moreTokens) = some ⟨.declarator, d, m⟩ := by
  induction more with
  | nil => rfl
  | cons v more ih => simp [moreTokens, run_append, run_variable, ih]

theorem run_declaration (decl : DeclarationTree) :
    run ⟨.item, d, m⟩ decl.tokens = some ⟨.item, d, m⟩ := by
  rw [DeclarationTree.tokens, run_cons, step_item_type]
  simp [run_append, run_variable, run_variables]

/-- Items leave the control where it is, at any depth but 0. -/
theorem run_items (items : ItemTree) (d : Nat) :
    run ⟨.item, d + 1, m⟩ items.tokens = some ⟨.item, d + 1, m⟩ := by
  induction items generalizing d with
  | nil => rfl
  | declare decl rest ih => simp [ItemTree.tokens, run_append, run_declaration, ih]
  | assign a rest ih => simp [ItemTree.tokens, run_append, run_assignment, ih]
  | block inner rest ihInner ih =>
    simp [ItemTree.tokens, braced, run_append, closed, ihInner, ih]

theorem run_body (items : ItemTree) :
    run ⟨.body, 0, m⟩ (braced items.tokens) = some (closed 1 m) := by
  simp [braced, run_append, run_items]

theorem run_function (f : FunctionTree) : run ⟨.top, 0, m⟩ f.tokens = some ⟨.top, 0, true⟩ := by
  rw [FunctionTree.tokens, run_cons, step_top_type]
  simp [run_body, closed]

theorem run_functions (fs : List FunctionTree) :
    run ⟨.top, 0, true⟩ (fs.flatMap FunctionTree.tokens) = some ⟨.top, 0, true⟩ := by
  induction fs with
  | nil => rfl
  | cons f fs ih => simp [run_append, run_function, ih]

theorem run_main (main : ItemTree) :
    run ⟨.top, 0, m⟩ (mainTokens main) = some ⟨.finish, 0, true⟩ := by
  simp [mainTokens, run_body, closed]

theorem accepts_tokens (tree : ProgramTree) : start.Accepts tree.tokens := by
  refine ⟨⟨.finish, 0, true⟩, ?_, rfl⟩
  rw [ProgramTree.tokens, run_append, start, run_functions, Option.bind_some, run_main]

end Derived

/-! ### Accepted words are derived

Each lemma cuts from an accepted word the part that the construct at hand
derives. The loops of the grammar are cut by induction on the length of the word. -/

section Accepted
variable {d : Nat} {m : Bool} {ts : List Token}

theorem accepts_mark {c c' : Control} {k : Mark} (hc : c.place.expected = [(Token.mark k).kind])
    (hk : c.step (.mark k) = some c') (h : c.Accepts ts) :
    ∃ rest, ts = .mark k :: rest ∧ c'.Accepts rest := by
  have hne : c.place ≠ .finish := by
    intro hf
    rw [hf] at hc
    cases k <;> simp [Place.expected, Token.kind] at hc
  obtain ⟨t, rest, next, rfl, hstep, h⟩ := exists_cons_of_accepts hne h
  have hkind := kind_mem_expected hstep
  rw [hc, List.mem_singleton] at hkind
  have hm : (Token.mark k).kind ≠ .multiplicative := by
    intro hm
    rw [hm] at hc
    cases hp : c.place <;> simp [hp, Place.expected] at hc
  have ha : (Token.mark k).kind ≠ .additive := by
    intro ha
    rw [ha] at hc
    cases hp : c.place <;> simp [hp, Place.expected] at hc
  obtain rfl := Token.eq_mark_of_kind hkind hm ha
  rw [hk, Option.some.injEq] at hstep
  subst hstep
  exact ⟨rest, rfl, h⟩

theorem accepts_name {c c' : Control} (hc : c.place.expected = [.name])
    (hk : ∀ name, c.step (.name name) = some c') (h : c.Accepts ts) :
    ∃ name rest, ts = .name name :: rest ∧ c'.Accepts rest := by
  have hne : c.place ≠ .finish := by
    intro hf
    rw [hf] at hc
    simp [Place.expected] at hc
  obtain ⟨t, rest, next, rfl, hstep, h⟩ := exists_cons_of_accepts hne h
  have hkind := kind_mem_expected hstep
  rw [hc, List.mem_singleton] at hkind
  obtain ⟨name, rfl⟩ := Token.exists_name_of_kind hkind
  rw [hk, Option.some.injEq] at hstep
  subst hstep
  exact ⟨name, rest, rfl, h⟩

theorem accepts_size (h : Accepts ⟨.size, d, m⟩ ts) :
    ∃ size rest, ts = .integer size :: .mark .closeBracket :: rest ∧
      Accepts ⟨.declarator, d, m⟩ rest := by
  obtain ⟨t, rest, c, rfl, hstep, h⟩ := exists_cons_of_accepts (by simp) h
  have hkind := kind_mem_expected hstep
  obtain ⟨size, rfl⟩ := Token.exists_integer_of_kind (List.mem_singleton.mp hkind)
  rw [step_size, Option.some.injEq] at hstep
  subst hstep
  obtain ⟨rest, rfl, h⟩ := accepts_mark (k := .closeBracket) rfl rfl h
  exact ⟨size, rest, rfl, h⟩

theorem accepts_operand (h : Accepts ⟨.operand, d, m⟩ ts) :
    ∃ (f : FactorTree) (rest : List Token), ts = f.token :: rest ∧
      Accepts ⟨.operator, d, m⟩ rest := by
  obtain ⟨t, rest, c, rfl, hstep, h⟩ := exists_cons_of_accepts (by simp) h
  have hkind := kind_mem_expected hstep
  obtain ⟨f, rfl⟩ := Token.exists_factor_of_kind hkind
  rw [step_operand, Option.some.injEq] at hstep
  subst hstep
  exact ⟨f, rest, rfl, h⟩

/-- What follows an operand is the rest of its term, further terms and a semicolon. -/
theorem accepts_operator (h : Accepts ⟨.operator, d, m⟩ ts) :
    ∃ (tail : List (Bool × FactorTree)) (more : List (Bool × TermTree)) (rest : List Token),
      ts = tail.flatMap factorTokens ++ (more.flatMap termTokens ++ .mark .semicolon :: rest) ∧
      Accepts ⟨.item, d, m⟩ rest := by
  induction hn : ts.length using Nat.strongRecOn generalizing ts with
  | _ n ih =>
    obtain ⟨t, rest, c, rfl, hstep, hnext⟩ := exists_cons_of_accepts (by simp) h
    have hkind := kind_mem_expected hstep
    rcases Token.operator_of_kind hkind with ⟨divide, rfl⟩ | ⟨subtract, rfl⟩ | rfl
    · rw [step_mulToken, Option.some.injEq] at hstep
      subst hstep
      obtain ⟨f, rest, rfl, hrest⟩ := accepts_operand hnext
      have hlt : rest.length < n := by simp at hn; omega
      obtain ⟨tail, more, rest, rfl, hitem⟩ := ih _ hlt hrest rfl
      exact ⟨(divide, f) :: tail, more, rest, by simp [factorTokens], hitem⟩
    · rw [step_addToken, Option.some.injEq] at hstep
      subst hstep
      obtain ⟨f, rest, rfl, hrest⟩ := accepts_operand hnext
      have hlt : rest.length < n := by simp at hn; omega
      obtain ⟨tail, more, rest, rfl, hitem⟩ := ih _ hlt hrest rfl
      exact ⟨[], (subtract, ⟨f, tail⟩) :: more, rest, by simp [termTokens, TermTree.tokens], hitem⟩
    · rw [step_operator_semicolon, Option.some.injEq] at hstep
      subst hstep
      exact ⟨[], [], rest, rfl, hnext⟩

/-- What follows the name of a variable is its sizes, further variables and a semicolon. -/
theorem accepts_declarator (h : Accepts ⟨.declarator, d, m⟩ ts) :
    ∃ (sizes : List String) (more : List VariableTree) (rest : List Token),
      ts = sizes.flatMap sizeTokens ++ (more.flatMap moreTokens ++ .mark .semicolon :: rest) ∧
      Accepts ⟨.item, d, m⟩ rest := by
  induction hn : ts.length using Nat.strongRecOn generalizing ts with
  | _ n ih =>
    obtain ⟨t, rest, c, rfl, hstep, hnext⟩ := exists_cons_of_accepts (by simp) h
    have hkind := kind_mem_expected hstep
    rcases Token.declarator_of_kind hkind with rfl | rfl | rfl
    · rw [step_declarator_semicolon, Option.some.injEq] at hstep
      subst hstep
      exact ⟨[], [], rest, rfl, hnext⟩
    · rw [step_declarator_comma, Option.some.injEq] at hstep
      subst hstep
      obtain ⟨name, rest, rfl, hrest⟩ := accepts_name rfl (fun _ => rfl) hnext
      have hlt : rest.length < n := by simp at hn; omega
      obtain ⟨sizes, more, rest, rfl, hitem⟩ := ih _ hlt hrest rfl
      exact ⟨[], ⟨name, sizes⟩ :: more, rest, by simp [moreTokens, VariableTree.tokens], hitem⟩
    · rw [step_declarator_open, Option.some.injEq] at hstep
      subst hstep
      obtain ⟨size, rest, rfl, hrest⟩ := accepts_size hnext
      have hlt : rest.length < n := by simp at hn; omega
      obtain ⟨sizes, more, rest, rfl, hitem⟩ := ih _ hlt hrest rfl
      exact ⟨size :: sizes, more, rest, by simp [sizeTokens], hitem⟩

/-- Items end at the brace that closes their block. The induction is on the
length of the word, since the items of an inner block are cut first. -/
theorem accepts_item (h : Accepts ⟨.item, d + 1, m⟩ ts) :
    ∃ (items : ItemTree) (rest : List Token), ts = items.tokens ++ .mark .closeBrace :: rest ∧
      (closed (d + 1) m).Accepts rest := by
  induction hn : ts.length using Nat.strongRecOn generalizing ts d with
  | _ n ih =>
    obtain ⟨t, rest, c, rfl, hstep, hnext⟩ := exists_cons_of_accepts (by simp) h
    have hkind := kind_mem_expected hstep
    rcases Token.item_of_kind hkind with rfl | rfl | ⟨ty, rfl⟩ | ⟨name, rfl⟩
    · rw [step_item_open, Option.some.injEq] at hstep
      subst hstep
      have hlt : rest.length < n := by simp at hn; omega
      obtain ⟨inner, after, rfl, hafter⟩ := ih _ hlt hnext rfl
      have hlt' : after.length < n := by simp at hn; omega
      obtain ⟨items, rest, rfl, hclosed⟩ := ih _ hlt' hafter rfl
      exact ⟨.block inner items, rest, by simp [ItemTree.tokens, braced], hclosed⟩
    · rw [step_item_close, Option.some.injEq] at hstep
      subst hstep
      exact ⟨.nil, rest, rfl, hnext⟩
    · rw [step_item_type, Option.some.injEq] at hstep
      subst hstep
      obtain ⟨name, after, rfl, hafter⟩ := accepts_name rfl (fun _ => rfl) hnext
      obtain ⟨sizes, more, rest, rfl, hitem⟩ := accepts_declarator hafter
      have hlt : rest.length < n := by simp at hn; omega
      obtain ⟨items, rest, rfl, hclosed⟩ := ih _ hlt hitem rfl
      exact ⟨.declare ⟨ty, ⟨name, sizes⟩, more⟩ items, rest,
        by simp [ItemTree.tokens, DeclarationTree.tokens, VariableTree.tokens], hclosed⟩
    · rw [step_item_name, Option.some.injEq] at hstep
      subst hstep
      obtain ⟨after, rfl, hafter⟩ := accepts_mark (k := .assign) rfl rfl hnext
      obtain ⟨f, after, rfl, hoperator⟩ := accepts_operand hafter
      obtain ⟨tail, more, rest, rfl, hitem⟩ := accepts_operator hoperator
      have hlt : rest.length < n := by simp at hn; omega
      obtain ⟨items, rest, rfl, hclosed⟩ := ih _ hlt hitem rfl
      exact ⟨.assign ⟨name, ⟨f, tail⟩, more⟩ items, rest,
        by simp [ItemTree.tokens, AssignmentTree.tokens, ExprTree.tokens, TermTree.tokens], hclosed⟩

theorem accepts_body (h : Accepts ⟨.body, 0, m⟩ ts) :
    ∃ (items : ItemTree) (rest : List Token), ts = braced items.tokens ++ rest ∧
      (closed 1 m).Accepts rest := by
  obtain ⟨after, rfl, hitem⟩ := accepts_mark (k := .openBrace) rfl rfl h
  obtain ⟨items, rest, rfl, hclosed⟩ := accepts_item hitem
  exact ⟨items, rest, by simp [braced], hclosed⟩

theorem accepts_finish (h : Accepts ⟨.finish, d, m⟩ ts) : ts = [] := by
  cases ts with
  | nil => rfl
  | cons t rest =>
    obtain ⟨c, hstep, -⟩ := accepts_cons.mp h
    have hkind := List.mem_singleton.mp (kind_mem_expected hstep)
    rw [Token.eq_endOfText_of_kind hkind, step_endOfText] at hstep
    cases hstep

theorem sentence_of_accepts (h : Accepts ⟨.top, 0, m⟩ ts) : Sentence ts := by
  -- By the length of the word: each function read from its front leaves a shorter one.
  induction hn : ts.length using Nat.strongRecOn generalizing ts m with
  | _ n ih =>
    obtain ⟨t, rest, c, rfl, hstep, hnext⟩ := exists_cons_of_accepts (by simp) h
    have hkind := kind_mem_expected hstep
    rcases Token.top_of_kind hkind with ⟨ty, rfl⟩ | rfl
    · rw [step_top_type, Option.some.injEq] at hstep
      subst hstep
      obtain ⟨name, after, rfl, hopen⟩ := accepts_name rfl (fun _ => rfl) hnext
      obtain ⟨after, rfl, hclose⟩ := accepts_mark (k := .openParen) rfl rfl hopen
      obtain ⟨after, rfl, hbody⟩ := accepts_mark (k := .closeParen) rfl rfl hclose
      obtain ⟨items, rest, rfl, htop⟩ := accepts_body hbody
      have hlt : rest.length < n := by simp [braced] at hn; omega
      obtain ⟨⟨functions, main⟩, rfl⟩ := ih _ hlt htop rfl
      refine ⟨⟨⟨ty, name, items⟩ :: functions, main⟩, ?_⟩
      simp [ProgramTree.tokens, FunctionTree.tokens]
    · rw [step_top_main, Option.some.injEq] at hstep
      subst hstep
      obtain ⟨after, rfl, hclose⟩ := accepts_mark (k := .openParen) rfl rfl hnext
      obtain ⟨after, rfl, hbody⟩ := accepts_mark (k := .closeParen) rfl rfl hclose
      obtain ⟨items, rest, rfl, hfinish⟩ := accepts_body hbody
      rw [accepts_finish hfinish]
      exact ⟨⟨[], items⟩, by simp [ProgramTree.tokens, mainTokens]⟩

end Accepted

theorem sentence_iff_accepts (ts : List Token) : Sentence ts ↔ start.Accepts ts := by
  constructor
  · rintro ⟨tree, rfl⟩
    exact accepts_tokens tree
  · exact sentence_of_accepts

end Control

end BlockLang
