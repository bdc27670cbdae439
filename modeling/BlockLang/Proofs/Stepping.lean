import BlockLang.Proofs.Control
import BlockLang.Proofs.Elaboration

/-!
# Steps of the reader

A step of the reader accepts one token and settles what it does. The reader that
runs settles a token only when the next one is there, which matters to the order
of faults and not to what is accepted: `value?_run` says that a run is the fold of
its steps. `Step` lists all that a step can do, and `step_iff` says that the list
is complete. Two facts about every step are read off it: the control of the reader
follows `Control.step`, and positions have no influence on what is read.
-/

namespace BlockLang

namespace Traced

/-- The value of a computation, if it ends with one. -/
def value? {α : Type} (x : Traced α) : Option α := x.result.toOption

@[simp] theorem value?_ok {α : Type} (a : α) : (ok a).value? = some a := rfl

@[simp] theorem value?_fail {α : Type} (d : Diagnostic) : (fail d : Traced α).value? = none := rfl

@[simp] theorem value?_emit (r : Record) : (emit r).value? = some () := rfl

@[simp] theorem value?_bind {α β : Type} (x : Traced α) (f : α → Traced β) :
    (x >>= f).value? = x.value?.bind (fun a => (f a).value?) := by
  obtain ⟨records, result⟩ := x
  cases result <;> rfl

@[simp] theorem value?_check {α : Type} (x : Except (Located SemanticError) α) :
    (check x).value? = x.toOption := by
  cases x <;> rfl

theorem result_eq_ok_iff {α : Type} {x : Traced α} {a : α} :
    x.result = .ok a ↔ x.value? = some a := by
  obtain ⟨records, result⟩ := x
  cases result <;> simp [value?, Except.toOption]

end Traced

namespace Point

def place : Point → Place
  | .top => .top
  | .functionName _ => .functionName
  | .functionOpen _ _ => .functionOpen
  | .functionClose _ _ => .functionClose
  | .mainOpen => .mainOpen
  | .mainClose => .mainClose
  | .body => .body
  | .item => .item
  | .variableName _ => .variableName
  | .declarator _ => .declarator
  | .size _ => .size
  | .sizeClose _ => .sizeClose
  | .assignSign _ => .assignSign
  | .operand _ _ => .operand
  | .operator _ _ => .operator
  | .finish => .finish

theorem expected_eq (p : Point) : p.expected = .ofList p.place.expected := by
  cases p <;> rfl

end Point

namespace Reader

/-- Accept one token and settle what it does. -/
def step (r : Reader) (p : Point) (t : Located Token) : Option (Reader × Point) :=
  (r.take p t).value?.bind (fun s => (s.1.settle s.2).value?)

/-! ### What a step does at each place -/

section Table
variable (r : Reader) (q : Position)

@[simp] theorem step_top_type (ty : Ty) :
    r.step .top ⟨q, ty.token⟩ = some (r, .functionName ty) := by
  cases ty <;> rfl

@[simp] theorem step_top_main : r.step .top ⟨q, .keyword .main⟩ = some (r, .mainOpen) := rfl

@[simp] theorem step_functionName (ty : Ty) (name : String) :
    r.step (.functionName ty) ⟨q, .name name⟩ = if r.scopes.Fresh name then
      some ({ r with scopes := r.scopes.insert (r.scopes.symbol name .function ty) },
        .functionOpen ty ⟨q, name⟩) else none := by
  have hstep : r.step (.functionName ty) ⟨q, .name name⟩ =
      (r.settle (.nameFunction ty ⟨q, name⟩)).value? := rfl
  rw [hstep, settle, Traced.value?_bind, Traced.value?_check, Scopes.toOption_declare]
  split <;> rfl

@[simp] theorem step_functionOpen (ty : Ty) (name : Located String) :
    r.step (.functionOpen ty name) ⟨q, .mark .openParen⟩ = some (r, .functionClose ty name) := rfl

@[simp] theorem step_functionClose (ty : Ty) (name : Located String) :
    r.step (.functionClose ty name) ⟨q, .mark .closeParen⟩ =
      some ({ r with builder := r.builder.start (.function name.value ty) }, .body) := rfl

@[simp] theorem step_mainOpen :
    r.step .mainOpen ⟨q, .mark .openParen⟩ = some (r, .mainClose) := rfl

@[simp] theorem step_mainClose :
    r.step .mainClose ⟨q, .mark .closeParen⟩ =
      some ({ r with builder := r.builder.start .main }, .body) := rfl

/-- Open a block, where the limit admits one more. -/
def opened (r : Reader) : Option (Reader × Point) :=
  if r.nesting = maxNesting then none
  else some (⟨r.nesting + 1, r.scopes.openFrame, r.builder.openBlock⟩, .item)

theorem value?_openBlock : (r.openBlock q).value? = r.opened := by
  unfold openBlock opened
  split <;> rfl

@[simp] theorem step_body : r.step .body ⟨q, .mark .openBrace⟩ = r.opened :=
  r.value?_openBlock q

@[simp] theorem step_item_open : r.step .item ⟨q, .mark .openBrace⟩ = r.opened :=
  r.value?_openBlock q

@[simp] theorem step_item_close :
    r.step .item ⟨q, .mark .closeBrace⟩ =
      some (⟨r.nesting - 1, r.scopes.closeFrame, r.builder.closeBlock⟩,
        afterBlock r.builder.completes) := by
  have hstep : r.step .item ⟨q, .mark .closeBrace⟩ = r.closeBlock.value? := rfl
  rw [hstep, closeBlock]
  cases r.builder.completes <;> rfl

@[simp] theorem step_item_type (ty : Ty) :
    r.step .item ⟨q, ty.token⟩ = some (r, .variableName ty) := by
  cases ty <;> rfl

@[simp] theorem step_item_name (name : String) :
    r.step .item ⟨q, .name name⟩ =
      (r.scopes.scalar? name).map (fun v => (r, .assignSign ⟨⟨q, name⟩, v⟩)) := by
  have hstep : r.step .item ⟨q, .name name⟩ = (r.settle (.nameAssignee ⟨q, name⟩)).value? := rfl
  rw [hstep, settle, Traced.value?_bind, Traced.value?_check, Scopes.toOption_resolve]
  cases r.scopes.scalar? name <;> rfl

@[simp] theorem step_variableName (ty : Ty) (name : String) :
    r.step (.variableName ty) ⟨q, .name name⟩ = if r.scopes.Fresh name then
      some (r, .declarator ⟨ty, ⟨q, name⟩, []⟩) else none := by
  have hstep : r.step (.variableName ty) ⟨q, .name name⟩ =
      (r.settle (.nameVariable ty ⟨q, name⟩)).value? := rfl
  rw [hstep, settle, Traced.value?_bind, Traced.value?_check, Scopes.toOption_checkUndeclared]
  split <;> rfl

@[simp] theorem step_declarator_open (d : Declarator) :
    r.step (.declarator d) ⟨q, .mark .openBracket⟩ = some (r, .size d) := rfl

/-- The variable that has been read becomes known. -/
def declaring (r : Reader) (d : Declarator) : Reader :=
  { r with
    scopes := r.scopes.insert (r.scopes.symbol d.name.value (Scopes.kindOf d.sizes) d.ty)
    builder := r.builder.declare ⟨⟨d.name.value, r.scopes.current.block, d.ty⟩, d.sizes⟩ }

/-- Declare the variable that has been read, if the innermost frame lacks its name. -/
def declared (r : Reader) (d : Declarator) (p : Point) : Option (Reader × Point) :=
  if r.scopes.Fresh d.name.value then some (r.declaring d, p) else none

theorem value?_declare (d : Declarator) (p : Point) :
    (r.declare d (.goTo p)).value?.bind (fun s => (s.1.settle s.2).value?) = r.declared d p := by
  simp only [declare, declared, Traced.value?_bind, Traced.value?_check,
    Scopes.toOption_declareVariable]
  split <;> rfl

@[simp] theorem step_declarator_comma (d : Declarator) :
    r.step (.declarator d) ⟨q, .mark .comma⟩ = r.declared d (.variableName d.ty) :=
  r.value?_declare d _

@[simp] theorem step_declarator_semicolon (d : Declarator) :
    r.step (.declarator d) ⟨q, .mark .semicolon⟩ = r.declared d .item :=
  r.value?_declare d _

@[simp] theorem step_size (d : Declarator) (size : String) :
    r.step (.size d) ⟨q, .integer size⟩ = if Positive size then
      some (r, .sizeClose { d with sizes := d.sizes ++ [size] }) else none := by
  have hstep : r.step (.size d) ⟨q, .integer size⟩ =
      (r.settle (.addSize d ⟨q, size⟩)).value? := rfl
  rw [hstep, settle, Traced.value?_bind, Traced.value?_check, toOption_checkSize]
  split <;> rfl

@[simp] theorem step_sizeClose (d : Declarator) :
    r.step (.sizeClose d) ⟨q, .mark .closeBracket⟩ = some (r, .declarator d) := rfl

@[simp] theorem step_assignSign (a : Assignee) :
    r.step (.assignSign a) ⟨q, .mark .assign⟩ = some (r, .operand a .first) := rfl

@[simp] theorem step_operand (a : Assignee) (context : OperandContext) (f : FactorTree) :
    r.step (.operand a context) ⟨q, f.token⟩ =
      (f.elaborate r.scopes).map (fun g => (r, .operator a (context.supply g))) := by
  cases f with
  | integer lexeme => rfl
  | real lexeme => rfl
  | name text =>
    have hstep : r.step (.operand a context) ⟨q, .name text⟩ =
        (r.settle (.readOperand a context ⟨q, text⟩)).value? := rfl
    rw [FactorTree.token, hstep, settle, Traced.value?_bind, Traced.value?_check,
      Scopes.toOption_resolve, FactorTree.elaborate]
    cases r.scopes.scalar? text <;> rfl

@[simp] theorem step_operator_mul (a : Assignee) (o : Operation) (divide : Bool) :
    r.step (.operator a o) ⟨q, mulToken divide⟩ =
      some (r, .operand a (.factor o.before o.last divide)) := by
  cases divide <;> rfl

@[simp] theorem step_operator_add (a : Assignee) (o : Operation) (subtract : Bool) :
    r.step (.operator a o) ⟨q, addToken subtract⟩ =
      some (r, .operand a (.term o.toExpr (addOperator subtract))) := by
  cases subtract <;> rfl

@[simp] theorem step_operator_semicolon (a : Assignee) (o : Operation) :
    r.step (.operator a o) ⟨q, .mark .semicolon⟩ = if Fits a.target.ty o.toExpr.ty then
      some ({ r with builder := r.builder.assign a.target o.toExpr }, .item) else none := by
  have hcheck := toOption_checkAssignment a.name a.target o.toExpr
  have hstep : r.step (.operator a o) ⟨q, .mark .semicolon⟩ =
      ((checkAssignment a.name a.target o.toExpr).toOption).map (fun _ =>
        ({ r with builder := r.builder.assign a.target o.toExpr }, .item)) := by
    show ((Traced.check _ >>= fun _ => _).value?.bind _) = _
    rw [Traced.value?_bind, Traced.value?_check]
    cases (checkAssignment a.name a.target o.toExpr).toOption <;> rfl
  rw [hstep, hcheck]
  split <;> rfl

theorem take_eq_unexpected (r : Reader) (p : Point) (t : Located Token)
    (h : t.value.kind ∉ p.place.expected) : r.take p t = unexpected p t := by
  obtain ⟨q, t⟩ := t
  unfold take
  split <;> simp_all [Point.place, Place.expected, Token.kind]

theorem kind_mem_of_step {r : Reader} {p : Point} {t : Located Token} {s : Reader × Point}
    (h : r.step p t = some s) : t.value.kind ∈ p.place.expected := by
  refine Decidable.byContradiction fun hkind => ?_
  rw [step, take_eq_unexpected r p t hkind] at h
  cases h

end Table

/-- All that a step can do. -/
inductive Step (r : Reader) : Point → Located Token → Reader → Point → Prop
  | topType (q : Position) (ty : Ty) : Step r .top ⟨q, ty.token⟩ r (.functionName ty)
  | topMain (q : Position) : Step r .top ⟨q, .keyword .main⟩ r .mainOpen
  | functionName (q : Position) (ty : Ty) (name : String) (fresh : r.scopes.Fresh name) :
      Step r (.functionName ty) ⟨q, .name name⟩
        { r with scopes := r.scopes.insert (r.scopes.symbol name .function ty) }
        (.functionOpen ty ⟨q, name⟩)
  | functionOpen (q : Position) (ty : Ty) (name : Located String) :
      Step r (.functionOpen ty name) ⟨q, .mark .openParen⟩ r (.functionClose ty name)
  | functionClose (q : Position) (ty : Ty) (name : Located String) :
      Step r (.functionClose ty name) ⟨q, .mark .closeParen⟩
        { r with builder := r.builder.start (.function name.value ty) } .body
  | mainOpen (q : Position) : Step r .mainOpen ⟨q, .mark .openParen⟩ r .mainClose
  | mainClose (q : Position) :
      Step r .mainClose ⟨q, .mark .closeParen⟩ { r with builder := r.builder.start .main } .body
  | bodyOpen (q : Position) (room : r.nesting ≠ maxNesting) :
      Step r .body ⟨q, .mark .openBrace⟩
        ⟨r.nesting + 1, r.scopes.openFrame, r.builder.openBlock⟩ .item
  | blockOpen (q : Position) (room : r.nesting ≠ maxNesting) :
      Step r .item ⟨q, .mark .openBrace⟩
        ⟨r.nesting + 1, r.scopes.openFrame, r.builder.openBlock⟩ .item
  | blockClose (q : Position) :
      Step r .item ⟨q, .mark .closeBrace⟩
        ⟨r.nesting - 1, r.scopes.closeFrame, r.builder.closeBlock⟩
        (afterBlock r.builder.completes)
  | itemType (q : Position) (ty : Ty) : Step r .item ⟨q, ty.token⟩ r (.variableName ty)
  | itemName (q : Position) (name : String) (v : Variable)
      (known : r.scopes.scalar? name = some v) :
      Step r .item ⟨q, .name name⟩ r (.assignSign ⟨⟨q, name⟩, v⟩)
  | variableName (q : Position) (ty : Ty) (name : String) (fresh : r.scopes.Fresh name) :
      Step r (.variableName ty) ⟨q, .name name⟩ r (.declarator ⟨ty, ⟨q, name⟩, []⟩)
  | sizeOpen (q : Position) (d : Declarator) :
      Step r (.declarator d) ⟨q, .mark .openBracket⟩ r (.size d)
  | comma (q : Position) (d : Declarator) (fresh : r.scopes.Fresh d.name.value) :
      Step r (.declarator d) ⟨q, .mark .comma⟩ (r.declaring d) (.variableName d.ty)
  | semicolon (q : Position) (d : Declarator) (fresh : r.scopes.Fresh d.name.value) :
      Step r (.declarator d) ⟨q, .mark .semicolon⟩ (r.declaring d) .item
  | size (q : Position) (d : Declarator) (size : String) (positive : Positive size) :
      Step r (.size d) ⟨q, .integer size⟩ r (.sizeClose { d with sizes := d.sizes ++ [size] })
  | sizeClose (q : Position) (d : Declarator) :
      Step r (.sizeClose d) ⟨q, .mark .closeBracket⟩ r (.declarator d)
  | assignSign (q : Position) (a : Assignee) :
      Step r (.assignSign a) ⟨q, .mark .assign⟩ r (.operand a .first)
  | operand (q : Position) (a : Assignee) (context : OperandContext) (f : FactorTree) (g : Factor)
      (known : f.elaborate r.scopes = some g) :
      Step r (.operand a context) ⟨q, f.token⟩ r (.operator a (context.supply g))
  | mul (q : Position) (a : Assignee) (o : Operation) (divide : Bool) :
      Step r (.operator a o) ⟨q, mulToken divide⟩ r
        (.operand a (.factor o.before o.last divide))
  | add (q : Position) (a : Assignee) (o : Operation) (subtract : Bool) :
      Step r (.operator a o) ⟨q, addToken subtract⟩ r
        (.operand a (.term o.toExpr (addOperator subtract)))
  | assign (q : Position) (a : Assignee) (o : Operation)
      (fits : Fits a.target.ty o.toExpr.ty) :
      Step r (.operator a o) ⟨q, .mark .semicolon⟩
        { r with builder := r.builder.assign a.target o.toExpr } .item

theorem step_of_step_eq {r : Reader} {p : Point} {t : Located Token} {s : Reader × Point}
    (h : r.step p t = some s) : Step r p t s.1 s.2 := by
  have hkind := kind_mem_of_step h
  obtain ⟨q, t⟩ := t
  cases p with
  | top =>
    rcases Token.top_of_kind hkind with ⟨ty, rfl⟩ | rfl
    · rw [step_top_type, Option.some.injEq] at h
      subst h
      exact .topType q ty
    · cases h
      exact .topMain q
  | functionName ty =>
    obtain ⟨name, rfl⟩ := Token.exists_name_of_kind (List.mem_singleton.mp hkind)
    rw [step_functionName, Option.ite_none_right_eq_some] at h
    obtain ⟨fresh, hs⟩ := h
    cases hs
    exact .functionName q ty name fresh
  | functionOpen ty name =>
    obtain rfl := Token.eq_mark_of_kind (k := .openParen) (List.mem_singleton.mp hkind)
      (by decide) (by decide)
    cases h
    exact .functionOpen q ty name
  | functionClose ty name =>
    obtain rfl := Token.eq_mark_of_kind (k := .closeParen) (List.mem_singleton.mp hkind)
      (by decide) (by decide)
    cases h
    exact .functionClose q ty name
  | mainOpen =>
    obtain rfl := Token.eq_mark_of_kind (k := .openParen) (List.mem_singleton.mp hkind)
      (by decide) (by decide)
    cases h
    exact .mainOpen q
  | mainClose =>
    obtain rfl := Token.eq_mark_of_kind (k := .closeParen) (List.mem_singleton.mp hkind)
      (by decide) (by decide)
    cases h
    exact .mainClose q
  | body =>
    obtain rfl := Token.eq_mark_of_kind (k := .openBrace) (List.mem_singleton.mp hkind)
      (by decide) (by decide)
    rw [step_body, opened, Option.ite_none_left_eq_some] at h
    obtain ⟨room, hs⟩ := h
    cases hs
    exact .bodyOpen q room
  | item =>
    rcases Token.item_of_kind hkind with rfl | rfl | ⟨ty, rfl⟩ | ⟨name, rfl⟩
    · rw [step_item_open, opened, Option.ite_none_left_eq_some] at h
      obtain ⟨room, hs⟩ := h
      cases hs
      exact .blockOpen q room
    · rw [step_item_close, Option.some.injEq] at h
      subst h
      exact .blockClose q
    · rw [step_item_type, Option.some.injEq] at h
      subst h
      exact .itemType q ty
    · rw [step_item_name, Option.map_eq_some_iff] at h
      obtain ⟨v, known, rfl⟩ := h
      exact .itemName q name v known
  | variableName ty =>
    obtain ⟨name, rfl⟩ := Token.exists_name_of_kind (List.mem_singleton.mp hkind)
    rw [step_variableName, Option.ite_none_right_eq_some] at h
    obtain ⟨fresh, hs⟩ := h
    cases hs
    exact .variableName q ty name fresh
  | declarator d =>
    rcases Token.declarator_of_kind hkind with rfl | rfl | rfl
    · rw [step_declarator_semicolon, declared, Option.ite_none_right_eq_some] at h
      obtain ⟨fresh, hs⟩ := h
      cases hs
      exact .semicolon q d fresh
    · rw [step_declarator_comma, declared, Option.ite_none_right_eq_some] at h
      obtain ⟨fresh, hs⟩ := h
      cases hs
      exact .comma q d fresh
    · cases h
      exact .sizeOpen q d
  | size d =>
    obtain ⟨size, rfl⟩ := Token.exists_integer_of_kind (List.mem_singleton.mp hkind)
    rw [step_size, Option.ite_none_right_eq_some] at h
    obtain ⟨positive, hs⟩ := h
    cases hs
    exact .size q d size positive
  | sizeClose d =>
    obtain rfl := Token.eq_mark_of_kind (k := .closeBracket) (List.mem_singleton.mp hkind)
      (by decide) (by decide)
    cases h
    exact .sizeClose q d
  | assignSign a =>
    obtain rfl := Token.eq_mark_of_kind (k := .assign) (List.mem_singleton.mp hkind)
      (by decide) (by decide)
    cases h
    exact .assignSign q a
  | operand a context =>
    obtain ⟨f, rfl⟩ := Token.exists_factor_of_kind hkind
    rw [step_operand, Option.map_eq_some_iff] at h
    obtain ⟨g, known, rfl⟩ := h
    exact .operand q a context f g known
  | operator a o =>
    rcases Token.operator_of_kind hkind with ⟨divide, rfl⟩ | ⟨subtract, rfl⟩ | rfl
    · rw [step_operator_mul, Option.some.injEq] at h
      subst h
      exact .mul q a o divide
    · rw [step_operator_add, Option.some.injEq] at h
      subst h
      exact .add q a o subtract
    · rw [step_operator_semicolon, Option.ite_none_right_eq_some] at h
      obtain ⟨fits, hs⟩ := h
      cases hs
      exact .assign q a o fits
  | finish =>
    have hnone : r.step .finish ⟨q, t⟩ = none := by
      rcases t with _ | k | _ | _ | k | _ <;> try cases k
      all_goals rfl
    rw [hnone] at h
    exact absurd h (by simp)

theorem step_iff {r : Reader} {p : Point} {t : Located Token} {s : Reader × Point} :
    r.step p t = some s ↔ Step r p t s.1 s.2 := by
  constructor
  · exact step_of_step_eq
  · intro h
    obtain ⟨r', p'⟩ := s
    cases h with
    | blockClose q => exact step_item_close r q
    | comma q d fresh => exact (step_declarator_comma r q d).trans (if_pos fresh)
    | semicolon q d fresh => exact (step_declarator_semicolon r q d).trans (if_pos fresh)
    | _ => simp_all [opened]

/-! ### The control follows the reader -/

def control (r : Reader) (p : Point) : Control :=
  ⟨p.place, r.builder.enclosing.length, r.builder.heading = .main⟩

theorem control_close (nesting : Nat) (scopes : Scopes) (b : Builder) :
    control ⟨nesting, scopes, b.closeBlock⟩ (afterBlock b.completes) =
      .closed b.enclosing.length (b.heading = .main) := by
  obtain ⟨program, heading, current, enclosing⟩ := b
  match enclosing with
  | [] => cases heading <;> rfl
  | [outer] => cases heading <;> rfl
  | outer :: outermost :: rest => rfl

theorem step_control {r r' : Reader} {p p' : Point} {t : Located Token} (h : Step r p t r' p') :
    (r.control p).step t.value = some (r'.control p') := by
  cases h with
  | topType q ty => exact Control.step_top_type _ _ ty
  | itemType q ty => exact Control.step_item_type _ _ ty
  | operand q a context f g known => exact Control.step_operand _ _ f
  | mul q a o divide => exact Control.step_mulToken _ _ divide
  | add q a o subtract => exact Control.step_addToken _ _ subtract
  | blockClose q =>
    rw [control_close]
    rfl
  | _ => rfl

/-! ### Reading several tokens -/

def reads (r : Reader) (p : Point) : List (Located Token) → Option (Reader × Point)
  | [] => some (r, p)
  | t :: ts => (r.step p t).bind (fun s => s.1.reads s.2 ts)

@[simp] theorem reads_nil (r : Reader) (p : Point) : r.reads p [] = some (r, p) := rfl

@[simp] theorem reads_cons (r : Reader) (p : Point) (t : Located Token)
    (ts : List (Located Token)) :
    r.reads p (t :: ts) = (r.step p t).bind (fun s => s.1.reads s.2 ts) := rfl

theorem reads_append (r : Reader) (p : Point) (ts us : List (Located Token)) :
    r.reads p (ts ++ us) = (r.reads p ts).bind (fun s => s.1.reads s.2 us) := by
  induction ts generalizing r p with
  | nil => rfl
  | cons t ts ih =>
    rw [List.cons_append, reads_cons, reads_cons, Option.bind_assoc]
    cases r.step p t with
    | none => rfl
    | some s => exact ih s.1 s.2

theorem reads_control {r : Reader} {p : Point} {ts : List (Located Token)} {s : Reader × Point}
    (h : r.reads p ts = some s) :
    (r.control p).run (ts.map Located.value) = some (s.1.control s.2) := by
  induction ts generalizing r p with
  | nil =>
    rw [reads_nil, Option.some.injEq] at h
    subst h
    rfl
  | cons t ts ih =>
    obtain ⟨next, hstep, hrest⟩ := Option.bind_eq_some_iff.mp h
    rw [List.map_cons, Control.run_cons, step_control (step_iff.mp hstep), Option.bind_some]
    exact ih hrest

end Reader

/-! ### A run is the fold of its steps -/

/-- A stream that begins with these tokens. -/
def TokenStream.prepend (ts : List (Located Token)) (tail : TokenStream) : TokenStream :=
  ts.foldr .token tail

theorem TokenStream.exists_prepend (s : TokenStream) :
    ∃ ts, (∃ p, s = prepend ts (.done p)) ∨ (∃ e, s = prepend ts (.failure e)) := by
  induction s with
  | token t rest ih =>
    obtain ⟨ts, ⟨p, rfl⟩ | ⟨e, rfl⟩⟩ := ih
    · exact ⟨t :: ts, .inl ⟨p, rfl⟩⟩
    · exact ⟨t :: ts, .inr ⟨e, rfl⟩⟩
  | done p => exact ⟨[], .inl ⟨p, rfl⟩⟩
  | failure e => exact ⟨[], .inr ⟨e, rfl⟩⟩

namespace Reader

/-- The reader, if its place admits the end of the text. -/
def finished (s : Reader × Point) : Option Reader :=
  if s.2 = .finish then some s.1 else none

theorem endOfText_mem_expected (p : Point) : .endOfText ∈ p.expected ↔ p = .finish := by
  rw [Point.expected_eq, ClassSet.mem_ofList]
  cases p <;> simp [Point.place, Place.expected]

theorem run_token (r : Reader) (e : Effect) (t : Located Token) (rest : TokenStream) :
    r.run e (.token t rest) = (do
      Traced.emit (.token t)
      let s ← r.settle e
      let s ← s.1.take s.2 t
      s.1.run s.2 rest) := rfl

theorem run_done (r : Reader) (e : Effect) (p : Position) :
    r.run e (.done p) = (do
      let s ← r.settle e
      if TokenClass.endOfText ∈ s.2.expected then return s.1
      else unexpected s.2 ⟨p, .endOfText⟩) := rfl

theorem value?_run_token (r : Reader) (e : Effect) (t : Located Token) (rest : TokenStream) :
    (r.run e (.token t rest)).value? = (r.settle e).value?.bind (fun s =>
      (s.1.take s.2 t).value?.bind (fun s => (s.1.run s.2 rest).value?)) := by
  rw [run_token, Traced.value?_bind, Traced.value?_emit, Option.bind_some, Traced.value?_bind]
  simp only [Traced.value?_bind]

theorem value?_run_done (r : Reader) (e : Effect) (p : Position) :
    (r.run e (.done p)).value? = (r.settle e).value?.bind finished := by
  rw [run_done, Traced.value?_bind]
  refine Option.bind_congr ?_
  intro s _
  simp only [endOfText_mem_expected, finished]
  split <;> rfl

/-- A run over tokens up to the end of the text has the value of its steps. -/
theorem value?_run (r : Reader) (e : Effect) (ts : List (Located Token)) (p : Position) :
    (r.run e (.prepend ts (.done p))).value? =
      (r.settle e).value?.bind (fun s => (s.1.reads s.2 ts).bind finished) := by
  induction ts generalizing r e with
  | nil => exact value?_run_done r e p
  | cons t ts ih =>
    have htoken := value?_run_token r e t (.prepend ts (.done p))
    rw [show TokenStream.prepend (t :: ts) (.done p) = .token t (.prepend ts (.done p)) from rfl,
      htoken]
    refine Option.bind_congr ?_
    intro s _
    rw [reads_cons, step, Option.bind_assoc, Option.bind_assoc]
    refine Option.bind_congr ?_
    intro s _
    exact ih s.1 s.2

theorem value?_run_failure (r : Reader) (e : Effect) (ts : List (Located Token))
    (error : Located LexicalError) :
    (r.run e (.prepend ts (.failure error))).value? = none := by
  induction ts generalizing r e with
  | nil => rfl
  | cons t ts ih =>
    have htoken := value?_run_token r e t (.prepend ts (.failure error))
    rw [show TokenStream.prepend (t :: ts) (.failure error) =
      .token t (.prepend ts (.failure error)) from rfl, htoken]
    simp [ih]

end Reader

theorem readProgram_eq (source : String) :
    readProgram source = (do
      let r ← Reader.new.run (.goTo .top) (Scanner.ofText source).stream
      return r.builder.program) := rfl

end BlockLang
