import BlockLang.Proofs.FaultPositions

/-!
# Reading does not look at positions

Positions are carried along with the tokens and come out again in diagnostics. Nothing is decided by
them: take any relation of positions, and two streams with the same tokens and errors at related
positions. Then a run over the one and a run over the other end alike, and if they are refused the
positions of the two diagnostics are related (`run_like`).

Two texts with the same tokens, at whatever positions, are therefore translated alike: the relation
is that of the positions of results with the same number.
-/

namespace BlockLang

section Like
variable (R : Position → Position → Prop)

/-! ### The same but for positions -/

inductive Located.Like {α : Type} : Located α → Located α → Prop
  | mk {p q : Position} (h : R p q) (a : α) : Like ⟨p, a⟩ ⟨q, a⟩

inductive Declarator.Like : Declarator → Declarator → Prop
  | mk (ty : Ty) {name name' : Located String} (h : name.Like R name') (sizes : List String) :
      Like ⟨ty, name, sizes⟩ ⟨ty, name', sizes⟩

inductive Assignee.Like : Assignee → Assignee → Prop
  | mk {name name' : Located String} (h : name.Like R name') (target : Variable) :
      Like ⟨name, target⟩ ⟨name', target⟩

inductive Point.Like : Point → Point → Prop
  | top : Like .top .top
  | functionName (ty : Ty) : Like (.functionName ty) (.functionName ty)
  | functionOpen (ty : Ty) {name name' : Located String} (h : name.Like R name') :
      Like (.functionOpen ty name) (.functionOpen ty name')
  | functionClose (ty : Ty) {name name' : Located String} (h : name.Like R name') :
      Like (.functionClose ty name) (.functionClose ty name')
  | mainOpen : Like .mainOpen .mainOpen
  | mainClose : Like .mainClose .mainClose
  | body : Like .body .body
  | item : Like .item .item
  | variableName (ty : Ty) : Like (.variableName ty) (.variableName ty)
  | declarator {d d' : Declarator} (h : d.Like R d') : Like (.declarator d) (.declarator d')
  | size {d d' : Declarator} (h : d.Like R d') : Like (.size d) (.size d')
  | sizeClose {d d' : Declarator} (h : d.Like R d') : Like (.sizeClose d) (.sizeClose d')
  | assignSign {a a' : Assignee} (h : a.Like R a') : Like (.assignSign a) (.assignSign a')
  | operand {a a' : Assignee} (h : a.Like R a') (context : OperandContext) :
      Like (.operand a context) (.operand a' context)
  | operator {a a' : Assignee} (h : a.Like R a') (o : Operation) :
      Like (.operator a o) (.operator a' o)
  | finish : Like .finish .finish

inductive Effect.Like : Effect → Effect → Prop
  | goTo {p p' : Point} (h : p.Like R p') : Like (.goTo p) (.goTo p')
  | nameFunction (ty : Ty) {name name' : Located String} (h : name.Like R name') :
      Like (.nameFunction ty name) (.nameFunction ty name')
  | beginFunction (ty : Ty) {name name' : Located String} (h : name.Like R name') :
      Like (.beginFunction ty name) (.beginFunction ty name')
  | beginMain : Like .beginMain .beginMain
  | openBlock {brace brace' : Position} (h : R brace brace') :
      Like (.openBlock brace) (.openBlock brace')
  | closeBlock : Like .closeBlock .closeBlock
  | nameVariable (ty : Ty) {name name' : Located String} (h : name.Like R name') :
      Like (.nameVariable ty name) (.nameVariable ty name')
  | addSize {d d' : Declarator} {size size' : Located String} (h : d.Like R d')
      (hsize : size.Like R size') : Like (.addSize d size) (.addSize d' size')
  | nameAssignee {name name' : Located String} (h : name.Like R name') :
      Like (.nameAssignee name) (.nameAssignee name')
  | readOperand {a a' : Assignee} {name name' : Located String} (h : a.Like R a')
      (context : OperandContext) (hname : name.Like R name') :
      Like (.readOperand a context name) (.readOperand a' context name')
  | assign (target : Variable) (value : Expr) : Like (.assign target value) (.assign target value)

inductive Diagnostic.Like : Diagnostic → Diagnostic → Prop
  | unplaced (fault : Fault) : Like ⟨fault, none⟩ ⟨fault, none⟩
  | placed (fault : Fault) {p q : Position} (h : R p q) : Like ⟨fault, some p⟩ ⟨fault, some q⟩

/-- The end of a text is nowhere reported, so that its position is left open. -/
inductive TokenStream.Like : TokenStream → TokenStream → Prop
  | token {t t' : Located Token} {rest rest' : TokenStream} (h : t.Like R t')
      (hrest : Like rest rest') : Like (.token t rest) (.token t' rest')
  | done (p q : Position) : Like (.done p) (.done q)
  | failure {e e' : Located LexicalError} (h : e.Like R e') : Like (.failure e) (.failure e')

/-- Both checks succeed with one value, or both fail with the same error. -/
inductive SameCheck {α : Type} :
    Except (Located SemanticError) α → Except (Located SemanticError) α → Prop
  | ok (a : α) : SameCheck (.ok a) (.ok a)
  | error {e e' : Located SemanticError} (h : e.Like R e') : SameCheck (.error e) (.error e')

/-- Both computations succeed, with values so related, or both fail alike. -/
inductive Traced.Like {α β : Type} (S : α → β → Prop) (x : Traced α) (y : Traced β) : Prop
  | ok {a : α} {b : β} (hx : x.result = .ok a) (hy : y.result = .ok b) (h : S a b) : Like S x y
  | error {d d' : Diagnostic} (hx : x.result = .error d) (hy : y.result = .error d')
      (h : d.Like R d') : Like S x y

variable {R}

theorem Point.Like.place_eq {p p' : Point} (h : p.Like R p') : p'.place = p.place := by
  cases h <;> rfl

theorem Diagnostic.like_ofFault {p q : Position} (h : R p q) (fault : Fault) :
    (ofFault p fault).Like R (ofFault q fault) := by
  unfold ofFault
  cases fault.atEnd with
  | true => exact .unplaced fault
  | false => exact .placed fault h

namespace Traced
variable {α β α' β' : Type} {S : α → β → Prop} {S' : α' → β' → Prop}

theorem Like.bind {x : Traced α} {y : Traced β} {f : α → Traced α'} {g : β → Traced β'}
    (h : x.Like R S y) (hf : ∀ a b, S a b → (f a).Like R S' (g b)) :
    (x >>= f).Like R S' (y >>= g) := by
  cases h with
  | ok hx hy hab =>
    rw [bind_of_ok hx, bind_of_ok hy]
    cases hf _ _ hab with
    | ok hfa hgb h => exact .ok hfa hgb h
    | error hfa hgb h => exact .error hfa hgb h
  | error hx hy h =>
    rw [bind_of_error hx, bind_of_error hy]
    exact .error rfl rfl h

theorem like_check {x y : Except (Located SemanticError) α} (h : SameCheck R x y) :
    (check x).Like R Eq (check y) := by
  cases h with
  | ok a => exact .ok rfl rfl rfl
  | error h =>
    obtain ⟨hp, e⟩ := h
    exact .error rfl rfl (Diagnostic.like_ofFault hp _)

/-- A check and what is done with its value. -/
theorem like_check_bind {x y : Except (Located SemanticError) α} {f : α → Traced α'}
    {g : α → Traced β'} (h : SameCheck R x y) (hf : ∀ a, (f a).Like R S' (g a)) :
    (check x >>= f).Like R S' (check y >>= g) := by
  refine (like_check h).bind ?_
  rintro a _ rfl
  exact hf a

end Traced

/-! ### Checks -/

theorem SameCheck.bind {α β : Type} {x y : Except (Located SemanticError) α}
    {f g : α → Except (Located SemanticError) β} (h : SameCheck R x y)
    (hf : ∀ a, SameCheck R (f a) (g a)) : SameCheck R (x >>= f) (y >>= g) := by
  cases h with
  | ok a => exact hf a
  | error h => exact .error h

section Checks
variable {name name' : Located String} (h : name.Like R name')
include h

theorem Scopes.sameCheck_checkUndeclared (s : Scopes) :
    SameCheck R (s.checkUndeclared name) (s.checkUndeclared name') := by
  obtain ⟨hp, text⟩ := h
  unfold checkUndeclared
  dsimp only
  cases s.current.find? text with
  | none => exact .ok ()
  | some symbol => exact .error (.mk hp _)

theorem Scopes.sameCheck_declare (s : Scopes) (kind : SymbolKind) (ty : Ty) :
    SameCheck R (s.declare name kind ty) (s.declare name' kind ty) := by
  refine (s.sameCheck_checkUndeclared h).bind fun _ => ?_
  obtain ⟨hp, text⟩ := h
  exact .ok _

theorem Scopes.sameCheck_declareVariable (s : Scopes) (ty : Ty) (sizes : List String) :
    SameCheck R (s.declareVariable name ty sizes) (s.declareVariable name' ty sizes) := by
  exact (s.sameCheck_declare h (kindOf sizes) ty).bind fun _ => .ok _

theorem Scopes.sameCheck_resolve (s : Scopes) :
    SameCheck R (s.resolve name) (s.resolve name') := by
  obtain ⟨hp, text⟩ := h
  unfold resolve
  rcases s.lookup text with _ | ⟨_, kind, ty, block⟩
  · exact .error (.mk hp _)
  · cases kind with
    | scalar => exact .ok _
    | array => exact .error (.mk hp _)
    | function => exact .error (.mk hp _)

theorem sameCheck_checkSize : SameCheck R (checkSize name) (checkSize name') := by
  obtain ⟨hp, text⟩ := h
  unfold checkSize
  split
  · exact .ok ()
  · exact .error (.mk hp _)

theorem sameCheck_checkAssignment (target : Variable) (value : Expr) :
    SameCheck R (checkAssignment name target value) (checkAssignment name' target value) := by
  obtain ⟨hp, text⟩ := h
  unfold checkAssignment
  split
  · exact .error (.mk hp _)
  · exact .ok ()

end Checks

/-! ### The reader -/

namespace Reader
open Traced

variable (R) in
/-- The same reader, at the same place but for positions. -/
def SameSettled (s s' : Reader × Point) : Prop := s.1 = s'.1 ∧ s.2.Like R s'.2

variable (R) in
def SameTaken (s s' : Reader × Effect) : Prop := s.1 = s'.1 ∧ s.2.Like R s'.2

theorem like_unexpected {α β : Type} {S : α → β → Prop} {p p' : Point} {t t' : Located Token}
    (hp : p.Like R p') (ht : t.Like R t') :
    (unexpected p t).Like R S (unexpected p' t') := by
  obtain ⟨h, t⟩ := ht
  have hexpected : p'.expected = p.expected := by
    rw [Point.expected_eq, Point.expected_eq, hp.place_eq]
  refine .error rfl rfl ?_
  rw [hexpected]
  exact Diagnostic.like_ofFault h _

theorem like_closeBlock (r : Reader) : r.closeBlock.Like R (SameSettled R) r.closeBlock := by
  unfold closeBlock
  cases r.builder.completes with
  | none => exact .ok rfl rfl ⟨rfl, .item⟩
  | some heading =>
    cases heading with
    | function name ty => exact .ok rfl rfl ⟨rfl, .top⟩
    | main => exact .ok rfl rfl ⟨rfl, .finish⟩

theorem like_settle (r : Reader) {e e' : Effect} (h : e.Like R e') :
    (r.settle e).Like R (SameSettled R) (r.settle e') := by
  cases h with
  | goTo h => exact .ok rfl rfl ⟨rfl, h⟩
  | nameFunction ty h =>
    exact like_check_bind (r.scopes.sameCheck_declare h .function ty) fun _ =>
      .ok rfl rfl ⟨rfl, .functionOpen ty h⟩
  | beginFunction ty h =>
    obtain ⟨hp, name⟩ := h
    exact .ok rfl rfl ⟨rfl, .body⟩
  | beginMain => exact .ok rfl rfl ⟨rfl, .body⟩
  | openBlock h =>
    rw [settle, settle, openBlock, openBlock]
    split
    · exact .error rfl rfl (Diagnostic.like_ofFault h _)
    · exact .ok rfl rfl ⟨rfl, .item⟩
  | closeBlock => exact r.like_closeBlock
  | nameVariable ty h =>
    exact like_check_bind (r.scopes.sameCheck_checkUndeclared h) fun _ =>
      .ok rfl rfl ⟨rfl, .declarator (.mk ty h [])⟩
  | addSize h hsize =>
    obtain ⟨ty, hname, sizes⟩ := h
    refine like_check_bind (sameCheck_checkSize hsize) fun _ => ?_
    obtain ⟨hp, size⟩ := hsize
    exact .ok rfl rfl ⟨rfl, .sizeClose (.mk ty hname _)⟩
  | nameAssignee h =>
    exact like_check_bind (r.scopes.sameCheck_resolve h) fun v =>
      .ok rfl rfl ⟨rfl, .assignSign (.mk h v)⟩
  | readOperand h context hname =>
    exact like_check_bind (r.scopes.sameCheck_resolve hname) fun v =>
      .ok rfl rfl ⟨rfl, .operator h (context.supply (.read v))⟩
  | assign target value => exact .ok rfl rfl ⟨rfl, .item⟩

theorem like_declare (r : Reader) {d d' : Declarator} {p p' : Point} (h : d.Like R d')
    (hp : p.Like R p') :
    (r.declare d (.goTo p)).Like R (SameTaken R) (r.declare d' (.goTo p')) := by
  obtain ⟨ty, hname, sizes⟩ := h
  exact like_check_bind (r.scopes.sameCheck_declareVariable hname ty sizes) fun _ =>
    .ok rfl rfl ⟨rfl, .goTo hp⟩

/-- At a place and for a token that differ in positions only, the same row applies. -/
theorem Row.exists_like {p p' : Point} {t t' : Located Token} {e : Effect} (row : Row p t e)
    (hp : p.Like R p') (ht : t.Like R t') : ∃ e', Row p' t' e' ∧ e.Like R e' := by
  obtain ⟨h, t⟩ := ht
  cases row with
  | topType q ty =>
    cases hp
    exact ⟨_, .topType _ ty, .goTo (.functionName ty)⟩
  | topMain q =>
    cases hp
    exact ⟨_, .topMain _, .goTo .mainOpen⟩
  | functionName q ty name =>
    cases hp
    exact ⟨_, .functionName _ ty name, .nameFunction ty (.mk h name)⟩
  | functionOpen q ty name =>
    cases hp with
    | functionOpen _ hname => exact ⟨_, .functionOpen _ ty _, .goTo (.functionClose ty hname)⟩
  | functionClose q ty name =>
    cases hp with
    | functionClose _ hname => exact ⟨_, .functionClose _ ty _, .beginFunction ty hname⟩
  | mainOpen q =>
    cases hp
    exact ⟨_, .mainOpen _, .goTo .mainClose⟩
  | mainClose q =>
    cases hp
    exact ⟨_, .mainClose _, .beginMain⟩
  | bodyOpen q =>
    cases hp
    exact ⟨_, .bodyOpen _, .openBlock h⟩
  | blockOpen q =>
    cases hp
    exact ⟨_, .blockOpen _, .openBlock h⟩
  | blockClose q =>
    cases hp
    exact ⟨_, .blockClose _, .closeBlock⟩
  | itemType q ty =>
    cases hp
    exact ⟨_, .itemType _ ty, .goTo (.variableName ty)⟩
  | itemName q name =>
    cases hp
    exact ⟨_, .itemName _ name, .nameAssignee (.mk h name)⟩
  | variableName q ty name =>
    cases hp
    exact ⟨_, .variableName _ ty name, .nameVariable ty (.mk h name)⟩
  | sizeOpen q d =>
    cases hp with
    | declarator hd => exact ⟨_, .sizeOpen _ _, .goTo (.size hd)⟩
  | size q d size =>
    cases hp with
    | size hd => exact ⟨_, .size _ _ size, .addSize hd (.mk h size)⟩
  | sizeClose q d =>
    cases hp with
    | sizeClose hd => exact ⟨_, .sizeClose _ _, .goTo (.declarator hd)⟩
  | assignSign q a =>
    cases hp with
    | assignSign ha => exact ⟨_, .assignSign _ _, .goTo (.operand ha .first)⟩
  | integer q a context lexeme =>
    cases hp with
    | operand ha _ => exact ⟨_, .integer _ _ context lexeme, .goTo (.operator ha _)⟩
  | real q a context lexeme =>
    cases hp with
    | operand ha _ => exact ⟨_, .real _ _ context lexeme, .goTo (.operator ha _)⟩
  | read q a context name =>
    cases hp with
    | operand ha _ => exact ⟨_, .read _ _ context name, .readOperand ha context (.mk h name)⟩
  | mul q a o divide =>
    cases hp with
    | operator ha _ => exact ⟨_, .mul _ _ o divide, .goTo (.operand ha _)⟩
  | add q a o subtract =>
    cases hp with
    | operator ha _ => exact ⟨_, .add _ _ o subtract, .goTo (.operand ha _)⟩

theorem take_of_row (r : Reader) {p : Point} {t : Located Token} {e : Effect} (row : Row p t e) :
    r.take p t = ok (r, e) := by
  cases row with
  | topType q ty => cases ty <;> rfl
  | itemType q ty => cases ty <;> rfl
  | mul q a o divide => cases divide <;> rfl
  | add q a o subtract => cases subtract <;> rfl
  | _ => rfl

theorem take_of_misplaced (r : Reader) {p : Point} {t : Located Token}
    (h : t.value.kind ∈ p.place.expected → t.value = .endOfText) :
    r.take p t = unexpected p t := by
  by_cases hmem : t.value.kind ∈ p.place.expected
  · obtain ⟨q, t⟩ := t
    obtain rfl : t = .endOfText := h hmem
    cases p <;> rfl
  · exact take_eq_unexpected r p t hmem

theorem like_take (r : Reader) {p p' : Point} {t t' : Located Token} (hp : p.Like R p')
    (ht : t.Like R t') : (r.take p t).Like R (SameTaken R) (r.take p' t') := by
  have htakes := takes_take r p t
  generalize r.take p t = x at htakes
  cases htakes with
  | accepts row =>
    obtain ⟨e', row', he⟩ := row.exists_like hp ht
    rw [r.take_of_row row']
    exact .ok rfl rfl ⟨rfl, he⟩
  | comma q d =>
    obtain ⟨-, -⟩ := ht
    cases hp with
    | declarator hd =>
      have hnext := r.like_declare hd (.variableName d.ty)
      obtain ⟨ty, hname, sizes⟩ := hd
      exact hnext
  | semicolon q d =>
    obtain ⟨-, -⟩ := ht
    cases hp with
    | declarator hd => exact r.like_declare hd .item
  | assigns q a o =>
    obtain ⟨-, -⟩ := ht
    cases hp with
    | operator ha _ =>
      obtain ⟨hname, target⟩ := ha
      exact like_check_bind (sameCheck_checkAssignment hname target o.toExpr) fun _ =>
        .ok rfl rfl ⟨rfl, .assign target o.toExpr⟩
  | refuses misplaced =>
    have hmisplaced : t'.value.kind ∈ p'.place.expected → t'.value = .endOfText := by
      obtain ⟨-, t⟩ := ht
      rw [hp.place_eq]
      exact misplaced
    rw [r.take_of_misplaced hmisplaced]
    exact like_unexpected hp ht

/-- The tokens of a stream decide how a run over it ends. -/
theorem run_like (r : Reader) {e e' : Effect} {s s' : TokenStream} (he : e.Like R e')
    (hs : s.Like R s') : (r.run e s).Like R Eq (r.run e' s') := by
  induction hs generalizing r e e' with
  | token ht hrest ih =>
    rw [run_token, run_token]
    refine Traced.Like.bind (S := fun _ _ => True) (.ok rfl rfl trivial) fun _ _ _ => ?_
    refine (r.like_settle he).bind ?_
    rintro ⟨r, p⟩ ⟨-, p'⟩ ⟨rfl, hp⟩
    refine (r.like_take hp ht).bind ?_
    rintro ⟨r, e⟩ ⟨-, e'⟩ ⟨rfl, he⟩
    exact ih r he
  | done p q =>
    rw [run_done, run_done]
    refine (r.like_settle he).bind ?_
    rintro ⟨r, p⟩ ⟨-, p'⟩ ⟨rfl, hp⟩
    have hexpected : p'.expected = p.expected := by
      rw [Point.expected_eq, Point.expected_eq, hp.place_eq]
    dsimp only
    rw [hexpected]
    split
    · exact .ok rfl rfl rfl
    · refine .error rfl rfl ?_
      rw [hexpected]
      exact .unplaced _
  | failure h =>
    obtain ⟨hp, e⟩ := h
    exact .error rfl rfl (Diagnostic.like_ofFault hp _)

end Reader

end Like

/-! ### Two texts with the same results -/

/-- A result with its position erased. -/
def Scan.plain : Scan → Scan
  | .token t => .token ⟨.start, t.value⟩
  | .failure e => .failure ⟨.start, e.value⟩
  | .done => .done

/-- Where a token or an error stands. -/
def Scan.position? : Scan → Option Position
  | .token t => some t.position
  | .failure e => some e.position
  | .done => none

/-- Streams with the same results, those with the same number at related positions. -/
theorem TokenStream.like_of_plain {R : Position → Position → Prop} {s s' : TokenStream}
    (h : s.results.map Scan.plain = s'.results.map Scan.plain)
    (hR : ∀ (i : Nat) (p q : Position), s.results[i]?.bind Scan.position? = some p →
      s'.results[i]?.bind Scan.position? = some q → R p q) : s.Like R s' := by
  induction s generalizing s' with
  | token t rest ih =>
    cases s' with
    | token t' rest' =>
      obtain ⟨p, t⟩ := t
      obtain ⟨q, t'⟩ := t'
      obtain ⟨hhead, htail⟩ := List.cons_eq_cons.mp h
      cases hhead
      exact .token (.mk (hR 0 p q rfl rfl) t) (ih htail fun i => hR (i + 1))
    | done q => cases h
    | failure e => cases h
  | done p =>
    cases s' with
    | token t' rest' => cases h
    | done q => exact .done p q
    | failure e => cases h
  | failure e =>
    cases s' with
    | token t' rest' => cases h
    | done q => cases h
    | failure e' =>
      obtain ⟨p, e⟩ := e
      obtain ⟨q, e'⟩ := e'
      obtain ⟨hhead, -⟩ := List.cons_eq_cons.mp h
      cases hhead
      exact .failure (.mk (hR 0 p q rfl rfl) e)

/-- The results that scanning a text gives, up to its end or its first error, without positions. -/
def plainResults (source : String) : List Scan :=
  (Scanner.ofText source).stream.results.map Scan.plain

/-- Where the `i`-th token of a text stands, or the error that its scanning ends with. -/
def resultPosition? (source : String) (i : Nat) : Option Position :=
  (Scanner.ofText source).stream.results[i]?.bind Scan.position?

/-- The positions are those of results with the same number. -/
def SamePlace (a b : String) (p q : Position) : Prop :=
  ∃ i, resultPosition? a i = some p ∧ resultPosition? b i = some q

theorem like_compile {a b : String} (h : plainResults a = plainResults b) (target : Target) :
    (compile a target).Like (SamePlace a b) Eq (compile b target) := by
  have hstream : (Scanner.ofText a).stream.Like (SamePlace a b) (Scanner.ofText b).stream :=
    TokenStream.like_of_plain h fun i _ _ hp hq => ⟨i, hp, hq⟩
  have hrun := Reader.new.run_like (.goTo .top) hstream
  rw [compile, compile, readProgram_eq, readProgram_eq, bind_assoc, bind_assoc]
  refine hrun.bind ?_
  rintro r _ rfl
  exact .ok rfl rfl rfl

/-- Texts that differ in layout only are both translated, to one text, or both refused, for the same
fault and at the position of the same token or error, if at any. -/
theorem compile_of_plainResults {a b : String} (h : plainResults a = plainResults b)
    (target : Target) :
    (∃ text, (compile a target).result = .ok text ∧ (compile b target).result = .ok text) ∨
    ∃ fault p q, (compile a target).result = .error ⟨fault, p⟩ ∧
      (compile b target).result = .error ⟨fault, q⟩ ∧
      (p = none ∧ q = none ∨
        ∃ i, p.isSome ∧ q.isSome ∧ p = resultPosition? a i ∧ q = resultPosition? b i) := by
  cases like_compile h target with
  | ok ha hb heq =>
    subst heq
    exact .inl ⟨_, ha, hb⟩
  | error ha hb hlike =>
    cases hlike with
    | unplaced fault => exact .inr ⟨fault, none, none, ha, hb, .inl ⟨rfl, rfl⟩⟩
    | @placed fault p q hplace =>
      obtain ⟨i, hp, hq⟩ := hplace
      exact .inr ⟨fault, some p, some q, ha, hb, .inr ⟨i, rfl, rfl, hp.symm, hq.symm⟩⟩

/-- The tokens of `commentedAssignment` on one line. -/
def plainAssignment : String := "main()\x7bint a;a=a+2.5;"

theorem compile_of_plainAssignment :
    ∃ fault p q, (compile commentedAssignment .c).result = .error ⟨fault, some p⟩ ∧
      (compile plainAssignment .c).result = .error ⟨fault, some q⟩ ∧
      ∃ i, resultPosition? commentedAssignment i = some p ∧
        resultPosition? plainAssignment i = some q := by
  have hplain : plainResults commentedAssignment = plainResults plainAssignment := by
    decide +kernel
  have hresult : (compile commentedAssignment .c).result =
      .error ⟨.semantic (.expectedReal "a"), some ⟨2, 10⟩⟩ :=
    Traced.result_eq_error_iff.mpr (by decide +kernel)
  rcases compile_of_plainResults hplain .c with ⟨text, hok, -⟩ | ⟨fault, p, q, ha, hb, hpositions⟩
  · rw [hresult] at hok
    cases hok
  · rcases hpositions with ⟨rfl, -⟩ | ⟨i, hp, hq, hpi, hqi⟩
    · rw [hresult] at ha
      cases ha
    · obtain ⟨p, rfl⟩ := Option.isSome_iff_exists.mp hp
      obtain ⟨q, rfl⟩ := Option.isSome_iff_exists.mp hq
      exact ⟨fault, p, q, ha, hb, i, hpi.symm, hqi.symm⟩

end BlockLang
