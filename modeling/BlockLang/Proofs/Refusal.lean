import BlockLang.Proofs.Stepping

/-!
# Refused tokens

A run that ends with an unexpected token has read all tokens before it, and what it
expected is what its place admits (`run_refuses`). The records of a run name the
tokens that it pulled.
-/

namespace BlockLang

/-! ### Stages that refuse no token -/

def pulled (records : List Record) : List (Located Token) :=
  records.filterMap (fun record => match record with
    | .token t => some t
    | _ => none)

theorem pulled_append (xs ys : List Record) : pulled (xs ++ ys) = pulled xs ++ pulled ys :=
  List.filterMap_append

/-- The diagnostic says that this token was found where one of these classes was expected. -/
def Diagnostic.Refuses (d : Diagnostic) (found : Token) (expected : ClassSet) : Prop :=
  d.fault = .syntactic (.unexpectedToken found expected)

/-- The computation pulls no token and refuses none. -/
structure Traced.Inert {α : Type} (x : Traced α) : Prop where
  quiet : pulled x.records = []
  unrefusing : ∀ d, x.result = .error d → ∀ found expected, ¬d.Refuses found expected

namespace Traced

theorem inert_ok {α : Type} (a : α) : (ok a).Inert := by
  refine ⟨rfl, ?_⟩
  intro d h
  cases h

theorem inert_check {α : Type} (x : Except (Located SemanticError) α) : (check x).Inert := by
  cases x with
  | ok a => exact inert_ok a
  | error e =>
    refine ⟨rfl, ?_⟩
    intro d h found expected hd
    cases h
    cases hd

theorem inert_emit {r : Record} (h : ∀ t, r ≠ .token t) : (emit r).Inert := by
  refine ⟨?_, ?_⟩
  · cases r
    case token t => exact absurd rfl (h t)
    all_goals rfl
  · intro d hd
    cases hd

theorem inert_bind {α β : Type} {x : Traced α} {f : α → Traced β} (hx : x.Inert)
    (hf : ∀ a, (f a).Inert) : (x >>= f).Inert := by
  cases h : x.result with
  | ok a =>
    rw [bind_of_ok h]
    refine ⟨?_, (hf a).unrefusing⟩
    show pulled (x.records ++ (f a).records) = []
    rw [pulled_append, hx.quiet, (hf a).quiet]
    rfl
  | error d =>
    rw [bind_of_error h]
    refine ⟨hx.quiet, ?_⟩
    intro d' hd'
    cases hd'
    exact hx.unrefusing d h

/-- Where a sequence of stages refuses a token, an inert first stage has a value. -/
theorem Inert.refuses_of_bind {α β : Type} {x : Traced α} {f : α → Traced β} (hx : x.Inert)
    {d : Diagnostic} (h : (x >>= f).result = .error d) {found : Token} {expected : ClassSet}
    (hd : d.Refuses found expected) :
    ∃ a, x.value? = some a ∧ (f a).result = .error d ∧
      pulled (x >>= f).records = pulled (f a).records := by
  cases hresult : x.result with
  | ok a =>
    rw [bind_of_ok hresult] at h
    refine ⟨a, result_eq_ok_iff.mp hresult, h, ?_⟩
    rw [bind_of_ok hresult]
    show pulled (x.records ++ (f a).records) = pulled (f a).records
    rw [pulled_append, hx.quiet, List.nil_append]
  | error d' =>
    rw [bind_of_error hresult] at h
    cases h
    exact absurd hd (hx.unrefusing d hresult found expected)

end Traced

namespace Reader
open Traced

theorem inert_openBlock (r : Reader) (brace : Position) : (r.openBlock brace).Inert := by
  unfold openBlock
  split
  · refine ⟨rfl, ?_⟩
    intro d h found expected hd
    cases h
    cases hd
  · exact inert_bind (inert_emit (by simp)) (fun _ => inert_ok _)

theorem inert_closeBlock (r : Reader) : r.closeBlock.Inert := by
  unfold closeBlock
  cases r.builder.completes with
  | none => exact inert_bind (inert_emit (by simp)) (fun _ => inert_ok _)
  | some h =>
    exact inert_bind (inert_emit (by simp)) fun _ =>
      inert_bind (inert_emit (by simp)) (fun _ => inert_ok _)

theorem inert_settle (r : Reader) (e : Effect) : (r.settle e).Inert := by
  cases e with
  | goTo p => exact inert_ok _
  | nameFunction ty name =>
    exact inert_bind (inert_check _) fun _ => inert_bind (inert_emit (by simp)) fun _ => inert_ok _
  | beginFunction ty name => exact inert_bind (inert_emit (by simp)) fun _ => inert_ok _
  | beginMain => exact inert_bind (inert_emit (by simp)) fun _ => inert_ok _
  | openBlock brace => exact r.inert_openBlock brace
  | closeBlock => exact r.inert_closeBlock
  | nameVariable ty name => exact inert_bind (inert_check _) fun _ => inert_ok _
  | addSize d size => exact inert_bind (inert_check _) fun _ => inert_ok _
  | nameAssignee name => exact inert_bind (inert_check _) fun _ => inert_ok _
  | readOperand a context name => exact inert_bind (inert_check _) fun _ => inert_ok _
  | assign target value => exact inert_ok _

theorem inert_declare (r : Reader) (d : Declarator) (e : Effect) : (r.declare d e).Inert :=
  inert_bind (inert_check _) fun _ => inert_bind (inert_emit (by simp)) fun _ => inert_ok _

/-! ### What taking a token can do -/

/-- The rows of `take` by which a token is accepted with an effect that is yet to be settled. -/
inductive Row : Point → Located Token → Effect → Prop
  | topType (q : Position) (ty : Ty) : Row .top ⟨q, ty.token⟩ (.goTo (.functionName ty))
  | topMain (q : Position) : Row .top ⟨q, .keyword .main⟩ (.goTo .mainOpen)
  | functionName (q : Position) (ty : Ty) (name : String) :
      Row (.functionName ty) ⟨q, .name name⟩ (.nameFunction ty ⟨q, name⟩)
  | functionOpen (q : Position) (ty : Ty) (name : Located String) :
      Row (.functionOpen ty name) ⟨q, .mark .openParen⟩ (.goTo (.functionClose ty name))
  | functionClose (q : Position) (ty : Ty) (name : Located String) :
      Row (.functionClose ty name) ⟨q, .mark .closeParen⟩ (.beginFunction ty name)
  | mainOpen (q : Position) : Row .mainOpen ⟨q, .mark .openParen⟩ (.goTo .mainClose)
  | mainClose (q : Position) : Row .mainClose ⟨q, .mark .closeParen⟩ .beginMain
  | bodyOpen (q : Position) : Row .body ⟨q, .mark .openBrace⟩ (.openBlock q)
  | blockOpen (q : Position) : Row .item ⟨q, .mark .openBrace⟩ (.openBlock q)
  | blockClose (q : Position) : Row .item ⟨q, .mark .closeBrace⟩ .closeBlock
  | itemType (q : Position) (ty : Ty) : Row .item ⟨q, ty.token⟩ (.goTo (.variableName ty))
  | itemName (q : Position) (name : String) :
      Row .item ⟨q, .name name⟩ (.nameAssignee ⟨q, name⟩)
  | variableName (q : Position) (ty : Ty) (name : String) :
      Row (.variableName ty) ⟨q, .name name⟩ (.nameVariable ty ⟨q, name⟩)
  | sizeOpen (q : Position) (d : Declarator) :
      Row (.declarator d) ⟨q, .mark .openBracket⟩ (.goTo (.size d))
  | size (q : Position) (d : Declarator) (size : String) :
      Row (.size d) ⟨q, .integer size⟩ (.addSize d ⟨q, size⟩)
  | sizeClose (q : Position) (d : Declarator) :
      Row (.sizeClose d) ⟨q, .mark .closeBracket⟩ (.goTo (.declarator d))
  | assignSign (q : Position) (a : Assignee) :
      Row (.assignSign a) ⟨q, .mark .assign⟩ (.goTo (.operand a .first))
  | integer (q : Position) (a : Assignee) (context : OperandContext) (lexeme : String) :
      Row (.operand a context) ⟨q, .integer lexeme⟩
        (.goTo (.operator a (context.supply (.integer lexeme))))
  | real (q : Position) (a : Assignee) (context : OperandContext) (lexeme : String) :
      Row (.operand a context) ⟨q, .real lexeme⟩
        (.goTo (.operator a (context.supply (.real lexeme))))
  | read (q : Position) (a : Assignee) (context : OperandContext) (name : String) :
      Row (.operand a context) ⟨q, .name name⟩ (.readOperand a context ⟨q, name⟩)
  | mul (q : Position) (a : Assignee) (o : Operation) (divide : Bool) :
      Row (.operator a o) ⟨q, mulToken divide⟩ (.goTo (.operand a (.factor o.before o.last divide)))
  | add (q : Position) (a : Assignee) (o : Operation) (subtract : Bool) :
      Row (.operator a o) ⟨q, addToken subtract⟩
        (.goTo (.operand a (.term o.toExpr (addOperator subtract))))

/-- All that taking a token can do. -/
inductive Takes (r : Reader) : Point → Located Token → Traced (Reader × Effect) → Prop
  | accepts {p : Point} {t : Located Token} {e : Effect} (row : Row p t e) : Takes r p t (ok (r, e))
  | comma (q : Position) (d : Declarator) :
      Takes r (.declarator d) ⟨q, .mark .comma⟩ (r.declare d (.goTo (.variableName d.ty)))
  | semicolon (q : Position) (d : Declarator) :
      Takes r (.declarator d) ⟨q, .mark .semicolon⟩ (r.declare d (.goTo .item))
  | assigns (q : Position) (a : Assignee) (o : Operation) :
      Takes r (.operator a o) ⟨q, .mark .semicolon⟩
        (check (checkAssignment a.name a.target o.toExpr) >>= fun _ =>
          ok (r, .assign a.target o.toExpr))
  | refuses {p : Point} {t : Located Token}
      (misplaced : t.value.kind ∈ p.place.expected → t.value = .endOfText) :
      Takes r p t (unexpected p t)

theorem takes_take (r : Reader) (p : Point) (t : Located Token) : Takes r p t (r.take p t) := by
  by_cases h : t.value.kind ∈ p.place.expected
  case neg =>
    rw [take_eq_unexpected r p t h]
    exact .refuses fun hmem => absurd hmem h
  obtain ⟨q, t⟩ := t
  have hmark : ∀ k : Mark, t.kind ∈ [(Token.mark k).kind] →
      (Token.mark k).kind ≠ .multiplicative → (Token.mark k).kind ≠ .additive → t = .mark k :=
    fun k hk => Token.eq_mark_of_kind (List.mem_singleton.mp hk)
  cases p with
  | top =>
    rcases Token.top_of_kind h with ⟨ty, rfl⟩ | rfl
    · cases ty <;> exact .accepts (.topType q _)
    · exact .accepts (.topMain q)
  | functionName ty =>
    obtain ⟨name, rfl⟩ := Token.exists_name_of_kind (List.mem_singleton.mp h)
    exact .accepts (.functionName q ty name)
  | functionOpen ty name =>
    obtain rfl := hmark .openParen h (by decide) (by decide)
    exact .accepts (.functionOpen q ty name)
  | functionClose ty name =>
    obtain rfl := hmark .closeParen h (by decide) (by decide)
    exact .accepts (.functionClose q ty name)
  | mainOpen =>
    obtain rfl := hmark .openParen h (by decide) (by decide)
    exact .accepts (.mainOpen q)
  | mainClose =>
    obtain rfl := hmark .closeParen h (by decide) (by decide)
    exact .accepts (.mainClose q)
  | body =>
    obtain rfl := hmark .openBrace h (by decide) (by decide)
    exact .accepts (.bodyOpen q)
  | item =>
    rcases Token.item_of_kind h with rfl | rfl | ⟨ty, rfl⟩ | ⟨name, rfl⟩
    · exact .accepts (.blockOpen q)
    · exact .accepts (.blockClose q)
    · cases ty <;> exact .accepts (.itemType q _)
    · exact .accepts (.itemName q name)
  | variableName ty =>
    obtain ⟨name, rfl⟩ := Token.exists_name_of_kind (List.mem_singleton.mp h)
    exact .accepts (.variableName q ty name)
  | declarator d =>
    rcases Token.declarator_of_kind h with rfl | rfl | rfl
    · exact .semicolon q d
    · exact .comma q d
    · exact .accepts (.sizeOpen q d)
  | size d =>
    obtain ⟨size, rfl⟩ := Token.exists_integer_of_kind (List.mem_singleton.mp h)
    exact .accepts (.size q d size)
  | sizeClose d =>
    obtain rfl := hmark .closeBracket h (by decide) (by decide)
    exact .accepts (.sizeClose q d)
  | assignSign a =>
    obtain rfl := hmark .assign h (by decide) (by decide)
    exact .accepts (.assignSign q a)
  | operand a context =>
    obtain ⟨f, rfl⟩ := Token.exists_factor_of_kind h
    cases f with
    | integer lexeme => exact .accepts (.integer q a context lexeme)
    | real lexeme => exact .accepts (.real q a context lexeme)
    | name text => exact .accepts (.read q a context text)
  | operator a o =>
    rcases Token.operator_of_kind h with ⟨divide, rfl⟩ | ⟨subtract, rfl⟩ | rfl
    · cases divide <;> exact .accepts (.mul q a o _)
    · cases subtract <;> exact .accepts (.add q a o _)
    · exact .assigns q a o
  | finish =>
    obtain rfl := Token.eq_endOfText_of_kind (List.mem_singleton.mp h)
    exact .refuses fun _ => rfl

theorem inert_take (r : Reader) (p : Point) (t : Located Token) (ht : t.value ≠ .endOfText)
    (h : t.value.kind ∈ p.place.expected) : (r.take p t).Inert := by
  have htakes := takes_take r p t
  generalize r.take p t = x at htakes
  cases htakes with
  | accepts row => exact inert_ok _
  | comma q d => exact r.inert_declare d _
  | semicolon q d => exact r.inert_declare d _
  | assigns q a o => exact inert_bind (inert_check _) fun _ => inert_ok _
  | refuses misplaced => exact absurd (misplaced h) ht

end Reader

/-! ### A run up to the refused token -/

namespace TokenStream

/-- What comes next in a stream, the end of the text included. -/
def next? : TokenStream → Option Token
  | .token t _ => some t.value
  | .done _ => some .endOfText
  | .failure _ => none

/-- The next token, if there is one. -/
def first : TokenStream → List (Located Token)
  | .token t _ => [t]
  | _ => []

end TokenStream

namespace Reader

/-- A run that refuses a token has read those before it and stands where the token does not
belong. -/
theorem run_refuses {r : Reader} {e : Effect} {ts : List (Located Token)} {tail : TokenStream}
    (hts : ∀ t ∈ ts, t.value ≠ .endOfText) (htail : tail.first = []) {d : Diagnostic}
    (h : (r.run e (.prepend ts tail)).result = .error d) {found : Token} {expected : ClassSet}
    (hd : d.Refuses found expected) :
    ∃ before rest s, TokenStream.prepend ts tail = .prepend before rest ∧
      rest.next? = some found ∧
      pulled (r.run e (.prepend ts tail)).records = before ++ rest.first ∧
      (r.settle e).value?.bind (fun s => s.1.reads s.2 before) = some s ∧
      expected = s.2.expected ∧ found.kind ∉ s.2.expected := by
  -- Settling the last token and taking this one can fail too, but not with a refusal.
  induction ts generalizing r e with
  | nil =>
    cases tail with
    | token t rest => cases htail
    | failure error =>
      cases h
      cases hd
    | done p =>
      have hrun : r.run e (.prepend [] (.done p)) = _ := run_done r e p
      rw [hrun] at h ⊢
      obtain ⟨s, hs, herror, hpulled⟩ := (inert_settle r e).refuses_of_bind h hd
      by_cases hend : TokenClass.endOfText ∈ s.2.expected
      · rw [if_pos hend] at herror
        cases herror
      · rw [if_neg hend] at herror hpulled
        cases herror
        cases hd
        refine ⟨[], .done p, s, rfl, rfl, hpulled, ?_, rfl, hend⟩
        rw [hs]
        rfl
  | cons t ts ih =>
    have hrun : r.run e (.prepend (t :: ts) tail) = _ := run_token r e t (.prepend ts tail)
    rw [hrun, Traced.emit_bind] at h ⊢
    obtain ⟨s, hs, herror, hpulled⟩ := (inert_settle r e).refuses_of_bind h hd
    have ht := hts t (List.mem_cons_self ..)
    by_cases hkind : t.value.kind ∈ s.2.place.expected
    · obtain ⟨s', hs', herror', hpulled'⟩ :=
        (inert_take s.1 s.2 t ht hkind).refuses_of_bind herror hd
      obtain ⟨before, rest, last, hprepend, hnext, hbefore, hreads, hexpected⟩ :=
        ih (fun u hu => hts u (List.mem_cons_of_mem _ hu)) herror'
      refine ⟨t :: before, rest, last, congrArg (TokenStream.token t) hprepend, hnext, ?_, ?_,
        hexpected⟩
      · exact congrArg (List.cons t) (hpulled.trans (hpulled'.trans hbefore))
      · rw [hs, Option.bind_some, reads_cons, step, hs', Option.bind_some]
        exact hreads
    · rw [take_eq_unexpected s.1 s.2 t hkind] at herror hpulled
      cases herror
      cases hd
      refine ⟨[], .token t (.prepend ts tail), s, rfl, rfl, ?_, ?_, rfl, ?_⟩
      · exact congrArg (List.cons t) hpulled
      · rw [hs]
        rfl
      · rw [Point.expected_eq, ClassSet.mem_ofList]
        exact hkind

end Reader

theorem run_of_readProgram_error {source : String} {d : Diagnostic}
    (h : (readProgram source).result = .error d) :
    (Reader.new.run (.goTo .top) (Scanner.ofText source).stream).result = .error d ∧
      (readProgram source).records =
        (Reader.new.run (.goTo .top) (Scanner.ofText source).stream).records := by
  rw [readProgram_eq] at h ⊢
  cases hrun : (Reader.new.run (.goTo .top) (Scanner.ofText source).stream).result with
  | ok r =>
    rw [Traced.bind_of_ok hrun] at h
    cases h
  | error d' =>
    rw [Traced.bind_of_error hrun] at h ⊢
    cases h
    exact ⟨rfl, rfl⟩

end BlockLang
