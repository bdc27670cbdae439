import BlockLang.Proofs.Following
import BlockLang.Proofs.StaticRules

/-!
# The descent reaches no dead end

Each procedure of the descent follows the reader from the place in the grammar at which it is called
to the place after the construct that it reads. The two loops over the terms and the factors share
one place of the reader, and the set of tokens that the outer one expects is never reported: the
inner one stops only before tokens that the outer one knows. Reading the sizes of a variable changes
neither the frames nor the program, so that a name that was new before them is new after them.
Blocks and items call each other; both are followed by one induction on the fuel (`blocksFollow`),
whose invariant is that the three counts of the open blocks agree (`Reader.Tallied`).

Hence a descent with two steps for each character and two more ends as the reader does, and one with
less fuel may at most run out of it (`parse_cases`). No descent reaches a dead end.
-/

namespace BlockLang

open Descent

/-! ### Checks -/

section Checks
variable {α : Type} {lack : Nat} {r : Reader} {i : Input}

theorem follows_check {e : Effect} {c : Except (Located SemanticError) α} {p : α → Point}
    (hsettle : r.settle e = do
      let a ← Traced.check c
      return (r, p a)) :
    Follows lack ⟨r, .pulled e, i⟩ (fun a m => c = .ok a ∧ m = ⟨r, .due (p a), i⟩) (check c) := by
  cases c with
  | error error =>
    refine .refuses [] (.semantic error) rfl ?_
    simp only [Moment.rest, hsettle]
    rfl
  | ok a =>
    refine .goesOn [] a ⟨r, .due (p a), i⟩ rfl ?_ ⟨rfl, rfl⟩
    simp only [Moment.rest, hsettle]
    rfl

theorem follows_check_taken {p : Point} {c : Except (Located SemanticError) α} {e : α → Effect}
    {k : Mark} (hlook : i.look.value = .mark k)
    (htake : r.take p ⟨i.look.position, .mark k⟩ = do
      let a ← Traced.check c
      return (r, e a)) :
    Follows lack ⟨r, .due p, i⟩ (fun a m => c = .ok a ∧ m = ⟨r, .taken (e a), i⟩) (check c) := by
  have hrest := rest_due_of_mark (r := r) (p := p) hlook
  rw [htake] at hrest
  cases c with
  | error error => exact .refuses [] (.semantic error) rfl hrest
  | ok a => exact .goesOn [] a ⟨r, .taken (e a), i⟩ rfl hrest ⟨rfl, rfl⟩

end Checks

namespace Scopes

theorem resolve_stack (s : Scopes) (name : Located String) :
    FrameStack.resolve ⟨s.frames, s.blocks⟩ name = s.resolve name := rfl

theorem checkUndeclared_stack (s : Scopes) (name : Located String) :
    FrameStack.checkUndeclared ⟨s.frames, s.blocks⟩ name = s.checkUndeclared name := by
  rw [s.frames_eq]
  rfl

theorem nextBlock_stack (s : Scopes) :
    FrameStack.nextBlock ⟨s.frames, s.blocks⟩ = s.nextBlock := by
  simp [FrameStack.nextBlock, nextBlock, frames]

theorem push_stack (s : Scopes) :
    FrameStack.push ⟨s.frames, s.blocks⟩ = ⟨s.openFrame.frames, s.openFrame.blocks⟩ := by
  rw [FrameStack.push, nextBlock_stack]
  rfl

theorem frames_insert (s : Scopes) (symbol : Symbol) :
    (s.insert symbol).frames = s.current.insert symbol :: s.frames.tail := by
  rw [frames_eq, current_insert, frames_tail_insert]

end Scopes

/-! ### Expressions -/

section Expressions
variable {r : Reader} {i : Input} {fuel lack : Nat} (a : Assignee)

theorem follows_factor (context : OperandContext) (hfuel : 2 * i.size ≤ fuel + lack) :
    Follows lack ⟨r, .due (.operand a context), i⟩
      (fun f m => Later i r (.due (.operator a (context.supply f))) m) (factor fuel) := by
  refine follows_get ?_
  rw [Moment.parser_look]
  split
  · next lexeme hlook =>
    refine (follows_accept hlook rfl hfuel).bind ?_
    exact fun _ _ hm => follows_pure hm.2
  · next lexeme hlook =>
    refine (follows_accept hlook rfl hfuel).bind ?_
    exact fun _ _ hm => follows_pure hm.2
  · next text hlook =>
    have hname : i.look.value.kind = .name := congrArg Token.kind hlook
    refine (follows_name (e := .readOperand a context) (.inl hname) (fun _ _ => rfl) hfuel).bind ?_
    rintro name m ⟨i', rfl, hlt⟩
    refine follows_get ?_
    rw [Moment.parser, Scopes.resolve_stack]
    refine (follows_check (p := fun v => .operator a (context.supply (.read v))) rfl).bind ?_
    rintro v m ⟨-, rfl⟩
    exact follows_pure ⟨i', rfl, hlt⟩
  · next hinteger hreal hname =>
    refine follows_fail (p := .operand a context) ?_
    intro hmem
    obtain ⟨f, hf⟩ := Token.exists_factor_of_kind hmem
    cases f with
    | integer lexeme => exact hinteger lexeme hf
    | real lexeme => exact hreal lexeme hf
    | name text => exact hname text hf

theorem follows_factors (before : Option (Expr × Operator)) (t : Term)
    (hfuel : 2 * i.size + 1 ≤ fuel + lack) :
    Follows lack ⟨r, .due (.operator a ⟨before, t⟩), i⟩
      (fun t m => Upto i r (.due (.operator a ⟨before, t⟩)) [.plus, .minus, .semicolon] m)
      (factors fuel t) := by
  induction fuel generalizing t i with
  | zero => exact .runsOut [] rfl (by omega)
  | succ fuel ih =>
    -- Both operators go on with one more factor.
    have hfactor : ∀ divide, i.look.value = mulToken divide →
        Follows lack ⟨r, .due (.operator a ⟨before, t⟩), i⟩
          (fun t m => Upto i r (.due (.operator a ⟨before, t⟩)) [.plus, .minus, .semicolon] m)
          (do let _ ← advance fuel; let f ← factor fuel; factors fuel (t.push divide f)) := by
      intro divide hlook
      have htake : r.take (.operator a ⟨before, t⟩) ⟨i.look.position, mulToken divide⟩ =
          .ok (r, .goTo (.operand a (.factor before t divide))) := by
        cases divide <;> rfl
      refine (follows_accept hlook htake (by omega)).bind ?_
      rintro - m ⟨-, i₁, rfl, hlt₁⟩
      refine (follows_factor a (.factor before t divide) (by omega)).bind ?_
      rintro f m ⟨i₂, rfl, hlt₂⟩
      exact (ih (t.push divide f) (by omega)).mono fun _ _ hm => hm.mono (by omega)
    refine follows_get ?_
    rw [Moment.parser_look]
    split
    · next hlook => exact hfactor false hlook
    · next hlook => exact hfactor true hlook
    · next hlook => exact follows_pure (.here hlook (by simp))
    · next hlook => exact follows_pure (.here hlook (by simp))
    · next hlook => exact follows_pure (.here hlook (by simp))
    · next htimes hslash hplus hminus hsemicolon =>
      refine follows_fail (p := .operator a ⟨before, t⟩) ?_
      intro hmem
      rcases Token.operator_of_kind hmem with ⟨divide, h⟩ | ⟨subtract, h⟩ | h
      · cases divide
        · exact htimes h
        · exact hslash h
      · cases subtract
        · exact hplus h
        · exact hminus h
      · exact hsemicolon h

theorem follows_term {context : OperandContext} {before : Option (Expr × Operator)}
    (hsupply : ∀ f, context.supply f = ⟨before, .ofFactor f⟩)
    (hfuel : 2 * i.size + 1 ≤ fuel + lack) :
    Follows lack ⟨r, .due (.operand a context), i⟩
      (fun t m => Upto i r (.due (.operator a ⟨before, t⟩)) [.plus, .minus, .semicolon] m)
      (term fuel) := by
  refine (follows_factor a context (by omega)).bind ?_
  rintro f m ⟨i₁, rfl, hlt⟩
  rw [hsupply f]
  exact (follows_factors a before (.ofFactor f) (by omega)).mono fun _ _ hm => hm.mono (by omega)

/-- The marks that a term ends at are those that the loop over the terms knows. -/
theorem follows_terms (o : Operation)
    (hlook : ∃ k ∈ [Mark.plus, .minus, .semicolon], i.look.value = .mark k)
    (hfuel : 2 * i.size + 1 ≤ fuel + lack) :
    Follows lack ⟨r, .due (.operator a o), i⟩
      (fun e m => ∃ o', e = o'.toExpr ∧ Upto i r (.due (.operator a o')) [.semicolon] m)
      (terms fuel o.toExpr) := by
  induction fuel generalizing o i with
  | zero => exact .runsOut [] rfl (by omega)
  | succ fuel ih =>
    have hterm : ∀ subtract, i.look.value = addToken subtract →
        Follows lack ⟨r, .due (.operator a o), i⟩
          (fun e m => ∃ o', e = o'.toExpr ∧ Upto i r (.due (.operator a o')) [.semicolon] m)
          (do
            let _ ← advance fuel
            let t ← term fuel
            terms fuel (o.toExpr.push (addOperator subtract) t)) := by
      intro subtract hlook
      have htake : r.take (.operator a o) ⟨i.look.position, addToken subtract⟩ =
          .ok (r, .goTo (.operand a (.term o.toExpr (addOperator subtract)))) := by
        cases subtract <;> rfl
      refine (follows_accept hlook htake (by omega)).bind ?_
      rintro - m ⟨-, i₁, rfl, hlt₁⟩
      refine (follows_term a (fun _ => rfl) (by omega)).bind ?_
      rintro t m ⟨i₂, rfl, hle₂, hlook₂⟩
      refine (ih ⟨some (o.toExpr, addOperator subtract), t⟩ hlook₂ (by omega)).mono ?_
      rintro e m ⟨o', he, hm⟩
      exact ⟨o', he, hm.mono (by omega)⟩
    refine follows_get ?_
    rw [Moment.parser_look]
    split
    · next hlook => exact hterm false hlook
    · next hlook => exact hterm true hlook
    · next hlook => exact follows_pure ⟨o, rfl, .here hlook (by simp)⟩
    · next hplus hminus hsemicolon =>
      obtain ⟨k, hk, hlook⟩ := hlook
      simp only [List.mem_cons, List.not_mem_nil, or_false] at hk
      rcases hk with rfl | rfl | rfl
      · exact absurd hlook hplus
      · exact absurd hlook hminus
      · exact absurd hlook hsemicolon

theorem follows_expr (hfuel : 2 * i.size + 1 ≤ fuel + lack) :
    Follows lack ⟨r, .due (.operand a .first), i⟩
      (fun e m => ∃ o, e = o.toExpr ∧ Upto i r (.due (.operator a o)) [.semicolon] m)
      (expr fuel) := by
  refine (follows_term a (fun _ => rfl) hfuel).bind ?_
  rintro t m ⟨i₁, rfl, hle₁, hlook₁⟩
  refine (follows_terms a ⟨none, t⟩ hlook₁ (by omega)).mono ?_
  rintro e m ⟨o, he, hm⟩
  exact ⟨o, he, hm.mono hle₁⟩

end Expressions

/-! ### Items of a block -/

/-- The second reader stands in the same block as the first. -/
structure Reader.Beside (r r' : Reader) : Prop where
  tallied : r'.Tallied
  nesting : r'.nesting = r.nesting
  heading : r'.builder.heading = r.builder.heading

theorem Reader.Beside.trans {r r' r'' : Reader} (h : r.Beside r') (h' : r'.Beside r'') :
    r.Beside r'' :=
  ⟨h'.tallied, h'.nesting.trans h.nesting, h'.heading.trans h.heading⟩

theorem Reader.Tallied.enclosing_ne_nil {r : Reader} (h : r.Tallied) (hopen : 0 < r.nesting) :
    r.builder.enclosing ≠ [] := by
  intro hnil
  have hlength := h.builder
  rw [hnil] at hlength
  exact Nat.ne_of_lt hopen hlength

section Items
variable {r : Reader} {i : Input} {fuel lack : Nat}

theorem follows_assignment {text : String} (hlook : i.look.value = .name text)
    (hfuel : 2 * i.size + 1 ≤ fuel + lack) :
    Follows lack ⟨r, .due .item, i⟩
      (fun _ m => ∃ target value,
        Later i { r with builder := r.builder.assign target value } (.due .item) m)
      (assignment fuel) := by
  have hname : i.look.value.kind = .name := congrArg Token.kind hlook
  refine (follows_name (e := .nameAssignee) (.inl hname) (fun _ _ => rfl) (by omega)).bind ?_
  rintro name m ⟨i₁, rfl, hlt₁⟩
  refine follows_get ?_
  rw [Moment.parser, Scopes.resolve_stack]
  refine (follows_check (p := fun v => .assignSign ⟨name, v⟩) rfl).bind ?_
  rintro target m ⟨-, rfl⟩
  refine (follows_mark (k := .assign) (by decide) (.inr rfl) (fun _ => rfl) (by omega)).bind ?_
  rintro - m ⟨i₂, rfl, hlt₂⟩
  refine (follows_expr ⟨name, target⟩ (by omega)).bind ?_
  rintro value m ⟨o, rfl, i₃, rfl, hle₃, k, hk, hlook₃⟩
  obtain rfl : k = .semicolon := by simpa using hk
  refine (follows_check_taken (e := fun _ => .assign target o.toExpr) hlook₃ rfl).bind ?_
  rintro - m ⟨-, rfl⟩
  have hkind : i₃.look.value.kind = .semicolon := congrArg Token.kind hlook₃
  refine (follows_expect hkind (follows_advance_taken (by simp [hlook₃]) (by omega))).bind ?_
  rintro - m ⟨-, i₄, rfl, hlt₄⟩
  exact .goesOn [] () ⟨_, .due .item, i₄⟩ rfl rfl ⟨target, o.toExpr, i₄, rfl, by omega⟩

section Declarations
variable (m : Moment) (name : Located String) (kind : SymbolKind) (ty : Ty)
  (clash : Located SemanticError → Descent Symbol)

theorem outcome_declare_of_fresh (fresh : m.reader.scopes.Fresh name.value) :
    outcome (declare clash name kind ty) m.parser =
      ⟨[.declared (m.reader.scopes.symbol name.value kind ty)],
        .ok (.ok (m.reader.scopes.symbol name.value kind ty,
          { m.parser with
            stack := ⟨(m.reader.scopes.insert (m.reader.scopes.symbol name.value kind ty)).frames,
              m.reader.scopes.blocks⟩ }))⟩ := by
  have hcheck : m.parser.stack.checkUndeclared name = .ok () := by
    rw [Moment.parser, Scopes.checkUndeclared_stack, Scopes.checkUndeclared_eq, if_pos fresh]
  have hframes : m.parser.stack.frames =
      m.reader.scopes.current :: m.reader.scopes.frames.tail := m.reader.scopes.frames_eq
  rw [Scopes.frames_insert, declare, outcome_get]
  simp only [hcheck, hframes]
  rfl

theorem outcome_declare_of_not_fresh (fresh : ¬m.reader.scopes.Fresh name.value) :
    outcome (declare clash name kind ty) m.parser =
      outcome (clash ⟨name.position, .redeclared name.value⟩) m.parser := by
  have hcheck : m.parser.stack.checkUndeclared name =
      .error ⟨name.position, .redeclared name.value⟩ := by
    rw [Moment.parser, Scopes.checkUndeclared_stack, Scopes.checkUndeclared_eq, if_neg fresh]
  rw [declare, outcome_get]
  simp only [hcheck]

end Declarations

theorem follows_declareFunction (name : Located String) (ty : Ty) :
    Follows lack ⟨r, .pulled (.nameFunction ty name), i⟩
      (fun symbol m =>
        m = ⟨{ r with scopes := r.scopes.insert symbol }, .due (.functionOpen ty name), i⟩)
      (declareFunction name ty) := by
  have hrest : Moment.rest ⟨r, .pulled (.nameFunction ty name), i⟩ =
      (r.settle (.nameFunction ty name) >>= fun s => s.1.ahead s.2 i) := rfl
  rw [Reader.settle, Scopes.declare_eq] at hrest
  by_cases fresh : r.scopes.Fresh name.value
  · rw [if_pos fresh] at hrest
    refine .goesOn _ _ ⟨{ r with scopes := r.scopes.insert _ }, .due (.functionOpen ty name), i⟩
      ((outcome_declare_of_fresh _ name .function ty _ fresh).trans ?_) hrest rfl
    rw [← Scopes.blocks_insert]
    rfl
  · rw [if_neg fresh] at hrest
    exact .refuses [] _ (outcome_declare_of_not_fresh _ name .function ty _ fresh) hrest

theorem follows_declareVariable (d : Declarator) {e : Effect} {k : Mark}
    (hlook : i.look.value = .mark k)
    (htake : r.take (.declarator d) ⟨i.look.position, .mark k⟩ = r.declare d e)
    (fresh : r.scopes.Fresh d.name.value) :
    Follows lack ⟨r, .due (.declarator d), i⟩ (fun _ m => m = ⟨r.declaring d, .taken e, i⟩)
      (declareVariable d.name d.ty d.sizes) := by
  have hrest := rest_due_of_mark (r := r) (p := .declarator d) hlook
  rw [htake, Reader.declare_of_fresh e fresh] at hrest
  have hdeclare := outcome_declare_of_fresh ⟨r, .due (.declarator d), i⟩ d.name
    (Scopes.kindOf d.sizes) d.ty (fun _ => throw (.dead .redeclared)) fresh
  refine .goesOn _ () ⟨r.declaring d, .taken e, i⟩ ((outcome_bind_of_ok hdeclare _).trans ?_) hrest
    rfl
  simp only [Moment.parser, Reader.declaring, Scopes.blocks_insert]
  rfl

theorem follows_sizes (d : Declarator) (hfuel : 2 * i.size + 1 ≤ fuel + lack) :
    Follows lack ⟨r, .due (.declarator d), i⟩
      (fun sizes m =>
        Upto i r (.due (.declarator { d with sizes := sizes })) [.semicolon, .comma] m)
      (sizes fuel d.sizes) := by
  induction fuel generalizing d i with
  | zero => exact .runsOut [] rfl (by omega)
  | succ fuel ih =>
    refine follows_get ?_
    rw [Moment.parser_look]
    split
    · next hlook =>
      refine (follows_accept hlook rfl (by omega)).bind ?_
      rintro - m ⟨-, i₁, rfl, hlt₁⟩
      refine (follows_literal (e := .addSize d) rfl (fun _ _ => rfl) (by omega)).bind ?_
      rintro size m ⟨i₂, rfl, hlt₂⟩
      refine (follows_check (p := fun _ => .sizeClose { d with sizes := d.sizes ++ [size.value] })
        rfl).bind ?_
      rintro - m ⟨-, rfl⟩
      refine (follows_mark (k := .closeBracket) (by decide) (.inr rfl) (fun _ => rfl)
        (by omega)).bind ?_
      rintro - m ⟨i₃, rfl, hlt₃⟩
      exact (ih { d with sizes := d.sizes ++ [size.value] } (by omega)).mono
        fun _ _ hm => hm.mono (by omega)
    · next hlook => exact follows_pure (.here hlook (by simp))
    · next hlook => exact follows_pure (.here hlook (by simp))
    · next hbracket hsemicolon hcomma =>
      refine follows_fail (p := .declarator d) ?_
      intro hmem
      rcases Token.declarator_of_kind hmem with h | h | h
      · exact hsemicolon h
      · exact hcomma h
      · exact hbracket h

/-- A variable has been declared and the comma or semicolon after it taken. -/
def DeclaredUpto (i : Input) (r : Reader) (ty : Ty) (m : Moment) : Prop :=
  ∃ r' i', r.Beside r' ∧ i'.size < i.size ∧
    (i'.look.value = .mark .comma ∧ m = ⟨r', .taken (.goTo (.variableName ty)), i'⟩ ∨
      i'.look.value = .mark .semicolon ∧ m = ⟨r', .taken (.goTo .item), i'⟩)

theorem follows_declarator (ty : Ty) (hr : r.Tallied) (hopen : 0 < r.nesting)
    (hfuel : 2 * i.size + 1 ≤ fuel + lack) :
    Follows lack ⟨r, .due (.variableName ty), i⟩ (fun _ m => DeclaredUpto i r ty m)
      (declarator fuel ty) := by
  refine (follows_name (e := .nameVariable ty) (.inr rfl) (fun _ _ => rfl) (by omega)).bind ?_
  rintro name m ⟨i₁, rfl, hlt₁⟩
  refine follows_get ?_
  rw [Moment.parser, Scopes.checkUndeclared_stack]
  refine (follows_check (p := fun _ => .declarator ⟨ty, name, []⟩) rfl).bind ?_
  rintro _ m ⟨hcheck, rfl⟩
  -- The sizes leave the frame as it is, so that the name is still new after them.
  have fresh : r.scopes.Fresh name.value := by
    rw [Scopes.checkUndeclared_eq] at hcheck
    split at hcheck
    · assumption
    · cases hcheck
  refine (follows_sizes ⟨ty, name, []⟩ (by omega)).bind ?_
  rintro sizes m ⟨i₂, rfl, hle₂, k, hk, hlook⟩
  have hbeside : r.Beside (r.declaring ⟨ty, name, sizes⟩) :=
    ⟨Reader.tallied_declaring hr (hr.enclosing_ne_nil hopen) _, rfl, rfl⟩
  simp only [List.mem_cons, List.not_mem_nil, or_false] at hk
  rcases hk with rfl | rfl
  · refine (follows_declareVariable ⟨ty, name, sizes⟩ hlook rfl fresh).mono ?_
    rintro - m rfl
    exact ⟨_, i₂, hbeside, by omega, .inr ⟨hlook, rfl⟩⟩
  · refine (follows_declareVariable ⟨ty, name, sizes⟩ hlook rfl fresh).mono ?_
    rintro - m rfl
    exact ⟨_, i₂, hbeside, by omega, .inl ⟨hlook, rfl⟩⟩

theorem follows_declarators (ty : Ty) (hopen : 0 < r.nesting) {m : Moment}
    (hm : DeclaredUpto i r ty m) (hfuel : 2 * i.size ≤ fuel + lack) :
    Follows lack m (fun _ m => ∃ r' i', r.Beside r' ∧ i'.size < i.size ∧
      i'.look.value = .mark .semicolon ∧ m = ⟨r', .taken (.goTo .item), i'⟩)
      (declarators fuel ty) := by
  induction fuel generalizing r i m with
  | zero =>
    obtain ⟨r', i', -, hlt, -⟩ := hm
    exact .runsOut [] rfl (by omega)
  | succ fuel ih =>
    obtain ⟨r₁, i₁, hbeside, hlt, ⟨hlook, rfl⟩ | ⟨hlook, rfl⟩⟩ := hm
    · refine follows_get ?_
      simp only [Moment.parser_look, hlook]
      refine (follows_advance_taken (by simp [hlook]) (by omega)).bind ?_
      rintro - m ⟨-, i₂, rfl, hlt₂⟩
      have hopen₁ : 0 < r₁.nesting := hbeside.nesting ▸ hopen
      refine (follows_declarator ty hbeside.tallied hopen₁ (by omega)).bind ?_
      intro _ m hm
      refine (ih hopen₁ hm (by omega)).mono ?_
      rintro - m ⟨r₂, i₃, hbeside₂, hlt₃, hlook₃, rfl⟩
      exact ⟨r₂, i₃, hbeside.trans hbeside₂, by omega, hlook₃, rfl⟩
    · refine follows_get ?_
      simp only [Moment.parser_look, hlook]
      exact follows_pure ⟨r₁, i₁, hbeside, hlt, hlook, rfl⟩

theorem follows_declaration {ty : Ty} (hlook : i.look.value = ty.token) (hr : r.Tallied)
    (hopen : 0 < r.nesting) (hfuel : 2 * i.size + 1 ≤ fuel + lack) :
    Follows lack ⟨r, .due .item, i⟩ (fun _ m => ∃ r', r.Beside r' ∧ Later i r' (.due .item) m)
      (declaration fuel) := by
  have htake : ∀ q (ty : Ty), r.take .item ⟨q, ty.token⟩ = .ok (r, .goTo (.variableName ty)) := by
    intro q ty
    cases ty <;> rfl
  refine (follows_typeWord hlook htake (by omega)).bind ?_
  rintro ty m ⟨i₁, rfl, hlt₁⟩
  refine (follows_declarator ty hr hopen (by omega)).bind ?_
  intro _ m hm
  refine (follows_declarators ty hopen hm (by omega)).bind ?_
  rintro - m ⟨r₂, i₂, hbeside, hlt₂, hlook₂, rfl⟩
  have hkind : i₂.look.value.kind = .semicolon := congrArg Token.kind hlook₂
  refine (follows_expect hkind (follows_advance_taken (by simp [hlook₂]) (by omega))).bind ?_
  rintro - m ⟨-, i₃, rfl, hlt₃⟩
  exact follows_pure ⟨r₂, hbeside, i₃, rfl, by omega⟩

end Items

/-! ### Blocks -/

section Blocks
variable {r : Reader} {i : Input} {fuel lack : Nat}

theorem outcome_openBlock (brace : Position) {σ : Parser} (room : σ.nesting ≠ maxNesting) :
    outcome (Descent.openBlock brace) σ =
      ⟨[.opening σ.stack.frames.length σ.stack.nextBlock], .ok (.ok ((), { σ with
        nesting := σ.nesting + 1, stack := σ.stack.push, builder := σ.builder.openBlock }))⟩ := by
  rw [Descent.openBlock, outcome_get, if_neg room]
  rfl

theorem outcome_openBlock_full (brace : Position) {σ : Parser} (full : σ.nesting = maxNesting) :
    outcome (Descent.openBlock brace) σ = ⟨[], .error (.syntactic ⟨brace, .tooDeep⟩)⟩ := by
  rw [Descent.openBlock, outcome_get, if_pos full]
  rfl

theorem follows_openBlock (brace : Position) :
    Follows lack ⟨r, .pulled (.openBlock brace), i⟩
      (fun _ m => r.nesting ≠ maxNesting ∧
        m = ⟨⟨r.nesting + 1, r.scopes.openFrame, r.builder.openBlock⟩, .due .item, i⟩)
      (Descent.openBlock brace) := by
  have hrest : Moment.rest ⟨r, .pulled (.openBlock brace), i⟩ =
      (r.openBlock brace >>= fun s => s.1.ahead s.2 i) := rfl
  rw [Reader.openBlock] at hrest
  by_cases hfull : r.nesting = maxNesting
  · rw [if_pos hfull] at hrest
    exact .refuses [] _ (outcome_openBlock_full brace hfull) hrest
  · rw [if_neg hfull] at hrest
    refine .goesOn [.opening r.scopes.depth r.scopes.nextBlock] ()
      ⟨⟨r.nesting + 1, r.scopes.openFrame, r.builder.openBlock⟩, .due .item, i⟩ ?_ hrest
      ⟨hfull, rfl⟩
    rw [outcome_openBlock brace hfull]
    simp only [Moment.parser, Scopes.length_frames, Scopes.nextBlock_stack, Scopes.push_stack]

theorem outcome_finishBlock (σ : Parser) :
    outcome finishBlock σ = ⟨σ.builder.completes.toList.map .completed,
      .ok (.ok ((), { σ with builder := σ.builder.closeBlock }))⟩ := by
  rw [finishBlock, outcome_get]
  cases σ.builder.completes <;> rfl

theorem outcome_closeFrame {σ : Parser} {s : Scopes} (hstack : σ.stack = ⟨s.frames, s.blocks⟩)
    (hinner : s.inner ≠ []) :
    outcome closeFrame σ = ⟨[.closing s.closeFrame.depth s.current.block s.current.names],
      .ok (.ok ((), { σ with stack := ⟨s.closeFrame.frames, s.blocks⟩ }))⟩ := by
  obtain ⟨inner, global, blocks⟩ := s
  rw [closeFrame, outcome_get]
  simp only [hstack]
  match inner, hinner with
  | [f], _ => rfl
  | f :: g :: rest, _ =>
    simp [Scopes.frames, Scopes.closeFrame, Scopes.depth]
    rfl

theorem outcome_leaveBlock {σ : Parser} (h : 0 < σ.nesting) :
    outcome leaveBlock σ = ⟨[], .ok (.ok ((), { σ with nesting := σ.nesting - 1 }))⟩ := by
  obtain ⟨n, hn⟩ := Nat.exists_eq_succ_of_ne_zero (Nat.ne_of_gt h)
  rw [leaveBlock, outcome_get]
  simp only [hn]
  rfl

theorem closeBlock_eq (r : Reader) :
    r.closeBlock = ⟨r.builder.completes.toList.map .completed ++
      [.closing r.scopes.closeFrame.depth r.scopes.current.block r.scopes.current.names],
      .ok (⟨r.nesting - 1, r.scopes.closeFrame, r.builder.closeBlock⟩,
        Reader.afterBlock r.builder.completes)⟩ := by
  rw [Reader.closeBlock]
  cases r.builder.completes <;> rfl

theorem follows_closeBlock (hr : r.Tallied) (hopen : 0 < r.nesting) :
    Follows lack ⟨r, .pulled .closeBlock, i⟩
      (fun _ m => m = ⟨⟨r.nesting - 1, r.scopes.closeFrame, r.builder.closeBlock⟩,
        .due (Reader.afterBlock r.builder.completes), i⟩)
      Descent.closeBlock := by
  have hinner : r.scopes.inner ≠ [] := by
    rw [Ne, hr.inner_eq_nil_iff]
    exact hr.enclosing_ne_nil hopen
  have hrest : Moment.rest ⟨r, .pulled .closeBlock, i⟩ =
      (r.closeBlock >>= fun s => s.1.ahead s.2 i) := rfl
  rw [closeBlock_eq] at hrest
  refine .goesOn _ () ⟨⟨r.nesting - 1, r.scopes.closeFrame, r.builder.closeBlock⟩,
    .due (Reader.afterBlock r.builder.completes), i⟩ ?_ hrest rfl
  rw [Descent.closeBlock, outcome_bind_of_ok (outcome_finishBlock _),
    outcome_bind_of_ok (outcome_closeFrame (s := r.scopes) rfl hinner), outcome_leaveBlock hopen]
  rfl

end Blocks

theorem Builder.completes_congr {b b' : Builder} (hdepth : b.enclosing.length = b'.enclosing.length)
    (hheading : b.heading = b'.heading) : b.completes = b'.completes := by
  obtain ⟨program, heading, current, enclosing⟩ := b
  obtain ⟨program', heading', current', enclosing'⟩ := b'
  obtain rfl : heading = heading' := hheading
  match enclosing, enclosing', hdepth with
  | [], [], _ => rfl
  | [_], [_], _ => rfl
  | _ :: _ :: _, _ :: _ :: _, _ => rfl

theorem Builder.completes_openBlock {b : Builder} (h : b.enclosing ≠ []) :
    b.openBlock.completes = none := by
  obtain ⟨outer, rest, hcons⟩ := List.exists_cons_of_ne_nil h
  simp [openBlock, completes, hcons]

/-- The descent follows the reader through a block that may begin here. A block inside another one
leaves the reader beside where it was; the body of a subprogram leaves it outside. -/
def BlocksFollow (fuel lack : Nat) : Prop :=
  ∀ (r : Reader) (i : Input) (p : Point), r.Tallied →
    (i.look.value.kind = .openBrace ∨ p.expected = .ofList [.openBrace]) →
    (∀ q, r.take p ⟨q, .mark .openBrace⟩ = .ok (r, .openBlock q)) → 2 * i.size + 1 ≤ fuel + lack →
    Follows lack ⟨r, .due p, i⟩
      (fun _ m => ∃ r', r'.Tallied ∧ r'.nesting = r.nesting ∧
        (0 < r.nesting → r'.builder.heading = r.builder.heading) ∧
        Later i r' (.due (Reader.afterBlock r.builder.openBlock.completes)) m)
      (block fuel)

def ItemsFollow (fuel lack : Nat) : Prop :=
  ∀ (r : Reader) (i : Input), r.Tallied → 0 < r.nesting → 2 * i.size + 2 ≤ fuel + lack →
    Follows lack ⟨r, .due .item, i⟩
      (fun _ m => ∃ r', r.Beside r' ∧ Upto i r' (.due .item) [.closeBrace] m) (items fuel)

theorem BlocksFollow.of_items {fuel lack : Nat} (h : ItemsFollow fuel lack) :
    BlocksFollow (fuel + 1) lack := by
  intro r i p hr hexpected htake hfuel
  refine (follows_mark (k := .openBrace) (by decide) hexpected htake (by omega)).bind ?_
  rintro brace m ⟨i₁, rfl, hlt₁⟩
  refine (follows_openBlock brace.position).bind ?_
  rintro - m ⟨room, rfl⟩
  refine (h _ i₁ (Reader.tallied_open hr room) (Nat.succ_pos _) (by omega)).bind ?_
  rintro - m ⟨r₂, hbeside, i₂, rfl, hle₂, k, hk, hlook⟩
  obtain rfl : k = .closeBrace := by simpa using hk
  refine (follows_accept hlook rfl (by omega)).bind ?_
  rintro - m ⟨-, i₃, rfl, hlt₃⟩
  have hr₂ := hbeside.tallied
  have hnesting : r₂.nesting = r.nesting + 1 := hbeside.nesting
  have hopen : 0 < r₂.nesting := by omega
  have hcompletes : r₂.builder.completes = r.builder.openBlock.completes := by
    refine Builder.completes_congr ?_ hbeside.heading
    rw [hr₂.builder, hnesting, ← hr.builder]
    rfl
  refine (follows_closeBlock hr₂ hopen).mono ?_
  rintro - m rfl
  rw [hcompletes]
  refine ⟨_, Reader.tallied_close hr₂ (hr₂.enclosing_ne_nil hopen), by simp [hnesting], ?_, i₃, rfl,
    by omega⟩
  intro hinside
  rw [Builder.completes_openBlock (hr.enclosing_ne_nil hinside)] at hcompletes
  exact (Builder.closeBlock_of_not_completes hcompletes).1.trans hbeside.heading

theorem ItemsFollow.of_item {fuel lack : Nat} {r : Reader} {i : Input} {x : Descent Unit}
    (hx : Follows lack ⟨r, .due .item, i⟩
      (fun _ m => ∃ r', r.Beside r' ∧ Later i r' (.due .item) m) x)
    (h : ItemsFollow fuel lack) (hopen : 0 < r.nesting) (hfuel : 2 * i.size + 1 ≤ fuel + lack) :
    Follows lack ⟨r, .due .item, i⟩
      (fun _ m => ∃ r', r.Beside r' ∧ Upto i r' (.due .item) [.closeBrace] m)
      (do x; items fuel) := by
  refine hx.bind ?_
  rintro - m ⟨r₁, hbeside₁, i₁, rfl, hlt₁⟩
  refine (h r₁ i₁ hbeside₁.tallied (hbeside₁.nesting ▸ hopen) (by omega)).mono ?_
  rintro - m ⟨r₂, hbeside₂, hm⟩
  exact ⟨r₂, hbeside₁.trans hbeside₂, hm.mono (by omega)⟩

theorem ItemsFollow.succ {fuel lack : Nat} (hblocks : BlocksFollow fuel lack)
    (hitems : ItemsFollow fuel lack) : ItemsFollow (fuel + 1) lack := by
  intro r i hr hopen hfuel
  have hdeclaration : ∀ ty : Ty, i.look.value = ty.token → Follows lack ⟨r, .due .item, i⟩
      (fun _ m => ∃ r', r.Beside r' ∧ Upto i r' (.due .item) [.closeBrace] m)
      (do declaration fuel; items fuel) := fun ty hlook =>
    hitems.of_item (follows_declaration hlook hr hopen (by omega)) hopen (by omega)
  refine follows_get ?_
  rw [Moment.parser_look]
  split
  · next hlook =>
    refine hitems.of_item ?_ hopen (by omega)
    have hkind : i.look.value.kind = .openBrace := congrArg Token.kind hlook
    refine (hblocks r i .item hr (.inl hkind) (fun _ => rfl) (by omega)).mono ?_
    rintro - m ⟨r', hr', hnesting, hheading, hm⟩
    rw [Builder.completes_openBlock (hr.enclosing_ne_nil hopen)] at hm
    exact ⟨r', ⟨hr', hnesting, hheading hopen⟩, hm⟩
  · next hlook =>
    exact follows_pure ⟨r, ⟨hr, rfl, rfl⟩, .here hlook (by simp)⟩
  · next hlook => exact hdeclaration .int hlook
  · next hlook => exact hdeclaration .real hlook
  · next text hlook =>
    refine hitems.of_item ?_ hopen (by omega)
    refine (follows_assignment hlook (by omega)).mono ?_
    rintro - m ⟨target, value, hm⟩
    exact ⟨_, ⟨hr.add (hr.enclosing_ne_nil hopen) rfl, rfl, rfl⟩, hm⟩
  · next hopenBrace hcloseBrace hint hdouble hname =>
    refine follows_fail (p := .item) ?_
    intro hmem
    rcases Token.item_of_kind hmem with h | h | ⟨ty, h⟩ | ⟨text, h⟩
    · exact hopenBrace h
    · exact hcloseBrace h
    · cases ty
      · exact hint h
      · exact hdouble h
    · exact hname text h

theorem blocksFollow (fuel lack : Nat) : BlocksFollow fuel lack ∧ ItemsFollow fuel lack := by
  induction fuel with
  | zero =>
    constructor
    · intro r i p hr hexpected htake hfuel
      exact .runsOut [] rfl (by omega)
    · intro r i hr hopen hfuel
      exact .runsOut [] rfl (by omega)
  | succ fuel ih => exact ⟨.of_items ih.2, .succ ih.1 ih.2⟩

/-! ### Programs -/

/-- No block is open. -/
structure Reader.Outside (r : Reader) : Prop extends Tallied r where
  nesting_eq : r.nesting = 0

section Programs
variable {r : Reader} {i : Input} {fuel lack : Nat}

theorem Reader.Outside.start (h : r.Outside) (heading : Heading) :
    Outside { r with builder := r.builder.start heading } :=
  ⟨⟨⟨h.scopes, h.builder, h.limit⟩, h.outermost, h.path, h.last⟩, h.nesting_eq⟩

theorem follows_beginBody {e : Effect} {record : Record} (heading : Heading)
    (hsettle : r.settle e =
      ⟨[record], .ok ({ r with builder := r.builder.start heading }, .body)⟩) :
    Follows lack ⟨r, .pulled e, i⟩
      (fun _ m => m = ⟨{ r with builder := r.builder.start heading }, .due .body, i⟩)
      (beginBody record heading) := by
  have hrest : Moment.rest ⟨r, .pulled e, i⟩ = (r.settle e >>= fun s => s.1.ahead s.2 i) := rfl
  rw [hsettle] at hrest
  exact .goesOn [record] () ⟨_, .due .body, i⟩ rfl hrest rfl

/-- The body of a subprogram, from its heading. -/
theorem follows_body (h : r.Outside) (heading : Heading) (hfuel : 2 * i.size + 1 ≤ fuel + lack) :
    Follows lack ⟨{ r with builder := r.builder.start heading }, .due .body, i⟩
      (fun _ m => ∃ r', r'.Outside ∧ Later i r' (.due (Reader.afterBlock (some heading))) m)
      (block fuel) := by
  have hstart := h.start heading
  have hblock := (blocksFollow fuel lack).1
  refine (hblock _ i .body hstart.toTallied (.inr rfl) (fun _ => rfl) hfuel).mono ?_
  rintro - m ⟨r', hr', hnesting, -, hm⟩
  have hnil : r.builder.enclosing = [] :=
    List.eq_nil_of_length_eq_zero (h.builder.trans h.nesting_eq)
  have hcompletes : (r.builder.start heading).openBlock.completes = some heading := by
    simp [Builder.start, Builder.openBlock, Builder.completes, hnil]
  rw [hcompletes] at hm
  exact ⟨r', ⟨hr', hnesting.trans h.nesting_eq⟩, hm⟩

theorem follows_function {ty : Ty} (hlook : i.look.value = ty.token) (h : r.Outside)
    (hfuel : 2 * i.size + 1 ≤ fuel + lack) :
    Follows lack ⟨r, .due .top, i⟩ (fun _ m => ∃ r', r'.Outside ∧ Later i r' (.due .top) m)
      (function fuel) := by
  have htake : ∀ q (ty : Ty), r.take .top ⟨q, ty.token⟩ = .ok (r, .goTo (.functionName ty)) := by
    intro q ty
    cases ty <;> rfl
  refine (follows_typeWord hlook htake (by omega)).bind ?_
  rintro ty m ⟨i₁, rfl, hlt₁⟩
  refine (follows_name (e := .nameFunction ty) (.inr rfl) (fun _ _ => rfl) (by omega)).bind ?_
  rintro name m ⟨i₂, rfl, hlt₂⟩
  refine (follows_declareFunction name ty).bind ?_
  rintro symbol m rfl
  have hr : Reader.Outside { r with scopes := r.scopes.insert symbol } :=
    ⟨h.toTallied.insert symbol, h.nesting_eq⟩
  refine (follows_mark (k := .openParen) (by decide) (.inr rfl) (fun _ => rfl) (by omega)).bind ?_
  rintro - m ⟨i₃, rfl, hlt₃⟩
  refine (follows_mark (k := .closeParen) (by decide) (.inr rfl) (fun _ => rfl) (by omega)).bind ?_
  rintro - m ⟨i₄, rfl, hlt₄⟩
  refine (follows_beginBody (.function name.value ty) rfl).bind ?_
  rintro - m rfl
  refine (follows_body hr (.function name.value ty) (by omega)).mono ?_
  rintro - m ⟨r', hr', hm⟩
  exact ⟨r', hr', hm.mono (by omega)⟩

theorem follows_functions (h : r.Outside) (hfuel : 2 * i.size + 2 ≤ fuel + lack) :
    Follows lack ⟨r, .due .top, i⟩
      (fun _ m => ∃ r' i', r'.Outside ∧ i'.size ≤ i.size ∧ i'.look.value = .keyword .main ∧
        m = ⟨r', .due .top, i'⟩)
      (functions fuel) := by
  induction fuel generalizing r i with
  | zero => exact .runsOut [] rfl (by omega)
  | succ fuel ih =>
    have hfunction : ∀ ty : Ty, i.look.value = ty.token → Follows lack ⟨r, .due .top, i⟩
        (fun _ m => ∃ r' i', r'.Outside ∧ i'.size ≤ i.size ∧ i'.look.value = .keyword .main ∧
          m = ⟨r', .due .top, i'⟩)
        (do function fuel; functions fuel) := by
      intro ty hlook
      refine (follows_function hlook h (by omega)).bind ?_
      rintro - m ⟨r₁, h₁, i₁, rfl, hlt₁⟩
      refine (ih h₁ (by omega)).mono ?_
      rintro - m ⟨r₂, i₂, h₂, hle₂, hlook₂, rfl⟩
      exact ⟨r₂, i₂, h₂, by omega, hlook₂, rfl⟩
    refine follows_get ?_
    rw [Moment.parser_look]
    split
    · next hlook => exact hfunction .int hlook
    · next hlook => exact hfunction .real hlook
    · next hlook => exact follows_pure ⟨r, i, h, Nat.le_refl _, hlook, rfl⟩
    · next hint hdouble hmain =>
      refine follows_fail (p := .top) ?_
      intro hmem
      rcases Token.top_of_kind hmem with ⟨ty, hlook⟩ | hlook
      · cases ty
        · exact hint hlook
        · exact hdouble hlook
      · exact hmain hlook

theorem follows_mainBlock (hlook : i.look.value = .keyword .main) (h : r.Outside)
    (hfuel : 2 * i.size + 1 ≤ fuel + lack) :
    Follows lack ⟨r, .due .top, i⟩ (fun _ m => ∃ r', Later i r' (.due .finish) m)
      (mainBlock fuel) := by
  have hkind : i.look.value.kind = .main := congrArg Token.kind hlook
  refine (follows_expect hkind (follows_accept (e := .goTo .mainOpen) hlook rfl
    (by omega))).bind ?_
  rintro - m ⟨-, i₁, rfl, hlt₁⟩
  refine (follows_mark (k := .openParen) (by decide) (.inr rfl) (fun _ => rfl) (by omega)).bind ?_
  rintro - m ⟨i₂, rfl, hlt₂⟩
  refine (follows_mark (k := .closeParen) (by decide) (.inr rfl) (fun _ => rfl) (by omega)).bind ?_
  rintro - m ⟨i₃, rfl, hlt₃⟩
  refine (follows_beginBody .main rfl).bind ?_
  rintro - m rfl
  refine (follows_body h .main (by omega)).mono ?_
  rintro - m ⟨r', -, hm⟩
  exact ⟨r', hm.mono (by omega)⟩

theorem follows_program (h : r.Outside) (hfuel : 2 * i.size + 2 ≤ fuel + lack) :
    Follows lack ⟨r, .due .top, i⟩
      (fun _ m => ∃ r' i', i'.look.value = .endOfText ∧ m = ⟨r', .due .finish, i'⟩)
      (program fuel) := by
  refine (follows_functions h hfuel).bind ?_
  rintro - m ⟨r₁, i₁, h₁, hle₁, hlook₁, rfl⟩
  refine (follows_mainBlock hlook₁ h₁ (by omega)).bind ?_
  rintro - m ⟨r₂, i₂, rfl, hlt₂⟩
  refine follows_get ?_
  rw [Moment.parser_look]
  split
  · next hlook => exact follows_pure ⟨r₂, i₂, hlook, rfl⟩
  · next hlook =>
    refine follows_fail (p := .finish) ?_
    intro hmem
    exact hlook (Token.eq_endOfText_of_kind (List.mem_singleton.mp hmem))

end Programs

/-- The moment before the first token is asked for. -/
def Moment.first (cs : List (Located Char)) : Moment :=
  ⟨.new, .taken (.goTo .top), ⟨⟨.start, .endOfText⟩, .ofStream cs, .ofStream cs,
    Lexer.mirrors_ofStream cs⟩⟩

theorem follows_first {cs : List (Located Char)} {fuel lack : Nat}
    (hfuel : 2 * cs.length + 2 ≤ fuel + lack) :
    Follows lack (.first cs)
      (fun _ m => ∃ r' i', i'.look.value = .endOfText ∧ m = ⟨r', .due .finish, i'⟩)
      (do let _ ← advance fuel; program fuel) := by
  refine (follows_advance hfuel).bind ?_
  rintro - m ⟨-, i₁, rfl, hle₁⟩
  have hle : i₁.size ≤ cs.length := hle₁
  exact follows_program ⟨Reader.tallied_new, rfl⟩ (by omega)

/-- A descent reads what the reader reads, unless it has less fuel than two steps for each
character and two more, and runs out of it. -/
theorem parse_cases (cs : List (Located Char)) (fuel : Nat) :
    parse fuel cs = (do
      let p ← (Scanner.ofStream cs).program
      return .ok p) ∨
    fuel < 2 * cs.length + 2 ∧ (parse fuel cs).result = .ok (.error .unfinished) := by
  have hprogram : (Scanner.ofStream cs).program =
      ((Moment.first cs).rest >>= fun r => pure r.builder.program) := rfl
  have hparse : parse fuel cs =
      (outcome (do let _ ← advance fuel; program fuel) (Moment.first cs).parser >>= fun result =>
        pure (result.map (fun x => x.2.builder.program))) := rfl
  have hlack : 2 * cs.length + 2 ≤ fuel + (2 * cs.length + 2 - fuel) := by omega
  cases follows_first hlack with
  | refuses records d hx hm =>
    left
    rw [hparse, hprogram, hx, hm]
    rfl
  | goesOn records a m' hx hm hq =>
    left
    obtain ⟨r, i, hlook, rfl⟩ := hq
    have hfinish : TokenClass.endOfText ∈ Point.finish.expected :=
      (Reader.endOfText_mem_expected _).mpr rfl
    have hrest : Moment.rest ⟨r, .due .finish, i⟩ = .ok r :=
      (r.ahead_of_endOfText .finish hlook).trans (if_pos hfinish)
    rw [hrest] at hm
    rw [hparse, hprogram, hx, hm]
    simp [Traced.ok]
    rfl
  | runsOut records hx hlack =>
    right
    rw [hparse, hx]
    exact ⟨by omega, rfl⟩

/-- Whatever the text, a descent with enough fuel ends with the program or the refusal of the
reader. And whatever the fuel, the lexer never releases a state that holds no token, a token of the
class of the names or the literals is a name or a literal, there is always a frame to declare a name
in, no block closes while none is open, and no variable is refused by the second test of its
name. -/
theorem parse_not_dead (cs : List (Located Char)) (fuel : Nat) :
    (2 * cs.length + 2 ≤ fuel → parse fuel cs = do
      let p ← (Scanner.ofStream cs).program
      return .ok p) ∧
    ∀ e, (parse fuel cs).result ≠ .ok (.error (.dead e)) := by
  rcases parse_cases cs fuel with hparse | ⟨hshort, hresult⟩
  · refine ⟨fun _ => hparse, ?_⟩
    intro e h
    rw [hparse] at h
    cases hprogram : (Scanner.ofStream cs).program.result with
    | ok p =>
      rw [Traced.bind_of_ok hprogram] at h
      cases h
    | error d =>
      rw [Traced.bind_of_error hprogram] at h
      cases h
  · refine ⟨fun henough => absurd henough (by omega), ?_⟩
    intro e h
    rw [hresult] at h
    cases h

theorem parse_not_dead_hiding :
    (parse 60 (locatedChars "main()\x7bint a[2];\x7bint a;a=7;\x7d\x7d")).result =
      .ok (.ok ⟨[], .declare ⟨⟨"a", 0, .int⟩, ["2"]⟩ (.nest (.declare ⟨⟨"a", 1, .int⟩, []⟩
        (.assign ⟨"a", 1, .int⟩ (.ofTerm (.ofFactor (.integer "7"))) .empty)) .empty)⟩) := by
  have hparse := (parse_not_dead
    (locatedChars "main()\x7bint a[2];\x7bint a;a=7;\x7d\x7d") 60).1 (by decide +kernel)
  have hprogram : (Scanner.ofStream
      (locatedChars "main()\x7bint a[2];\x7bint a;a=7;\x7d\x7d")).program.result =
      .ok ⟨[], .declare ⟨⟨"a", 0, .int⟩, ["2"]⟩ (.nest (.declare ⟨⟨"a", 1, .int⟩, []⟩
        (.assign ⟨"a", 1, .int⟩ (.ofTerm (.ofFactor (.integer "7"))) .empty)) .empty)⟩ :=
    Traced.result_eq_ok_iff.mpr (by decide +kernel)
  rw [hparse, Traced.bind_of_ok hprogram]
  rfl

end BlockLang
