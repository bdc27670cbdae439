import BlockLang.Proofs.Stepping

/-!
# Reading a derivation tree

Reading the tokens of a tree and elaborating the tree are the same thing. For
each rule, the steps over the tokens that a tree derives are computed by the
elaboration of the tree, starting from the scopes of the reader, and fail where
it does (`reads_items` for the items of a block). The statement for a whole
program is `reads_program`. Hence a text is read as a program exactly when its
tokens are derived by a tree that elaborates to the program
(`readProgram_eq_ok_iff`).
-/

namespace BlockLang

/-- Tokens with these values, at any positions. -/
def Spells (ts : List (Located Token)) (word : List Token) : Prop :=
  ts.map Located.value = word

theorem spells_nil {ts : List (Located Token)} : Spells ts [] ↔ ts = [] := List.map_eq_nil_iff

theorem spells_cons {ts : List (Located Token)} {t : Token} {word : List Token} :
    Spells ts (t :: word) ↔ ∃ q us, ts = ⟨q, t⟩ :: us ∧ Spells us word := by
  constructor
  · intro h
    obtain ⟨⟨q, t'⟩, us, hts, rfl, hus⟩ := List.map_eq_cons_iff.mp h
    exact ⟨q, us, hts, hus⟩
  · rintro ⟨q, us, rfl, h⟩
    exact congrArg (t :: ·) h

theorem spells_append {ts : List (Located Token)} {u v : List Token} :
    Spells ts (u ++ v) ↔ ∃ us vs, ts = us ++ vs ∧ Spells us u ∧ Spells vs v :=
  List.map_eq_append_iff

namespace Reader

/-! ### Expressions -/

theorem reads_factors (r : Reader) (a : Assignee) (before : Option (Expr × Operator))
    (tail : List (Bool × FactorTree)) (t : Term) {ts : List (Located Token)}
    (h : Spells ts (tail.flatMap factorTokens)) :
    r.reads (.operator a ⟨before, t⟩) ts =
      (elaborateFactors r.scopes t tail).map (fun t => (r, .operator a ⟨before, t⟩)) := by
  induction tail generalizing t ts with
  | nil =>
    obtain rfl := spells_nil.mp h
    rfl
  | cons step tail ih =>
    obtain ⟨divide, f⟩ := step
    obtain ⟨q, us, rfl, hus⟩ := spells_cons.mp h
    obtain ⟨q', vs, rfl, hvs⟩ := spells_cons.mp hus
    rw [reads_cons, step_operator_mul, Option.bind_some, reads_cons, step_operand]
    simp only [elaborateFactors, Option.bind_eq_bind, Option.map_bind, Option.bind_map]
    refine Option.bind_congr ?_
    intro g _
    exact ih (t.push divide g) hvs

theorem reads_term (r : Reader) (a : Assignee) (context : OperandContext)
    (before : Option (Expr × Operator)) (hc : ∀ f, context.supply f = ⟨before, .ofFactor f⟩)
    (t : TermTree) {ts : List (Located Token)} (h : Spells ts t.tokens) :
    r.reads (.operand a context) ts =
      (t.elaborate r.scopes).map (fun t => (r, .operator a ⟨before, t⟩)) := by
  obtain ⟨q, us, rfl, hus⟩ := spells_cons.mp h
  rw [reads_cons, step_operand]
  simp only [TermTree.elaborate, Option.bind_eq_bind, Option.map_bind, Option.bind_map]
  refine Option.bind_congr ?_
  intro g _
  simp only [Function.comp_apply, hc]
  exact reads_factors r a before t.tail (.ofFactor g) hus

/-- The reader with one more assignment, if the value fits. -/
def assigned (r : Reader) (target : Variable) (value : Expr) : Option (Reader × Point) :=
  if Fits target.ty value.ty then
    some ({ r with builder := r.builder.assign target value }, .item)
  else none

theorem reads_terms (r : Reader) (a : Assignee) (tail : List (Bool × TermTree)) (o : Operation)
    {ts : List (Located Token)}
    (h : Spells ts (tail.flatMap termTokens ++ [.mark .semicolon])) :
    r.reads (.operator a o) ts =
      (elaborateTerms r.scopes o.toExpr tail).bind (r.assigned a.target) := by
  induction tail generalizing o ts with
  | nil =>
    obtain ⟨q, us, rfl, hus⟩ := spells_cons.mp h
    obtain rfl := spells_nil.mp hus
    rw [reads_cons, step_operator_semicolon, elaborateTerms, Option.bind_some]
    unfold assigned
    split <;> rfl
  | cons step tail ih =>
    obtain ⟨subtract, t⟩ := step
    rw [List.flatMap_cons, List.append_assoc] at h
    obtain ⟨us, vs, rfl, hus, hvs⟩ := spells_append.mp h
    obtain ⟨q, ws, rfl, hws⟩ := spells_cons.mp hus
    rw [List.cons_append, reads_cons, step_operator_add, Option.bind_some, reads_append,
      reads_term r a _ (some (o.toExpr, addOperator subtract)) (fun _ => rfl) t hws]
    simp only [elaborateTerms, Option.bind_eq_bind, Option.bind_map, Option.bind_assoc]
    refine Option.bind_congr ?_
    intro u _
    exact ih ⟨some (o.toExpr, addOperator subtract), u⟩ hvs

theorem reads_assignment (r : Reader) (a : AssignmentTree) {ts : List (Located Token)}
    (h : Spells ts a.tokens) :
    r.reads .item ts = (a.elaborate r.scopes).map
      (fun x => ({ r with builder := r.builder.assign x.1 x.2 }, .item)) := by
  obtain ⟨q, ts, rfl, hts⟩ := spells_cons.mp h
  obtain ⟨q', ws, rfl, hws⟩ := spells_cons.mp hts
  rw [ExprTree.tokens, List.append_assoc] at hws
  obtain ⟨us, vs, rfl, hus, hvs⟩ := spells_append.mp hws
  rw [reads_cons, step_item_name]
  cases hv : r.scopes.scalar? a.target with
  | none => simp [AssignmentTree.elaborate, hv]
  | some v =>
    rw [Option.map_some, Option.bind_some, reads_cons, step_assignSign, Option.bind_some,
      reads_append, reads_term r _ _ none (fun _ => rfl) a.value.head hus]
    cases ht : a.value.head.elaborate r.scopes with
    | none => simp [AssignmentTree.elaborate, ExprTree.elaborate, hv, ht]
    | some t =>
      rw [Option.map_some, Option.bind_some, reads_terms r _ a.value.tail _ hvs]
      cases he : elaborateTerms r.scopes (.ofTerm t) a.value.tail with
      | none => simp [AssignmentTree.elaborate, ExprTree.elaborate, hv, ht, he, Operation.toExpr]
      | some e =>
        by_cases fits : Fits v.ty e.ty <;>
          simp [AssignmentTree.elaborate, ExprTree.elaborate, hv, ht, he, fits, Operation.toExpr,
            assigned]

/-! ### Declarations -/

theorem reads_sizes (r : Reader) (sizes : List String) (d : Declarator)
    {ts : List (Located Token)} (h : Spells ts (sizes.flatMap sizeTokens)) :
    r.reads (.declarator d) ts = if ∀ size ∈ sizes, Positive size then
      some (r, .declarator { d with sizes := d.sizes ++ sizes }) else none := by
  induction sizes generalizing d ts with
  | nil =>
    obtain rfl := spells_nil.mp h
    simp
  | cons size sizes ih =>
    obtain ⟨q₁, us, rfl, hus⟩ := spells_cons.mp h
    obtain ⟨q₂, vs, rfl, hvs⟩ := spells_cons.mp hus
    obtain ⟨q₃, ws, rfl, hws⟩ := spells_cons.mp hvs
    rw [reads_cons, step_declarator_open, Option.bind_some, reads_cons, step_size]
    by_cases positive : Positive size
    · rw [if_pos positive, Option.bind_some, reads_cons, step_sizeClose, Option.bind_some, ih _ hws]
      simp [positive]
    · simp [positive]

end Reader

/-- Add items at the end of the innermost block. -/
def Builder.add (b : Builder) (items : Block) : Builder :=
  { b with current := b.current ++ items }

namespace Builder

theorem completes_nest (b : Builder) (items : Block) (h : b.enclosing ≠ []) :
    (b.openBlock.add items).completes = none := by
  obtain ⟨program, heading, current, enclosing⟩ := b
  cases enclosing with
  | nil => exact absurd rfl h
  | cons outer rest => rfl

theorem closeBlock_nest (b : Builder) (items : Block) (h : b.enclosing ≠ []) :
    (b.openBlock.add items).closeBlock = b.add (.nest items .empty) := by
  obtain ⟨program, heading, current, enclosing⟩ := b
  cases enclosing with
  | nil => exact absurd rfl h
  | cons outer rest => rfl

end Builder

namespace Reader

/-- The reader after some items of the innermost block. -/
def extend (r : Reader) (items : Block) (scopes : Scopes) : Reader :=
  { r with scopes := scopes, builder := r.builder.add items }

theorem extend_extend (r : Reader) (a b : Block) (s s' : Scopes) :
    (r.extend a s).extend b s' = r.extend (a ++ b) s' := by
  simp [extend, Builder.add, Block.append_assoc]

/-- Items read one after the other are elaborated one after the other. -/
theorem map_extend (r : Reader) (b : Block) (s : Scopes) (rest : ItemTree) :
    (rest.elaborate s).map (fun x => ((r.extend b s).extend x.1 x.2, Point.item)) =
      ((rest.elaborate s).bind fun later => some (b ++ later.1, later.2)).map
        (fun x => (r.extend x.1 x.2, Point.item)) := by
  cases rest.elaborate s with
  | none => rfl
  | some x => exact congrArg (fun x => some (x, Point.item)) (extend_extend ..)

theorem extend_empty (r : Reader) : r.extend .empty r.scopes = r := by
  simp [extend, Builder.add]

/-- Reading the name and the sizes of a variable, up to the mark that ends it. -/
theorem reads_variable (r : Reader) (ty : Ty) (v : VariableTree) {ts : List (Located Token)}
    (h : Spells ts v.tokens) :
    ∃ q, r.reads (.variableName ty) ts =
      if r.scopes.Fresh v.name ∧ ∀ size ∈ v.sizes, Positive size then
        some (r, .declarator ⟨ty, ⟨q, v.name⟩, v.sizes⟩) else none := by
  obtain ⟨q, us, rfl, hus⟩ := spells_cons.mp h
  refine ⟨q, ?_⟩
  rw [reads_cons, step_variableName]
  by_cases fresh : r.scopes.Fresh v.name
  · rw [if_pos fresh, Option.bind_some, reads_sizes r v.sizes _ hus]
    simp [fresh]
  · simp [fresh]

theorem reads_variables (ty : Ty) (more : List VariableTree) (r : Reader) (v : VariableTree)
    {ts : List (Located Token)}
    (h : Spells ts (v.tokens ++ (more.flatMap moreTokens ++ [.mark .semicolon]))) :
    r.reads (.variableName ty) ts =
      (elaborateVariables ty (v :: more) r.scopes).map (fun x => (r.extend x.1 x.2, .item)) := by
  induction more generalizing r v ts with
  | nil =>
    obtain ⟨us, vs, rfl, hus, hvs⟩ := spells_append.mp h
    obtain ⟨q, ws, rfl, hws⟩ := spells_cons.mp hvs
    obtain rfl := spells_nil.mp hws
    obtain ⟨q', hv⟩ := r.reads_variable ty v hus
    rw [reads_append, hv, elaborateVariables]
    split
    · next hok =>
      rw [Option.bind_some, reads_cons, step_declarator_semicolon, declared, if_pos hok.1]
      rfl
    · rfl
  | cons w more ih =>
    obtain ⟨us, vs, rfl, hus, hvs⟩ := spells_append.mp h
    rw [List.flatMap_cons, List.append_assoc] at hvs
    obtain ⟨q, ws, rfl, hws⟩ := spells_cons.mp hvs
    obtain ⟨q', hv⟩ := r.reads_variable ty v hus
    rw [reads_append, hv, elaborateVariables]
    split
    · next hok =>
      rw [Option.bind_some, reads_cons, step_declarator_comma, declared, if_pos hok.1,
        Option.bind_some, ih _ w hws]
      have hscopes : (r.declaring ⟨ty, ⟨q', v.name⟩, v.sizes⟩).scopes = v.declare r.scopes ty := rfl
      rw [hscopes]
      cases elaborateVariables ty (w :: more) (v.declare r.scopes ty) with
      | none => rfl
      | some x => exact congrArg (fun x => some (x, Point.item)) (extend_extend ..)
    · rfl

theorem reads_declaration (r : Reader) (d : DeclarationTree) {ts : List (Located Token)}
    (h : Spells ts d.tokens) :
    r.reads .item ts = (elaborateVariables d.ty (d.first :: d.more) r.scopes).map
      (fun x => (r.extend x.1 x.2, .item)) := by
  obtain ⟨q, us, rfl, hus⟩ := spells_cons.mp h
  rw [List.append_assoc] at hus
  rw [reads_cons, step_item_type, Option.bind_some, reads_variables d.ty d.more r d.first hus]

/-! ### Blocks -/

/-- The number of open blocks, the frames inside the global one and the blocks
under construction agree, within the limit. -/
structure Lockstep (r : Reader) : Prop where
  scopes : r.scopes.inner.length = r.nesting
  builder : r.builder.enclosing.length = r.nesting
  limit : r.nesting ≤ maxNesting

theorem Lockstep.extend {r : Reader} (h : r.Lockstep) (items : Block) {s : Scopes}
    (hs : s.inner.length = r.scopes.inner.length) : (r.extend items s).Lockstep :=
  ⟨hs.trans h.scopes, h.builder, h.limit⟩

theorem lockstep_open {r : Reader} (h : r.Lockstep) (room : r.nesting < maxNesting) :
    Lockstep ⟨r.nesting + 1, r.scopes.openFrame, r.builder.openBlock⟩ :=
  ⟨congrArg (· + 1) h.scopes, congrArg (· + 1) h.builder, room⟩

theorem opened_of_lockstep {r : Reader} (h : r.Lockstep) :
    r.opened = if r.scopes.inner.length < maxNesting then
      some (⟨r.nesting + 1, r.scopes.openFrame, r.builder.openBlock⟩, .item) else none := by
  have hlimit := h.limit
  rw [opened, h.scopes]
  by_cases room : r.nesting = maxNesting
  · rw [if_pos room, if_neg (by omega)]
  · rw [if_neg room, if_pos (by omega)]

/-- The brace that closes an inner block adds it to the items of the block around it. -/
theorem reads_close (r : Reader) (b : Block) (s : Scopes) (h : r.builder.enclosing ≠ [])
    (q : Position) :
    reads ⟨r.nesting + 1, s, r.builder.openBlock.add b⟩ .item [⟨q, .mark .closeBrace⟩] =
      some (r.extend (.nest b .empty) s.closeFrame, .item) := by
  rw [reads_cons, step_item_close, Option.bind_some, reads_nil, Builder.closeBlock_nest _ b h,
    Builder.completes_nest _ b h]
  rfl

/-- Reading the items of a block that is open is elaborating them. -/
theorem reads_items (items : ItemTree) (r : Reader) (hr : r.Lockstep) (hpos : 0 < r.nesting)
    {ts : List (Located Token)} (h : Spells ts items.tokens) :
    r.reads .item ts =
      (items.elaborate r.scopes).map (fun x => (r.extend x.1 x.2, .item)) := by
  have hne : r.scopes.inner ≠ [] := by
    intro hnil
    have hlength := hr.scopes
    rw [hnil, List.length_nil] at hlength
    omega
  induction items generalizing r ts with
  | nil =>
    obtain rfl := spells_nil.mp h
    rw [reads_nil, ItemTree.elaborate, Option.map_some, extend_empty]
  | declare d rest ih =>
    obtain ⟨us, vs, rfl, hus, hvs⟩ := spells_append.mp h
    rw [reads_append, reads_declaration r d hus, ItemTree.elaborate]
    cases hd : elaborateVariables d.ty (d.first :: d.more) r.scopes with
    | none => rfl
    | some x =>
      obtain ⟨b, s⟩ := x
      have hs := elaborateVariables_around hne hd
      have hrest := ih (r.extend b s) (hr.extend b hs.length) hpos hvs (hs.inner_ne_nil hne)
      rw [Option.map_some, Option.bind_some, hrest]
      exact map_extend r b s rest
  | assign a rest ih =>
    obtain ⟨us, vs, rfl, hus, hvs⟩ := spells_append.mp h
    rw [reads_append, reads_assignment r a hus, ItemTree.elaborate]
    cases ha : a.elaborate r.scopes with
    | none => rfl
    | some x =>
      obtain ⟨target, value⟩ := x
      have hrest :=
        ih (r.extend (.assign target value .empty) r.scopes) (hr.extend _ rfl) hpos hvs hne
      rw [Option.map_some, Option.bind_some]
      exact hrest.trans (map_extend r (.assign target value .empty) r.scopes rest)
  | block inner rest ihInner ih =>
    -- Split the word into the brace, the inner items, the brace that closes them, and the rest.
    obtain ⟨xs, vs, rfl, hxs, hvs⟩ := spells_append.mp h
    obtain ⟨q, ys, rfl, hys⟩ := spells_cons.mp hxs
    obtain ⟨us, zs, rfl, hus, hzs⟩ := spells_append.mp hys
    obtain ⟨q', ws, rfl, hws⟩ := spells_cons.mp hzs
    obtain rfl := spells_nil.mp hws
    rw [reads_append, reads_cons, step_item_open, opened_of_lockstep hr, ItemTree.elaborate]
    by_cases room : r.scopes.inner.length < maxNesting
    · rw [if_pos room, if_pos room, Option.bind_some, reads_append,
        ihInner _ (lockstep_open hr (hr.scopes ▸ room)) (Nat.succ_pos _) hus (List.cons_ne_nil _ _)]
      cases hi : inner.elaborate r.scopes.openFrame with
      | none => rfl
      | some x =>
        obtain ⟨b, s⟩ := x
        have hframes := (elaborates_of_elaborate hi).around (List.cons_ne_nil _ _)
        obtain ⟨hclosed, -⟩ := Scopes.sameAround_closeFrame hframes
        have hinner : s.closeFrame.inner.length = r.scopes.inner.length := by rw [hclosed]
        have hbuilder : r.builder.enclosing ≠ [] := by
          intro hnil
          have hlength := hr.builder
          rw [hnil, List.length_nil] at hlength
          omega
        have hclose := reads_close r b s hbuilder q'
        have hrest := ih (r.extend (.nest b .empty) s.closeFrame) (hr.extend _ hinner) hpos hvs
          (hclosed ▸ hne)
        simp only [Option.map_some, Option.bind_some]
        rw [show extend ⟨r.nesting + 1, r.scopes.openFrame, r.builder.openBlock⟩ b s =
          ⟨r.nesting + 1, s, r.builder.openBlock.add b⟩ from rfl, hclose, Option.bind_some, hrest]
        exact map_extend r (.nest b .empty) s.closeFrame rest
    · rw [if_neg room, if_neg room]
      rfl

/-! ### Subprograms -/

/-- The reader between two subprograms: these are complete, and no block is open. -/
def between (program : Program) (scopes : Scopes) : Reader :=
  ⟨0, scopes, ⟨program, .main, .empty, []⟩⟩

theorem reads_body (items : ItemTree) (program : Program) (heading : Heading) (s : Scopes)
    (hs : s.inner = []) {ts : List (Located Token)} (h : Spells ts (braced items.tokens)) :
    reads ⟨0, s, ⟨program, heading, .empty, []⟩⟩ .body ts = (items.elaborateBody s).map
      (fun x => (between (program.complete x.1 heading) x.2, afterBlock (some heading))) := by
  obtain ⟨q, ys, rfl, hys⟩ := spells_cons.mp h
  obtain ⟨us, zs, rfl, hus, hzs⟩ := spells_append.mp hys
  obtain ⟨q', ws, rfl, hws⟩ := spells_cons.mp hzs
  obtain rfl := spells_nil.mp hws
  have hr : Lockstep ⟨0, s, ⟨program, heading, .empty, []⟩⟩ :=
    ⟨by rw [hs, List.length_nil], rfl, Nat.zero_le _⟩
  have hnesting : 0 < maxNesting := by decide
  have room : s.inner.length < maxNesting := by rwa [hs]
  rw [reads_cons, step_body, opened_of_lockstep hr, if_pos room, Option.bind_some, reads_append,
    reads_items items _ (lockstep_open hr hnesting) (Nat.succ_pos _) hus]
  simp only [ItemTree.elaborateBody]
  cases hi : items.elaborate s.openFrame with
  | none => rfl
  | some x => rfl

theorem reads_function (f : FunctionTree) (program : Program) (s : Scopes) (hs : Outermost s)
    {ts : List (Located Token)} (h : Spells ts f.tokens) :
    (between program s).reads .top ts = if s.Fresh f.name then
      (f.body.elaborateBody (s.insert (s.symbol f.name .function f.returns))).map (fun x =>
        (between (program.complete x.1 (.function f.name f.returns)) x.2, .top)) else none := by
  obtain ⟨q₁, us, rfl, hus⟩ := spells_cons.mp h
  obtain ⟨q₂, vs, rfl, hvs⟩ := spells_cons.mp hus
  obtain ⟨q₃, ws, rfl, hws⟩ := spells_cons.mp hvs
  obtain ⟨q₄, xs, rfl, hxs⟩ := spells_cons.mp hws
  rw [reads_cons, step_top_type, Option.bind_some, reads_cons, step_functionName]
  by_cases fresh : s.Fresh f.name
  · have hfresh : (between program s).scopes.Fresh f.name := fresh
    have houter := (hs.declareFunction f).1
    rw [if_pos hfresh, if_pos fresh, Option.bind_some, reads_cons, step_functionOpen,
      Option.bind_some, reads_cons, step_functionClose, Option.bind_some]
    exact reads_body f.body program (.function f.name f.returns) _ houter.inner hxs
  · have hfresh : ¬(between program s).scopes.Fresh f.name := fresh
    rw [if_neg hfresh, if_neg fresh]
    rfl

theorem reads_functions (fs : List FunctionTree) (program : Program) (s : Scopes)
    (hs : Outermost s) {ts : List (Located Token)}
    (h : Spells ts (fs.flatMap FunctionTree.tokens)) :
    (between program s).reads .top ts = (elaborateFunctions fs s).map (fun x =>
      (between { program with functions := program.functions ++ x.1 } x.2, .top)) := by
  induction fs generalizing program s ts with
  | nil =>
    obtain rfl := spells_nil.mp h
    simp [elaborateFunctions]
  | cons f fs ih =>
    obtain ⟨us, vs, rfl, hus, hvs⟩ := spells_append.mp h
    rw [reads_append, reads_function f program s hs hus, elaborateFunctions]
    split
    · cases hb : f.body.elaborateBody (s.insert (s.symbol f.name .function f.returns)) with
      | none => rfl
      | some x =>
        obtain ⟨b, s'⟩ := x
        obtain ⟨houter, -⟩ := outermost_of_elaborateBody (hs.declareFunction f).1 hb
        rw [Option.map_some, Option.bind_some, ih _ s' houter hvs]
        cases he : elaborateFunctions fs s' with
        | none => simp [he]
        | some y => simp [he, Program.complete]
    · rfl

theorem reads_main (main : ItemTree) (program : Program) (s : Scopes) (hs : s.inner = [])
    {ts : List (Located Token)} (h : Spells ts (mainTokens main)) :
    (between program s).reads .top ts = (main.elaborateBody s).map
      (fun x => (between { program with main := x.1 } x.2, .finish)) := by
  obtain ⟨q₁, us, rfl, hus⟩ := spells_cons.mp h
  obtain ⟨q₂, vs, rfl, hvs⟩ := spells_cons.mp hus
  obtain ⟨q₃, ws, rfl, hws⟩ := spells_cons.mp hvs
  rw [reads_cons, step_top_main, Option.bind_some, reads_cons, step_mainOpen, Option.bind_some,
    reads_cons, step_mainClose, Option.bind_some]
  exact reads_body main program .main s hs hws

/-- Reading the tokens of a whole program is elaborating its tree. -/
theorem reads_program (tree : ProgramTree) {ts : List (Located Token)}
    (h : Spells ts tree.tokens) :
    ((new.reads .top ts).bind finished).map (fun r => r.builder.program) = tree.elaborate := by
  obtain ⟨us, vs, rfl, hus, hvs⟩ := spells_append.mp h
  have hnew : new = between .empty .new := rfl
  rw [reads_append, hnew, reads_functions tree.functions .empty .new outermost_new hus,
    ProgramTree.elaborate]
  cases hf : elaborateFunctions tree.functions .new with
  | none => rfl
  | some x =>
    obtain ⟨fs, s⟩ := x
    have houter := outermost_of_elaborateFunctions outermost_new hf
    rw [Option.map_some, Option.bind_some, reads_main tree.main _ s houter.inner hvs]
    cases hm : tree.main.elaborateBody s with
    | none => simp [hm]
    | some y => simp [hm, finished, between, Program.empty]

end Reader

theorem value?_readProgram (source : String) :
    (readProgram source).value? =
      (Reader.new.run (.goTo .top) (Scanner.ofText source).stream).value?.map
        (fun r => r.builder.program) := by
  rw [readProgram_eq, Traced.value?_bind, Option.map_eq_bind]
  rfl

theorem readProgram_eq_ok_iff (source : String) (p : Program) :
    (readProgram source).result = .ok p ↔
      ∃ (ts : List (Located Token)) (ending : Position) (tree : ProgramTree),
        (Scanner.ofText source).stream = .prepend ts (.done ending) ∧
          Spells ts tree.tokens ∧ tree.elaborate = some p := by
  rw [Traced.result_eq_ok_iff, value?_readProgram]
  have hsettle : (Reader.new.settle (.goTo .top)).value? = some (Reader.new, .top) := rfl
  constructor
  · intro h
    obtain ⟨ts, ⟨ending, hstream⟩ | ⟨error, hstream⟩⟩ :=
      TokenStream.exists_prepend (Scanner.ofText source).stream
    · rw [hstream, Reader.value?_run, hsettle, Option.bind_some] at h
      obtain ⟨r, hfinished, rfl⟩ := Option.map_eq_some_iff.mp h
      obtain ⟨s, hreads, hs⟩ := Option.bind_eq_some_iff.mp hfinished
      -- The places passed through are those of an accepted word, which gives the tree.
      have hplace : s.2 = .finish := (Option.ite_none_right_eq_some.mp hs).1
      have haccepts : Control.start.Accepts (ts.map Located.value) :=
        ⟨s.1.control s.2, Reader.reads_control hreads, by rw [hplace]; rfl⟩
      obtain ⟨tree, htokens⟩ := (Control.sentence_iff_accepts _).mpr haccepts
      refine ⟨ts, ending, tree, hstream, htokens.symm, ?_⟩
      rw [← Reader.reads_program tree htokens.symm, hreads, Option.bind_some, hs]
      rfl
    · rw [hstream, Reader.value?_run_failure] at h
      exact absurd h (by simp)
  · rintro ⟨ts, ending, tree, hstream, hspells, htree⟩
    rw [hstream, Reader.value?_run, hsettle, Option.bind_some]
    exact (Reader.reads_program tree hspells).trans htree

end BlockLang
