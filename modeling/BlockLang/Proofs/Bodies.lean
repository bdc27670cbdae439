import BlockLang.Compile
import BlockLang.Proofs.Acceptance
import BlockLang.Proofs.Binding
import BlockLang.Proofs.RoundTrip

/-!
# The bodies of an accepted program

Each body of an accepted program is elaborated from items of the text, in scopes that hold
functions only (`exists_items_of_readProgram`). What holds of every such body, its binding among
it, therefore holds of every body of an accepted program. Its words are spelled as the scanner
yields them (`wellSpelled_tokens`). The declarations and the uses of variables of a body are
listed here in the order of the text.
-/

namespace BlockLang

/-! ### Accepted texts -/

theorem compile_eq_ok_iff (source : String) (target : Target) (text : String) :
    (compile source target).result = .ok text ↔
      ∃ p, (readProgram source).result = .ok p ∧ p.list target = text := by
  have hvalue : (compile source target).value? =
      (readProgram source).value?.bind (fun p => some (p.list target)) := by
    rw [compile, Traced.value?_bind]
    rfl
  rw [Traced.result_eq_ok_iff, hvalue, Option.bind_eq_some_iff]
  simp only [Traced.result_eq_ok_iff, Option.some.injEq]

/-! ### Elaborated bodies -/

theorem exists_body_of_elaborateFunctions {fs : List FunctionTree} {s s' : Scopes}
    {gs : List Function} (hs : Outermost s) (h : elaborateFunctions fs s = some (gs, s'))
    {g : Function} (hg : g ∈ gs) :
    ∃ f ∈ fs, ∃ s₁ s₂, Outermost s₁ ∧ f.body.elaborateBody s₁ = some (g.body, s₂) := by
  induction fs generalizing s gs with
  | nil =>
    cases h
    cases hg
  | cons f fs ih =>
    obtain ⟨body, s₁, later, hbody, hlater, rfl⟩ := elaborateFunctions_cons_eq_some h
    have houter := (hs.declareFunction f).1
    rcases List.mem_cons.mp hg with rfl | hg
    · exact ⟨f, List.mem_cons_self .., _, s₁, houter, hbody⟩
    · obtain ⟨f', hf', hrest⟩ := ih (outermost_of_elaborateBody houter hbody).1 hlater hg
      exact ⟨f', List.mem_cons_of_mem _ hf', hrest⟩

theorem exists_items_of_elaborate {tree : ProgramTree} {p : Program} (h : tree.elaborate = some p)
    {body : Block} (hbody : body ∈ p.bodies) :
    ∃ items ∈ tree.bodies, ∃ s s', Outermost s ∧ items.elaborateBody s = some (body, s') := by
  obtain ⟨⟨functions, s⟩, hfunctions, hrest⟩ := Option.bind_eq_some_iff.mp h
  obtain ⟨⟨main, s'⟩, hmain, heq⟩ := Option.bind_eq_some_iff.mp hrest
  cases heq
  rcases List.mem_append.mp hbody with hfunction | hlast
  · obtain ⟨g, hg, rfl⟩ := List.mem_map.mp hfunction
    obtain ⟨f, hf, s₁, s₂, houter, helaborate⟩ :=
      exists_body_of_elaborateFunctions outermost_new hfunctions hg
    exact ⟨f.body, List.mem_append_left _ (List.mem_map_of_mem hf), s₁, s₂, houter, helaborate⟩
  · rw [List.mem_singleton.mp hlast]
    exact ⟨tree.main, List.mem_append_right _ (List.mem_singleton.mpr rfl), s, s',
      outermost_of_elaborateFunctions outermost_new hfunctions, hmain⟩

section Accepted
variable {source : String} {p : Program}

theorem exists_tree_of_readProgram (h : (readProgram source).result = .ok p) :
    ∃ tree : ProgramTree, (∀ t ∈ tree.tokens, t.WellSpelled) ∧ tree.elaborate = some p := by
  obtain ⟨ts, ending, tree, hstream, hspells, helaborate⟩ := (readProgram_eq_ok_iff source p).mp h
  refine ⟨tree, fun t ht => ?_, helaborate⟩
  rw [← hspells] at ht
  obtain ⟨t', ht', rfl⟩ := List.mem_map.mp ht
  exact Scanner.wellSpelled_of_stream hstream t' ht'

theorem exists_items_of_readProgram (h : (readProgram source).result = .ok p) {body : Block}
    (hbody : body ∈ p.bodies) :
    ∃ items s s', Outermost s ∧ (∀ t ∈ ItemTree.tokens items, t.WellSpelled) ∧
      items.elaborateBody s = some (body, s') := by
  obtain ⟨tree, hspelled, helaborate⟩ := exists_tree_of_readProgram h
  obtain ⟨items, hitems, s, s', houter, heq⟩ := exists_items_of_elaborate helaborate hbody
  exact ⟨items, s, s', houter, fun t ht => hspelled t (mem_tokens_of_body hitems ht), heq⟩

theorem wellBound_bodies (h : (readProgram source).result = .ok p) :
    ∀ body ∈ p.bodies, body.WellBound := by
  intro body hbody
  obtain ⟨items, s, s', houter, -, heq⟩ := exists_items_of_readProgram h hbody
  exact wellBound_of_elaborateBody houter heq

end Accepted

/-! ### The words of an accepted program -/

theorem wellSpelled_splitFrom {ty : Option Ty} {ts : List Token} (h : ∀ t ∈ ts, t.WellSpelled) :
    ∀ t ∈ splitFrom ty ts, t.WellSpelled := by
  induction ts generalizing ty with
  | nil => simp [splitFrom]
  | cons t ts ih =>
    obtain ⟨ht, hts⟩ := List.forall_mem_cons.mp h
    rw [splitFrom, List.forall_mem_append]
    refine ⟨?_, ih hts⟩
    unfold splitToken
    split
    · next ty' => cases ty' <;> simp [Ty.token, Token.WellSpelled]
    · exact List.forall_mem_singleton.mpr ht

theorem wellSpelled_tokens {source : String} {p : Program}
    (h : (readProgram source).result = .ok p) : ∀ t ∈ p.tokens, t.WellSpelled := by
  obtain ⟨tree, hspelled, helaborate⟩ := exists_tree_of_readProgram h
  rw [← split_program helaborate]
  exact wellSpelled_splitFrom hspelled

theorem mem_tokens_of_mem_bodies {p : Program} {body : Block} (hbody : body ∈ p.bodies) {t : Token}
    (ht : t ∈ body.tokens) : t ∈ p.tokens := by
  have hbraced : t ∈ braced body.tokens :=
    List.mem_cons_of_mem _ (List.mem_append_left _ ht)
  rcases List.mem_append.mp hbody with hfunction | hmain
  · obtain ⟨f, hf, rfl⟩ := List.mem_map.mp hfunction
    refine List.mem_append_left _ (List.mem_flatMap.mpr ⟨f, hf, ?_⟩)
    simp [Function.tokens, hbraced]
  · rw [List.mem_singleton.mp hmain] at hbraced
    simp [Program.tokens, hbraced]

/-- An expression is a factor, and then factors that each follow an operator. -/
theorem Expr.exists_factors (e : Expr) : ∃ (f : Factor) (steps : List (Operator × Factor)),
    e.factors = (none, f) :: steps.map (fun step => (some step.1, step.2)) := by
  refine ⟨e.head.head, e.head.tail ++
    e.tail.flatMap (fun step => (step.1, step.2.head) :: step.2.tail), ?_⟩
  simp [Expr.factors, Term.factors, List.map_flatMap]

/-! ### Declarations and uses -/

/-- What identifies a variable in its subprogram. -/
def Variable.key (v : Variable) : String × Nat := (v.name, v.block)

namespace Block

/-- The declarations of a block and of the blocks inside it. -/
def declarations : Block → List Declaration
  | .empty => []
  | .declare d rest => d :: rest.declarations
  | .assign _ _ rest => rest.declarations
  | .nest inner rest => inner.declarations ++ rest.declarations

/-- The variables in the assignments of a block and of the blocks inside it. -/
def uses : Block → List Variable
  | .empty => []
  | .declare _ rest => rest.uses
  | .assign target value rest => target :: value.reads ++ rest.uses
  | .nest inner rest => inner.uses ++ rest.uses

theorem declarations_entriesFrom (b : Block) (path : List Nat) (next : Nat) :
    BlockLang.declarations (b.entriesFrom path next) = b.declarations := by
  induction b generalizing path next with
  | empty => rfl
  | declare d rest ih => exact congrArg (d :: ·) (ih path next)
  | assign target value rest ih => exact ih path next
  | nest inner rest ihInner ih =>
    rw [entriesFrom, BlockLang.declarations, List.filterMap_append]
    show BlockLang.declarations _ ++ BlockLang.declarations _ = _
    rw [ihInner, ih]
    rfl

theorem exists_assign_of_mem_uses {b : Block} {v : Variable} (h : v ∈ b.uses) (path : List Nat)
    (next : Nat) : ∃ path' target value,
      .assign path' target value ∈ b.entriesFrom path next ∧ v ∈ target :: value.reads := by
  induction b generalizing path next with
  | empty => cases h
  | declare d rest ih =>
    obtain ⟨path', target, value, hmem, hv⟩ := ih h path next
    exact ⟨path', target, value, List.mem_cons_of_mem _ hmem, hv⟩
  | assign target value rest ih =>
    rcases List.mem_append.mp h with hhere | hrest
    · exact ⟨path, target, value, List.mem_cons_self .., hhere⟩
    · obtain ⟨path', target', value', hmem, hv⟩ := ih hrest path next
      exact ⟨path', target', value', List.mem_cons_of_mem _ hmem, hv⟩
  | nest inner rest ihInner ih =>
    rcases List.mem_append.mp h with hinner | hrest
    · obtain ⟨path', target, value, hmem, hv⟩ := ihInner hinner (next :: path) (next + 1)
      exact ⟨path', target, value, List.mem_append_left _ hmem, hv⟩
    · obtain ⟨path', target, value, hmem, hv⟩ := ih hrest path (next + (inner.blocks + 1))
      exact ⟨path', target, value, List.mem_append_right _ hmem, hv⟩

namespace WellBound
variable {b : Block}

theorem nodup_keys (h : b.WellBound) : (b.declarations.map Declaration.key).Nodup := by
  have hdistinct := h.distinct
  rwa [entries, declarations_entriesFrom] at hdistinct

/-- A variable in use is declared, and without sizes. -/
theorem mem_declarations (h : b.WellBound) {v : Variable} (hv : v ∈ b.uses) :
    ⟨v, []⟩ ∈ b.declarations := by
  obtain ⟨path, target, value, hmem, hv⟩ := exists_assign_of_mem_uses hv [0] 1
  obtain ⟨before, after, hsplit⟩ := List.append_of_mem hmem
  obtain ⟨-, outer, houter, -⟩ := h.bound before path target value after hsplit v hv
  have hentry : .declare outer ⟨v, []⟩ ∈ b.entriesFrom [0] 1 := by
    rw [hsplit]
    exact List.mem_append_left _ houter
  rw [← b.declarations_entriesFrom [0] 1]
  exact BlockLang.mem_declarations.mpr ⟨outer, hentry⟩

end WellBound

end Block

end BlockLang
