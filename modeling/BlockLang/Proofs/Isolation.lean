import BlockLang.Proofs.Acceptance
import BlockLang.Proofs.FaultPositions
import BlockLang.Proofs.Lexing
import Mathlib.Data.List.Forall2

/-!
# Subprograms on their own

The subprograms of a text share one reader, one stack of frames and one count of blocks. Nothing of
this passes from one to the next but the names of the functions, and these only forbid a second
function of the same name: what a body stands for does not depend on the global frame around it
(`elaborateBody_congr`).
-/

namespace BlockLang

/-! ### The global frame holds no variables -/

namespace Scopes

/-- The open blocks inside an empty global frame. -/
def enclosed (s : Scopes) : Scopes := { s with global := .new 0 }

def OnlyFunctions (s : Scopes) : Prop := ∀ symbol ∈ s.global.symbols, symbol.kind = .function

theorem scalar?_enclosed {s : Scopes} (h : s.OnlyFunctions) : s.enclosed.scalar? = s.scalar? := by
  funext name
  have hglobal : s.enclosed.lookup name = s.inner.findSome? (fun f => f.find? name) := by
    rw [lookup, frames, List.findSome?_append]
    exact Option.or_none
  have hlookup : s.lookup name =
      (s.inner.findSome? (fun f => f.find? name)).or (s.global.find? name) := by
    rw [lookup, frames, List.findSome?_append, List.findSome?_singleton]
  rw [scalar?, scalar?, hglobal, hlookup]
  cases s.inner.findSome? (fun f => f.find? name) with
  | some symbol => rfl
  | none =>
    cases hfind : s.global.find? name with
    | none => rfl
    | some symbol =>
      -- A function is no scalar, so that finding one is as good as finding nothing.
      obtain ⟨found, kind, ty, block⟩ := symbol
      obtain rfl : kind = .function := h _ (List.mem_of_find?_eq_some hfind)
      rfl

theorem current_enclosed {s : Scopes} (hs : s.inner ≠ []) : s.enclosed.current = s.current := by
  obtain ⟨inner, global, blocks⟩ := s
  cases inner with
  | nil => exact absurd rfl hs
  | cons f rest => rfl

theorem insert_enclosed {s : Scopes} (hs : s.inner ≠ []) (symbol : Symbol) :
    s.enclosed.insert symbol = (s.insert symbol).enclosed := by
  obtain ⟨inner, global, blocks⟩ := s
  cases inner with
  | nil => exact absurd rfl hs
  | cons f rest => rfl

theorem SameAround.onlyFunctions {s s' : Scopes} (h : s.SameAround s') (hs : s.OnlyFunctions) :
    s'.OnlyFunctions := by
  rw [OnlyFunctions, h.global]
  exact hs

end Scopes

/-! ### Elaboration asks for scalars only -/

section Scalars
variable {s s' : Scopes} (h : s'.scalar? = s.scalar?)
include h

theorem elaborate_factor_congr (f : FactorTree) : f.elaborate s' = f.elaborate s := by
  cases f with
  | integer lexeme => rfl
  | real lexeme => rfl
  | name text => rw [FactorTree.elaborate, FactorTree.elaborate, h]

theorem elaborateFactors_congr (t : Term) (tail : List (Bool × FactorTree)) :
    elaborateFactors s' t tail = elaborateFactors s t tail := by
  induction tail generalizing t with
  | nil => rfl
  | cons step tail ih =>
    rw [elaborateFactors, elaborateFactors, elaborate_factor_congr h]
    simp only [ih]

theorem elaborate_term_congr (t : TermTree) : t.elaborate s' = t.elaborate s := by
  rw [TermTree.elaborate, TermTree.elaborate, elaborate_factor_congr h]
  simp only [elaborateFactors_congr h]

theorem elaborateTerms_congr (e : Expr) (tail : List (Bool × TermTree)) :
    elaborateTerms s' e tail = elaborateTerms s e tail := by
  induction tail generalizing e with
  | nil => rfl
  | cons step tail ih =>
    rw [elaborateTerms, elaborateTerms, elaborate_term_congr h]
    simp only [ih]

theorem elaborate_expr_congr (e : ExprTree) : e.elaborate s' = e.elaborate s := by
  rw [ExprTree.elaborate, ExprTree.elaborate, elaborate_term_congr h]
  simp only [elaborateTerms_congr h]

theorem elaborate_assignment_congr (a : AssignmentTree) : a.elaborate s' = a.elaborate s := by
  rw [AssignmentTree.elaborate, AssignmentTree.elaborate, h, elaborate_expr_congr h]

end Scalars

/-! ### Bodies -/

/-- What is elaborated, with the scopes after it cut off from the global frame. -/
def encloseAfter (x : Block × Scopes) : Block × Scopes := (x.1, x.2.enclosed)

theorem elaborateVariables_enclosed (ty : Ty) (vs : List VariableTree) {s : Scopes}
    (hs : s.inner ≠ []) :
    elaborateVariables ty vs s.enclosed = (elaborateVariables ty vs s).map encloseAfter := by
  induction vs generalizing s with
  | nil => rfl
  | cons v vs ih =>
    have hcurrent := Scopes.current_enclosed hs
    have hfresh : s.enclosed.Fresh v.name ↔ s.Fresh v.name := by
      rw [Scopes.Fresh, Scopes.Fresh, hcurrent]
    have hdeclare : v.declare s.enclosed ty = (v.declare s ty).enclosed := by
      rw [VariableTree.declare, VariableTree.declare, Scopes.symbol, Scopes.symbol, hcurrent]
      exact Scopes.insert_enclosed hs _
    have hdeclaration : v.declaration s.enclosed ty = v.declaration s ty := by
      rw [VariableTree.declaration, VariableTree.declaration, hcurrent]
    have hinner := (s.sameAround_declare hs ty v).inner_ne_nil hs
    rw [elaborateVariables, elaborateVariables, hdeclare, hdeclaration, ih hinner]
    simp only [hfresh]
    split
    · cases elaborateVariables ty vs (v.declare s ty) <;> rfl
    · rfl

theorem elaborate_enclosed (items : ItemTree) {s : Scopes} (hs : s.inner ≠ [])
    (h : s.OnlyFunctions) : items.elaborate s.enclosed = (items.elaborate s).map encloseAfter := by
  induction items generalizing s with
  | nil => rfl
  | declare d rest ih =>
    rw [ItemTree.elaborate, ItemTree.elaborate, elaborateVariables_enclosed d.ty _ hs]
    cases hfirst : elaborateVariables d.ty (d.first :: d.more) s with
    | none => rfl
    | some first =>
      obtain ⟨b, s₁⟩ := first
      have haround := elaborateVariables_around hs hfirst
      have hlater := ih (haround.inner_ne_nil hs) (haround.onlyFunctions h)
      simp only [Option.map_some, Option.bind_eq_bind, Option.bind_some, encloseAfter, hlater]
      cases rest.elaborate s₁ <;> rfl
  | assign a rest ih =>
    rw [ItemTree.elaborate, ItemTree.elaborate,
      elaborate_assignment_congr (Scopes.scalar?_enclosed h), ih hs h]
    cases a.elaborate s with
    | none => rfl
    | some first => cases rest.elaborate s <;> rfl
  | block inner rest ihInner ih =>
    have hopen : s.openFrame.inner ≠ [] := List.cons_ne_nil _ _
    have hfirst : inner.elaborate s.enclosed.openFrame =
        (inner.elaborate s.openFrame).map encloseAfter := ihInner hopen h
    rw [ItemTree.elaborate, ItemTree.elaborate, hfirst]
    show (if s.inner.length < maxNesting then _ else _) = _
    split
    · cases hinner : inner.elaborate s.openFrame with
      | none => rfl
      | some first =>
        obtain ⟨b, s₁⟩ := first
        have haround := (elaborates_of_elaborate hinner).around hopen
        have hclosed : s₁.closeFrame.OnlyFunctions := haround.onlyFunctions h
        have hlater : rest.elaborate s₁.enclosed.closeFrame =
            (rest.elaborate s₁.closeFrame).map encloseAfter :=
          ih (Scopes.inner_closeFrame_ne_nil haround hs) hclosed
        simp only [Option.map_some, Option.bind_eq_bind, Option.bind_some, encloseAfter, hlater]
        cases rest.elaborate s₁.closeFrame <;> rfl
    · rfl

theorem Outermost.enclosed_openFrame {s : Scopes} (hs : Outermost s) :
    s.openFrame.enclosed = Scopes.new.openFrame := by
  obtain ⟨inner, global, blocks⟩ := s
  obtain rfl : inner = [] := hs.inner
  rfl

/-- A body stands for the same block whatever functions come before it. -/
theorem elaborateBody_congr (items : ItemTree) {s s' : Scopes} (hs : Outermost s)
    (hs' : Outermost s') :
    (items.elaborateBody s).map Prod.fst = (items.elaborateBody s').map Prod.fst := by
  have hbody : ∀ u : Scopes, Outermost u → (items.elaborateBody u).map Prod.fst =
      (items.elaborate Scopes.new.openFrame).map Prod.fst := by
    intro u hu
    rw [← hu.enclosed_openFrame,
      elaborate_enclosed items (List.cons_ne_nil _ _) (s := u.openFrame) hu.functions,
      ItemTree.elaborateBody]
    cases items.elaborate u.openFrame <;> rfl
  rw [hbody s hs, hbody s' hs']

/-! ### Programs -/

/-- A function on its own, with nothing in the main block. -/
def FunctionTree.alone (f : FunctionTree) : ProgramTree := ⟨[f], .nil⟩

/-- A main block on its own. -/
def ItemTree.alone (main : ItemTree) : ProgramTree := ⟨[], main⟩

theorem elaborate_function_alone (f : FunctionTree) :
    f.alone.elaborate = (f.body.elaborateBody
      (Scopes.new.insert (Scopes.new.symbol f.name .function f.returns))).map
        (fun body => ⟨[⟨f.name, f.returns, body.1⟩], .empty⟩) := by
  have hfresh : Scopes.new.Fresh f.name := rfl
  rw [FunctionTree.alone, ProgramTree.elaborate, elaborateFunctions, if_pos hfresh]
  cases f.body.elaborateBody (Scopes.new.insert (Scopes.new.symbol f.name .function f.returns)) <;>
    rfl

theorem elaborate_main_alone (main : ItemTree) :
    main.alone.elaborate = (main.elaborateBody .new).map (fun body => ⟨[], body.1⟩) := by
  rw [Option.map_eq_bind]
  rfl

theorem elaborate_alone_of_elaborateFunctions {fs : List FunctionTree} {s s' : Scopes}
    {gs : List Function} (hs : Outermost s) (h : elaborateFunctions fs s = some (gs, s')) :
    List.Forall₂ (fun f g => f.alone.elaborate = some ⟨[g], .empty⟩) fs gs := by
  induction fs generalizing s gs with
  | nil =>
    cases h
    exact .nil
  | cons f fs ih =>
    obtain ⟨body, s₁, later, hbody, hlater, rfl⟩ := elaborateFunctions_cons_eq_some h
    have houter := (hs.declareFunction f).1
    have hsame := elaborateBody_congr f.body (outermost_new.declareFunction f).1 houter
    rw [hbody] at hsame
    obtain ⟨⟨body', s₂⟩, hbody', rfl⟩ := Option.map_eq_some_iff.mp hsame
    refine .cons ?_ (ih (outermost_of_elaborateBody houter hbody).1 hlater)
    rw [elaborate_function_alone, hbody']
    rfl

theorem elaborate_alone_of_elaborate {tree : ProgramTree} {p : Program}
    (h : tree.elaborate = some p) :
    List.Forall₂ (fun f g => f.alone.elaborate = some ⟨[g], .empty⟩) tree.functions p.functions ∧
      tree.main.alone.elaborate = some ⟨[], p.main⟩ := by
  obtain ⟨⟨gs, s⟩, hfunctions, h⟩ := Option.bind_eq_some_iff.mp h
  obtain ⟨⟨b, s'⟩, hmain, heq⟩ := Option.bind_eq_some_iff.mp h
  cases heq
  refine ⟨elaborate_alone_of_elaborateFunctions outermost_new hfunctions, ?_⟩
  have hsame := elaborateBody_congr tree.main outermost_new
    (outermost_of_elaborateFunctions outermost_new hfunctions)
  rw [hmain] at hsame
  obtain ⟨⟨b', s₂⟩, hbody, rfl⟩ := Option.map_eq_some_iff.mp hsame
  rw [elaborate_main_alone, hbody]
  rfl

theorem obeys_nil (room : Nat) : ItemTree.nil.Obeys [] [] room := by
  constructor <;> simp [ItemTree.names, ItemTree.blocks, ItemTree.sizes, ItemTree.assignments,
    ItemTree.depth]

/-- A program is accepted exactly when the names of its functions differ and each of its
subprograms is accepted on its own. -/
theorem isSome_elaborate_iff_alone (tree : ProgramTree) :
    tree.elaborate.isSome ↔ (tree.functions.map FunctionTree.name).Nodup ∧
      (∀ f ∈ tree.functions, f.alone.elaborate.isSome) ∧ tree.main.alone.elaborate.isSome := by
  have hfunction : ∀ f : FunctionTree,
      f.alone.elaborate.isSome ↔ f.body.Obeys [] [] (maxNesting - 1) := by
    intro f
    rw [isSome_elaborateProgram_iff]
    simp [FunctionTree.alone, ProgramTree.bodies, obeys_nil]
  have hmain : tree.main.alone.elaborate.isSome ↔ tree.main.Obeys [] [] (maxNesting - 1) := by
    rw [isSome_elaborateProgram_iff]
    simp [ItemTree.alone, ProgramTree.bodies]
  rw [isSome_elaborateProgram_iff, hmain, ProgramTree.bodies, List.forall_mem_append,
    List.forall_mem_map, List.forall_mem_singleton]
  simp only [hfunction]

/-! ### Texts -/

/-- A text may follow one that ends with a closing brace. -/
theorem HasTokens.append {a b : String} {u v : List Token} (ha : HasTokens a u)
    (hb : HasTokens b v) (hlast : u.getLast? = some (.mark .closeBrace)) :
    HasTokens (a ++ b) (u ++ v) := by
  rw [hasTokens_iff] at ha hb ⊢
  rw [String.toList_append]
  apply ha.append hb
  intro t ht
  rw [hlast] at ht
  cases ht
  simp [Token.EndsBefore]

theorem HasTokens.exists_append {source : String} {u v : List Token}
    (h : HasTokens source (u ++ v)) : ∃ a b, source = a ++ b ∧ HasTokens a u ∧ HasTokens b v := by
  rw [hasTokens_iff] at h
  obtain ⟨a, b, heq, ha, hb⟩ := h.exists_append
  refine ⟨String.ofList a, String.ofList b, ?_, ?_, ?_⟩
  · rw [← String.ofList_append, ← heq, String.ofList_toList]
  · rwa [hasTokens_iff, String.toList_ofList]
  · rwa [hasTokens_iff, String.toList_ofList]

theorem FunctionTree.getLast?_tokens (f : FunctionTree) :
    f.tokens.getLast? = some (.mark .closeBrace) := by
  simp [FunctionTree.tokens, braced, List.getLast?_cons, List.getLast?_append]

/-- The source is the texts of the functions of the tree, one after another, and that of its main
block. -/
structure Divides (source : String) (tree : ProgramTree) (texts : List String) (main : String) :
    Prop where
  source : source = String.join texts ++ main
  functions : List.Forall₂ (fun text f => HasTokens text f.tokens) texts tree.functions
  main : HasTokens main (mainTokens tree.main)

theorem hasTokens_join {texts : List String} {fs : List FunctionTree} {main : String}
    {word : List Token} (hfunctions : List.Forall₂ (fun text f => HasTokens text f.tokens) texts fs)
    (hmain : HasTokens main word) :
    HasTokens (String.join texts ++ main) (fs.flatMap FunctionTree.tokens ++ word) := by
  induction hfunctions with
  | nil => simpa using hmain
  | @cons text f texts fs htext _ ih =>
    rw [String.join_cons, String.append_assoc, List.flatMap_cons, List.append_assoc]
    exact htext.append ih f.getLast?_tokens

theorem Divides.hasTokens {source : String} {tree : ProgramTree} {texts : List String}
    {main : String} (h : Divides source tree texts main) : HasTokens source tree.tokens := by
  rw [h.source]
  exact hasTokens_join h.functions h.main

/-- Every text with the tokens of a program is divided in some way. -/
theorem exists_divides {source : String} {tree : ProgramTree}
    (h : HasTokens source tree.tokens) : ∃ texts main, Divides source tree texts main := by
  obtain ⟨fs, items⟩ := tree
  rw [ProgramTree.tokens] at h
  induction fs generalizing source with
  | nil => exact ⟨[], source, String.empty_append.symm, .nil, h⟩
  | cons f fs ih =>
    rw [List.flatMap_cons, List.append_assoc] at h
    obtain ⟨text, rest, rfl, htext, hrest⟩ := h.exists_append
    obtain ⟨texts, main, rfl, hfunctions, hmain⟩ := ih hrest
    refine ⟨text :: texts, main, ?_, .cons htext hfunctions, hmain⟩
    rw [String.join_cons, String.append_assoc]

/-- The text of an empty main block. -/
def emptyMain : String := "main() \x7b\x7d"

theorem hasTokens_emptyMain : HasTokens emptyMain (mainTokens .nil) := by
  refine ⟨[⟨⟨1, 1⟩, .keyword .main⟩, ⟨⟨1, 5⟩, .mark .openParen⟩, ⟨⟨1, 6⟩, .mark .closeParen⟩,
    ⟨⟨1, 8⟩, .mark .openBrace⟩, ⟨⟨1, 9⟩, .mark .closeBrace⟩], ⟨1, 10⟩, ?_, rfl⟩
  decide +kernel

theorem HasTokens.followed {text : String} {f : FunctionTree} (h : HasTokens text f.tokens) :
    HasTokens (text ++ emptyMain) f.alone.tokens := by
  have htokens : f.alone.tokens = f.tokens ++ mainTokens .nil := by
    simp [FunctionTree.alone, ProgramTree.tokens]
  rw [htokens]
  exact h.append hasTokens_emptyMain f.getLast?_tokens

theorem HasTokens.isOk_iff {source : String} {tree : ProgramTree}
    (h : HasTokens source tree.tokens) :
    (∃ p, (readProgram source).result = .ok p) ↔ tree.elaborate.isSome := by
  simp only [Traced.result_eq_ok_iff, value?_readProgram_of_hasTokens h, Option.isSome_iff_exists]

theorem HasTokens.result_eq {source : String} {tree : ProgramTree} {p : Program}
    (h : HasTokens source tree.tokens) (hp : tree.elaborate = some p) :
    (readProgram source).result = .ok p := by
  rw [Traced.result_eq_ok_iff, value?_readProgram_of_hasTokens h, hp]

section Functions
variable {texts : List String} {fs : List FunctionTree}
  (h : List.Forall₂ (fun text f => HasTokens text f.tokens) texts fs)
include h

theorem isOk_followed_iff :
    (∀ text ∈ texts, ∃ p, (readProgram (text ++ emptyMain)).result = .ok p) ↔
      ∀ f ∈ fs, f.alone.elaborate.isSome := by
  induction h with
  | nil => simp
  | cons htext _ ih =>
    rw [List.forall_mem_cons, List.forall_mem_cons, ih, htext.followed.isOk_iff]

theorem result_followed {gs : List Function}
    (hgs : List.Forall₂ (fun f g => f.alone.elaborate = some ⟨[g], .empty⟩) fs gs) :
    List.Forall₂ (fun text g => (readProgram (text ++ emptyMain)).result = .ok ⟨[g], .empty⟩)
      texts gs := by
  induction h generalizing gs with
  | nil =>
    cases hgs
    exact .nil
  | cons htext _ ih =>
    cases hgs with
    | cons hg hgs => exact .cons (htext.followed.result_eq hg) (ih hgs)

end Functions

/-- A text of functions and a main block can be divided into these. It is accepted exactly when the
names of the functions differ and each subprogram is accepted on its own, and then the program
consists of what each of them is on its own. -/
theorem readProgram_divided {source : String} {tree : ProgramTree}
    (h : HasTokens source tree.tokens) :
    (∃ texts main, Divides source tree texts main) ∧
    ∀ texts main, Divides source tree texts main →
      ((∃ p, (readProgram source).result = .ok p) ↔
        (tree.functions.map FunctionTree.name).Nodup ∧
        (∀ text ∈ texts, ∃ p, (readProgram (text ++ emptyMain)).result = .ok p) ∧
        ∃ p, (readProgram main).result = .ok p) ∧
      ∀ p, (readProgram source).result = .ok p →
        List.Forall₂ (fun text f => (readProgram (text ++ emptyMain)).result = .ok ⟨[f], .empty⟩)
          texts p.functions ∧
        (readProgram main).result = .ok ⟨[], p.main⟩ := by
  refine ⟨exists_divides h, ?_⟩
  intro texts main hdivides
  have hmain : HasTokens main tree.main.alone.tokens := hdivides.main
  constructor
  · rw [h.isOk_iff, hmain.isOk_iff, isOk_followed_iff hdivides.functions]
    exact isSome_elaborate_iff_alone tree
  · intro p hp
    rw [Traced.result_eq_ok_iff, value?_readProgram_of_hasTokens h] at hp
    obtain ⟨hfunctions, hbody⟩ := elaborate_alone_of_elaborate hp
    exact ⟨result_followed hdivides.functions hfunctions, hmain.result_eq hbody⟩

/-- Two functions that declare each other's names, and a main block that declares one of them. -/
def crossedTree : ProgramTree :=
  ⟨[⟨.int, "f", .declare ⟨.int, ⟨"g", []⟩, []⟩ (.assign ⟨"g", ⟨⟨.integer "1", []⟩, []⟩⟩ .nil)⟩,
    ⟨.real, "g", .declare ⟨.real, ⟨"f", []⟩, []⟩ (.block (.declare ⟨.int, ⟨"g", []⟩, []⟩
      (.assign ⟨"f", ⟨⟨.name "g", [(true, .integer "2")]⟩, []⟩⟩ .nil)) .nil)⟩],
    .declare ⟨.int, ⟨"f", []⟩, []⟩ (.assign ⟨"f", ⟨⟨.integer "3", []⟩, []⟩⟩ .nil)⟩

def crossedFirst : String := "int f() \x7b int g; g = 1; \x7d"

def crossedSecond : String := "double g() \x7b double f; \x7b int g; f = g / 2; \x7d \x7d /* g */"

def crossedMain : String := "main() \x7b int f; f = 3; \x7d"

theorem divides_crossed : Divides (String.join [crossedFirst, crossedSecond] ++ crossedMain)
    crossedTree [crossedFirst, crossedSecond] crossedMain := by
  refine ⟨rfl, .cons ?_ (.cons ?_ .nil), ?_⟩
  · refine ⟨(Scanner.ofText crossedFirst).stream.tokens, ⟨1, 26⟩, ?_, ?_⟩ <;> decide +kernel
  · refine ⟨(Scanner.ofText crossedSecond).stream.tokens, ⟨1, 55⟩, ?_, ?_⟩ <;> decide +kernel
  · refine ⟨(Scanner.ofText crossedMain).stream.tokens, ⟨1, 25⟩, ?_, ?_⟩ <;> decide +kernel

theorem readProgram_crossed :
    ∃ p : Program,
      (readProgram (String.join [crossedFirst, crossedSecond] ++ crossedMain)).result = .ok p ∧
      List.Forall₂ (fun text f => (readProgram (text ++ emptyMain)).result = .ok ⟨[f], .empty⟩)
        [crossedFirst, crossedSecond] p.functions ∧
      (readProgram crossedMain).result = .ok ⟨[], p.main⟩ := by
  have haccepted :
      (readProgram (String.join [crossedFirst, crossedSecond] ++ crossedMain)).value?.isSome := by
    decide +kernel
  obtain ⟨p, hp⟩ := Option.isSome_iff_exists.mp haccepted
  rw [← Traced.result_eq_ok_iff] at hp
  have hdivided := (readProgram_divided divides_crossed.hasTokens).2 _ _ divides_crossed
  exact ⟨p, hp, hdivided.2 p hp⟩

end BlockLang
