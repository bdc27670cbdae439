import BlockLang.Proofs.Spelling
import BlockLang.Proofs.StaticRules
import BlockLang.Proofs.TreeReading

/-!
# What is accepted

A text is accepted exactly when it is scanned to its end, its tokens are a
sentence, no more than `maxNesting` blocks are open at any point, and the static
rules hold. `isSome_elaborate_iff_rules` says so of a tree with well-spelled tokens.
-/

namespace BlockLang

/-! ### Open blocks -/

/-- How many braces are open after these tokens. -/
def openBlocks (ts : List Token) : Nat :=
  ts.count (.mark .openBrace) - ts.count (.mark .closeBrace)

/-- The braces match, and `d` is the greatest number of them open at once. -/
structure Nests (d : Nat) (ts : List Token) : Prop where
  matched : ts.count (.mark .openBrace) = ts.count (.mark .closeBrace)
  within : ∀ u, u <+: ts → u.count (.mark .closeBrace) ≤ u.count (.mark .openBrace) ∧
    u.count (.mark .openBrace) ≤ u.count (.mark .closeBrace) + d
  reached : ∃ u, u <+: ts ∧ u.count (.mark .openBrace) = u.count (.mark .closeBrace) + d

theorem Nests.openBlocks_le_iff {d : Nat} {ts : List Token} (h : Nests d ts) (n : Nat) :
    (∀ u, u <+: ts → openBlocks u ≤ n) ↔ d ≤ n := by
  unfold openBlocks
  constructor
  · intro hn
    obtain ⟨u, hu, hcount⟩ := h.reached
    have hle := hn u hu
    omega
  · intro hn u hu
    have hwithin := h.within u hu
    omega

theorem nests_of_no_brace {ts : List Token}
    (h : ∀ t ∈ ts, t.kind ≠ .openBrace ∧ t.kind ≠ .closeBrace) : Nests 0 ts := by
  have hprefix : ∀ u, u <+: ts →
      u.count (.mark .openBrace) = 0 ∧ u.count (.mark .closeBrace) = 0 := by
    intro u hu
    exact ⟨List.count_eq_zero.mpr fun hm => (h _ (hu.subset hm)).1 rfl,
      List.count_eq_zero.mpr fun hm => (h _ (hu.subset hm)).2 rfl⟩
  obtain ⟨hzero, hzero'⟩ := hprefix ts (List.prefix_refl ts)
  refine ⟨by omega, ?_, [], List.nil_prefix, rfl⟩
  intro u hu
  have hu' := hprefix u hu
  omega

theorem prefix_append_cases {α : Type} {u ts us : List α} (h : u <+: ts ++ us) :
    u <+: ts ∨ ∃ v, u = ts ++ v ∧ v <+: us := by
  obtain ⟨w, hw⟩ := h
  rcases List.append_eq_append_iff.mp hw with ⟨v, hts, hv⟩ | ⟨v, hu, hv⟩
  · exact .inl ⟨v, hts.symm⟩
  · exact .inr ⟨v, hu, w, hv.symm⟩

theorem Nests.append {d e : Nat} {ts us : List Token} (h : Nests d ts) (h' : Nests e us) :
    Nests (max d e) (ts ++ us) := by
  have hmatched := h.matched
  have hmatched' := h'.matched
  refine ⟨?_, ?_, ?_⟩
  · rw [List.count_append, List.count_append]
    omega
  · intro u hu
    rcases prefix_append_cases hu with hu | ⟨v, rfl, hv⟩
    · have hwithin := h.within u hu
      omega
    · have hwithin := h'.within v hv
      rw [List.count_append, List.count_append]
      omega
  · rcases Nat.le_total e d with hle | hle
    · obtain ⟨u, hu, hcount⟩ := h.reached
      exact ⟨u, List.prefix_append_of_prefix hu, by omega⟩
    · obtain ⟨u, hu, hcount⟩ := h'.reached
      refine ⟨ts ++ u, (List.prefix_append_right_inj ts).mpr hu, ?_⟩
      rw [List.count_append, List.count_append]
      omega

theorem Nests.braced {d : Nat} {ts : List Token} (h : Nests d ts) : Nests (d + 1) (braced ts) := by
  have hmatched := h.matched
  have hne : Token.mark .openBrace ≠ .mark .closeBrace := by decide
  have hcons : ∀ v : List Token,
      (Token.mark .openBrace :: v).count (.mark .openBrace) = v.count (.mark .openBrace) + 1 ∧
      (Token.mark .openBrace :: v).count (.mark .closeBrace) = v.count (.mark .closeBrace) :=
    fun v => ⟨List.count_cons_self, List.count_cons_of_ne hne⟩
  have hlast : (ts ++ [Token.mark .closeBrace]).count (.mark .openBrace) =
        ts.count (.mark .openBrace) ∧
      (ts ++ [Token.mark .closeBrace]).count (.mark .closeBrace) =
        ts.count (.mark .closeBrace) + 1 := by
    simp
  refine ⟨?_, ?_, ?_⟩
  · rw [BlockLang.braced, (hcons _).1, (hcons _).2, hlast.1, hlast.2]
    omega
  · intro u hu
    rcases List.prefix_cons_iff.mp hu with rfl | ⟨v, rfl, hv⟩
    · simp
    · rw [(hcons v).1, (hcons v).2]
      rcases List.prefix_concat_iff.mp hv with rfl | hv
      · rw [hlast.1, hlast.2]
        omega
      · have hwithin := h.within v hv
        omega
  · obtain ⟨u, hu, hcount⟩ := h.reached
    refine ⟨.mark .openBrace :: u, ?_, ?_⟩
    · exact List.cons_prefix_cons.mpr ⟨rfl, List.prefix_append_of_prefix hu⟩
    · rw [(hcons u).1, (hcons u).2]
      omega

/-! ### Nesting of a tree -/

theorem nests_assignment (a : AssignmentTree) : Nests 0 a.tokens := by
  apply nests_of_no_brace
  intro t ht
  have hkind := AssignmentTree.kind_of_mem ht
  constructor <;> intro heq <;> simp [heq, assignmentKinds] at hkind

theorem nests_declaration (d : DeclarationTree) : Nests 0 d.tokens := by
  have hvariable : ∀ v : VariableTree, ∀ t ∈ v.tokens,
      t.kind ≠ .openBrace ∧ t.kind ≠ .closeBrace := by
    intro v t ht
    have hkind := VariableTree.kind_of_mem ht
    constructor <;> intro heq <;> simp [heq] at hkind
  apply nests_of_no_brace
  rw [DeclarationTree.tokens, List.forall_mem_cons, List.forall_mem_append, List.forall_mem_append,
    List.forall_mem_flatMap, List.forall_mem_singleton]
  refine ⟨?_, ⟨hvariable d.first, fun v _ => List.forall_mem_cons.mpr ⟨?_, hvariable v⟩⟩, ?_⟩
  · cases d.ty <;> decide
  · decide
  · decide

theorem nests_items (items : ItemTree) : Nests items.depth items.tokens := by
  induction items with
  | nil => exact nests_of_no_brace (by simp [ItemTree.tokens])
  | declare d rest ih =>
    simpa [ItemTree.depth, ItemTree.tokens] using (nests_declaration d).append ih
  | assign a rest ih => simpa [ItemTree.depth, ItemTree.tokens] using (nests_assignment a).append ih
  | block inner rest ihInner ih => exact ihInner.braced.append ih

namespace ProgramTree

/-- The bodies of the subprograms, the main block last. -/
def bodies (p : ProgramTree) : List ItemTree := p.functions.map FunctionTree.body ++ [p.main]

/-- The greatest number of blocks open at once. -/
def depth (p : ProgramTree) : Nat := (p.bodies.map (fun body => body.depth + 1)).foldr max 0

theorem depth_le_iff (p : ProgramTree) (n : Nat) :
    p.depth ≤ n ↔ ∀ body ∈ p.bodies, body.depth + 1 ≤ n := by
  unfold depth
  induction p.bodies with
  | nil => simp
  | cons body bodies ih =>
    rw [List.map_cons, List.foldr_cons, List.forall_mem_cons, ← ih]
    omega

end ProgramTree

theorem nests_function (f : FunctionTree) : Nests (f.body.depth + 1) f.tokens := by
  have hhead : Nests 0 [f.returns.token, .name f.name, .mark .openParen, .mark .closeParen] := by
    apply nests_of_no_brace
    cases f.returns <;> simp [Ty.token, Token.kind]
  simpa [FunctionTree.tokens] using hhead.append (nests_items f.body).braced

theorem nests_main (main : ItemTree) : Nests (main.depth + 1) (mainTokens main) := by
  have hhead : Nests 0 [.keyword .main, .mark .openParen, .mark .closeParen] := by
    apply nests_of_no_brace
    decide
  simpa [mainTokens] using hhead.append (nests_items main).braced

theorem nests_program (tree : ProgramTree) : Nests tree.depth tree.tokens := by
  obtain ⟨functions, main⟩ := tree
  induction functions with
  | nil => simpa [ProgramTree.depth, ProgramTree.bodies, ProgramTree.tokens] using nests_main main
  | cons f functions ih =>
    have happend := (nests_function f).append ih
    rw [ProgramTree.tokens, List.flatMap_cons, List.append_assoc]
    exact happend

/-! ### Subprograms that obey the rules -/

namespace ProgramTree

/-- Function names are pairwise distinct, and so are the names declared directly in
one block. -/
def NamesDistinct (p : ProgramTree) : Prop :=
  (p.functions.map FunctionTree.name).Nodup ∧
    ∀ body ∈ p.bodies, ∀ b ∈ body :: body.blocks, b.names.Nodup

/-- Every size of an array has a decimal value greater than zero. -/
def SizesPositive (p : ProgramTree) : Prop :=
  ∀ body ∈ p.bodies, ∀ size ∈ body.sizes, 0 < decimalValue size

/-- Every name in an assignment denotes a variable without sizes, declared before it
in a block around it. -/
def UsesResolved (p : ProgramTree) : Prop :=
  ∀ body ∈ p.bodies, ∀ use ∈ body.assignments [], use.2.Resolved use.1

/-- No assignment to an integer variable has a real operand. -/
def RealsFit (p : ProgramTree) : Prop :=
  ∀ body ∈ p.bodies, ∀ use ∈ body.assignments [], use.2.Fitting use.1

end ProgramTree

theorem Outermost.agrees {s : Scopes} (h : Outermost s) : Agrees s.openFrame [] := by
  constructor
  · intro name d hd
    exact absurd hd (by simp [visible])
  · intro name _ symbol hlookup
    have hglobal : s.global.find? name = some symbol := by
      rw [Scopes.lookup_openFrame, Scopes.lookup, Scopes.frames, h.inner, List.nil_append,
        List.findSome?_singleton] at hlookup
      exact hlookup
    exact h.functions symbol (List.mem_of_find?_eq_some hglobal)

theorem isSome_elaborateBody_iff {s : Scopes} (h : Outermost s) (items : ItemTree) :
    (items.elaborateBody s).isSome ↔ items.Obeys [] [] (maxNesting - 1) := by
  have hitems := isSome_elaborate_iff items s.openFrame [] (List.cons_ne_nil _ _) h.agrees
  have hlength : s.openFrame.inner.length = 1 := by
    rw [Scopes.openFrame, h.inner]
    rfl
  rw [hlength] at hitems
  rw [ItemTree.elaborateBody, Option.bind_eq_bind, isSome_bind_some]
  exact hitems

theorem isSome_elaborateFunctions_iff {s : Scopes} (h : Outermost s) (fs : List FunctionTree) :
    (elaborateFunctions fs s).isSome ↔ (fs.map FunctionTree.name).Nodup ∧
      (∀ f ∈ fs, f.name ∉ s.global.names) ∧ ∀ f ∈ fs, f.body.Obeys [] [] (maxNesting - 1) := by
  induction fs generalizing s with
  | nil => simp [elaborateFunctions]
  | cons f fs ih =>
    have hcurrent : s.current = s.global := by
      rw [Scopes.current, h.inner]
      rfl
    obtain ⟨houter, hnames⟩ := h.declareFunction f
    rw [elaborateFunctions, List.map_cons, List.nodup_cons, List.forall_mem_cons,
      List.forall_mem_cons]
    by_cases fresh : s.Fresh f.name
    · have hfresh : f.name ∉ s.global.names := by
        rw [← hcurrent]
        exact (s.fresh_iff f.name).mp fresh
      rw [if_pos fresh, ← isSome_elaborateBody_iff houter, and_iff_right hfresh]
      cases hbody : f.body.elaborateBody (s.insert (s.symbol f.name .function f.returns)) with
      | none => simp
      | some x =>
        obtain ⟨b, s'⟩ := x
        obtain ⟨houter', hglobal⟩ := outermost_of_elaborateBody houter hbody
        have hrest := ih houter'
        rw [hglobal, hnames] at hrest
        rw [Option.isSome_some, and_iff_right rfl, Option.bind_eq_bind, Option.bind_some,
          Option.bind_eq_bind, isSome_bind_some, hrest]
        -- The name of the first function moves from the names already taken into the list.
        simp only [List.mem_append, List.mem_singleton, not_or, List.mem_map, not_exists, not_and]
        constructor
        · rintro ⟨hnodup, htaken, hobeys⟩
          exact ⟨⟨fun g hg => (htaken g hg).2, hnodup⟩, fun g hg => (htaken g hg).1, hobeys⟩
        · rintro ⟨⟨hdiffer, hnodup⟩, htaken, hobeys⟩
          exact ⟨hnodup, fun g hg => ⟨htaken g hg, hdiffer g hg⟩, hobeys⟩
    · rw [if_neg fresh]
      refine iff_of_false (by simp) ?_
      rintro ⟨-, ⟨hfresh, -⟩, -⟩
      rw [← hcurrent] at hfresh
      exact fresh ((s.fresh_iff f.name).mpr hfresh)

theorem isSome_elaborateProgram_iff (tree : ProgramTree) :
    tree.elaborate.isSome ↔ (tree.functions.map FunctionTree.name).Nodup ∧
      ∀ body ∈ tree.bodies, body.Obeys [] [] (maxNesting - 1) := by
  have hfunctions := isSome_elaborateFunctions_iff outermost_new tree.functions
  have hglobal : ∀ f ∈ tree.functions, f.name ∉ Scopes.new.global.names := by
    simp [Scopes.new, Frame.new, Frame.names]
  rw [and_iff_right hglobal] at hfunctions
  rw [ProgramTree.bodies, List.forall_mem_append, List.forall_mem_map, List.forall_mem_singleton,
    ← and_assoc, ← hfunctions, ProgramTree.elaborate]
  cases hfs : elaborateFunctions tree.functions .new with
  | none => simp
  | some x =>
    obtain ⟨gs, s⟩ := x
    rw [Option.isSome_some, and_iff_right rfl, Option.bind_eq_bind, Option.bind_some,
      Option.bind_eq_bind, isSome_bind_some]
    exact isSome_elaborateBody_iff (outermost_of_elaborateFunctions outermost_new hfs) tree.main

/-! ### Sizes are tokens of the text -/

theorem size_mem_tokens {items : ItemTree} {size : String} (h : size ∈ items.sizes) :
    .integer size ∈ items.tokens := by
  induction items with
  | nil => simp [ItemTree.sizes] at h
  | declare d rest ih =>
    rcases List.mem_append.mp h with hd | hrest
    · obtain ⟨v, hv, hsize⟩ := List.mem_flatMap.mp hd
      have htokens : .integer size ∈ v.tokens := by
        refine List.mem_cons_of_mem _ (List.mem_flatMap.mpr ⟨size, hsize, ?_⟩)
        simp [sizeTokens]
      refine List.mem_append_left _ (List.mem_cons_of_mem _ (List.mem_append_left _ ?_))
      rcases List.mem_cons.mp hv with rfl | hmore
      · exact List.mem_append_left _ htokens
      · exact List.mem_append_right _
          (List.mem_flatMap.mpr ⟨v, hmore, List.mem_cons_of_mem _ htokens⟩)
    · exact List.mem_append_right _ (ih hrest)
  | assign a rest ih => exact List.mem_append_right _ (ih h)
  | block inner rest ihInner ih =>
    rcases List.mem_append.mp h with hinner | hrest
    · refine List.mem_append_left _ (List.mem_cons_of_mem _ (List.mem_append_left _ ?_))
      exact ihInner hinner
    · exact List.mem_append_right _ (ih hrest)

theorem mem_tokens_of_body {tree : ProgramTree} {body : ItemTree} (hbody : body ∈ tree.bodies)
    {t : Token} (ht : t ∈ body.tokens) : t ∈ tree.tokens := by
  have hbraced : t ∈ braced body.tokens := List.mem_cons_of_mem _ (List.mem_append_left _ ht)
  rcases List.mem_append.mp hbody with hfunction | hmain
  · obtain ⟨f, hf, rfl⟩ := List.mem_map.mp hfunction
    refine List.mem_append_left _ (List.mem_flatMap.mpr ⟨f, hf, ?_⟩)
    simp [FunctionTree.tokens, hbraced]
  · rw [List.mem_singleton.mp hmain] at hbraced
    refine List.mem_append_right _ ?_
    simp [mainTokens, hbraced]

/-! ### Acceptance -/

/-- The bodies obey the static rules exactly when the program does, provided that its
tokens are well spelled. -/
theorem isSome_elaborate_iff_rules (tree : ProgramTree) (h : ∀ t ∈ tree.tokens, t.WellSpelled) :
    tree.elaborate.isSome ↔ (∀ u, u <+: tree.tokens → openBlocks u ≤ maxNesting) ∧
      tree.NamesDistinct ∧ tree.SizesPositive ∧ tree.UsesResolved ∧ tree.RealsFit := by
  have hpositive : ∀ body ∈ tree.bodies, ∀ size ∈ body.sizes,
      (Positive size ↔ 0 < decimalValue size) := by
    intro body hbody size hsize
    exact positive_iff_decimalValue (h _ (mem_tokens_of_body hbody (size_mem_tokens hsize)))
  rw [isSome_elaborateProgram_iff, (nests_program tree).openBlocks_le_iff, tree.depth_le_iff]
  constructor
  · rintro ⟨hnames, hobeys⟩
    refine ⟨?_, ⟨hnames, ?_⟩, ?_, fun body hbody => (hobeys body hbody).resolved,
      fun body hbody => (hobeys body hbody).fitting⟩
    · intro body hbody
      have hdepth := (hobeys body hbody).depth
      unfold maxNesting at hdepth ⊢
      omega
    · intro body hbody
      rw [List.forall_mem_cons]
      exact ⟨(hobeys body hbody).distinct, (hobeys body hbody).blocks⟩
    · intro body hbody size hsize
      exact (hpositive body hbody size hsize).mp ((hobeys body hbody).positive size hsize)
  · rintro ⟨hdepth, ⟨hnames, hdistinct⟩, hsizes, hresolved, hfits⟩
    refine ⟨hnames, fun body hbody => ?_⟩
    have hblocks := hdistinct body hbody
    rw [List.forall_mem_cons] at hblocks
    have hroom := hdepth body hbody
    refine ⟨hblocks.1, by simp, hblocks.2, ?_, hresolved body hbody, hfits body hbody, by omega⟩
    intro size hsize
    exact (hpositive body hbody size hsize).mpr (hsizes body hbody size hsize)

/-- A text is accepted exactly when it is scanned to its end and its tokens are derived by a
tree that nests no more than 256 blocks and obeys the static rules. -/
theorem readProgram_isOk_iff (source : String) :
    (∃ p, (readProgram source).result = .ok p) ↔
      ∃ ts ending, ∃ tree : ProgramTree,
        (Scanner.ofText source).stream = .prepend ts (.done ending) ∧
        tree.tokens = ts.map Located.value ∧
        (∀ u, u <+: ts.map Located.value → openBlocks u ≤ 256) ∧
        tree.NamesDistinct ∧ tree.SizesPositive ∧ tree.UsesResolved ∧ tree.RealsFit := by
  have hspelled : ∀ {ts ending} {tree : ProgramTree},
      (Scanner.ofText source).stream = .prepend ts (.done ending) →
      tree.tokens = ts.map Located.value → ∀ t ∈ tree.tokens, t.WellSpelled := by
    intro ts ending tree hstream htokens t ht
    rw [htokens] at ht
    obtain ⟨t', ht', rfl⟩ := List.mem_map.mp ht
    exact Scanner.wellSpelled_of_stream hstream t' ht'
  simp only [readProgram_eq_ok_iff]
  constructor
  · rintro ⟨p, ts, ending, tree, hstream, hspells, helaborate⟩
    have htokens : tree.tokens = ts.map Located.value := hspells.symm
    have hrules := (isSome_elaborate_iff_rules tree (hspelled hstream htokens)).mp
      (Option.isSome_iff_exists.mpr ⟨p, helaborate⟩)
    rw [htokens] at hrules
    exact ⟨ts, ending, tree, hstream, htokens, hrules⟩
  · rintro ⟨ts, ending, tree, hstream, htokens, hrules⟩
    rw [← htokens] at hrules
    obtain ⟨p, hp⟩ := Option.isSome_iff_exists.mp
      ((isSome_elaborate_iff_rules tree (hspelled hstream htokens)).mpr hrules)
    exact ⟨p, ts, ending, tree, hstream, htokens.symm, hp⟩

end BlockLang
