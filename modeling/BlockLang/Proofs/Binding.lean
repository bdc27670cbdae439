import BlockLang.Proofs.TreeReading

/-!
# Binding of names in a program

Every name of an accepted program is bound: a variable stands with the number of
the block that declares it, and that number leads to one declaration, the nearest
one before the use in the blocks around it. The invariant is `Tracks`: the frames of
the open blocks hold what the items so far declare in them.
-/

namespace BlockLang

/-! ### The items of a block and where they stand -/

/-- A declaration or an assignment, with the numbers of the blocks around it, the
innermost first. -/
inductive Entry where
  | declare (path : List Nat) (d : Declaration)
  | assign (path : List Nat) (target : Variable) (value : Expr)

namespace Block

/-- How many blocks a block holds, at any depth. -/
def blocks : Block → Nat
  | .empty => 0
  | .declare _ rest => rest.blocks
  | .assign _ _ rest => rest.blocks
  | .nest inner rest => inner.blocks + 1 + rest.blocks

/-- The declarations and assignments of a block and of the blocks inside it, in the
order of the text. The blocks inside it are numbered from `next` in preorder. -/
def entriesFrom (path : List Nat) (next : Nat) : Block → List Entry
  | .empty => []
  | .declare d rest => .declare path d :: rest.entriesFrom path next
  | .assign target value rest => .assign path target value :: rest.entriesFrom path next
  | .nest inner rest =>
    inner.entriesFrom (next :: path) (next + 1) ++
      rest.entriesFrom path (next + (inner.blocks + 1))

/-- The entries of the body of a subprogram, which is block 0. -/
def entries (body : Block) : List Entry := body.entriesFrom [0] 1

theorem blocks_append (a b : Block) : (a ++ b).blocks = a.blocks + b.blocks := by
  induction a with
  | empty => exact (Nat.zero_add _).symm
  | declare d rest ih => exact ih
  | assign target value rest ih => exact ih
  | nest inner rest _ ih =>
    rw [nest_append, blocks, blocks, ih]
    omega

theorem entriesFrom_append (a b : Block) (path : List Nat) (next : Nat) :
    (a ++ b).entriesFrom path next =
      a.entriesFrom path next ++ b.entriesFrom path (next + a.blocks) := by
  induction a generalizing next with
  | empty => rfl
  | declare d rest ih => simp [entriesFrom, blocks, ih]
  | assign target value rest ih => simp [entriesFrom, blocks, ih]
  | nest inner rest _ ih => simp [entriesFrom, blocks, ih, Nat.add_assoc]

end Block

def Entry.declaration? : Entry → Option Declaration
  | .declare _ d => some d
  | .assign _ _ _ => none

/-- What identifies a variable in its subprogram. -/
def Declaration.key (d : Declaration) : String × Nat := (d.target.name, d.target.block)

def declarations (es : List Entry) : List Declaration := es.filterMap Entry.declaration?

@[simp] theorem declarations_declare (es : List Entry) (path : List Nat) (d : Declaration) :
    declarations (es ++ [.declare path d]) = declarations es ++ [d] := by
  simp [declarations, Entry.declaration?]

@[simp] theorem declarations_assign (es : List Entry) (path : List Nat) (target : Variable)
    (value : Expr) : declarations (es ++ [.assign path target value]) = declarations es := by
  simp [declarations, Entry.declaration?]

theorem mem_declarations {es : List Entry} {d : Declaration} :
    d ∈ declarations es ↔ ∃ path, .declare path d ∈ es := by
  rw [declarations, List.mem_filterMap]
  constructor
  · rintro ⟨e, he, hd⟩
    cases e with
    | declare path d' =>
      cases hd
      exact ⟨path, he⟩
    | assign path target value => cases hd
  · rintro ⟨path, h⟩
    exact ⟨_, h, rfl⟩

def Expr.reads (e : Expr) : List Variable :=
  e.factors.filterMap (fun f => match f.2 with
    | .read v => some v
    | _ => none)

/-! ### Well-bound programs -/

/-- The variable is declared without sizes among the entries, in the block of the path or
in one around it, and no block in between declares its name. -/
def Binds (before : List Entry) (path : List Nat) (v : Variable) : Prop :=
  ∃ outer, .declare outer ⟨v, []⟩ ∈ before ∧ outer <:+ path ∧
    ∀ outer' d, .declare outer' d ∈ before → d.target.name = v.name → outer' <:+ path →
      outer'.length ≤ outer.length

/-- The rules of binding for the body of a subprogram. -/
structure Block.WellBound (body : Block) : Prop where
  /-- A declaration has the number of the block in which it stands. -/
  numbered : ∀ path d, .declare path d ∈ body.entries → path.head? = some d.target.block
  distinct : ((declarations body.entries).map Declaration.key).Nodup
  /-- A use leads to one declaration, which stands before it and is the nearest. -/
  bound : ∀ before path target value after,
    body.entries = before ++ .assign path target value :: after →
    ∀ v ∈ target :: value.reads,
      ((declarations body.entries).map Declaration.key).count (v.name, v.block) = 1 ∧
        Binds before path v
  typed : ∀ path target value, .assign path target value ∈ body.entries →
    target.ty = .int → value.ty = .int

/-- The bodies of the subprograms, the main block last. -/
def Program.bodies (p : Program) : List Block := p.functions.map Function.body ++ [p.main]

/-! ### Frames and the entries before them -/

def Scopes.path (s : Scopes) : List Nat := s.inner.map Frame.block

theorem Scopes.path_insert (s : Scopes) (symbol : Symbol) : (s.insert symbol).path = s.path := by
  obtain ⟨inner, global, blocks⟩ := s
  cases inner <;> rfl

def Declaration.symbol (d : Declaration) : Symbol :=
  ⟨d.target.name, Scopes.kindOf d.sizes, d.target.ty, d.target.block⟩

def declaredIn (es : List Entry) (block : Nat) : List Declaration :=
  (declarations es).filter (fun d => d.target.block = block)

/-- The open frames hold what the entries so far declare in their blocks. -/
structure Tracks (es : List Entry) (s : Scopes) : Prop where
  numbered : ∀ path d, .declare path d ∈ es → path.head? = some d.target.block
  distinct : ((declarations es).map Declaration.key).Nodup
  opened : ∀ d ∈ declarations es, d.target.block ≤ s.blocks
  bounded : ∀ f ∈ s.inner, f.block ≤ s.blocks
  nodup : s.path.Nodup
  symbols : ∀ f ∈ s.inner, f.symbols = (declaredIn es f.block).map Declaration.symbol
  around : ∀ f rest, f :: rest <:+ s.inner → ∀ path d, .declare path d ∈ es →
    d.target.block = f.block → path = (f :: rest).map Frame.block
  functions : ∀ symbol ∈ s.global.symbols, symbol.kind = .function

namespace Tracks
variable {es : List Entry} {s : Scopes}

theorem declared_of_find? (h : Tracks es s) {f : Frame} (hf : f ∈ s.inner) {name found : String}
    {ty : Ty} {block : Nat} (hfind : f.find? name = some ⟨found, .scalar, ty, block⟩) :
    ∃ path, .declare path ⟨⟨name, block, ty⟩, []⟩ ∈ es ∧ block = f.block := by
  have hname : found = name := by simpa using List.find?_some hfind
  have hmem := List.mem_of_find?_eq_some hfind
  rw [h.symbols f hf] at hmem
  obtain ⟨⟨⟨name', block', ty'⟩, sizes⟩, hd, hsymbol⟩ := List.mem_map.mp hmem
  obtain ⟨hdeclared, hblock⟩ := List.mem_filter.mp hd
  obtain ⟨path, hpath⟩ := mem_declarations.mp hdeclared
  simp only [Declaration.symbol, Symbol.mk.injEq] at hsymbol
  obtain ⟨rfl, hkind, rfl, rfl⟩ := hsymbol
  have hsizes : sizes = [] := by
    cases sizes with
    | nil => rfl
    | cons size rest => exact absurd hkind (by simp [Scopes.kindOf])
  subst hname hsizes
  exact ⟨path, hpath, of_decide_eq_true hblock⟩

theorem find?_ne_none (h : Tracks es s) {f : Frame} (hf : f ∈ s.inner) {path : List Nat}
    {d : Declaration} (hd : .declare path d ∈ es) (hblock : d.target.block = f.block) :
    f.find? d.target.name ≠ none := by
  intro hnone
  have hdeclared : d ∈ declaredIn es f.block :=
    List.mem_filter.mpr ⟨mem_declarations.mpr ⟨path, hd⟩, decide_eq_true hblock⟩
  have hsymbol : d.symbol ∈ f.symbols := by
    rw [h.symbols f hf]
    exact List.mem_map_of_mem hdeclared
  have habsent := List.find?_eq_none.mp hnone d.symbol hsymbol
  exact habsent (decide_eq_true rfl)

/-- A name found in the frames is bound by the entries. -/
theorem binds (h : Tracks es s) {name : String} {v : Variable} (hv : s.scalar? name = some v) :
    Binds es s.path v := by
  obtain ⟨found, hlookup, rfl⟩ := Scopes.lookup_of_scalar? hv
  -- The global frame holds functions only, so that the name is found in an open block.
  have hinner : s.inner.findSome? (fun f => f.find? v.name) =
      some ⟨found, .scalar, v.ty, v.block⟩ := by
    rw [Scopes.lookup, Scopes.frames, List.findSome?_append, Option.or_eq_some_iff] at hlookup
    rcases hlookup with hinner | ⟨-, hglobal⟩
    · exact hinner
    · rw [List.findSome?_singleton] at hglobal
      exact absurd (h.functions _ (List.mem_of_find?_eq_some hglobal)) (by simp)
  obtain ⟨nearer, f, further, hsplit, hfind, hnone⟩ := List.findSome?_eq_some_iff.mp hinner
  have hf : f ∈ s.inner := by simp [hsplit]
  have hsuffix : f :: further <:+ s.inner := ⟨nearer, hsplit.symm⟩
  obtain ⟨outer, houter, hblock⟩ := h.declared_of_find? hf hfind
  have hpath := h.around f further hsuffix outer _ houter hblock
  refine ⟨outer, houter, hpath ▸ hsuffix.map Frame.block, ?_⟩
  intro outer' d hd hname hle
  obtain ⟨frames, hframes, rfl⟩ := List.suffix_map_iff.mp hle
  -- A longer path belongs to one of the nearer frames, none of which has the name.
  refine Nat.le_of_not_lt fun hlonger => ?_
  rw [hpath, List.length_map, List.length_map] at hlonger
  cases frames with
  | nil => exact absurd hlonger (by simp)
  | cons g rest =>
    have hg : g ∈ nearer := by
      have hbeyond := List.suffix_of_suffix_length_le hsuffix hframes (Nat.le_of_lt hlonger)
      rcases List.suffix_cons_iff.mp hbeyond with heq | ⟨between, hbetween⟩
      · rw [heq] at hlonger
        exact absurd hlonger (Nat.lt_irrefl _)
      · obtain ⟨nearest, hnearest⟩ := hframes
        have happend : (nearest ++ g :: between) ++ f :: further = nearer ++ f :: further := by
          rw [← hsplit, ← hnearest, ← hbetween]
          simp
        rw [← List.append_cancel_right happend]
        simp
    have hgs : g ∈ s.inner := hframes.subset (List.mem_cons_self ..)
    have hhead := h.numbered _ d hd
    rw [List.map_cons, List.head?_cons, Option.some.injEq] at hhead
    exact h.find?_ne_none hgs hd hhead.symm (hname ▸ hnone g hg)

theorem assign (h : Tracks es s) (path : List Nat) (target : Variable) (value : Expr) :
    Tracks (es ++ [.assign path target value]) s := by
  have hmem : ∀ {p d}, .declare p d ∈ es ++ [.assign path target value] → .declare p d ∈ es := by
    intro p d hd
    simpa using hd
  refine ⟨fun p d hd => h.numbered p d (hmem hd), ?_, ?_, h.bounded, h.nodup, ?_,
    fun f rest hsuffix p d hd => h.around f rest hsuffix p d (hmem hd), h.functions⟩
  · rw [declarations_assign]
    exact h.distinct
  · rw [declarations_assign]
    exact h.opened
  · intro f hf
    rw [declaredIn, declarations_assign]
    exact h.symbols f hf

theorem openFrame (h : Tracks es s) (hs : s.inner ≠ []) : Tracks es s.openFrame := by
  -- The new number exceeds all those in use, so that nothing is declared under it yet.
  have hnext : s.nextBlock = s.blocks + 1 := if_neg hs
  have hfresh : declaredIn es s.nextBlock = [] := by
    rw [declaredIn, List.filter_eq_nil_iff]
    intro d hd heq
    have hle := h.opened d hd
    have heq := of_decide_eq_true heq
    omega
  refine ⟨h.numbered, h.distinct, ?_, ?_, ?_, ?_, ?_, h.functions⟩
  · intro d hd
    have hle := h.opened d hd
    show d.target.block ≤ s.nextBlock
    omega
  · show ∀ f ∈ .new s.nextBlock :: s.inner, f.block ≤ s.nextBlock
    rw [List.forall_mem_cons]
    refine ⟨Nat.le_refl _, fun f hf => ?_⟩
    have hle := h.bounded f hf
    omega
  · refine List.nodup_cons.mpr ⟨?_, h.nodup⟩
    intro hmem
    obtain ⟨f, hf, hblock⟩ := List.mem_map.mp hmem
    have hle := h.bounded f hf
    have hblock : f.block = s.nextBlock := hblock
    omega
  · show ∀ f ∈ .new s.nextBlock :: s.inner, _
    rw [List.forall_mem_cons]
    refine ⟨?_, h.symbols⟩
    show [] = (declaredIn es s.nextBlock).map Declaration.symbol
    rw [hfresh]
    rfl
  · intro f rest hsuffix path d hd hblock
    rcases List.suffix_cons_iff.mp hsuffix with heq | hsuffix
    · cases heq
      have hle := h.opened d (mem_declarations.mpr ⟨path, hd⟩)
      have hblock : d.target.block = s.nextBlock := hblock
      omega
    · exact h.around f rest hsuffix path d hd hblock

theorem closeFrame (h : Tracks es s) : Tracks es s.closeFrame := by
  have htail : s.inner.tail <:+ s.inner := List.tail_suffix s.inner
  refine ⟨h.numbered, h.distinct, h.opened, fun f hf => h.bounded f (htail.subset hf), ?_,
    fun f hf => h.symbols f (htail.subset hf),
    fun f rest hsuffix => h.around f rest (hsuffix.trans htail), h.functions⟩
  exact h.nodup.sublist (htail.map Frame.block).sublist

theorem insert {f : Frame} {rest : List Frame} {global : Frame} {blocks : Nat}
    (h : Tracks es ⟨f :: rest, global, blocks⟩) {d : Declaration}
    (hblock : d.target.block = f.block) (fresh : f.find? d.target.name = none) :
    Tracks (es ++ [.declare ((f :: rest).map Frame.block) d])
      ⟨f.insert d.symbol :: rest, global, blocks⟩ := by
  have hmem : ∀ {path d'}, .declare path d' ∈ es ++ [.declare ((f :: rest).map Frame.block) d] →
      .declare path d' ∈ es ∨ path = (f :: rest).map Frame.block ∧ d' = d := by
    intro path d' hd
    simpa using hd
  have hothers : ∀ g ∈ rest, f.block ≠ g.block := by
    intro g hg heq
    exact (List.nodup_cons.mp h.nodup).1 (List.mem_map.mpr ⟨g, hg, heq.symm⟩)
  refine ⟨?_, ?_, ?_, ?_, h.nodup, ?_, ?_, h.functions⟩
  · intro path d' hd
    rcases hmem hd with hold | ⟨rfl, rfl⟩
    · exact h.numbered path d' hold
    · rw [hblock]
      rfl
  · have hkey : d.key ∉ (declarations es).map Declaration.key := by
      intro hmem
      obtain ⟨d', hd', hkey⟩ := List.mem_map.mp hmem
      obtain ⟨path, hpath⟩ := mem_declarations.mp hd'
      obtain ⟨hname, hblock'⟩ := Prod.mk.inj hkey
      have hfound := h.find?_ne_none (List.mem_cons_self ..) hpath (hblock'.trans hblock)
      exact hfound (hname ▸ fresh)
    rw [declarations_declare, List.map_append, List.map_singleton, List.nodup_append]
    refine ⟨h.distinct, by simp, ?_⟩
    intro key hold key' hnew heq
    rw [heq, List.mem_singleton.mp hnew] at hold
    exact hkey hold
  · rw [declarations_declare, List.forall_mem_append, List.forall_mem_singleton, hblock]
    exact ⟨h.opened, h.bounded f (List.mem_cons_self ..)⟩
  · exact List.forall_mem_cons.mpr (List.forall_mem_cons.mp h.bounded)
  · refine List.forall_mem_cons.mpr ⟨?_, fun g hg => ?_⟩
    · have hsymbols := h.symbols f (List.mem_cons_self ..)
      show f.symbols ++ [d.symbol] = (declaredIn _ f.block).map Declaration.symbol
      simp [hsymbols, declaredIn, hblock]
    · have hsymbols := h.symbols g (List.mem_cons_of_mem _ hg)
      simp [hsymbols, declaredIn, hblock, hothers g hg]
  · intro g further hsuffix path d' hd hd'
    rcases hmem hd with hold | ⟨rfl, rfl⟩
    · rcases List.suffix_cons_iff.mp hsuffix with heq | hrest
      · cases heq
        exact h.around f rest (List.suffix_refl _) path d' hold hd'
      · exact h.around g further (hrest.trans (List.suffix_cons f rest)) path d' hold hd'
    · rcases List.suffix_cons_iff.mp hsuffix with heq | hrest
      · cases heq
        rfl
      · exact absurd (hblock.symm.trans hd') (hothers g (hrest.subset (List.mem_cons_self ..)))

theorem declare (h : Tracks es s) (hs : s.inner ≠ []) (ty : Ty) (v : VariableTree)
    (fresh : s.Fresh v.name) :
    Tracks (es ++ [.declare s.path (v.declaration s ty)]) (v.declare s ty) := by
  obtain ⟨inner, global, blocks⟩ := s
  cases inner with
  | nil => exact absurd rfl hs
  | cons f rest => exact h.insert rfl fresh

end Tracks

/-! ### The variables of an expression -/

/-- A variable that the operand reads is known by some name. -/
def Factor.Known (s : Scopes) (f : Factor) : Prop :=
  ∀ v, f = .read v → ∃ name, s.scalar? name = some v

section Known
variable {s : Scopes}

theorem known_factor {f : FactorTree} {g : Factor} (h : f.elaborate s = some g) : g.Known s := by
  intro v hv
  subst hv
  cases f with
  | integer lexeme => cases h
  | real lexeme => cases h
  | name text =>
    obtain ⟨v', hv', heq⟩ := Option.map_eq_some_iff.mp h
    cases heq
    exact ⟨text, hv'⟩

theorem known_factors {lead : Option Operator} {t t' : Term} {tail : List (Bool × FactorTree)}
    (ht : ∀ f ∈ t.factors lead, f.2.Known s) (h : elaborateFactors s t tail = some t') :
    ∀ f ∈ t'.factors lead, f.2.Known s := by
  induction tail generalizing t with
  | nil =>
    cases h
    exact ht
  | cons step tail ih =>
    obtain ⟨g, hg, hrest⟩ := Option.bind_eq_some_iff.mp h
    refine ih ?_ hrest
    rw [Term.factors_push, List.forall_mem_append, List.forall_mem_singleton]
    exact ⟨ht, known_factor hg⟩

theorem known_term {lead : Option Operator} {t : TermTree} {t' : Term}
    (h : t.elaborate s = some t') : ∀ f ∈ t'.factors lead, f.2.Known s := by
  obtain ⟨g, hg, hrest⟩ := Option.bind_eq_some_iff.mp h
  refine known_factors ?_ hrest
  exact List.forall_mem_singleton.mpr (known_factor hg)

theorem known_terms {e e' : Expr} {tail : List (Bool × TermTree)}
    (he : ∀ f ∈ e.factors, f.2.Known s) (h : elaborateTerms s e tail = some e') :
    ∀ f ∈ e'.factors, f.2.Known s := by
  induction tail generalizing e with
  | nil =>
    cases h
    exact he
  | cons step tail ih =>
    obtain ⟨t, ht, hrest⟩ := Option.bind_eq_some_iff.mp h
    refine ih ?_ hrest
    rw [Expr.factors_push, List.forall_mem_append]
    exact ⟨he, known_term ht⟩

theorem known_expr {e : ExprTree} {e' : Expr} (h : e.elaborate s = some e') :
    ∀ f ∈ e'.factors, f.2.Known s := by
  obtain ⟨t, ht, hrest⟩ := Option.bind_eq_some_iff.mp h
  refine known_terms ?_ hrest
  rw [Expr.factors_ofTerm]
  exact known_term ht

theorem exists_scalar?_of_assignment {a : AssignmentTree} {target : Variable} {value : Expr}
    (h : a.elaborate s = some (target, value)) :
    ∀ v ∈ target :: value.reads, ∃ name, s.scalar? name = some v := by
  obtain ⟨htarget, hvalue, -⟩ := a.elaborate_eq_some h
  refine List.forall_mem_cons.mpr ⟨⟨_, htarget⟩, fun v hv => ?_⟩
  obtain ⟨f, hf, hread⟩ := List.mem_filterMap.mp hv
  have hknown := known_expr hvalue f hf
  split at hread
  · next v' hf' =>
    cases hread
    exact hknown v hf'
  · cases hread

end Known

/-! ### Items extend the entries -/

/-- Each assignment uses bound variables and has a value that fits, where the entries
stand after those of `before`. -/
def Sound : List Entry → List Entry → Prop
  | _, [] => True
  | before, .declare path d :: rest => Sound (before ++ [.declare path d]) rest
  | before, .assign path target value :: rest =>
    ((∀ v ∈ target :: value.reads, Binds before path v) ∧ Fits target.ty value.ty) ∧
      Sound (before ++ [.assign path target value]) rest

theorem sound_append {before es es' : List Entry} (h : Sound before es)
    (h' : Sound (before ++ es) es') : Sound before (es ++ es') := by
  induction es generalizing before with
  | nil => simpa using h'
  | cons e es ih =>
    have hassoc : before ++ e :: es = before ++ [e] ++ es := by simp
    rw [hassoc] at h'
    cases e with
    | declare path d => exact ih h h'
    | assign path target value => exact ⟨h.1, ih h.2 h'⟩

theorem sound_split {before es after : List Entry} {path : List Nat} {target : Variable}
    {value : Expr} (h : Sound before (es ++ .assign path target value :: after)) :
    (∀ v ∈ target :: value.reads, Binds (before ++ es) path v) ∧ Fits target.ty value.ty := by
  induction es generalizing before with
  | nil =>
    rw [List.append_nil]
    exact h.1
  | cons e es ih =>
    have hassoc : before ++ e :: es = before ++ [e] ++ es := by simp
    rw [hassoc]
    cases e with
    | declare path' d => exact ih h
    | assign path' target' value' => exact ih h.2

/-- The items of `b` lead from one state of the scopes to another. -/
structure Extends (es : List Entry) (s : Scopes) (b : Block) (s' : Scopes) : Prop where
  tracks : Tracks (es ++ b.entriesFrom s.path (s.blocks + 1)) s'
  sound : Sound es (b.entriesFrom s.path (s.blocks + 1))
  path : s'.path = s.path
  blocks : s'.blocks = s.blocks + b.blocks

section Extends
variable {es : List Entry} {s s₁ s' : Scopes} {b b₁ b₂ : Block}

theorem extends_empty (h : Tracks es s) : Extends es s .empty s := by
  refine ⟨?_, trivial, rfl, rfl⟩
  rw [Block.entriesFrom, List.append_nil]
  exact h

theorem Extends.append (h : Extends es s b₁ s₁)
    (h' : Extends (es ++ b₁.entriesFrom s.path (s.blocks + 1)) s₁ b₂ s') :
    Extends es s (b₁ ++ b₂) s' := by
  obtain ⟨-, sound, path, blocks⟩ := h
  obtain ⟨tracks', sound', path', blocks'⟩ := h'
  have hnext : s₁.blocks + 1 = s.blocks + 1 + b₁.blocks := by omega
  rw [path, hnext] at tracks' sound'
  refine ⟨?_, ?_, path'.trans path, ?_⟩
  · rw [Block.entriesFrom_append, ← List.append_assoc]
    exact tracks'
  · rw [Block.entriesFrom_append]
    exact sound_append sound sound'
  · rw [Block.blocks_append]
    omega

theorem extends_declare (h : Tracks es s) (hs : s.inner ≠ []) (ty : Ty) (v : VariableTree)
    (fresh : s.Fresh v.name) :
    Extends es s (.declare (v.declaration s ty) .empty) (v.declare s ty) := by
  refine ⟨h.declare hs ty v fresh, trivial, ?_, ?_⟩
  · obtain ⟨inner, global, blocks⟩ := s
    cases inner <;> rfl
  · obtain ⟨inner, global, blocks⟩ := s
    cases inner <;> rfl

theorem extends_nest (hs : s.inner ≠ []) (h : Extends es s.openFrame b s') :
    Extends es s (.nest b .empty) s'.closeFrame := by
  obtain ⟨tracks, sound, path, blocks⟩ := h
  have hnext : s.nextBlock = s.blocks + 1 := if_neg hs
  have hpath : s.openFrame.path = (s.blocks + 1) :: s.path := by
    rw [← hnext]
    rfl
  have hblocks : s.openFrame.blocks = s.blocks + 1 := hnext
  rw [hpath, hblocks] at tracks sound
  rw [hpath] at path
  rw [hblocks] at blocks
  refine ⟨?_, ?_, ?_, ?_⟩
  · rw [Block.entriesFrom, Block.entriesFrom, List.append_nil]
    exact tracks.closeFrame
  · rw [Block.entriesFrom, Block.entriesFrom, List.append_nil]
    exact sound
  · rw [Scopes.path, Scopes.closeFrame, List.map_tail]
    exact congrArg List.tail path
  · show s'.blocks = s.blocks + (b.blocks + 1 + 0)
    omega

theorem extends_assign (h : Tracks es s) {a : AssignmentTree} {target : Variable} {value : Expr}
    (ha : a.elaborate s = some (target, value)) :
    Extends es s (.assign target value .empty) s := by
  refine ⟨h.assign s.path target value, ⟨⟨?_, (a.elaborate_eq_some ha).2.2⟩, trivial⟩, rfl, rfl⟩
  intro v hv
  obtain ⟨name, hname⟩ := exists_scalar?_of_assignment ha v hv
  exact h.binds hname

theorem extends_variables (h : Tracks es s) (hs : s.inner ≠ []) {ty : Ty} {vs : List VariableTree}
    (hvs : elaborateVariables ty vs s = some (b, s')) : Extends es s b s' := by
  induction vs generalizing es s b with
  | nil =>
    cases hvs
    exact extends_empty h
  | cons v vs ih =>
    obtain ⟨fresh, later, hlater, rfl⟩ := elaborateVariables_cons_eq_some hvs
    have hfirst := extends_declare h hs ty v fresh
    have hinner := (s.sameAround_declare hs ty v).inner_ne_nil hs
    exact hfirst.append (ih hfirst.tracks hinner hlater)

/-- Elaborated items keep the frames in step with the entries. -/
theorem Elaborates.extends {items : ItemTree} (hitems : Elaborates items s b s')
    (hs : s.inner ≠ []) (h : Tracks es s) : Extends es s b s' := by
  -- Each rule extends the entries by its first part, and the state after it tracks them again.
  induction hitems generalizing es with
  | nil s => exact extends_empty h
  | declare first later ih =>
    have hfirst := extends_variables h hs first
    have hinner := (elaborateVariables_around hs first).inner_ne_nil hs
    exact hfirst.append (ih hinner hfirst.tracks)
  | assign first later ih =>
    have hfirst := extends_assign h first
    exact hfirst.append (ih hs hfirst.tracks)
  | @block inner rest s s₁ s' b₁ b₂ room first later ihFirst ih =>
    have hfirst := extends_nest hs (ihFirst (List.cons_ne_nil _ _) (h.openFrame hs))
    have hinner : s₁.closeFrame.inner ≠ [] := by
      rw [(Scopes.sameAround_closeFrame (first.around (List.cons_ne_nil _ _))).1]
      exact hs
    exact hfirst.append (ih hinner hfirst.tracks)

end Extends

/-! ### Subprograms -/

theorem tracks_body {s : Scopes} (h : Outermost s) : Tracks [] s.openFrame := by
  have hnext : s.nextBlock = 0 := if_pos h.inner
  have hopened : s.openFrame = ⟨[.new 0], s.global, 0⟩ := by
    rw [Scopes.openFrame, hnext, h.inner]
  rw [hopened]
  constructor
  · simp
  · exact List.nodup_nil
  · simp [declarations]
  · simp [Frame.new]
  · simp [Scopes.path]
  · simp [Frame.new, declaredIn, declarations]
  · simp
  · exact h.functions

theorem wellBound_of_elaborateBody {items : ItemTree} {s s' : Scopes} {b : Block}
    (hs : Outermost s) (h : items.elaborateBody s = some (b, s')) : b.WellBound := by
  obtain ⟨s₁, hitems, -⟩ := elaborateBody_eq_some h
  obtain ⟨tracks, sound, -, -⟩ := hitems.extends (List.cons_ne_nil _ _) (tracks_body hs)
  have hentries : b.entriesFrom s.openFrame.path (s.openFrame.blocks + 1) = b.entries := by
    have hnext : s.nextBlock = 0 := if_pos hs.inner
    rw [Scopes.path, Scopes.openFrame, hnext, hs.inner]
    rfl
  rw [List.nil_append, hentries] at tracks
  rw [hentries] at sound
  refine ⟨tracks.numbered, tracks.distinct, ?_, ?_⟩
  · intro before path target value after hsplit v hv
    rw [hsplit] at sound
    have hbinds := (sound_split sound).1 v hv
    rw [List.nil_append] at hbinds
    refine ⟨?_, hbinds⟩
    obtain ⟨outer, houter, -⟩ := hbinds
    have hdeclared : ⟨v, []⟩ ∈ declarations b.entries := by
      refine mem_declarations.mpr ⟨outer, ?_⟩
      rw [hsplit]
      exact List.mem_append_left _ houter
    have hkey : (v.name, v.block) ∈ (declarations b.entries).map Declaration.key :=
      List.mem_map.mpr ⟨⟨v, []⟩, hdeclared, rfl⟩
    rw [tracks.distinct.count, if_pos hkey]
  · intro path target value hmem
    obtain ⟨before, after, hsplit⟩ := List.append_of_mem hmem
    rw [hsplit] at sound
    exact (sound_split sound).2

theorem wellBound_of_elaborateFunctions {fs : List FunctionTree} {s s' : Scopes}
    {gs : List Function} (hs : Outermost s) (h : elaborateFunctions fs s = some (gs, s')) :
    ∀ g ∈ gs, g.body.WellBound := by
  induction fs generalizing s gs with
  | nil =>
    cases h
    simp
  | cons f fs ih =>
    obtain ⟨body, s₁, later, hbody, hlater, rfl⟩ := elaborateFunctions_cons_eq_some h
    have houter := (hs.declareFunction f).1
    refine List.forall_mem_cons.mpr ⟨wellBound_of_elaborateBody houter hbody, ?_⟩
    exact ih (outermost_of_elaborateBody houter hbody).1 hlater

theorem wellBound_of_readProgram {source : String} {p : Program}
    (h : (readProgram source).result = .ok p) : ∀ body ∈ p.bodies, body.WellBound := by
  obtain ⟨ts, ending, tree, -, -, helaborate⟩ := (readProgram_eq_ok_iff source p).mp h
  obtain ⟨⟨functions, s⟩, hfunctions, hrest⟩ := Option.bind_eq_some_iff.mp helaborate
  obtain ⟨⟨main, s'⟩, hmain, heq⟩ := Option.bind_eq_some_iff.mp hrest
  cases heq
  rw [Program.bodies, List.forall_mem_append, List.forall_mem_map, List.forall_mem_singleton]
  exact ⟨wellBound_of_elaborateFunctions outermost_new hfunctions,
    wellBound_of_elaborateBody (outermost_of_elaborateFunctions outermost_new hfunctions) hmain⟩

/-- The inner `a` hides the outer one up to the end of its block. -/
def Block.hiding : Block :=
  .declare ⟨⟨"a", 0, .int⟩, []⟩ (.nest
    (.declare ⟨⟨"a", 1, .real⟩, []⟩ (.assign ⟨"a", 1, .real⟩ ⟨⟨.real "1.5", []⟩, []⟩ .empty))
    (.assign ⟨"a", 0, .int⟩ ⟨⟨.integer "2", []⟩, []⟩ .empty))

theorem wellBound_hiding :
    (readProgram "main() \x7b int a; \x7b double a; a = 1.5; \x7d a = 2; \x7d").result =
      .ok ⟨[], .hiding⟩ ∧ Block.hiding.WellBound := by
  have h : (readProgram "main() \x7b int a; \x7b double a; a = 1.5; \x7d a = 2; \x7d").result =
      .ok ⟨[], .hiding⟩ := Traced.result_eq_ok_iff.mpr (by decide +kernel)
  exact ⟨h, wellBound_of_readProgram h .hiding (List.mem_singleton.mpr rfl)⟩

end BlockLang
