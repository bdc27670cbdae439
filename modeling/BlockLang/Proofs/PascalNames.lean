import BlockLang.Pascal.Listing
import BlockLang.Proofs.Bodies
import Mathlib.Data.List.Forall2
import Mathlib.Data.List.Nodup
import Mathlib.Data.List.Perm.Subperm
import Mathlib.Data.Nat.Find

/-!
# Names in a Pascal listing

Pascal has one name space for a subprogram and its variables, and it ignores case. Names are
claimed one after another from a `Namespace`, whose names stay pairwise distinct
(`nodup_hoist`, `nodup_ofFunctions`), so that no two names of a listing clash, whatever the
program. In the listing of an accepted program each use of a variable has the name of the entry
of its own declaration.
-/

namespace BlockLang.Pascal

/-! ### The first free name -/

theorem fold_append (a b : String) : fold (a ++ b) = fold a ++ fold b := by
  simp [fold]

theorem toLower_of_isDigit {c : Char} (h : c.isDigit = true) : c.toLower = c := by
  have hnine : c.toNat ≤ '9'.toNat := (Char.isDigit_iff_toNat.mp h).2
  unfold Char.toLower
  refine dif_neg ?_
  rintro ⟨hletter, -⟩
  have hge : 'A'.toNat ≤ c.toNat := hletter
  exact absurd (Nat.le_trans hge hnine) (by decide)

theorem fold_toString (k : Nat) : fold (toString k) = toString k := by
  have hdigits : ∀ c ∈ (toString k).toList, c.toLower = c :=
    fun c hc => toLower_of_isDigit (isDigit_of_mem_toString hc)
  rw [fold, List.map_congr_left hdigits, List.map_id', String.ofList_toList]

theorem fold_candidate (base : String) (k : Nat) :
    fold (candidate base k) = candidate (fold base) k := by
  have hmark : fold "_" = "_" := by decide
  unfold candidate
  split
  · rfl
  · rw [numbered, fold_append, fold_append, hmark, fold_toString, numbered]

theorem numbered_injective (base : String) : Function.Injective (numbered base) := by
  intro i j h
  have hdigits : toString i = toString j := by
    have hlist := congrArg String.toList h
    simp only [numbered, String.toList_append] at hlist
    exact String.toList_inj.mp (List.append_cancel_left hlist)
  rw [Nat.toString_eq_ofList_toDigits, Nat.toString_eq_ofList_toDigits,
    String.ofList_inj] at hdigits
  have hvalue := congrArg (fun ds => Nat.ofDigitChars 10 ds 0) hdigits
  simpa only [Nat.ofDigitChars_toDigits (by decide : 1 < 10) (by decide)] using hvalue

theorem numbered_ne (base : String) (k : Nat) : numbered base k ≠ base := by
  intro h
  have hlength := congrArg String.length h
  simp only [numbered, String.length_append] at hlength
  have hmark : "_".length = 1 := by decide
  omega

theorem candidate_injective (base : String) : Function.Injective (candidate base) := by
  intro i j h
  unfold candidate at h
  split at h
  · split at h
    · omega
    · exact absurd h.symm (numbered_ne base j)
  · split at h
    · exact absurd h (numbered_ne base i)
    · exact numbered_injective base h

namespace Namespace

theorem isFree_iff (n : Namespace) (name : String) :
    n.isFree name = true ↔ fold name ∉ n.taken := by
  simp [isFree]

/-- Distinct candidates, all of them taken, are no more than the names taken. -/
theorem le_length_taken (n : Namespace) (base : String) {m : Nat}
    (h : ∀ k < m, ¬n.isFree (candidate base k)) : m ≤ n.taken.length := by
  have hnodup : ((List.range m).map (candidate (fold base))).Nodup :=
    List.nodup_range.map (candidate_injective (fold base))
  have hsubset : (List.range m).map (candidate (fold base)) ⊆ n.taken := by
    intro name hname
    obtain ⟨k, hk, rfl⟩ := List.mem_map.mp hname
    have htaken := h k (List.mem_range.mp hk)
    rw [isFree_iff, not_not, fold_candidate] at htaken
    exact htaken
  have hle := (hnodup.subperm hsubset).length_le
  rwa [List.length_map, List.length_range] at hle

theorem firstFree_eq (n : Namespace) (base : String) {steps k m : Nat} (hle : k ≤ m)
    (hsteps : m ≤ k + steps) (free : n.isFree (candidate base m))
    (taken : ∀ j, k ≤ j → j < m → ¬n.isFree (candidate base j)) :
    n.firstFree base steps k = candidate base m := by
  induction steps generalizing k with
  | zero =>
    have heq : k = m := by omega
    rw [firstFree, heq]
  | succ steps ih =>
    rw [firstFree]
    rcases Nat.eq_or_lt_of_le hle with heq | hlt
    · rw [heq, if_pos free]
    · rw [if_neg (taken k (Nat.le_refl k) hlt)]
      exact ih hlt (by omega) (fun j hj => taken j (by omega))

/-- The name handed out is the first free candidate, and no more candidates are tried before
it than there are names taken. -/
theorem freeName_eq (n : Namespace) (base : String) :
    ∃ m ≤ n.taken.length, n.freeName base = candidate base m ∧ n.isFree (candidate base m) ∧
      ∀ k < m, ¬n.isFree (candidate base k) := by
  have hexists : ∃ m, n.isFree (candidate base m) = true := by
    by_contra hnone
    have hall : ∀ k < n.taken.length + 1, ¬n.isFree (candidate base k) := by
      intro k _ hk
      exact hnone ⟨k, hk⟩
    have hle := n.le_length_taken base hall
    omega
  have hbefore : ∀ k < Nat.find hexists, ¬n.isFree (candidate base k) :=
    fun k hk => Nat.find_min hexists hk
  have hle := n.le_length_taken base hbefore
  refine ⟨Nat.find hexists, hle, ?_, Nat.find_spec hexists, hbefore⟩
  exact n.firstFree_eq base (Nat.zero_le _) (by omega) (Nat.find_spec hexists)
    (fun j _ => hbefore j)

theorem fold_freeName_notMem (n : Namespace) (base : String) :
    fold (n.freeName base) ∉ n.taken := by
  obtain ⟨m, -, heq, free, -⟩ := n.freeName_eq base
  rw [heq]
  exact (n.isFree_iff _).mp free

theorem freeName_of_isFree (n : Namespace) (base : String) (h : n.isFree base) :
    n.freeName base = base := by
  obtain ⟨m, -, heq, -, hbefore⟩ := n.freeName_eq base
  have hzero : m = 0 := by
    by_contra hpos
    exact hbefore 0 (by omega) h
  rw [heq, hzero]
  rfl

end Namespace

/-! ### Names taken -/

theorem nodup_reserved : (reserved.map fold).Nodup := by
  decide +kernel

/-- No two names are equal ignoring case, and none is a reserved word. -/
def Apart (names : List String) : Prop :=
  (names.map fold).Nodup ∧ ∀ name ∈ names, fold name ∉ reserved.map fold

theorem apart_of_nodup {names : List String}
    (h : ((names.map fold).reverse ++ reserved.map fold).Nodup) : Apart names := by
  obtain ⟨hnames, -, hdisjoint⟩ := List.nodup_append.mp h
  refine ⟨List.nodup_reverse.mp hnames, ?_⟩
  intro name hname hreserved
  exact hdisjoint _ (List.mem_reverse.mpr (List.mem_map_of_mem hname)) _ hreserved rfl

namespace Namespace

theorem nodup_claim {n : Namespace} (h : n.taken.Nodup) (base : String) :
    (n.claim base).2.taken.Nodup :=
  List.nodup_cons.mpr ⟨n.fold_freeName_notMem base, h⟩

theorem claim_new_of_notReserved {name : String} (h : fold name ∉ reserved.map fold) :
    new.claim name = (name, ⟨fold name :: reserved.map fold, []⟩) := by
  have hfree : new.freeName name = name := new.freeName_of_isFree name ((new.isFree_iff name).mpr h)
  rw [claim, hfree]
  rfl

end Namespace

theorem hoist_declare (n : Namespace) (d : Declaration) (rest : Block) :
    hoist n (.declare d rest) =
      (⟨(n.bind d.target).1, d.sizes, d.target.ty⟩ :: (hoist (n.bind d.target).2 rest).1,
        (hoist (n.bind d.target).2 rest).2) := rfl

theorem hoist_nest (n : Namespace) (inner rest : Block) :
    hoist n (.nest inner rest) =
      ((hoist n inner).1 ++ (hoist (hoist n inner).2 rest).1, (hoist (hoist n inner).2 rest).2) :=
  rfl

/-- The names claimed for a block are added to those taken. -/
theorem taken_hoist (n : Namespace) (b : Block) :
    (hoist n b).2.taken = (((hoist n b).1.map Entry.name).map fold).reverse ++ n.taken := by
  induction b generalizing n with
  | empty => rfl
  | declare d rest ih =>
    rw [hoist_declare, ih]
    simp [Namespace.bind, Namespace.claim]
  | assign target value rest ih => exact ih n
  | nest inner rest ihInner ih =>
    rw [hoist_nest, ih, ihInner]
    simp

theorem nodup_hoist {n : Namespace} (h : n.taken.Nodup) (b : Block) :
    (hoist n b).2.taken.Nodup := by
  induction b generalizing n with
  | empty => exact h
  | declare d rest ih =>
    rw [hoist_declare]
    exact ih (Namespace.nodup_claim h _)
  | assign target value rest ih => exact ih h
  | nest inner rest ihInner ih =>
    rw [hoist_nest]
    exact ih (ihInner h)

theorem ofFunctions_cons (n : Namespace) (f : Function) (fs : List Function) :
    Routine.ofFunctions n (f :: fs) =
      .ofFunction (n.claim f.name).1 f :: Routine.ofFunctions (n.claim f.name).2 fs := rfl

theorem nodup_ofFunctions {n : Namespace} (h : n.taken.Nodup) (fs : List Function) :
    ((((Routine.ofFunctions n fs).map Routine.name).map fold).reverse ++ n.taken).Nodup := by
  induction fs generalizing n with
  | nil => exact h
  | cons f fs ih =>
    have hrest := ih (Namespace.nodup_claim h f.name)
    rw [ofFunctions_cons]
    simpa [Namespace.claim, Routine.ofFunction] using hrest

/-- Each function is listed under a candidate for its name that is not reserved. -/
theorem exists_of_mem_ofFunctions {n : Namespace} (h : reserved.map fold ⊆ n.taken)
    {fs : List Function} {r : Routine} (hr : r ∈ Routine.ofFunctions n fs) :
    ∃ f ∈ fs, ∃ k, fold (candidate f.name k) ∉ reserved.map fold ∧
      r = Routine.ofFunction (candidate f.name k) f := by
  induction fs generalizing n with
  | nil => cases hr
  | cons f fs ih =>
    rw [ofFunctions_cons] at hr
    rcases List.mem_cons.mp hr with rfl | hr
    · obtain ⟨k, -, hname, -⟩ := n.freeName_eq f.name
      have hfree := n.fold_freeName_notMem f.name
      rw [hname] at hfree
      refine ⟨f, List.mem_cons_self .., k, fun hreserved => hfree (h hreserved), ?_⟩
      rw [Namespace.claim, hname]
    · obtain ⟨f', hf', hlisted⟩ := ih (List.subset_cons_of_subset _ h) hr
      exact ⟨f', List.mem_cons_of_mem _ hf', hlisted⟩

/-- Each variable is listed under a candidate for its name that is not reserved. -/
theorem exists_of_mem_hoist {n : Namespace} (h : reserved.map fold ⊆ n.taken) {b : Block}
    {e : Entry} (he : e ∈ (hoist n b).1) :
    ∃ d ∈ b.declarations, ∃ k, fold e.name ∉ reserved.map fold ∧
      e = ⟨candidate (Namespace.baseName d.target) k, d.sizes, d.target.ty⟩ := by
  induction b generalizing n with
  | empty => cases he
  | declare d rest ih =>
    rw [hoist_declare] at he
    rcases List.mem_cons.mp he with rfl | he
    · obtain ⟨k, -, hname, -⟩ := n.freeName_eq (Namespace.baseName d.target)
      have hfree := n.fold_freeName_notMem (Namespace.baseName d.target)
      refine ⟨d, List.mem_cons_self .., k, fun hreserved => hfree (h hreserved), ?_⟩
      rw [← hname]
      rfl
    · obtain ⟨d', hd', hlisted⟩ := ih (List.subset_cons_of_subset _ h) he
      exact ⟨d', List.mem_cons_of_mem _ hd', hlisted⟩
  | assign target value rest ih => exact ih h he
  | nest inner rest ihInner ih =>
    rw [hoist_nest] at he
    rcases List.mem_append.mp he with he | he
    · obtain ⟨d, hd, hlisted⟩ := ihInner h he
      exact ⟨d, List.mem_append_left _ hd, hlisted⟩
    · have htaken : reserved.map fold ⊆ (hoist n inner).2.taken := by
        rw [taken_hoist]
        exact List.subset_append_of_subset_right _ h
      obtain ⟨d, hd, hlisted⟩ := ih htaken he
      exact ⟨d, List.mem_append_right _ hd, hlisted⟩

/-! ### The listing of a subprogram -/

/-- What is listed of a subprogram: its `var` section and its statements. -/
structure Part where
  entries : List Entry
  body : Body

/-- The subprograms of a listing, the main block last. -/
def Listing.parts (l : Listing) : List Part :=
  l.routines.map (fun r => ⟨r.entries, r.body⟩) ++ [⟨l.entries, l.body⟩]

/-- The variables that a listed expression names, in order. -/
def Formula.names (value : Formula) : List String :=
  value.filterMap (fun step => match step.2 with
    | .variable name => some name
    | _ => none)

/-- The variables that listed statements name, in order. -/
def Body.names : Body → List String
  | .empty => []
  | .assign target value rest => target :: Formula.names value ++ rest.names
  | .group inner rest => inner.names ++ rest.names

/-- The part lists the body with names claimed from a namespace that has the reserved words and
binds no variable yet. -/
def Lists (b : Block) (part : Part) : Prop :=
  ∃ n : Namespace, (n.taken.Nodup ∧ reserved.map fold ⊆ n.taken ∧ n.bound = []) ∧
    part = ⟨(hoist n b).1, .ofBlock (hoist n b).2 b⟩

theorem nodup_new : Namespace.new.taken.Nodup := nodup_reserved

theorem lists_claimed (base : String) (b : Block) :
    Lists b ⟨(hoist (Namespace.new.claim base).2 b).1,
      .ofBlock (hoist (Namespace.new.claim base).2 b).2 b⟩ :=
  ⟨_, ⟨Namespace.nodup_claim nodup_new base, List.subset_cons_self _ _, rfl⟩, rfl⟩

theorem lists_parts (p : Program) : List.Forall₂ Lists p.bodies (Listing.ofProgram p).parts := by
  have hfunctions : ∀ (n : Namespace) (fs : List Function), List.Forall₂ Lists
      (fs.map Function.body) ((Routine.ofFunctions n fs).map (fun r => ⟨r.entries, r.body⟩)) := by
    intro n fs
    induction fs generalizing n with
    | nil => exact .nil
    | cons f fs ih => exact .cons (lists_claimed _ f.body) (ih _)
  exact List.rel_append (hfunctions _ p.functions) (.cons (lists_claimed "main" p.main) .nil)

theorem exists_lists_of_mem {p : Program} {part : Part} (h : part ∈ (Listing.ofProgram p).parts) :
    ∃ b ∈ p.bodies, Lists b part := by
  have hlists := lists_parts p
  rw [← List.map_snd_zip (Nat.le_of_eq hlists.length_eq.symm)] at h
  obtain ⟨⟨b, part⟩, hmem, rfl⟩ := List.mem_map.mp h
  exact ⟨b, (List.of_mem_zip hmem).1, List.forall₂_zip hlists hmem⟩

theorem names_ofExpr (n : Namespace) (value : Expr) :
    (Formula.ofExpr n value).names = value.reads.map n.resolve := by
  rw [Formula.names, Formula.ofExpr, Expr.reads, List.filterMap_map, List.map_filterMap]
  congr 1
  funext step
  obtain ⟨op, f⟩ := step
  cases f <;> rfl

theorem names_ofBlock (n : Namespace) (b : Block) :
    (Body.ofBlock n b).names = b.uses.map n.resolve := by
  induction b with
  | empty => rfl
  | declare d rest ih => exact ih
  | assign target value rest ih =>
    rw [Body.ofBlock, Body.names, names_ofExpr, ih, Block.uses, List.map_append, List.map_cons]
  | nest inner rest ihInner ih =>
    rw [Body.ofBlock, Body.names, ihInner, ih, Block.uses, List.map_append]

/-- One entry for each declaration, with its sizes and its type. -/
theorem forall₂_hoist (n : Namespace) (b : Block) :
    List.Forall₂ (fun (d : Declaration) e => e.sizes = d.sizes ∧ e.ty = d.target.ty)
      b.declarations (hoist n b).1 := by
  induction b generalizing n with
  | empty => exact .nil
  | declare d rest ih => exact .cons ⟨rfl, rfl⟩ (ih _)
  | assign target value rest ih => exact ih n
  | nest inner rest ihInner ih => exact List.rel_append (ihInner n) (ih _)

/-- A declaration's key and the name of its entry. -/
def binding (x : Declaration × Entry) : (String × Nat) × String := (x.1.key, x.2.name)

theorem bound_hoist (n : Namespace) (b : Block) :
    (hoist n b).2.bound = ((b.declarations.zip (hoist n b).1).map binding).reverse ++ n.bound := by
  induction b generalizing n with
  | empty => rfl
  | declare d rest ih =>
    rw [hoist_declare, ih, Block.declarations, List.zip_cons_cons, List.map_cons,
      List.reverse_cons, List.append_assoc]
    rfl
  | assign target value rest ih => exact ih n
  | nest inner rest ihInner ih =>
    rw [hoist_nest, ih, ihInner, Block.declarations,
      List.zip_append (forall₂_hoist n inner).length_eq, List.map_append, List.reverse_append,
      List.append_assoc]

theorem lookup_of_mem {α β : Type} [BEq α] [LawfulBEq α] {l : List (α × β)} {a : α} {b : β}
    (hkeys : (l.map Prod.fst).Nodup) (h : (a, b) ∈ l) : l.lookup a = some b := by
  induction l with
  | nil => cases h
  | cons x l ih =>
    obtain ⟨hfirst, hrest⟩ := List.nodup_cons.mp hkeys
    rcases List.mem_cons.mp h with rfl | hmem
    · exact List.lookup_cons_self
    · have hne : (a == x.1) = false := by
        refine beq_false_of_ne fun heq => hfirst ?_
        rw [← heq]
        exact List.mem_map_of_mem (f := Prod.fst) hmem
      rw [List.lookup_cons, hne]
      exact ih hrest hmem

/-- A declared variable is printed under the name of its entry. -/
theorem resolve_hoist {n : Namespace} {b : Block} (hbound : n.bound = [])
    (hkeys : (b.declarations.map Declaration.key).Nodup) {d : Declaration} {e : Entry}
    (h : (d, e) ∈ b.declarations.zip (hoist n b).1) : (hoist n b).2.resolve d.target = e.name := by
  have hlength := (forall₂_hoist n b).length_eq
  have hfst : ((b.declarations.zip (hoist n b).1).map binding).map Prod.fst =
      b.declarations.map Declaration.key := by
    rw [List.map_map, show Prod.fst ∘ binding = Declaration.key ∘ Prod.fst from rfl,
      ← List.map_map, List.map_fst_zip (Nat.le_of_eq hlength)]
  have hnodup : ((hoist n b).2.bound.map Prod.fst).Nodup := by
    rw [bound_hoist, hbound, List.append_nil, List.map_reverse, hfst]
    exact List.nodup_reverse.mpr hkeys
  have hmem : (d.key, e.name) ∈ (hoist n b).2.bound := by
    rw [bound_hoist, hbound, List.append_nil, List.mem_reverse]
    exact List.mem_map.mpr ⟨(d, e), h, rfl⟩
  have hlookup := lookup_of_mem hnodup hmem
  rw [Namespace.resolve]
  exact congrArg (Option.getD · d.target.name) hlookup

/-! ### Names in the listing of an accepted program -/

/-- The declarations of a body, each with its entry. -/
def Part.pairs (part : Part) (b : Block) : List (Declaration × Entry) :=
  b.declarations.zip part.entries

section Lists
variable {b : Block} {part : Part}

theorem Lists.length_eq (h : Lists b part) : b.declarations.length = part.entries.length := by
  obtain ⟨n, -, rfl⟩ := h
  exact (forall₂_hoist n b).length_eq

theorem Lists.eq_of_fold_eq (h : Lists b part) {x y : Declaration × Entry}
    (hx : x ∈ part.pairs b) (hy : y ∈ part.pairs b) (heq : fold x.2.name = fold y.2.name) :
    x = y := by
  have hlength := h.length_eq
  have hnodup : ((part.pairs b).map (fun x => fold x.2.name)).Nodup := by
    have hsnd : (part.pairs b).map (fun x => fold x.2.name) =
        (part.entries.map Entry.name).map fold := by
      rw [Part.pairs, List.map_map, show (fun x : Declaration × Entry => fold x.2.name) =
        (fold ∘ Entry.name) ∘ Prod.snd from rfl, ← List.map_map,
        List.map_snd_zip (Nat.le_of_eq hlength.symm)]
    rw [hsnd]
    obtain ⟨n, ⟨hn, -, -⟩, rfl⟩ := h
    have htaken := nodup_hoist hn b
    rw [taken_hoist] at htaken
    exact List.nodup_reverse.mp (List.nodup_append.mp htaken).1
  exact List.inj_on_of_nodup_map hnodup hx hy heq

theorem Lists.eq_of_key_eq (h : Lists b part) (hb : b.WellBound) {x y : Declaration × Entry}
    (hx : x ∈ part.pairs b) (hy : y ∈ part.pairs b) (heq : x.1.key = y.1.key) : x = y := by
  have hnodup : ((part.pairs b).map (fun x => x.1.key)).Nodup := by
    rw [Part.pairs, show (fun x : Declaration × Entry => x.1.key) = Declaration.key ∘ Prod.fst
      from rfl, ← List.map_map, List.map_fst_zip (Nat.le_of_eq h.length_eq)]
    exact hb.nodup_keys
  exact List.inj_on_of_nodup_map hnodup hx hy heq

end Lists

/-- The `var` section lists the declarations one by one. -/
def Declares (b : Block) (part : Part) : Prop :=
  List.Forall₂ (fun (d : Declaration) e => e.sizes = d.sizes ∧ e.ty = d.target.ty)
    b.declarations part.entries

theorem Lists.declares {b : Block} {part : Part} (h : Lists b part) : Declares b part := by
  obtain ⟨n, -, rfl⟩ := h
  exact forall₂_hoist n b

/-- The names in the statements of a listed subprogram are those of its declarations. -/
structure KeepsNames (b : Block) (part : Part) : Prop where
  /-- Every use is printed under the name of the entry of its own declaration. -/
  uses : List.Forall₂ (fun v name => ∃ e, (⟨v, []⟩, e) ∈ part.pairs b ∧ e.name = name)
    b.uses part.body.names
  /-- Two uses are printed alike, ignoring case, only if they denote one declaration. -/
  same : ∀ x ∈ b.uses.zip part.body.names, ∀ y ∈ b.uses.zip part.body.names,
    fold x.2 = fold y.2 ↔ x.1.key = y.1.key

/-- A variable in use is printed under the name of the entry of its own declaration. -/
theorem exists_entry_of_mem_uses {n : Namespace} {b : Block} (hbound : n.bound = [])
    (hb : b.WellBound) {v : Variable} (hv : v ∈ b.uses) :
    ∃ e, (⟨v, []⟩, e) ∈ b.declarations.zip (hoist n b).1 ∧ (hoist n b).2.resolve v = e.name := by
  have hd := hb.mem_declarations hv
  rw [← List.map_fst_zip (Nat.le_of_eq (forall₂_hoist n b).length_eq)] at hd
  obtain ⟨⟨d, e⟩, he, rfl⟩ := List.mem_map.mp hd
  exact ⟨e, he, resolve_hoist hbound hb.nodup_keys he⟩

theorem keepsNames_of_lists {b : Block} {part : Part} (h : Lists b part) (hb : b.WellBound) :
    KeepsNames b part := by
  have huses : List.Forall₂ (fun v name => ∃ e, (⟨v, []⟩, e) ∈ part.pairs b ∧ e.name = name)
      b.uses part.body.names := by
    obtain ⟨n, ⟨-, -, hbound⟩, rfl⟩ := h
    rw [names_ofBlock, List.forall₂_map_right_iff, List.forall₂_same]
    intro v hv
    obtain ⟨e, he, hname⟩ := exists_entry_of_mem_uses hbound hb hv
    exact ⟨e, he, hname.symm⟩
  refine ⟨huses, ?_⟩
  rintro ⟨v, name⟩ hx ⟨w, name'⟩ hy
  obtain ⟨e, he, rfl⟩ := (List.forall₂_iff_zip.mp huses).2 hx
  obtain ⟨e', he', rfl⟩ := (List.forall₂_iff_zip.mp huses).2 hy
  constructor
  · intro hfold
    obtain ⟨hdeclared, -⟩ := Prod.mk.inj (h.eq_of_fold_eq he he' hfold)
    exact congrArg Declaration.key hdeclared
  · intro hkey
    obtain ⟨-, rfl⟩ := Prod.mk.inj (h.eq_of_key_eq hb he he' hkey)
    rfl

theorem apart_routine {name : String} (h : fold name ∉ reserved.map fold) (f : Function) :
    Apart (name :: (Routine.ofFunction name f).entries.map Entry.name) := by
  have hclaim := Namespace.claim_new_of_notReserved h
  have htaken := nodup_hoist (Namespace.nodup_claim nodup_new name) f.body
  rw [taken_hoist, hclaim] at htaken
  refine apart_of_nodup ?_
  have hentries : (Routine.ofFunction name f).entries =
      (hoist ⟨fold name :: reserved.map fold, []⟩ f.body).1 := by
    rw [Routine.ofFunction, hclaim]
  rw [hentries, List.map_cons, List.reverse_cons, List.append_assoc]
  exact htaken

theorem claim_main :
    Namespace.new.claim "main" = ("main", ⟨fold "main" :: reserved.map fold, []⟩) :=
  Namespace.claim_new_of_notReserved (by decide +kernel)

theorem apart_program (p : Program) :
    Apart ("main" :: ((Listing.ofProgram p).entries.map Entry.name ++
      (Listing.ofProgram p).routines.map Routine.name)) := by
  have hhoist := nodup_hoist (Namespace.nodup_claim nodup_new "main") p.main
  have htaken := nodup_ofFunctions hhoist p.functions
  rw [taken_hoist, claim_main] at htaken
  refine apart_of_nodup ?_
  have hlisting : Listing.ofProgram p = ⟨(hoist ⟨fold "main" :: reserved.map fold, []⟩ p.main).1,
      Routine.ofFunctions (hoist ⟨fold "main" :: reserved.map fold, []⟩ p.main).2 p.functions,
      .ofBlock (hoist ⟨fold "main" :: reserved.map fold, []⟩ p.main).2 p.main⟩ := by
    rw [Listing.ofProgram, claim_main]
  rw [hlisting, List.map_cons, List.map_append, List.reverse_cons, List.reverse_append,
    List.append_assoc, List.append_assoc]
  exact htaken

theorem subset_taken_hoist_main (p : Program) :
    reserved.map fold ⊆ (hoist (Namespace.new.claim "main").2 p.main).2.taken := by
  rw [taken_hoist, claim_main]
  exact List.subset_append_of_subset_right _ (List.subset_cons_self _ _)

theorem apart_routines {p : Program} {r : Routine} (hr : r ∈ (Listing.ofProgram p).routines) :
    Apart (r.name :: r.entries.map Entry.name) := by
  obtain ⟨f, -, k, hname, rfl⟩ := exists_of_mem_ofFunctions (subset_taken_hoist_main p) hr
  exact apart_routine hname f

end BlockLang.Pascal
