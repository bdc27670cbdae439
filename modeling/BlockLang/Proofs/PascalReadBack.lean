import BlockLang.Proofs.PascalNames
import BlockLang.Proofs.PascalReading

/-!
# Reading a Pascal listing back

The words of a listing obey the lexical rules of Pascal if the program was read from a text: names
stay names when they are numbered, and those that are claimed are not reserved. Its text is
therefore read as the listing itself (`read?_list`), and what holds of the names of the listing
holds of the names that stand in the text.
-/

namespace BlockLang.Pascal

/-! ### Listings are flat -/

theorem flat_ofExpr (n : Namespace) (value : Expr) : Formula.Flat (Formula.ofExpr n value) := by
  obtain ⟨f, steps, hfactors⟩ := value.exists_factors
  refine ⟨.ofFactor n f, steps.map (fun step => (step.1, .ofFactor n step.2)), ?_⟩
  simp [Formula.ofExpr, hfactors]

theorem flat_ofBlock (n : Namespace) (b : Block) : (Body.ofBlock n b).Flat := by
  induction b with
  | empty => exact trivial
  | declare d rest ih => exact ih
  | assign target value rest ih => exact ⟨flat_ofExpr n value, ih⟩
  | nest inner rest ihInner ih => exact ⟨ihInner, ih⟩

theorem mem_parts_of_mem_routines {l : Listing} {r : Routine} (h : r ∈ l.routines) :
    ⟨r.entries, r.body⟩ ∈ l.parts :=
  List.mem_append_left _ (List.mem_map_of_mem (f := fun r : Routine => Part.mk r.entries r.body) h)

theorem main_mem_parts (l : Listing) : ⟨l.entries, l.body⟩ ∈ l.parts :=
  List.mem_append_right _ (List.mem_singleton.mpr rfl)

theorem flat_ofProgram (p : Program) : (Listing.ofProgram p).Flat := by
  have hparts : ∀ part ∈ (Listing.ofProgram p).parts, part.body.Flat := by
    intro part hpart
    obtain ⟨b, -, n, -, rfl⟩ := exists_lists_of_mem hpart
    exact flat_ofBlock _ b
  exact ⟨fun r hr => hparts _ (mem_parts_of_mem_routines hr), hparts _ (main_mem_parts _)⟩

/-! ### Names -/

theorem isName_of_isWord {cs : List Char} (h : IsWord cs) : IsName cs := by
  obtain ⟨c, rest, rfl, hc, hrest⟩ := h
  exact ⟨c, rest, rfl, hc, fun d hd => by simp [isNameChar, hrest d hd]⟩

theorem isName_numbered {base : String} (h : IsName base.toList) (k : Nat) :
    IsName (numbered base k).toList := by
  have hdigits : ∀ d ∈ (toString k).toList, isNameChar d = true := by
    intro d hd
    simp [isNameChar, Char.isAlphanum, isDigit_of_mem_toString hd]
  obtain ⟨c, rest, hbase, hc, hrest⟩ := h
  refine ⟨c, rest ++ '_' :: (toString k).toList, ?_, hc, ?_⟩
  · simp [numbered, hbase]
  · exact List.forall_mem_append.mpr ⟨hrest, List.forall_mem_cons.mpr ⟨by decide, hdigits⟩⟩

theorem isName_candidate {base : String} (h : IsName base.toList) (k : Nat) :
    IsName (candidate base k).toList := by
  unfold candidate
  split
  · exact h
  · exact isName_numbered h k

theorem isName_baseName {v : Variable} (h : IsName v.name.toList) :
    IsName (Namespace.baseName v).toList := by
  unfold Namespace.baseName
  split
  · exact h
  · exact isName_numbered h v.block

/-! ### The words of an accepted program -/

theorem mem_tokens_of_mem_declarations {b : Block} {d : Declaration} (h : d ∈ b.declarations)
    {t : Token} (ht : t ∈ d.tokens) : t ∈ b.tokens := by
  induction b with
  | empty => cases h
  | declare d' rest ih =>
    rcases List.mem_cons.mp h with rfl | h
    · exact List.mem_append_left _ ht
    · exact List.mem_append_right _ (ih h)
  | assign target value rest ih => exact List.mem_append_right _ (ih h)
  | nest inner rest ihInner ih =>
    rcases List.mem_append.mp h with h | h
    · exact List.mem_append_left _ (List.mem_cons_of_mem _ (List.mem_append_left _ (ihInner h)))
    · exact List.mem_append_right _ (ih h)

/-- All of these words obey the lexical rules. -/
def AllProper (ws : List Word) : Prop := ∀ w ∈ ws, w.Proper

theorem allProper_nil : AllProper [] := nofun

theorem allProper_cons {w : Word} {ws : List Word} :
    AllProper (w :: ws) ↔ w.Proper ∧ AllProper ws := List.forall_mem_cons

theorem allProper_append {ws us : List Word} :
    AllProper (ws ++ us) ↔ AllProper ws ∧ AllProper us := List.forall_mem_append

theorem allProper_flatMap {α : Type} {f : α → List Word} {l : List α} :
    AllProper (l.flatMap f) ↔ ∀ a ∈ l, AllProper (f a) := by
  simp only [AllProper, List.mem_flatMap]
  exact ⟨fun h a ha w hw => h w ⟨a, ha, hw⟩, fun h w ⟨a, ha, hw⟩ => h a ha w hw⟩

theorem proper_tyWord (ty : Ty) : (tyWord ty).Proper := by
  cases ty with
  | int => exact (by decide : "integer" ∈ reserved)
  | real => exact (by decide : "real" ∈ reserved)

theorem proper_signWord (op : Operator) : (signWord op).Proper := by
  cases op with
  | add => exact (by decide : "+" ∈ symbols)
  | sub => exact (by decide : "-" ∈ symbols)
  | mul => exact (by decide : "*" ∈ symbols)
  | div => exact (by decide : "/" ∈ symbols)
  | intDiv => exact (by decide : "div" ∈ reserved)

theorem allProper_range {size : String} (h : IsNumeral size.toList) :
    AllProper (rangeWords size) := by
  have hone : IsNumeral "1".toList := ⟨by decide, List.all_eq_true.mp (by decide)⟩
  have hpoints : ".." ∈ symbols := by decide
  simp only [rangeWords, allProper_cons]
  exact ⟨hone, hpoints, h, allProper_nil⟩

theorem allProper_type {sizes : List String} (h : ∀ size ∈ sizes, IsNumeral size.toList) (ty : Ty) :
    AllProper (typeWords sizes ty) := by
  cases sizes with
  | nil => exact allProper_cons.mpr ⟨proper_tyWord ty, allProper_nil⟩
  | cons size sizes =>
    obtain ⟨hsize, hsizes⟩ := List.forall_mem_cons.mp h
    have hfixed : "array" ∈ reserved ∧ "[" ∈ symbols ∧ "," ∈ symbols ∧ "]" ∈ symbols ∧
        "of" ∈ reserved := by decide
    obtain ⟨harray, hopen, hcomma, hclose, hof⟩ := hfixed
    simp only [typeWords, allProper_cons, allProper_append, allProper_flatMap]
    refine ⟨harray, hopen, allProper_range hsize, ?_, hclose, hof, proper_tyWord ty, allProper_nil⟩
    exact fun size hsize => ⟨hcomma, allProper_range (hsizes size hsize)⟩

theorem allProper_entries {entries : List Entry} (hnames : ∀ e ∈ entries, (Word.name e.name).Proper)
    (hsizes : ∀ e ∈ entries, ∀ size ∈ e.sizes, IsNumeral size.toList) :
    AllProper (sectionWords entries) := by
  cases entries with
  | nil => exact allProper_nil
  | cons e entries =>
    have hfixed : "var" ∈ reserved ∧ ":" ∈ symbols ∧ ";" ∈ symbols := by decide
    obtain ⟨hvar, hcolon, hsemicolon⟩ := hfixed
    rw [sectionWords, allProper_cons, allProper_flatMap]
    refine ⟨hvar, fun e he => ?_⟩
    simp only [Entry.words, allProper_cons, allProper_append]
    exact ⟨hnames e he, hcolon, allProper_type (hsizes e he) e.ty, hsemicolon, allProper_nil⟩

theorem proper_operand {n : Namespace} {f : Factor} (hspelled : f.token.WellSpelled)
    (hreads : ∀ v, f = .read v → (Word.name (n.resolve v)).Proper) :
    (Operand.ofFactor n f).word.Proper := by
  cases f with
  | integer lexeme => exact hspelled
  | real lexeme => exact hspelled
  | read v => exact hreads v rfl

theorem allProper_formula {n : Namespace} {value : Expr}
    (hreads : ∀ v ∈ value.reads, (Word.name (n.resolve v)).Proper)
    (hspelled : ∀ t ∈ value.tokens, t.WellSpelled) :
    AllProper (Formula.words (Formula.ofExpr n value)) := by
  rw [Formula.words, Formula.ofExpr, List.flatMap_map, allProper_flatMap]
  rintro ⟨op, f⟩ hstep
  have hoperand : (Operand.ofFactor n f).word.Proper := by
    refine proper_operand (hspelled _ (List.mem_flatMap.mpr ⟨_, hstep, ?_⟩)) ?_
    · simp [operandTokens]
    · rintro v rfl
      exact hreads v (List.mem_filterMap.mpr ⟨_, hstep, rfl⟩)
  cases op with
  | none => exact allProper_cons.mpr ⟨hoperand, allProper_nil⟩
  | some op =>
    simp only [stepWords, allProper_cons]
    exact ⟨proper_signWord op, hoperand, allProper_nil⟩

theorem allProper_body {n : Namespace} {b : Block}
    (huses : ∀ v ∈ b.uses, (Word.name (n.resolve v)).Proper)
    (hspelled : ∀ t ∈ b.tokens, t.WellSpelled) : AllProper (Body.ofBlock n b).words := by
  have hfixed : ":=" ∈ symbols ∧ ";" ∈ symbols ∧ "begin" ∈ reserved ∧ "end" ∈ reserved := by decide
  obtain ⟨hbecomes, hsemicolon, hbegin, hend⟩ := hfixed
  induction b with
  | empty => exact allProper_nil
  | declare d rest ih => exact ih huses (List.forall_mem_append.mp hspelled).2
  | assign target value rest ih =>
    obtain ⟨hhere, hlater⟩ := List.forall_mem_append.mp huses
    obtain ⟨htarget, hreads⟩ := List.forall_mem_cons.mp hhere
    obtain ⟨hassignment, hrest⟩ := List.forall_mem_append.mp hspelled
    have hvalue : ∀ t ∈ value.tokens, t.WellSpelled :=
      fun t ht => hassignment t (by simp [ht])
    simp only [Body.ofBlock, Body.words, allProper_cons, allProper_append]
    exact ⟨htarget, hbecomes, allProper_formula hreads hvalue, hsemicolon, ih hlater hrest⟩
  | nest inner rest ihInner ih =>
    obtain ⟨hinner, hlater⟩ := List.forall_mem_append.mp huses
    obtain ⟨hbraced, hrest⟩ := List.forall_mem_append.mp hspelled
    have hinside : ∀ t ∈ inner.tokens, t.WellSpelled :=
      fun t ht => hbraced t (List.mem_cons_of_mem _ (List.mem_append_left _ ht))
    simp only [Body.ofBlock, Body.words, allProper_cons, allProper_append]
    exact ⟨hbegin, ihInner hinner hinside, hend, hsemicolon, ih hlater hrest⟩

theorem allProper_part {b : Block} {part : Part} (h : Lists b part) (hb : b.WellBound)
    (hspelled : ∀ t ∈ b.tokens, t.WellSpelled) :
    AllProper (sectionWords part.entries) ∧ AllProper part.body.words := by
  obtain ⟨n, ⟨-, htaken, hbound⟩, rfl⟩ := h
  have hentries : ∀ e ∈ (hoist n b).1, (Word.name e.name).Proper ∧
      ∀ size ∈ e.sizes, IsNumeral size.toList := by
    intro e he
    obtain ⟨d, hd, k, hfree, rfl⟩ := exists_of_mem_hoist htaken he
    have htokens : ∀ t ∈ d.tokens, t.WellSpelled :=
      fun t ht => hspelled t (mem_tokens_of_mem_declarations hd ht)
    have hname : (Token.name d.target.name).WellSpelled :=
      htokens _ (by simp [Declaration.tokens])
    refine ⟨⟨isName_candidate (isName_baseName (isName_of_isWord hname.1)) k, hfree⟩, ?_⟩
    intro size hsize
    have hmem : .integer size ∈ d.sizes.flatMap sizeTokens :=
      List.mem_flatMap.mpr ⟨size, hsize, by simp [sizeTokens]⟩
    exact htokens (.integer size) (by simp [Declaration.tokens, hmem])
  have huses : ∀ v ∈ b.uses, (Word.name ((hoist n b).2.resolve v)).Proper := by
    intro v hv
    obtain ⟨e, he, hname⟩ := exists_entry_of_mem_uses hbound hb hv
    rw [hname]
    exact (hentries e (List.of_mem_zip he).2).1
  exact ⟨allProper_entries (fun e he => (hentries e he).1) (fun e he => (hentries e he).2),
    allProper_body huses hspelled⟩

section Accepted
variable {source : String} {p : Program}

theorem proper_routineName (h : (readProgram source).result = .ok p) {r : Routine}
    (hr : r ∈ (Listing.ofProgram p).routines) : (Word.name r.name).Proper := by
  obtain ⟨f, hf, k, hfree, rfl⟩ := exists_of_mem_ofFunctions (subset_taken_hoist_main p) hr
  have hmem : .name f.name ∈ p.functions.flatMap Function.tokens :=
    List.mem_flatMap.mpr ⟨f, hf, by simp [Function.tokens]⟩
  have hname := wellSpelled_tokens h (.name f.name) (List.mem_append_left _ hmem)
  exact ⟨isName_candidate (isName_of_isWord hname.1) k, hfree⟩

theorem allProper_listing (h : (readProgram source).result = .ok p) :
    AllProper (Listing.ofProgram p).words := by
  have hparts : ∀ part ∈ (Listing.ofProgram p).parts,
      AllProper (sectionWords part.entries) ∧ AllProper part.body.words := by
    intro part hpart
    obtain ⟨b, hb, hlists⟩ := exists_lists_of_mem hpart
    exact allProper_part hlists (wellBound_bodies h b hb)
      (fun t ht => wellSpelled_tokens h t (mem_tokens_of_mem_bodies hb ht))
  have hreserved : "program" ∈ reserved ∧ "function" ∈ reserved ∧ "begin" ∈ reserved ∧
      "end" ∈ reserved := by decide
  have hsymbols : ";" ∈ symbols ∧ ":" ∈ symbols ∧ "." ∈ symbols := by decide
  obtain ⟨hprogram, hfunction, hbegin, hend⟩ := hreserved
  obtain ⟨hsemicolon, hcolon, hpoint⟩ := hsymbols
  have hmain : (Word.name "main").Proper :=
    ⟨⟨'m', ['a', 'i', 'n'], rfl, by decide, List.all_eq_true.mp (by decide)⟩, by decide +kernel⟩
  have hroutines : ∀ r ∈ (Listing.ofProgram p).routines, AllProper r.words := by
    intro r hr
    obtain ⟨hentries, hbody⟩ := hparts _ (mem_parts_of_mem_routines hr)
    simp only [Routine.words, allProper_cons, allProper_append]
    exact ⟨hfunction, proper_routineName h hr, hcolon, proper_tyWord _, hsemicolon, hentries,
      hbegin, hbody, hend, hsemicolon, allProper_nil⟩
  obtain ⟨hentries, hbody⟩ := hparts _ (main_mem_parts _)
  simp only [Listing.words, allProper_cons, allProper_append, allProper_flatMap]
  exact ⟨hprogram, hmain, hsemicolon, hentries, hroutines, hbegin, hbody, hend, hpoint,
    allProper_nil⟩

/-- The listed text of an accepted program is read as its listing. -/
theorem read?_list (h : (readProgram source).result = .ok p) :
    Listing.read? (p.list .pascal) = some (Listing.ofProgram p) :=
  read?_text (flat_ofProgram p) (allProper_listing h)

end Accepted

/-! ### The names in the text -/

/-- The text of a program consists of the words of its listing, with an entry for every
declaration, and the names in it never clash, whatever the program. The text of an accepted program
is read as its listing, in which every use of a variable has the name of its declaration. -/
theorem names_ofProgram (p : Program) :
    Consists (p.list .pascal).toList (Listing.ofProgram p).words ∧
    List.Forall₂ Declares p.bodies (Listing.ofProgram p).parts ∧
    Apart ("main" :: ((Listing.ofProgram p).entries.map Entry.name ++
      (Listing.ofProgram p).routines.map Routine.name)) ∧
    (∀ r ∈ (Listing.ofProgram p).routines, Apart (r.name :: r.entries.map Entry.name)) ∧
    ∀ source, (readProgram source).result = .ok p →
      (compile source .pascal).result = .ok (p.list .pascal) ∧
      Listing.read? (p.list .pascal) = some (Listing.ofProgram p) ∧
      List.Forall₂ KeepsNames p.bodies (Listing.ofProgram p).parts := by
  refine ⟨consists_text (flat_ofProgram p), (lists_parts p).imp (fun _ _ h => h.declares),
    apart_program p, fun r hr => apart_routines hr, ?_⟩
  intro source hsource
  refine ⟨(compile_eq_ok_iff source .pascal _).mpr ⟨p, hsource, rfl⟩, read?_list hsource, ?_⟩
  have hlists := (List.forall₂_and_left _ _).mpr ⟨wellBound_bodies hsource, lists_parts p⟩
  exact hlists.imp (fun body part h => keepsNames_of_lists h.2 h.1)

/-- The outer `a` and `A` clash, and the name of the inner `a` with the one that `A` gets. -/
def crowded : Program := ⟨[],
  .declare ⟨⟨"a", 0, .int⟩, []⟩ (.declare ⟨⟨"A", 0, .int⟩, []⟩ (.nest
    (.declare ⟨⟨"a", 1, .int⟩, []⟩ (.assign ⟨"a", 1, .int⟩ ⟨⟨.read ⟨"A", 0, .int⟩, []⟩, []⟩ .empty))
    .empty))⟩

def crowdedText : String := "program main;\nvar\n  a: integer;\n  A_1: integer;\n" ++
  "  a_1_1: integer;\n\nbegin\n  begin\n    a_1_1 := A_1;\n  end;\nend.\n"

theorem names_crowded :
    (readProgram "main()\x7bint a,A;\x7bint a;a=A;\x7d\x7d").result = .ok crowded ∧
    (compile "main()\x7bint a,A;\x7bint a;a=A;\x7d\x7d" .pascal).result = .ok crowdedText ∧
    Listing.read? crowdedText = some (Listing.ofProgram crowded) ∧
    (Listing.ofProgram crowded).entries.map Entry.name = ["a", "A_1", "a_1_1"] ∧
    List.Forall₂ KeepsNames crowded.bodies (Listing.ofProgram crowded).parts := by
  have h : (readProgram "main()\x7bint a,A;\x7bint a;a=A;\x7d\x7d").result = .ok crowded :=
    Traced.result_eq_ok_iff.mpr (by decide +kernel)
  have htext : crowded.list .pascal = crowdedText := by decide +kernel
  have hnames : (Listing.ofProgram crowded).entries.map Entry.name = ["a", "A_1", "a_1_1"] := by
    decide +kernel
  obtain ⟨-, -, -, -, haccepted⟩ := names_ofProgram crowded
  obtain ⟨hcompile, hread, hkeeps⟩ := haccepted _ h
  rw [htext] at hcompile hread
  exact ⟨h, hcompile, hread, hnames, hkeeps⟩

end BlockLang.Pascal
