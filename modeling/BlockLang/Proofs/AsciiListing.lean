import BlockLang.Compile
import BlockLang.Proofs.Characters
import BlockLang.Proofs.PascalNames

/-!
# Listings are in ASCII

All names and numbers of an accepted program are in ASCII, because its tokens are. A listing adds
fixed words and the numbers that tell names apart.
-/

namespace BlockLang

def IsAscii (c : Char) : Prop := c.toNat < 128

instance : DecidablePred IsAscii := fun c => inferInstanceAs (Decidable (c.toNat < 128))

def AsciiTokens (ts : List Token) : Prop := ∀ t ∈ ts, AllChars IsAscii t.lexeme

theorem isAscii_of_isAlphanum {c : Char} (h : c.isAlphanum = true) : IsAscii c := by
  have hle : ∀ d : Char, c.val ≤ d.val → d.toNat < 128 → IsAscii c := by
    intro d hd hd'
    have hnat : c.toNat ≤ d.toNat := UInt32.le_iff_toNat_le.mp hd
    exact Nat.lt_of_le_of_lt hnat hd'
  rcases Bool.or_eq_true_iff.mp h with halpha | hdigit
  · rcases Bool.or_eq_true_iff.mp halpha with hupper | hlower
    · exact hle 'Z' (of_decide_eq_true hupper).2 (by decide)
    · exact hle 'z' (of_decide_eq_true (Bool.and_eq_true_iff.mp hlower).2) (by decide)
  · exact hle '9' (of_decide_eq_true (Bool.and_eq_true_iff.mp hdigit).2) (by decide)

theorem admits_isAscii : Admits IsAscii := by
  refine ⟨fun c => isAscii_of_isAlphanum, by decide, ?_⟩
  intro m
  cases m <;> decide

theorem ascii_margin (depth : Nat) : AllChars IsAscii (margin depth) := by
  apply allChars_ofList
  intro c hc
  rw [List.eq_of_mem_replicate hc]
  decide

/-! ### The words of a block -/

section Words
variable {ts us : List Token}

theorem asciiTokens_append : AsciiTokens (ts ++ us) ↔ AsciiTokens ts ∧ AsciiTokens us :=
  List.forall_mem_append

theorem AsciiTokens.of_braced (h : AsciiTokens (braced ts)) : AsciiTokens ts :=
  fun t ht => h t (List.mem_cons_of_mem _ (List.mem_append_left _ ht))

theorem AsciiTokens.name {name : String} (h : AsciiTokens (.name name :: ts)) :
    AllChars IsAscii name := h (.name name) (List.mem_cons_self ..)

theorem AsciiTokens.of_declaration {d : Declaration} (h : AsciiTokens d.tokens) :
    AllChars IsAscii d.target.name ∧ ∀ size ∈ d.sizes, AllChars IsAscii size := by
  have hnames : AsciiTokens (.name d.target.name :: (d.sizes.flatMap sizeTokens ++
      [.mark .semicolon])) := fun t ht => h t (List.mem_cons_of_mem _ ht)
  refine ⟨hnames.name, ?_⟩
  intro size hsize
  refine h (.integer size) (List.mem_cons_of_mem _ (List.mem_cons_of_mem _
    (List.mem_append_left _ (List.mem_flatMap.mpr ⟨size, hsize, ?_⟩))))
  simp [sizeTokens]

theorem AsciiTokens.of_expr {e : Expr} (h : AsciiTokens e.tokens)
    {step : Option Operator × Factor} (hstep : step ∈ e.factors) :
    AllChars IsAscii step.2.token.lexeme := by
  refine h step.2.token (List.mem_flatMap.mpr ⟨step, hstep, ?_⟩)
  simp [operandTokens]

theorem AsciiTokens.of_assign {target : Variable} {value : Expr} {rest : Block}
    (h : AsciiTokens (Block.assign target value rest).tokens) :
    AllChars IsAscii target.name ∧ AsciiTokens value.tokens ∧ AsciiTokens rest.tokens := by
  obtain ⟨hfirst, hrest⟩ := asciiTokens_append.mp h
  refine ⟨hfirst.name, ?_, hrest⟩
  intro t ht
  exact hfirst t (List.mem_cons_of_mem _ (List.mem_cons_of_mem _ (List.mem_append_left _ ht)))

theorem AsciiTokens.of_program {p : Program} (h : AsciiTokens p.tokens) :
    (∀ f ∈ p.functions, AllChars IsAscii f.name ∧ AsciiTokens f.body.tokens) ∧
      AsciiTokens p.main.tokens := by
  obtain ⟨hfunctions, hmain⟩ := asciiTokens_append.mp h
  constructor
  · intro f hf
    have htokens : AsciiTokens f.tokens :=
      fun t ht => hfunctions t (List.mem_flatMap.mpr ⟨f, hf, ht⟩)
    refine ⟨htokens (.name f.name) (by simp [Function.tokens]), AsciiTokens.of_braced ?_⟩
    intro t ht
    exact htokens t (by simp [Function.tokens, ht])
  · apply AsciiTokens.of_braced
    intro t ht
    exact hmain t (by simp [ht])

end Words

/-! ### C -/

namespace C

theorem ascii_outputName {name : String} (h : AllChars IsAscii name) :
    AllChars IsAscii (outputName name) := by
  unfold outputName
  split
  · exact h.append (by decide)
  · exact h

theorem ascii_outputInteger {lexeme : String} (h : AllChars IsAscii lexeme) :
    AllChars IsAscii (outputInteger lexeme) := by
  apply allChars_ofList
  intro c hc
  unfold stripZeros at hc
  split at hc
  · rw [List.mem_singleton.mp hc]
    decide
  · exact h c ((List.dropWhile_suffix _).subset hc)

theorem ascii_operand {f : Factor} (h : AllChars IsAscii f.token.lexeme) :
    AllChars IsAscii (Operand.ofFactor f).text := by
  cases f with
  | integer lexeme => exact ascii_outputInteger h
  | real lexeme => exact h
  | read v => exact ascii_outputName h

theorem ascii_expr {e : Expr} (h : AsciiTokens e.tokens) :
    AllChars IsAscii (Formula.ofExpr e).text := by
  apply allChars_join
  intro text htext
  rw [Formula.ofExpr, List.map_map] at htext
  obtain ⟨⟨op, f⟩, hstep, rfl⟩ := List.mem_map.mp htext
  have hoperand := ascii_operand (h.of_expr hstep)
  cases op with
  | none => exact hoperand
  | some op =>
    have hsign : AllChars IsAscii (" " ++ (Sign.ofOperator op).text ++ " ") := by
      cases op <;> decide
    exact hsign.append hoperand

theorem ascii_tyName (ty : Ty) : AllChars IsAscii (tyName ty) := by
  cases ty <;> decide

theorem ascii_sizesText {sizes : List String} (h : ∀ size ∈ sizes, AllChars IsAscii size) :
    AllChars IsAscii (sizesText (sizes.map outputInteger)) := by
  apply allChars_join
  intro text htext
  rw [List.map_map] at htext
  obtain ⟨size, hsize, rfl⟩ := List.mem_map.mp htext
  have hopen : AllChars IsAscii "[" := by decide
  exact (hopen.append (ascii_outputInteger (h size hsize))).append (by decide)

theorem ascii_body {b : Block} (h : AsciiTokens b.tokens) (depth : Nat) :
    AllChars IsAscii ((Body.ofBlock b).text depth) := by
  have hmargin := ascii_margin depth
  induction b generalizing depth with
  | empty => exact fun c hc => absurd hc (by simp [Body.ofBlock, Body.text])
  | declare d rest ih =>
    obtain ⟨hd, hrest⟩ := asciiTokens_append.mp h
    obtain ⟨hname, hsizes⟩ := hd.of_declaration
    have hty := ascii_tyName d.target.ty
    have hname := ascii_outputName hname
    have hsizes := ascii_sizesText hsizes
    have hlater := ih hrest depth hmargin
    simp +decide only [Body.ofBlock, Body.text, allChars_append, hmargin, hty, hname, hsizes,
      hlater]
  | assign target value rest ih =>
    obtain ⟨htarget, hvalue, hrest⟩ := h.of_assign
    have htarget := ascii_outputName htarget
    have hvalue := ascii_expr hvalue
    have hlater := ih hrest depth hmargin
    simp +decide only [Body.ofBlock, Body.text, allChars_append, hmargin, htarget, hvalue, hlater]
  | nest inner rest ihInner ih =>
    obtain ⟨hinner, hrest⟩ := asciiTokens_append.mp h
    have hfirst := ihInner hinner.of_braced (depth + 1) (ascii_margin _)
    have hlater := ih hrest depth hmargin
    simp +decide only [Body.ofBlock, Body.text, allChars_append, hmargin, hfirst, hlater]

theorem ascii_routine {r : Routine} (hname : AllChars IsAscii r.name)
    (hbody : AllChars IsAscii (r.body.text 1)) : AllChars IsAscii r.text := by
  have hty := ascii_tyName r.returns
  simp +decide only [Routine.text, allChars_append, hty, hname, hbody]

theorem ascii_listing {p : Program} (h : AsciiTokens p.tokens) :
    AllChars IsAscii (Listing.ofProgram p).text := by
  obtain ⟨hfunctions, hmain⟩ := h.of_program
  have hbreak : AllChars IsAscii "\n" := by decide
  refine allChars_intercalate hbreak ?_
  intro text htext
  obtain ⟨r, hr, rfl⟩ := List.mem_map.mp htext
  rcases List.mem_append.mp hr with hr | hr
  · obtain ⟨f, hf, rfl⟩ := List.mem_map.mp hr
    obtain ⟨hname, hbody⟩ := hfunctions f hf
    exact ascii_routine (ascii_outputName hname) (ascii_body hbody 1)
  · have hname : AllChars IsAscii "main" := by decide
    rw [List.mem_singleton.mp hr]
    exact ascii_routine hname (ascii_body hmain 1)

end C

/-! ### Pascal -/

namespace Pascal

theorem ascii_numbered {base : String} (h : AllChars IsAscii base) (k : Nat) :
    AllChars IsAscii (numbered base k) := by
  simp only [numbered, allChars_append]
  exact ⟨⟨h, by decide⟩, admits_isAscii.number k⟩

namespace Namespace

theorem ascii_freeName (n : Namespace) {base : String} (h : AllChars IsAscii base) :
    AllChars IsAscii (n.freeName base) := by
  obtain ⟨m, -, heq, -⟩ := n.freeName_eq base
  rw [heq, candidate]
  split
  · exact h
  · exact ascii_numbered h m

theorem ascii_baseName {v : Variable} (h : AllChars IsAscii v.name) :
    AllChars IsAscii (baseName v) := by
  unfold baseName
  split
  · exact h
  · exact ascii_numbered h v.block

/-- The output names handed out to variables are in ASCII. -/
def AsciiBound (n : Namespace) : Prop := ∀ x ∈ n.bound, AllChars IsAscii x.2

theorem AsciiBound.resolve {n : Namespace} (hn : n.AsciiBound) {v : Variable}
    (h : AllChars IsAscii v.name) : AllChars IsAscii (n.resolve v) := by
  unfold Namespace.resolve
  cases hlookup : n.bound.lookup (v.name, v.block) with
  | none => exact h
  | some name =>
    obtain ⟨before, after, hbound, -⟩ := List.lookup_eq_some_iff.mp hlookup
    refine hn ((v.name, v.block), name) ?_
    rw [hbound]
    simp

end Namespace

def Entry.Ascii (e : Entry) : Prop :=
  AllChars IsAscii e.name ∧ ∀ size ∈ e.sizes, AllChars IsAscii size

theorem ascii_hoist {b : Block} (h : AsciiTokens b.tokens) {n : Namespace} (hn : n.AsciiBound) :
    (∀ e ∈ (hoist n b).1, e.Ascii) ∧ (hoist n b).2.AsciiBound := by
  induction b generalizing n with
  | empty => exact ⟨fun e he => absurd he (by simp [hoist]), hn⟩
  | declare d rest ih =>
    obtain ⟨hd, hrest⟩ := asciiTokens_append.mp h
    obtain ⟨hname, hsizes⟩ := hd.of_declaration
    have hbind : AllChars IsAscii (n.bind d.target).1 :=
      n.ascii_freeName (Namespace.ascii_baseName hname)
    have hbound : (n.bind d.target).2.AsciiBound := List.forall_mem_cons.mpr ⟨hbind, hn⟩
    obtain ⟨hentries, hlast⟩ := ih hrest hbound
    rw [hoist_declare]
    exact ⟨List.forall_mem_cons.mpr ⟨⟨hbind, hsizes⟩, hentries⟩, hlast⟩
  | assign target value rest ih => exact ih h.of_assign.2.2 hn
  | nest inner rest ihInner ih =>
    obtain ⟨hinner, hrest⟩ := asciiTokens_append.mp h
    obtain ⟨hfirst, hbound⟩ := ihInner hinner.of_braced hn
    obtain ⟨hsecond, hlast⟩ := ih hrest hbound
    rw [hoist_nest]
    exact ⟨List.forall_mem_append.mpr ⟨hfirst, hsecond⟩, hlast⟩

theorem ascii_operand {n : Namespace} (hn : n.AsciiBound) {f : Factor}
    (h : AllChars IsAscii f.token.lexeme) : AllChars IsAscii (Operand.ofFactor n f).text := by
  cases f with
  | integer lexeme => exact h
  | real lexeme => exact h
  | read v => exact hn.resolve h

theorem ascii_expr {n : Namespace} (hn : n.AsciiBound) {e : Expr} (h : AsciiTokens e.tokens) :
    AllChars IsAscii (Formula.ofExpr n e).text := by
  apply allChars_join
  intro text htext
  rw [Formula.ofExpr, List.map_map] at htext
  obtain ⟨⟨op, f⟩, hstep, rfl⟩ := List.mem_map.mp htext
  have hoperand := ascii_operand hn (h.of_expr hstep)
  cases op with
  | none => exact hoperand
  | some op =>
    have hsign : AllChars IsAscii (" " ++ sign op ++ " ") := by
      cases op <;> decide
    exact hsign.append hoperand

theorem ascii_body {n : Namespace} (hn : n.AsciiBound) {b : Block} (h : AsciiTokens b.tokens)
    (depth : Nat) : AllChars IsAscii ((Body.ofBlock n b).text depth) := by
  have hmargin := ascii_margin depth
  induction b generalizing depth with
  | empty => exact fun c hc => absurd hc (by simp [Body.ofBlock, Body.text])
  | declare d rest ih => exact ih (asciiTokens_append.mp h).2 depth hmargin
  | assign target value rest ih =>
    obtain ⟨htarget, hvalue, hrest⟩ := h.of_assign
    have htarget := hn.resolve htarget
    have hvalue := ascii_expr hn hvalue
    have hlater := ih hrest depth hmargin
    simp +decide only [Body.ofBlock, Body.text, allChars_append, hmargin, htarget, hvalue, hlater]
  | nest inner rest ihInner ih =>
    obtain ⟨hinner, hrest⟩ := asciiTokens_append.mp h
    have hfirst := ihInner hinner.of_braced (depth + 1) (ascii_margin _)
    have hlater := ih hrest depth hmargin
    simp +decide only [Body.ofBlock, Body.text, allChars_append, hmargin, hfirst, hlater]

theorem ascii_tyName (ty : Ty) : AllChars IsAscii (tyName ty) := by
  cases ty <;> decide

theorem ascii_entry {e : Entry} (h : e.Ascii) : AllChars IsAscii e.text := by
  have htype : AllChars IsAscii e.typeText := by
    unfold Entry.typeText
    split
    · exact ascii_tyName e.ty
    · have hsizes : AllChars IsAscii
          (", ".intercalate (e.sizes.map (fun size => "1.." ++ size))) := by
        have hcomma : AllChars IsAscii ", " := by decide
        refine allChars_intercalate hcomma ?_
        intro text htext
        obtain ⟨size, hsize, rfl⟩ := List.mem_map.mp htext
        exact allChars_append.mpr ⟨by decide, h.2 size hsize⟩
      have hty := ascii_tyName e.ty
      simp +decide only [allChars_append, hsizes, hty]
  have hname := h.1
  simp +decide only [Entry.text, allChars_append, hname, htype]

theorem ascii_section {entries : List Entry} (h : ∀ e ∈ entries, e.Ascii) :
    AllChars IsAscii (sectionText entries) := by
  unfold sectionText
  split
  · decide
  · refine allChars_append.mpr ⟨by decide, allChars_join ?_⟩
    intro text htext
    obtain ⟨e, he, rfl⟩ := List.mem_map.mp htext
    exact ascii_entry (h e he)

theorem asciiBound_claim (name : String) : (Namespace.new.claim name).2.AsciiBound := by
  have hbound : (Namespace.new.claim name).2.bound = [] := rfl
  rw [Namespace.AsciiBound, hbound]
  exact List.forall_mem_nil _

theorem ascii_routine {r : Routine} (hname : AllChars IsAscii r.name)
    (hentries : ∀ e ∈ r.entries, e.Ascii) (hbody : AllChars IsAscii (r.body.text 1)) :
    AllChars IsAscii r.text := by
  have hty := ascii_tyName r.returns
  have hsection := ascii_section hentries
  delta Routine.text
  simp +decide only [allChars_append, hty, hname, hsection, hbody]

theorem ascii_ofFunction {name : String} (hname : AllChars IsAscii name) {f : Function}
    (hbody : AsciiTokens f.body.tokens) : AllChars IsAscii (Routine.ofFunction name f).text := by
  obtain ⟨hentries, hbound⟩ := ascii_hoist hbody (asciiBound_claim name)
  exact ascii_routine hname hentries (ascii_body hbound hbody 1)

theorem ascii_ofFunctions {fs : List Function}
    (h : ∀ f ∈ fs, AllChars IsAscii f.name ∧ AsciiTokens f.body.tokens) (n : Namespace) :
    ∀ r ∈ Routine.ofFunctions n fs, AllChars IsAscii r.text := by
  induction fs generalizing n with
  | nil => exact fun r hr => absurd hr (by simp [Routine.ofFunctions])
  | cons f fs ih =>
    obtain ⟨⟨hname, hbody⟩, hrest⟩ := List.forall_mem_cons.mp h
    rw [ofFunctions_cons]
    exact List.forall_mem_cons.mpr ⟨ascii_ofFunction (n.ascii_freeName hname) hbody,
      ih hrest (n.claim f.name).2⟩

theorem ofProgram_eq (p : Program) :
    Listing.ofProgram p =
      let hoisted := hoist (Namespace.new.claim "main").2 p.main
      ⟨hoisted.1, Routine.ofFunctions hoisted.2 p.functions, .ofBlock hoisted.2 p.main⟩ := rfl

theorem ascii_listing {p : Program} (h : AsciiTokens p.tokens) :
    AllChars IsAscii (Listing.ofProgram p).text := by
  obtain ⟨hfunctions, hmain⟩ := h.of_program
  obtain ⟨hentries, hbound⟩ := ascii_hoist hmain (asciiBound_claim "main")
  rw [ofProgram_eq]
  -- How the names were claimed plays no further part.
  generalize hoist (Namespace.new.claim "main").2 p.main = hoisted at hentries hbound ⊢
  have hsection := ascii_section hentries
  have hbody := ascii_body hbound hmain 1
  have hroutines : AllChars IsAscii
      (String.join ((Routine.ofFunctions hoisted.2 p.functions).map Routine.text)) := by
    apply allChars_join
    intro text htext
    obtain ⟨r, hr, rfl⟩ := List.mem_map.mp htext
    exact ascii_ofFunctions hfunctions hoisted.2 r hr
  delta Listing.text
  simp +decide only [allChars_append, hsection, hroutines, hbody]

end Pascal

theorem ascii_list {source : String} {p : Program} (h : (readProgram source).result = .ok p)
    (target : Target) : AllChars IsAscii (p.list target) := by
  have htokens : AsciiTokens p.tokens :=
    fun t ht => admits_isAscii.lexeme (wellSpelled_tokens h t ht)
  cases target with
  | pascal => exact Pascal.ascii_listing htokens
  | c => exact C.ascii_listing htokens

end BlockLang
