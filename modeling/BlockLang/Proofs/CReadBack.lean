import BlockLang.Proofs.CText
import Mathlib.Data.List.Basic

/-!
# Reading a C listing back

A C listing differs little from the language it was translated from: the heading of the main
function, the empty lists of parameters and the underscores of names are all that it adds.
`unlisted` takes them away, and what is left is a text of the program that was listed, without
leading zeros (`spaced_listing`). A listing therefore determines its program up to leading zeros.
-/

namespace BlockLang.C

/-! ### Taking away what a listing adds -/

def voidParameters : List Char := ['(', 'v', 'o', 'i', 'd', ')']

def mainWords : List Char := ['i', 'n', 't', ' ', 'm', 'a', 'i', 'n']

def mainHeading : List Char := mainWords ++ voidParameters

/-- Write `main()` for the heading of the main function and `()` for any other list of parameters,
and drop underscores. The first characters are skipped, as many as the number says. -/
def unlist : Nat → List Char → List Char
  | _, [] => []
  | skip + 1, _ :: cs => unlist skip cs
  | 0, c :: cs =>
    if mainHeading <+: c :: cs then
      ['m', 'a', 'i', 'n', '(', ')'] ++ unlist (mainHeading.length - 1) cs
    else if voidParameters <+: c :: cs then ['(', ')'] ++ unlist (voidParameters.length - 1) cs
    else if c = '_' then unlist 0 cs
    else c :: unlist 0 cs

/-- The text without what a listing adds. -/
def unlisted (text : String) : String := String.ofList (unlist 0 text.toList)

theorem unlist_skip (cs rest : List Char) : unlist cs.length (cs ++ rest) = unlist 0 rest := by
  induction cs with
  | nil => rfl
  | cons c cs ih => exact ih

theorem unlist_main (rest : List Char) :
    unlist 0 (mainHeading ++ rest) = ['m', 'a', 'i', 'n', '(', ')'] ++ unlist 0 rest := by
  have hcons : mainHeading ++ rest = 'i' :: (mainHeading.tail ++ rest) := rfl
  have hprefix : mainHeading <+: 'i' :: (mainHeading.tail ++ rest) := List.prefix_append ..
  rw [hcons, unlist, if_pos hprefix]
  exact congrArg (['m', 'a', 'i', 'n', '(', ')'] ++ ·) (unlist_skip mainHeading.tail rest)

theorem unlist_void (rest : List Char) :
    unlist 0 (voidParameters ++ rest) = '(' :: ')' :: unlist 0 rest := by
  have hcons : voidParameters ++ rest = '(' :: (voidParameters.tail ++ rest) := rfl
  have hprefix : voidParameters <+: '(' :: (voidParameters.tail ++ rest) := List.prefix_append ..
  have hmain : ¬mainHeading <+: '(' :: (voidParameters.tail ++ rest) := by
    rintro ⟨after, heq⟩
    exact absurd (List.cons.inj heq).1 (by decide)
  rw [hcons, unlist, if_neg hmain, if_pos hprefix]
  exact congrArg (['(', ')'] ++ ·) (unlist_skip voidParameters.tail rest)

/-- Neither the heading of the main function nor a list of parameters begins in the line. -/
def Quiet (line rest : List Char) : Prop :=
  ∀ c cs, c :: cs <:+ line → ¬mainHeading <+: c :: (cs ++ rest) ∧ c ≠ '('

theorem unlist_quiet {line rest : List Char} (h : Quiet line rest) :
    unlist 0 (line ++ rest) = dropUnderscores line ++ unlist 0 rest := by
  induction line with
  | nil => rfl
  | cons c cs ih =>
    obtain ⟨hmain, hparen⟩ := h c cs (List.suffix_refl _)
    have hvoid : ¬voidParameters <+: c :: (cs ++ rest) := by
      rintro ⟨after, heq⟩
      exact hparen (List.cons.inj heq).1.symm
    have hrest := ih (fun d ds hds => h d ds (hds.trans (List.suffix_cons c cs)))
    rw [List.cons_append, unlist, if_neg hmain, if_neg hvoid, hrest]
    by_cases hc : c = '_'
    · subst hc
      rfl
    · have hkept : dropUnderscores (c :: cs) = c :: dropUnderscores cs :=
        List.filter_cons_of_pos (by simpa using hc)
      rw [if_neg hc, hkept]
      rfl

/-- The heading of the main function has no line break in it. -/
theorem quiet_line {line rest : List Char} (h : '(' ∉ line) : Quiet (line ++ ['\n']) rest := by
  intro c cs hsuffix
  have hparen : '(' ∉ c :: cs := by
    intro hmem
    have hline := hsuffix.subset hmem
    simp [h] at hline
  refine ⟨fun hprefix => ?_, fun heq => hparen (heq ▸ List.mem_cons_self ..)⟩
  have hbreak : '\n' ∈ c :: cs := by
    have hlast := hsuffix.getLast (List.cons_ne_nil c cs)
    rw [List.getLast_append_of_right_ne_nil _ _ (List.cons_ne_nil _ _)] at hlast
    have hmem := List.getLast_mem (List.cons_ne_nil c cs)
    rwa [hlast] at hmem
  rcases List.prefix_or_prefix_of_prefix hprefix (List.prefix_append (c :: cs) rest) with hin | hout
  · exact hparen (hin.subset (by decide))
  · exact absurd (hout.subset hbreak) (by decide)

theorem takeWhile_paren {cs : List Char} (h : '(' ∉ cs) (rest : List Char) :
    (cs ++ '(' :: rest).takeWhile (fun c => c ≠ '(') = cs := by
  have hall : ∀ c ∈ cs, decide (c ≠ '(') = true := by
    intro c hc
    have hne : c ≠ '(' := fun heq => h (heq ▸ hc)
    simpa using hne
  rw [List.takeWhile_append_of_pos hall, List.takeWhile_cons_of_neg (by decide), List.append_nil]

theorem quiet_heading {line rest : List Char} (h : '(' ∉ line)
    (hmain : ¬mainWords <:+ line) : Quiet line ('(' :: rest) := by
  intro c cs hsuffix
  have hparen : '(' ∉ c :: cs := fun hmem => h (hsuffix.subset hmem)
  refine ⟨fun hprefix => ?_, fun heq => hparen (heq ▸ List.mem_cons_self ..)⟩
  obtain ⟨after, hafter⟩ := hprefix
  have hsplit : mainWords ++ '(' :: (voidParameters.tail ++ after) = c :: cs ++ '(' :: rest :=
    hafter
  have hheads := congrArg (List.takeWhile (fun c => c ≠ '(')) hsplit
  rw [takeWhile_paren (by decide), takeWhile_paren hparen] at hheads
  rw [hheads] at hmain
  exact hmain hsuffix

/-! ### Headings and bodies -/

/-- The lines of a body after its heading. -/
def bodyLines (b : Block) : List Char :=
  '\n' :: '\x7b' :: '\n' :: (((Body.ofBlock b).text 1).toList ++ ['\x7d', '\n'])

theorem toList_routine (ty : Ty) (name : String) (b : Block) :
    (Routine.text ⟨ty, name, .ofBlock b⟩).toList =
      (tyName ty).toList ++ ' ' :: (name.toList ++ (voidParameters ++ bodyLines b)) := by
  simp [Routine.text, voidParameters, bodyLines]

theorem unlist_body {b : Block} (h : ∀ t ∈ b.tokens, t.WellSpelled) (rest : List Char) :
    unlist 0 (bodyLines b ++ rest) = dropUnderscores (bodyLines b) ++ unlist 0 rest := by
  have hlines : bodyLines b =
      ('\n' :: '\x7b' :: '\n' :: (((Body.ofBlock b).text 1).toList ++ ['\x7d'])) ++ ['\n'] := by
    simp [bodyLines]
  refine unlist_quiet ?_
  rw [hlines]
  refine quiet_line ?_
  simp [paren_notMem_body h 1]

theorem writes_bodyLines {b : Block} (h : ∀ t ∈ b.tokens, t.WellSpelled) :
    Writes (dropUnderscores (bodyLines b)) (braced b.stripped.tokens) := by
  have htext : dropUnderscores (bodyLines b) = '\n' :: '\x7b' :: '\n' ::
      (dropUnderscores ((Body.ofBlock b).text 1).toList ++ ['\x7d', '\n']) := by
    have hend : dropUnderscores ['\x7d', '\n'] = ['\x7d', '\n'] := by decide
    rw [bodyLines, ← hend, ← dropUnderscores_append, hend]
    rfl
  have hend := (writes_nil.blank (c := '\n') (by decide)).mark .closeBrace (by decide)
  have hitems := ((writes_body h 1).append hend).blank (c := '\n') (by decide)
  have hall := (hitems.mark .openBrace (by decide)).blank (c := '\n') (by decide)
  rw [htext]
  exact hall

section Function
variable {f : Function}

/-- A listed name is not that of the main function. -/
theorem outputName_ne_main {name : String} (h : (Token.name name).WellSpelled) :
    outputName name ≠ "main" := by
  intro heq
  have hname := dropUnderscores_name h
  rw [heq] at hname
  have hmain : name = "main" := String.toList_inj.mp hname.symm
  rw [hmain] at h
  exact absurd h.2 (by decide)

theorem mem_outputName {name : String} (h : (Token.name name).WellSpelled) {c : Char}
    (hc : c ∈ (outputName name).toList) : c.isAlphanum = true ∨ c = '_' := by
  by_cases hunderscore : c = '_'
  · exact .inr hunderscore
  · have hkept : c ∈ dropUnderscores (outputName name).toList :=
      List.mem_filter.mpr ⟨hc, by simpa using hunderscore⟩
    rw [dropUnderscores_name h] at hkept
    exact .inl (h.1.isAlphanum c hkept)

theorem quiet_functionHeading (h : (Token.name f.name).WellSpelled) (rest : List Char) :
    Quiet ((tyName f.returns).toList ++ ' ' :: (outputName f.name).toList) ('(' :: rest) := by
  have hparen : '(' ∉ (outputName f.name).toList := fun hmem =>
    (mem_outputName h hmem).elim (by decide) (by decide)
  have hblank : ' ' ∉ (outputName f.name).toList := fun hmem =>
    (mem_outputName h hmem).elim (by decide) (by decide)
  have htype : '(' ∉ (tyName f.returns).toList ∧ ' ' ∉ (tyName f.returns).toList := by
    cases f.returns <;> decide
  refine quiet_heading ?_ ?_
  · simp [hparen, htype.1]
  · rintro ⟨before, heq⟩
    have hsplit : (tyName f.returns).toList ++ ' ' :: (outputName f.name).toList =
        (before ++ ['i', 'n', 't']) ++ ' ' :: ['m', 'a', 'i', 'n'] := by
      rw [← heq, List.append_assoc]
      rfl
    have hname := ((List.append_cons_inj_of_notMem htype.2 hblank).mp hsplit).2.2
    exact outputName_ne_main h (String.toList_inj.mp hname)

theorem wellSpelled_function (h : ∀ t ∈ f.tokens, t.WellSpelled) :
    f.returns.token.WellSpelled ∧ (Token.name f.name).WellSpelled ∧
      ∀ t ∈ f.body.tokens, t.WellSpelled := by
  refine ⟨h _ (by simp [Function.tokens]), h _ (by simp [Function.tokens]), ?_⟩
  intro t ht
  exact h t (by simp [Function.tokens, braced, ht])

theorem unlist_function (h : ∀ t ∈ f.tokens, t.WellSpelled) (rest : List Char) :
    unlist 0 ((Routine.ofFunction f).text.toList ++ '\n' :: rest) =
      f.returns.token.lexeme.toList ++ ' ' :: (f.name.toList ++ '(' :: ')' ::
        (dropUnderscores (bodyLines f.body) ++ '\n' :: unlist 0 rest)) := by
  obtain ⟨-, hname, hbody⟩ := wellSpelled_function h
  have htext : (Routine.ofFunction f).text.toList ++ '\n' :: rest =
      ((tyName f.returns).toList ++ ' ' :: (outputName f.name).toList) ++
        (voidParameters ++ (bodyLines f.body ++ ('\n' :: rest))) := by
    rw [Routine.ofFunction, toList_routine]
    simp
  have hheading : dropUnderscores ((tyName f.returns).toList ++
      ' ' :: (outputName f.name).toList) =
      f.returns.token.lexeme.toList ++ ' ' :: f.name.toList := by
    rw [dropUnderscores_append, dropUnderscores_tyName, dropUnderscores_cons _ (by decide),
      dropUnderscores_name hname]
  have hbreak : unlist 0 ('\n' :: rest) = '\n' :: unlist 0 rest :=
    unlist_quiet (quiet_line (List.not_mem_nil (a := '(')))
  have hline := unlist_quiet (quiet_functionHeading hname
    (voidParameters.tail ++ (bodyLines f.body ++ '\n' :: rest)))
  rw [htext]
  refine hline.trans ?_
  have hparameters := unlist_void (bodyLines f.body ++ '\n' :: rest)
  rw [unlist_body hbody, hbreak] at hparameters
  rw [hheading, List.append_assoc]
  exact congrArg (fun cs => f.returns.token.lexeme.toList ++ ' ' :: (f.name.toList ++ cs))
    hparameters

theorem writes_function (h : ∀ t ∈ f.tokens, t.WellSpelled) :
    Writes (f.returns.token.lexeme.toList ++ ' ' :: (f.name.toList ++ '(' :: ')' ::
      (dropUnderscores (bodyLines f.body) ++ ['\n']))) f.stripped.tokens := by
  obtain ⟨htype, hname, hbody⟩ := wellSpelled_function h
  have hlines := (writes_bodyLines hbody).append (writes_nil.blank (c := '\n') (by decide))
  have hparameters := (hlines.mark .closeParen (by decide)).mark .openParen (by decide)
  have hnamed := (hparameters.token (delimited_cons _ (by decide)) hname).blank (c := ' ')
    (by decide)
  have hall := hnamed.token (delimited_cons _ (by decide)) htype
  rw [List.append_nil] at hall
  exact hall

end Function

/-! ### Listings -/

theorem toList_text (p : Program) : (Listing.ofProgram p).text.toList =
    p.functions.flatMap (fun f => (Routine.ofFunction f).text.toList ++ ['\n']) ++
      (mainHeading ++ bodyLines p.main) := by
  have hjoin : ∀ (ls : List (List Char)) (last : List Char),
      ['\n'].intercalate (ls ++ [last]) = ls.flatMap (· ++ ['\n']) ++ last := by
    intro ls last
    induction ls with
    | nil => simp [List.intercalate]
    | cons l ls ih =>
      obtain ⟨l', ls', hcons⟩ := List.exists_cons_of_ne_nil (List.append_ne_nil_of_right_ne_nil ls
        (List.cons_ne_nil last []))
      rw [List.cons_append, hcons, List.intercalate_cons_cons, ← hcons, ih, List.flatMap_cons]
      simp
  have hmain : (Routine.text ⟨.int, "main", .ofBlock p.main⟩).toList =
      mainHeading ++ bodyLines p.main := by
    rw [toList_routine]
    rfl
  have hroutines : ((Listing.ofProgram p).routines.map Routine.text).map String.toList =
      p.functions.map (fun f => (Routine.ofFunction f).text.toList) ++
        [mainHeading ++ bodyLines p.main] := by
    rw [← hmain]
    simp [Listing.ofProgram]
  have hbreak : "\n".toList = ['\n'] := by decide
  rw [Listing.text, String.toList_intercalate, hroutines, hbreak, hjoin, List.flatMap_map]

theorem spaced_main {main : Block} (h : ∀ t ∈ main.tokens, t.WellSpelled) :
    Spaced (unlist 0 (mainHeading ++ bodyLines main))
      (.keyword .main :: .mark .openParen :: .mark .closeParen :: braced main.stripped.tokens) := by
  have hword : (Token.keyword .main).WellSpelled := trivial
  have hlines := writes_bodyLines h
  have hparameters := (hlines.mark .closeParen (by decide)).mark .openParen (by decide)
  have hall := hparameters.token (delimited_cons _ (by decide)) hword [] [] .nil
  have hbody := unlist_body h []
  rw [List.append_nil] at hbody
  have htext : unlist 0 (mainHeading ++ bodyLines main) = Keyword.main.lexeme.toList ++
      (Mark.openParen.char :: Mark.closeParen.char :: dropUnderscores (bodyLines main)) ++ [] := by
    rw [unlist_main, hbody, List.append_nil]
    simp only [unlist, List.append_nil]
    rfl
  rw [htext]
  rw [List.append_nil (Token.keyword .main :: _)] at hall
  exact hall

/-- The listing of a program, unlisted, is a text of the program without leading zeros. -/
theorem spaced_listing {p : Program} (h : ∀ t ∈ p.tokens, t.WellSpelled) :
    Spaced (unlist 0 (Listing.ofProgram p).text.toList) p.stripped.tokens := by
  have hmain : ∀ t ∈ p.main.tokens, t.WellSpelled :=
    fun t ht => h t (by simp [Program.tokens, braced, ht])
  have hfunctions : ∀ f ∈ p.functions, ∀ t ∈ f.tokens, t.WellSpelled :=
    fun f hf t ht => h t (List.mem_append_left _ (List.mem_flatMap.mpr ⟨f, hf, ht⟩))
  rw [toList_text, Program.tokens, Program.stripped, List.flatMap_map]
  generalize p.functions = functions at hfunctions ⊢
  induction functions with
  | nil => exact spaced_main hmain
  | cons f functions ih =>
    obtain ⟨hf, hrest⟩ := List.forall_mem_cons.mp hfunctions
    have hassoc : (f :: functions).flatMap
        (fun f => (Routine.ofFunction f).text.toList ++ ['\n']) ++
          (mainHeading ++ bodyLines p.main) = (Routine.ofFunction f).text.toList ++ '\n' ::
          (functions.flatMap (fun f => (Routine.ofFunction f).text.toList ++ ['\n']) ++
            (mainHeading ++ bodyLines p.main)) := by
      simp
    have hall := writes_function hf _ _ (ih hrest)
    rw [hassoc, unlist_function hf, List.flatMap_cons, List.append_assoc]
    simpa using hall

theorem readProgram_unlisted {source : String} {p : Program}
    (h : (readProgram source).result = .ok p) :
    (readProgram (unlisted (Listing.ofProgram p).text)).result = .ok p.stripped := by
  have hspaced := spaced_listing (wellSpelled_tokens h)
  obtain ⟨ts, ending, hstream, hvalues⟩ := exists_stream_of_spaced hspaced .start
  obtain ⟨tree, -, helaborate⟩ := exists_tree_of_readProgram h
  refine (readProgram_eq_ok_iff _ _).mpr
    ⟨ts, ending, tree.stripped, ?_, ?_, elaborate_stripped helaborate⟩
  · rw [Scanner.ofText_eq_standing, unlisted, String.toList_ofList]
    exact hstream
  · exact hvalues.trans (tokens_stripped helaborate).symm

/-- A listing without what it adds is again a text of its program, up to leading zeros of integers,
and has the same listing. -/
theorem readProgram_of_listing {source text : String}
    (h : (compile source .c).result = .ok text) :
    ∃ p, (readProgram source).result = .ok p ∧
      (readProgram (unlisted text)).result = .ok p.stripped ∧
      (compile (unlisted text) .c).result = .ok text ∧
      ∀ source', (compile source' .c).result = .ok text →
        ∃ p', (readProgram source').result = .ok p' ∧ p'.stripped = p.stripped := by
  obtain ⟨p, hread, rfl⟩ := (compile_eq_ok_iff _ _ _).mp h
  have hback := readProgram_unlisted hread
  refine ⟨p, hread, hback, (compile_eq_ok_iff _ _ _).mpr ⟨p.stripped, hback, ?_⟩, ?_⟩
  · exact congrArg Listing.text (ofProgram_stripped p)
  · intro source' h'
    obtain ⟨p', hread', htext⟩ := (compile_eq_ok_iff _ _ _).mp h'
    have hback' := readProgram_unlisted hread'
    have hsame : (Listing.ofProgram p').text = (Listing.ofProgram p).text := htext
    rw [hsame] at hback'
    exact ⟨p', hread', Except.ok.inj (hback'.symm.trans hback)⟩

/-- A function and a variable named by keywords, and a size with leading zeros. -/
def keywordNames : String := "int if()\x7b\x7dmain()\x7bint do[007];\x7d"

def keywordNamesListing : String :=
  "int if_(void)\n\x7b\n\x7d\n\nint main(void)\n\x7b\n  int do_[7];\n\x7d\n"

theorem readProgram_of_keywordNames :
    (compile keywordNames .c).result = .ok keywordNamesListing ∧
    ∃ p, (readProgram keywordNames).result = .ok p ∧
      (readProgram (unlisted keywordNamesListing)).result = .ok p.stripped ∧
      (compile (unlisted keywordNamesListing) .c).result = .ok keywordNamesListing ∧
      ∀ source', (compile source' .c).result = .ok keywordNamesListing →
        ∃ p', (readProgram source').result = .ok p' ∧ p'.stripped = p.stripped := by
  have h : (compile keywordNames .c).result = .ok keywordNamesListing :=
    Traced.result_eq_ok_iff.mpr (by decide +kernel)
  exact ⟨h, readProgram_of_listing h⟩

end BlockLang.C
