import BlockLang.Proofs.LeadingZeros
import BlockLang.Proofs.Rescanning

/-!
# The text of a C listing

Without its underscores the text of a listed block consists of the tokens of the block, integers
in output form, with blanks between them (`writes_body`): no token of it runs into the next one.
-/

namespace BlockLang

/-! ### Texts that end between tokens -/

/-- The text consists of these tokens, whatever text of tokens comes after it. -/
def Writes (cs : List Char) (ts : List Token) : Prop :=
  ∀ rest us, Spaced rest us → Spaced (cs ++ rest) (ts ++ us)

section Writes
variable {cs cs' : List Char} {ts ts' : List Token}

theorem writes_nil : Writes [] [] := fun _ _ h => h

theorem Writes.append (h : Writes cs ts) (h' : Writes cs' ts') :
    Writes (cs ++ cs') (ts ++ ts') := by
  intro rest us hrest
  rw [List.append_assoc, List.append_assoc]
  exact h _ _ (h' _ _ hrest)

theorem Writes.blank (h : Writes cs ts) {c : Char} (hc : isBlank c = true) : Writes (c :: cs) ts :=
  fun _ _ hrest => .blank hc (h _ _ hrest)

theorem Writes.mark (h : Writes cs ts) (m : Mark) (hm : m ≠ .slash) :
    Writes (m.char :: cs) (.mark m :: ts) := by
  intro rest us hrest
  have hlexeme : (Token.mark m).lexeme.toList = [m.char] := String.toList_singleton _
  have htoken := Spaced.token (t := .mark m) trivial (fun hslash => absurd hslash hm)
    (h rest us hrest)
  rwa [hlexeme] at htoken

theorem Writes.token (h : Writes cs ts) (hcs : Delimited cs) {t : Token} (ht : t.WellSpelled) :
    Writes (t.lexeme.toList ++ cs) (t :: ts) := by
  intro rest us hrest
  rw [List.append_assoc]
  exact .token ht ((hcs.append rest).endsBefore t) (h rest us hrest)

theorem writes_margin (depth : Nat) : Writes (margin depth).toList [] := by
  rw [margin, String.toList_ofList]
  generalize 2 * depth = n
  induction n with
  | zero => exact writes_nil
  | succ n ih => exact ih.blank (by decide)

end Writes

namespace C

/-! ### Underscores -/

def dropUnderscores (cs : List Char) : List Char := cs.filter (fun c => c ≠ '_')

theorem dropUnderscores_append (a b : List Char) :
    dropUnderscores (a ++ b) = dropUnderscores a ++ dropUnderscores b := List.filter_append ..

theorem dropUnderscores_cons {c : Char} (cs : List Char) (h : c ≠ '_') :
    dropUnderscores (c :: cs) = c :: dropUnderscores cs :=
  List.filter_cons_of_pos (by simpa using h)

theorem dropUnderscores_of_notMem {cs : List Char} (h : '_' ∉ cs) : dropUnderscores cs = cs := by
  rw [dropUnderscores, List.filter_eq_self]
  intro c hc
  have hne : c ≠ '_' := fun heq => h (heq ▸ hc)
  simpa using hne

theorem dropUnderscores_name {name : String} (h : (Token.name name).WellSpelled) :
    dropUnderscores (outputName name).toList = name.toList := by
  have hname := underscore_notMem_of_isWord h.1
  by_cases hmem : name ∈ keywords
  · rw [outputName_of_mem hmem, String.toList_append, dropUnderscores_append,
      dropUnderscores_of_notMem hname]
    exact List.append_nil _
  · rw [outputName_of_notMem hmem, dropUnderscores_of_notMem hname]

theorem dropUnderscores_margin (depth : Nat) :
    dropUnderscores (margin depth).toList = (margin depth).toList := by
  refine dropUnderscores_of_notMem ?_
  rw [margin, String.toList_ofList]
  intro hmem
  exact absurd (List.eq_of_mem_replicate hmem) (by decide)

theorem dropUnderscores_tyName (ty : Ty) :
    dropUnderscores (tyName ty).toList = ty.token.lexeme.toList := by
  cases ty <;> decide

theorem underscore_notMem_of_isNumeral {cs : List Char} (h : IsNumeral cs) : '_' ∉ cs :=
  fun hmem => absurd (h.2 _ hmem) (by decide)

/-- Words and numbers consist of letters, digits and points. -/
theorem exists_mark_of_mem {t : Token} (h : t.WellSpelled) {c : Char} (hc : c.isAlphanum = false)
    (hpoint : c ≠ '.') (hmem : c ∈ t.lexeme.toList) : ∃ m, t = .mark m ∧ c = m.char := by
  have hnumeral : ∀ cs, IsNumeral cs → c ∉ cs := by
    intro cs hcs hmem
    have hdigit := hcs.2 c hmem
    simp [Char.isAlphanum, hdigit] at hc
  cases t with
  | name text => exact absurd (h.1.isAlphanum c hmem) (by simp [hc])
  | keyword k => exact absurd ((isWord_lexeme k).isAlphanum c hmem) (by simp [hc])
  | integer lexeme => exact absurd hmem (hnumeral _ h)
  | real lexeme =>
    obtain ⟨whole, fraction, heq, hwhole, hfraction⟩ := h
    have hlexeme : (Token.real lexeme).lexeme.toList = whole ++ '.' :: fraction := heq
    rw [hlexeme, List.mem_append, List.mem_cons] at hmem
    rcases hmem with hmem | heq | hmem
    · exact absurd hmem (hnumeral _ hwhole)
    · exact absurd heq hpoint
    · exact absurd hmem (hnumeral _ hfraction)
  | mark m =>
    have hlexeme : (Token.mark m).lexeme.toList = [m.char] := String.toList_singleton _
    rw [hlexeme] at hmem
    exact ⟨m, rfl, List.mem_singleton.mp hmem⟩
  | endOfText => cases hmem

theorem underscore_notMem_lexeme {t : Token} (h : t.WellSpelled) : '_' ∉ t.lexeme.toList := by
  intro hmem
  obtain ⟨m, -, hm⟩ := exists_mark_of_mem h (by decide) (by decide) hmem
  cases m <;> exact absurd hm (by decide)

theorem isNumeral_stripZeros {cs : List Char} (h : ∀ c ∈ cs, c.isDigit = true) :
    IsNumeral (stripZeros cs) := by
  induction cs with
  | nil => exact ⟨List.cons_ne_nil _ _, List.forall_mem_singleton.mpr (by decide)⟩
  | cons c cs ih =>
    by_cases hc : c = '0'
    · subst hc
      exact ih (List.forall_mem_cons.mp h).2
    · rw [stripZeros_of_ne cs hc]
      exact ⟨List.cons_ne_nil _ _, h⟩

theorem wellSpelled_outputInteger {lexeme : String} (h : (Token.integer lexeme).WellSpelled) :
    (Token.integer (outputInteger lexeme)).WellSpelled := by
  rw [Token.WellSpelled, outputInteger, String.toList_ofList]
  exact isNumeral_stripZeros h.2

/-! ### Declarations -/

/-- The sizes of an array in brackets. -/
def sizeChars (size : String) : List Char := '[' :: (size.toList ++ [']'])

theorem delimited_cons {c : Char} (cs : List Char)
    (h : c.isAlphanum = false ∧ c ≠ '.' ∧ c ≠ '*') : Delimited (c :: cs) := ⟨c, cs, rfl, h⟩

theorem toList_sizesText (sizes : List String) :
    (sizesText sizes).toList = sizes.flatMap sizeChars := by
  have hsize : ∀ size : String, ("[" ++ size ++ "]").toList = sizeChars size := by
    intro size
    simp [sizeChars]
  rw [sizesText, String.toList_join, List.flatMap_map]
  simp only [hsize]

theorem writes_sizes {sizes : List String} {cs : List Char} {ts : List Token}
    (hsizes : ∀ size ∈ sizes, (Token.integer size).WellSpelled) (h : Writes cs ts)
    (hcs : Delimited cs) :
    Writes (sizes.flatMap sizeChars ++ cs) (sizes.flatMap sizeTokens ++ ts) ∧
      Delimited (sizes.flatMap sizeChars ++ cs) := by
  induction sizes with
  | nil => exact ⟨h, hcs⟩
  | cons size sizes ih =>
    obtain ⟨hsize, hsizes⟩ := List.forall_mem_cons.mp hsizes
    have hclose := (ih hsizes).1.mark .closeBracket (by decide)
    have hnumber := hclose.token (delimited_cons _ (by decide)) hsize
    have hopen := hnumber.mark .openBracket (by decide)
    have htext : (size :: sizes).flatMap sizeChars ++ cs =
        '[' :: (size.toList ++ ']' :: (sizes.flatMap sizeChars ++ cs)) := by
      simp [sizeChars]
    rw [htext]
    exact ⟨hopen, delimited_cons _ (by decide)⟩

theorem dropUnderscores_sizesText {sizes : List String}
    (h : ∀ size ∈ sizes, (Token.integer size).WellSpelled) :
    dropUnderscores (sizesText sizes).toList = sizes.flatMap sizeChars := by
  rw [toList_sizesText]
  refine dropUnderscores_of_notMem ?_
  intro hmem
  obtain ⟨size, hsize, hmem⟩ := List.mem_flatMap.mp hmem
  have hdigits := underscore_notMem_of_isNumeral (h size hsize)
  simp [sizeChars, hdigits] at hmem

theorem writes_declaration (depth : Nat) {d : Declaration} (h : ∀ t ∈ d.tokens, t.WellSpelled) :
    Writes (dropUnderscores (margin depth ++ tyName d.target.ty ++ " " ++
      outputName d.target.name ++ sizesText (d.sizes.map outputInteger) ++ ";\n").toList)
      d.stripped.tokens := by
  have hty : d.target.ty.token.WellSpelled := h _ (List.mem_cons_self ..)
  have hname : (Token.name d.target.name).WellSpelled := h _ (by simp [Declaration.tokens])
  have hsizes : ∀ size ∈ d.sizes.map outputInteger, (Token.integer size).WellSpelled := by
    intro size hsize
    obtain ⟨lexeme, hlexeme, rfl⟩ := List.mem_map.mp hsize
    have hmem : .integer lexeme ∈ d.sizes.flatMap sizeTokens :=
      List.mem_flatMap.mpr ⟨lexeme, hlexeme, by simp [sizeTokens]⟩
    exact wellSpelled_outputInteger (h _ (by simp [Declaration.tokens, hmem]))
  have hspace : dropUnderscores " ".toList = [' '] := by decide
  have hend : dropUnderscores ";\n".toList = [';', '\n'] := by decide
  have htext : dropUnderscores (margin depth ++ tyName d.target.ty ++ " " ++
      outputName d.target.name ++ sizesText (d.sizes.map outputInteger) ++ ";\n").toList =
      (margin depth).toList ++ (d.target.ty.token.lexeme.toList ++ ' ' :: (d.target.name.toList ++
        ((d.sizes.map outputInteger).flatMap sizeChars ++ [';', '\n']))) := by
    simp only [String.toList_append, dropUnderscores_append, dropUnderscores_margin,
      dropUnderscores_tyName, hspace, dropUnderscores_name hname,
      dropUnderscores_sizesText hsizes, hend, List.append_assoc]
    rfl
  rw [htext]
  have hline := (writes_nil.blank (c := '\n') (by decide)).mark .semicolon (by decide)
  obtain ⟨hafter, hdelimited⟩ := writes_sizes hsizes hline (delimited_cons _ (by decide))
  have hnamed := (hafter.token hdelimited hname).blank (c := ' ') (by decide)
  have htyped := hnamed.token (delimited_cons _ (by decide)) hty
  have hall := (writes_margin depth).append htyped
  exact hall

/-! ### Expressions -/

theorem wellSpelled_stripped {f : Factor} (h : f.token.WellSpelled) :
    f.stripped.token.WellSpelled := by
  cases f with
  | integer lexeme => exact wellSpelled_outputInteger h
  | real lexeme => exact h
  | read v => exact h

theorem dropUnderscores_operand {f : Factor} (h : f.token.WellSpelled) :
    dropUnderscores (Operand.ofFactor f).text.toList = f.stripped.token.lexeme.toList := by
  cases f with
  | integer lexeme =>
    have hdigits := underscore_notMem_of_isNumeral (wellSpelled_outputInteger h)
    exact dropUnderscores_of_notMem hdigits
  | real lexeme =>
    have hreal : (Token.real lexeme).WellSpelled := h
    have hplain := dropUnderscores_of_notMem (underscore_notMem_lexeme hreal)
    exact hplain
  | read v =>
    have hname : (Token.name v.name).WellSpelled := h
    have hlisted := dropUnderscores_name hname
    exact hlisted

/-- An operator and its operand, each after a space. -/
def stepChars (step : Operator × Factor) : List Char :=
  ' ' :: (step.1.token.lexeme.toList ++ ' ' :: step.2.stripped.token.lexeme.toList)

theorem dropUnderscores_step {step : Operator × Factor} (h : step.2.token.WellSpelled) :
    dropUnderscores (stepText (some (.ofOperator step.1), .ofFactor step.2)).toList =
      stepChars step := by
  obtain ⟨op, f⟩ := step
  have hsign : dropUnderscores (" " ++ (Sign.ofOperator op).text ++ " ").toList =
      ' ' :: (op.token.lexeme.toList ++ [' ']) := by
    cases op <;> decide
  rw [stepText, String.toList_append, dropUnderscores_append, hsign, dropUnderscores_operand h]
  simp [stepChars]

theorem writes_steps {steps : List (Operator × Factor)} {cs : List Char} {ts : List Token}
    (hsteps : ∀ step ∈ steps, step.2.token.WellSpelled) (h : Writes cs ts) (hcs : Delimited cs) :
    Writes (steps.flatMap stepChars ++ cs)
        (steps.flatMap (fun step => [step.1.token, step.2.stripped.token]) ++ ts) ∧
      Delimited (steps.flatMap stepChars ++ cs) := by
  induction steps with
  | nil => exact ⟨h, hcs⟩
  | cons step steps ih =>
    obtain ⟨hstep, hsteps⟩ := List.forall_mem_cons.mp hsteps
    obtain ⟨hrest, hdelimited⟩ := ih hsteps
    have hoperator : step.1.token.WellSpelled := by
      cases step.1 <;> exact trivial
    have hoperand := (hrest.token hdelimited (wellSpelled_stripped hstep)).blank (c := ' ')
      (by decide)
    have hall := (hoperand.token (delimited_cons _ (by decide)) hoperator).blank (c := ' ')
      (by decide)
    have htext : (step :: steps).flatMap stepChars ++ cs =
        ' ' :: (step.1.token.lexeme.toList ++ ' ' :: (step.2.stripped.token.lexeme.toList ++
          (steps.flatMap stepChars ++ cs))) := by
      simp [stepChars]
    rw [htext]
    exact ⟨hall, delimited_cons _ (by decide)⟩

theorem writes_expr {value : Expr} {cs : List Char} {ts : List Token}
    (hvalue : ∀ t ∈ value.tokens, t.WellSpelled) (h : Writes cs ts) (hcs : Delimited cs) :
    Writes (dropUnderscores (Formula.ofExpr value).text.toList ++ cs)
      (value.stripped.tokens ++ ts) := by
  obtain ⟨f, steps, hfactors⟩ := value.exists_factors
  rw [Expr.tokens, hfactors, List.flatMap_cons, List.forall_mem_append] at hvalue
  have hf : f.token.WellSpelled := hvalue.1 f.token (by simp [operandTokens])
  have hsteps : ∀ step ∈ steps, step.2.token.WellSpelled := by
    intro step hstep
    refine hvalue.2 step.2.token (List.mem_flatMap.mpr ⟨_, List.mem_map_of_mem hstep, ?_⟩)
    simp [operandTokens]
  have htext : dropUnderscores (Formula.ofExpr value).text.toList =
      f.stripped.token.lexeme.toList ++ steps.flatMap stepChars := by
    have hformula : Formula.ofExpr value = (none, .ofFactor f) ::
        steps.map (fun step => (some (.ofOperator step.1), .ofFactor step.2)) := by
      simp [Formula.ofExpr, hfactors]
    have hmap := List.map_congr_left (fun step hstep => dropUnderscores_step (hsteps step hstep))
    have hjoin : dropUnderscores (String.join ((steps.map (fun step =>
        (some (Sign.ofOperator step.1), Operand.ofFactor step.2))).map stepText)).toList =
        steps.flatMap stepChars := by
      rw [List.map_map, String.toList_join, List.flatMap_map, dropUnderscores,
        List.filter_flatMap]
      exact congrArg List.flatten hmap
    rw [Formula.text, hformula, List.map_cons, String.join_cons, String.toList_append,
      dropUnderscores_append, hjoin, stepText, dropUnderscores_operand hf]
  have htokens : value.stripped.tokens = f.stripped.token ::
      steps.flatMap (fun step => [step.1.token, step.2.stripped.token]) := by
    rw [Expr.tokens, Expr.factors_stripped, hfactors]
    simp [operandTokens, List.flatMap_map]
  obtain ⟨hrest, hdelimited⟩ := writes_steps hsteps h hcs
  rw [htext, htokens, List.append_assoc]
  exact hrest.token hdelimited (wellSpelled_stripped hf)

theorem writes_assignment (depth : Nat) {target : Variable} {value : Expr}
    (htarget : (Token.name target.name).WellSpelled)
    (hvalue : ∀ t ∈ value.tokens, t.WellSpelled) :
    Writes (dropUnderscores (margin depth ++ outputName target.name ++ " = " ++
      (Formula.ofExpr value).text ++ ";\n").toList)
      (.name target.name :: .mark .assign :: (value.stripped.tokens ++ [.mark .semicolon])) := by
  have hsign : dropUnderscores " = ".toList = [' ', '=', ' '] := by decide
  have hend : dropUnderscores ";\n".toList = [';', '\n'] := by decide
  have htext : dropUnderscores (margin depth ++ outputName target.name ++ " = " ++
      (Formula.ofExpr value).text ++ ";\n").toList =
      (margin depth).toList ++ (target.name.toList ++ ' ' :: '=' :: ' ' ::
        (dropUnderscores (Formula.ofExpr value).text.toList ++ [';', '\n'])) := by
    simp only [String.toList_append, dropUnderscores_append, dropUnderscores_margin, hsign,
      dropUnderscores_name htarget, hend, List.append_assoc]
    rfl
  rw [htext]
  have hline := (writes_nil.blank (c := '\n') (by decide)).mark .semicolon (by decide)
  have hwritten := (writes_expr hvalue hline (delimited_cons _ (by decide))).blank (c := ' ')
    (by decide)
  have hassigned := (hwritten.mark .assign (by decide)).blank (c := ' ') (by decide)
  have hnamed := hassigned.token (delimited_cons _ (by decide)) htarget
  have hall := (writes_margin depth).append hnamed
  exact hall

/-! ### Blocks -/

/-- The text of a listed block, without its underscores, as tokens. -/
theorem writes_body {b : Block} (h : ∀ t ∈ b.tokens, t.WellSpelled) (depth : Nat) :
    Writes (dropUnderscores ((Body.ofBlock b).text depth).toList) b.stripped.tokens := by
  induction b generalizing depth with
  | empty => exact writes_nil
  | declare d rest ih =>
    obtain ⟨hd, hrest⟩ := List.forall_mem_append.mp h
    rw [Body.ofBlock, Body.text, String.toList_append, dropUnderscores_append]
    exact (writes_declaration depth hd).append (ih hrest depth)
  | assign target value rest ih =>
    obtain ⟨hhere, hrest⟩ := List.forall_mem_append.mp h
    have htarget := hhere _ (List.mem_cons_self ..)
    have hvalue : ∀ t ∈ value.tokens, t.WellSpelled := fun t ht => hhere t (by simp [ht])
    rw [Body.ofBlock, Body.text, String.toList_append, dropUnderscores_append]
    exact (writes_assignment depth htarget hvalue).append (ih hrest depth)
  | nest inner rest ihInner ih =>
    obtain ⟨hhere, hrest⟩ := List.forall_mem_append.mp h
    have hinner : ∀ t ∈ inner.tokens, t.WellSpelled := fun t ht => hhere t (by simp [braced, ht])
    have hopen : dropUnderscores "\x7b\n".toList = ['\x7b', '\n'] := by decide
    have hclose : dropUnderscores "\x7d\n".toList = ['\x7d', '\n'] := by decide
    have htext : dropUnderscores ((Body.ofBlock (.nest inner rest)).text depth).toList =
        (margin depth).toList ++ '\x7b' :: '\n' ::
          (dropUnderscores ((Body.ofBlock inner).text (depth + 1)).toList ++
            ((margin depth).toList ++ '\x7d' :: '\n' ::
              dropUnderscores ((Body.ofBlock rest).text depth).toList)) := by
      simp only [Body.ofBlock, Body.text, String.toList_append, dropUnderscores_append,
        dropUnderscores_margin, hopen, hclose, List.append_assoc]
      rfl
    have hafter := ((ih hrest depth).blank (c := '\n') (by decide)).mark .closeBrace (by decide)
    have hline := (ihInner hinner (depth + 1)).append ((writes_margin depth).append hafter)
    have hall := (writes_margin depth).append
      ((hline.blank (c := '\n') (by decide)).mark .openBrace (by decide))
    have htokens : (Block.nest inner rest).stripped.tokens =
        .mark .openBrace ::
          (inner.stripped.tokens ++ .mark .closeBrace :: rest.stripped.tokens) := by
      simp [Block.stripped, Block.tokens, braced]
    rw [htext, htokens]
    exact hall

/-! ### Parentheses -/

theorem openParen_notMem_expr (value : Expr) : .mark .openParen ∉ value.tokens := by
  have hfactor : ∀ f : Factor, f.token ≠ .mark .openParen := by
    intro f
    cases f <;> simp [Factor.token]
  have hoperator : ∀ op : Operator, op.token ≠ .mark .openParen := by
    intro op
    cases op <;> simp [Operator.token]
  intro hmem
  obtain ⟨⟨op, f⟩, -, hmem⟩ := List.mem_flatMap.mp hmem
  cases op <;> simp [operandTokens, (hfactor _).symm, (hoperator _).symm] at hmem

theorem openParen_notMem_tokens (b : Block) : .mark .openParen ∉ b.tokens := by
  induction b with
  | empty => simp [Block.tokens]
  | declare d rest ih =>
    have htype : d.target.ty.token ≠ .mark .openParen := by
      cases d.target.ty <;> simp [Ty.token]
    simp [Block.tokens, Declaration.tokens, sizeTokens, htype.symm, ih]
  | assign target value rest ih => simp [Block.tokens, openParen_notMem_expr, ih]
  | nest inner rest ihInner ih => simp [Block.tokens, braced, ihInner, ih]

/-- No parenthesis stands in a listed block. -/
theorem paren_notMem_body {b : Block} (h : ∀ t ∈ b.tokens, t.WellSpelled) (depth : Nat) :
    '(' ∉ ((Body.ofBlock b).text depth).toList := by
  intro hmem
  have hkept : '(' ∈ dropUnderscores ((Body.ofBlock b).text depth).toList :=
    List.mem_filter.mpr ⟨hmem, by decide⟩
  have hspaced := writes_body h depth [] [] .nil
  rw [List.append_nil, List.append_nil] at hspaced
  obtain ⟨t, ht, hspelled, hlexeme⟩ := hspaced.exists_token hkept (by decide)
  obtain ⟨m, rfl, hm⟩ := exists_mark_of_mem hspelled (by decide) (by decide) hlexeme
  have hparen : m = .openParen := by
    cases m <;> first | rfl | exact absurd hm (by decide)
  rw [hparen] at ht
  exact openParen_notMem_tokens _ ht

end C

end BlockLang
