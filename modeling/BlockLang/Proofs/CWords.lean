import BlockLang.C.Listing
import BlockLang.Proofs.Bodies

/-!
# The words of a C listing

The names and literals of a listing are those of the text, in order (`words_ofProgram`). Listed
names are no keywords, and those that the text keeps apart stay apart (`outputName_injective`).
Listed integers have no leading zeros and keep their value (`sameNumber_outputInteger`).
-/

namespace BlockLang

def Token.integer? : Token → Option String
  | .integer lexeme => some lexeme
  | _ => none

namespace C

/-- The words that a listing must not use as names. -/
def reserved : List String := keywords ++ ["int", "double"]

/-- The names and literals of a listed block in the order of the text. -/
def Body.words : Body → List Operand
  | .empty => []
  | .declare _ name sizes rest => .variable name :: (sizes.map .integer ++ rest.words)
  | .assign target value rest => .variable target :: (value.map Prod.snd ++ rest.words)
  | .group inner rest => inner.words ++ rest.words

def Listing.words (l : Listing) : List Operand :=
  l.routines.flatMap (fun r => .variable r.name :: r.body.words)

def Operand.integer? : Operand → Option String
  | .integer digits => some digits
  | _ => none

/-! ### Names -/

theorem outputName_of_mem {name : String} (h : name ∈ keywords) : outputName name = name ++ "_" :=
  if_pos h

theorem outputName_of_notMem {name : String} (h : name ∉ keywords) : outputName name = name :=
  if_neg h

theorem mem_outputName_of_mem {name : String} (h : name ∈ keywords) :
    '_' ∈ (outputName name).toList := by
  rw [outputName_of_mem h, String.toList_append]
  exact List.mem_append_right _ (List.mem_singleton.mpr rfl)

/-- Names without underscores stay apart. -/
theorem outputName_injective {name name' : String} (h : '_' ∉ name.toList)
    (h' : '_' ∉ name'.toList) (heq : outputName name = outputName name') : name = name' := by
  by_cases hmem : name ∈ keywords <;> by_cases hmem' : name' ∈ keywords
  · rw [outputName_of_mem hmem, outputName_of_mem hmem'] at heq
    exact (String.append_left_inj "_").mp heq
  · have hunderscore := mem_outputName_of_mem hmem
    rw [heq, outputName_of_notMem hmem'] at hunderscore
    exact absurd hunderscore h'
  · have hunderscore := mem_outputName_of_mem hmem'
    rw [← heq, outputName_of_notMem hmem] at hunderscore
    exact absurd hunderscore h
  · rwa [outputName_of_notMem hmem, outputName_of_notMem hmem'] at heq

theorem outputName_notMem_reserved {name : String} (h : Keyword.ofLexeme? name = none) :
    outputName name ∉ reserved := by
  by_cases hmem : name ∈ keywords
  · rw [outputName_of_mem hmem]
    have hall : ∀ word ∈ keywords, word ++ "_" ∉ reserved := by decide
    exact hall name hmem
  · rw [outputName_of_notMem hmem]
    intro hreserved
    rcases List.mem_append.mp hreserved with hkeyword | htype
    · exact hmem hkeyword
    · have hall : ∀ word ∈ ["int", "double"], Keyword.ofLexeme? word ≠ none := by decide
      exact hall name htype h

theorem underscore_notMem_of_isWord {name : String} (h : IsWord name.toList) :
    '_' ∉ name.toList := by
  intro hmem
  exact absurd (h.isAlphanum _ hmem) (by decide)

/-! ### Integers -/

theorem stripZeros_zero (cs : List Char) : stripZeros ('0' :: cs) = stripZeros cs := rfl

theorem stripZeros_of_ne {c : Char} (cs : List Char) (h : c ≠ '0') :
    stripZeros (c :: cs) = c :: cs := by
  simp [stripZeros, h]

theorem ofDigitChars_stripZeros (cs : List Char) :
    Nat.ofDigitChars 10 (stripZeros cs) 0 = Nat.ofDigitChars 10 cs 0 := by
  induction cs with
  | nil => rfl
  | cons c cs ih =>
    by_cases hc : c = '0'
    · subst hc
      rw [stripZeros_zero, ih, Nat.ofDigitChars_cons]
      rfl
    · rw [stripZeros_of_ne cs hc]

theorem stripZeros_eq_zero {cs : List Char} (h : (stripZeros cs).head? = some '0') :
    stripZeros cs = ['0'] := by
  induction cs with
  | nil => rfl
  | cons c cs ih =>
    by_cases hc : c = '0'
    · subst hc
      exact ih h
    · rw [stripZeros_of_ne cs hc, List.head?_cons, Option.some.injEq] at h
      exact absurd h hc

/-- The same number, written without needless zeros. -/
def SameNumber (lexeme digits : String) : Prop :=
  decimalValue digits = decimalValue lexeme ∧ (digits.toList.head? = some '0' → digits = "0")

theorem sameNumber_outputInteger (lexeme : String) : SameNumber lexeme (outputInteger lexeme) := by
  constructor
  · rw [decimalValue, outputInteger, String.toList_ofList, ofDigitChars_stripZeros]
    rfl
  · intro h
    rw [outputInteger, String.toList_ofList] at h
    rw [outputInteger, stripZeros_eq_zero h]

/-! ### Words -/

/-- A name or literal of the source in its output form. -/
def word? : Token → Option Operand
  | .name text => some (.variable (outputName text))
  | .keyword .main => some (.variable "main")
  | .integer lexeme => some (.integer (outputInteger lexeme))
  | .real lexeme => some (.real lexeme)
  | _ => none

@[simp] theorem word?_name (text : String) :
    word? (.name text) = some (.variable (outputName text)) := rfl

@[simp] theorem word?_main : word? (.keyword .main) = some (.variable "main") := rfl

@[simp] theorem word?_mark (m : Mark) : word? (.mark m) = none := rfl

@[simp] theorem word?_type (ty : Ty) : word? ty.token = none := by
  cases ty <;> rfl

theorem words_sizes (sizes : List String) :
    (sizes.flatMap sizeTokens).filterMap word? = (sizes.map outputInteger).map .integer := by
  rw [List.filterMap_flatMap, List.map_map, List.map_eq_flatMap]
  rfl

theorem words_operand (step : Option Operator × Factor) :
    (operandTokens step).filterMap word? = [.ofFactor step.2] := by
  obtain ⟨op, f⟩ := step
  have hfactor : word? f.token = some (.ofFactor f) := by
    cases f <;> rfl
  have hoperator : ∀ op : Operator, word? op.token = none := by
    intro op
    cases op <;> rfl
  cases op <;> simp [operandTokens, hfactor, hoperator]

theorem words_expr (value : Expr) :
    value.tokens.filterMap word? = (Formula.ofExpr value).map Prod.snd := by
  rw [Expr.tokens, List.filterMap_flatMap, Formula.ofExpr, List.map_map, List.map_eq_flatMap]
  simp only [words_operand]
  rfl

theorem words_braced (ts : List Token) : (braced ts).filterMap word? = ts.filterMap word? := by
  simp [braced, List.filterMap_cons]

theorem words_ofBlock (b : Block) : (Body.ofBlock b).words = b.tokens.filterMap word? := by
  induction b with
  | empty => rfl
  | declare d rest ih =>
    simp [Body.ofBlock, Body.words, Block.tokens, Declaration.tokens, List.filterMap_cons,
      words_sizes, ih]
  | assign target value rest ih =>
    simp [Body.ofBlock, Body.words, Block.tokens, List.filterMap_cons, words_expr, ih]
  | nest inner rest ihInner ih =>
    simp [Body.ofBlock, Body.words, Block.tokens, words_braced, ihInner, ih]

theorem words_ofProgram (p : Program) :
    (Listing.ofProgram p).words = p.tokens.filterMap word? := by
  have hfunction : ∀ f : Function, f.tokens.filterMap word? =
      .variable (Routine.ofFunction f).name :: (Routine.ofFunction f).body.words := by
    intro f
    simp [Function.tokens, List.filterMap_cons, words_braced, Routine.ofFunction, words_ofBlock]
  have hmain : (Token.keyword .main :: .mark .openParen :: .mark .closeParen ::
      braced p.main.tokens).filterMap word? = .variable "main" :: (Body.ofBlock p.main).words := by
    simp [List.filterMap_cons, words_braced, words_ofBlock]
  rw [Program.tokens, List.filterMap_append, List.filterMap_flatMap, hmain]
  simp only [hfunction]
  simp [Listing.words, Listing.ofProgram, List.flatMap_map]

theorem words_splitFrom (ty : Option Ty) (ts : List Token) :
    (splitFrom ty ts).filterMap word? = ts.filterMap word? := by
  induction ts generalizing ty with
  | nil => rfl
  | cons t ts ih =>
    rw [splitFrom, List.filterMap_append, ih]
    unfold splitToken
    split
    · simp [List.filterMap_cons]
    · rw [← List.filterMap_append]
      rfl

theorem integers_words (ts : List Token) : (ts.filterMap word?).filterMap Operand.integer? =
    (ts.filterMap Token.integer?).map outputInteger := by
  have hword : ∀ t, (word? t).bind Operand.integer? = t.integer?.map outputInteger := by
    intro t
    cases t with
    | keyword k => cases k <;> rfl
    | _ => rfl
  rw [List.filterMap_filterMap, List.map_filterMap]
  simp only [hword]

/-! ### Blocks without underscores -/

/-- No name of the block has an underscore. -/
def Bare (b : Block) : Prop := ∀ name, .name name ∈ b.tokens → '_' ∉ name.toList

section Bare
variable {a b : Block}

theorem bare_append (h : Bare (a ++ b)) : Bare a ∧ Bare b := by
  refine ⟨fun name hname => h name ?_, fun name hname => h name ?_⟩
  · rw [tokens_append]
    exact List.mem_append_left _ hname
  · rw [tokens_append]
    exact List.mem_append_right _ hname

theorem bare_declare {d : Declaration} (h : Bare (.declare d b)) :
    '_' ∉ d.target.name.toList ∧ Bare b :=
  ⟨h _ (by simp [Block.tokens, Declaration.tokens]),
    fun name hname => h name (List.mem_append_right _ hname)⟩

theorem name_mem_tokens {value : Expr} {v : Variable} (h : v ∈ value.reads) :
    .name v.name ∈ value.tokens := by
  obtain ⟨step, hstep, heq⟩ := List.mem_filterMap.mp h
  refine List.mem_flatMap.mpr ⟨step, hstep, ?_⟩
  split at heq
  · next v' hv' =>
    cases heq
    rw [operandTokens, hv']
    exact List.mem_append_right _ (List.mem_singleton.mpr rfl)
  · cases heq

theorem bare_assign {target : Variable} {value : Expr} (h : Bare (.assign target value b)) :
    (∀ v ∈ target :: value.reads, '_' ∉ v.name.toList) ∧ Bare b := by
  refine ⟨List.forall_mem_cons.mpr ⟨?_, fun v hv => ?_⟩, fun name hname => ?_⟩
  · exact h _ (by simp [Block.tokens])
  · exact h _ (by simp [Block.tokens, name_mem_tokens hv])
  · exact h name (List.mem_append_right _ hname)

theorem bare_nest (h : Bare (.nest a b)) : Bare a ∧ Bare b :=
  ⟨fun name hname => h name (by simp [Block.tokens, braced, hname]),
    fun name hname => h name (List.mem_append_right _ hname)⟩

end Bare

/-! ### Accepted programs -/

section Accepted
variable {source : String} {p : Program}

theorem bare_bodies (h : (readProgram source).result = .ok p) : ∀ b ∈ p.bodies, Bare b := by
  intro b hb name hname
  have hspelled := wellSpelled_tokens h _ (mem_tokens_of_mem_bodies hb hname)
  exact underscore_notMem_of_isWord hspelled.1

theorem names_words (h : (readProgram source).result = .ok p) {name : String}
    (hname : .variable name ∈ (Listing.ofProgram p).words) : name ∉ reserved := by
  rw [words_ofProgram] at hname
  obtain ⟨t, ht, hword⟩ := List.mem_filterMap.mp hname
  have hspelled := wellSpelled_tokens h t ht
  unfold word? at hword
  split at hword
  · cases hword
    exact outputName_notMem_reserved hspelled.2
  · cases hword
    decide
  · cases hword
  · cases hword
  · cases hword

end Accepted

end C

end BlockLang
