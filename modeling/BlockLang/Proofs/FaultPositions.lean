import BlockLang.Compile
import BlockLang.Proofs.Lookahead
import BlockLang.Proofs.MaximalMunch

/-!
# Positions of diagnostics

A diagnostic without a position is about the end of the text. Any other stands at a character of
the text, and what begins there is what it quotes (`Fault.Quotes`): a character that begins no
token, or a token of the text as a whole.
-/

namespace BlockLang

/-- The tokens of a stream. -/
def TokenStream.tokens (s : TokenStream) : List (Located Token) := s.results.filterMap Scan.token?

theorem filterMap_token (ts : List (Located Token)) :
    (ts.map Scan.token).filterMap Scan.token? = ts := by
  rw [List.filterMap_map]
  exact List.filterMap_some

theorem TokenStream.tokens_prepend (ts : List (Located Token)) (tail : TokenStream) :
    (prepend ts tail).tokens = ts ++ tail.tokens := by
  rw [tokens, results_prepend, List.filterMap_append, filterMap_token, tokens]

/-- The text holds this token, as a whole and where its position says. -/
structure Holds (source : String) (t : Located Token) : Prop where
  scanned : t ∈ (Scanner.ofText source).stream.tokens
  stands : ∃ rest, StandsAt source t.position t.value.lexeme.toList rest ∧ t.value.Longest rest

/-- The text holds an assignment to the name at this position. -/
def HoldsAssignment (source : String) (name : Located String) : Prop :=
  ∃ before us after, ∃ a : AssignmentTree, a.tokens = .name name.value :: us.map Located.value ∧
    (Scanner.ofText source).stream.tokens =
      before ++ ⟨name.position, .name name.value⟩ :: us ++ after

/-- What a fault quotes begins at this position of the text. -/
def Fault.Quotes (source : String) (p : Position) : Fault → Prop
  | .lexical (.badChar c) => ∃ rest, StandsAt source p [c] rest
  | .lexical .unexpectedEnd => False
  | .syntactic (.unexpectedToken found _) => Holds source ⟨p, found⟩
  | .syntactic .tooDeep => Holds source ⟨p, .mark .openBrace⟩
  | .semantic (.undeclared name) => Holds source ⟨p, .name name⟩
  | .semantic (.notAVariable name) => Holds source ⟨p, .name name⟩
  | .semantic (.redeclared name) => Holds source ⟨p, .name name⟩
  | .semantic (.expectedReal name) =>
    Holds source ⟨p, .name name⟩ ∧ HoldsAssignment source ⟨p, name⟩
  | .semantic (.nonPositiveSize lexeme) => Holds source ⟨p, .integer lexeme⟩

theorem Fault.quotes_of_subject {fault : Fault} {source : String} {p : Position} {t : Token}
    (h : fault.subject? = some t) (ht : Holds source ⟨p, t⟩) : fault.Quotes source p := by
  cases fault with
  | lexical e => cases h
  | syntactic e =>
    cases e with
    | unexpectedToken found expected => cases h
    | tooDeep =>
      cases h
      exact ht
  | semantic e =>
    cases e with
    | expectedReal name => cases h
    | _ =>
      cases h
      exact ht

/-! ### What the scanner has found stands in the text -/

theorem holds_of_mem {source : String} {t : Located Token}
    (h : t ∈ (Scanner.ofText source).stream.tokens) : Holds source t := by
  refine ⟨h, ?_⟩
  obtain ⟨pieces, last, rest, tail, hcuts⟩ := exists_cuts .start source.toList
  have htail : tail.tokens = [] := by
    have hends := hcuts.ends
    cases tail with
    | token u rest => cases hends
    | done p => rfl
    | failure e => rfl
  have htokens : (Scanner.ofText source).stream.tokens = tokensOf .start pieces := by
    rw [Scanner.ofText_eq_standing, hcuts.tokens, TokenStream.tokens_prepend, htail,
      List.append_nil]
  rw [htokens] at h
  exact hcuts.munched.standsAt hcuts.text h

theorem exists_badChar {source : String} {p : Position} {c : Char}
    (h : .failure ⟨p, .badChar c⟩ ∈ (Scanner.ofText source).stream.results) :
    ∃ a more, source.toList = a ++ c :: more ∧ p = Position.start.past a ∧ BeginsNothing c := by
  obtain ⟨pieces, last, rest, tail, hcuts⟩ := exists_cuts .start source.toList
  rw [Scanner.ofText_eq_standing, hcuts.tokens, TokenStream.results_prepend] at h
  have hends := hcuts.ends
  have htext := hcuts.text
  cases tail with
  | token u rest => cases hends
  | done q => simp [TokenStream.results] at h
  | failure e =>
    have he : e = ⟨p, .badChar c⟩ := by
      simpa [TokenStream.results, eq_comm] using h
    subst he
    obtain ⟨rfl, hc, more, rfl⟩ := hends
    refine ⟨textOf pieces ++ last, more, ?_, rfl, hc⟩
    rw [htext, List.append_assoc]

theorem standsAt_badChar {source : String} {p : Position} {c : Char}
    (h : .failure ⟨p, .badChar c⟩ ∈ (Scanner.ofText source).stream.results) :
    ∃ rest, StandsAt source p [c] rest := by
  obtain ⟨a, more, htext, rfl, -⟩ := exists_badChar h
  exact ⟨more, standsAt_of_split htext (List.cons_ne_nil c [])⟩

/-! ### What a diagnostic quotes stands at its position -/

theorem error_of_compile {source : String} {target : Target} {d : Diagnostic}
    (h : (compile source target).result = .error d) : (readProgram source).result = .error d := by
  cases hread : (readProgram source).result with
  | ok p =>
    rw [compile, Traced.bind_of_ok hread] at h
    cases h
  | error d' =>
    rw [compile, Traced.bind_of_error hread] at h
    cases h
    rfl

section Ends
variable {source : String} {ts : List (Located Token)} {last : Scan} {d : Diagnostic}

theorem tokens_isPrefix (h : resultsOf ts last <+: (Scanner.ofText source).stream.results) :
    ts ++ last.token?.toList <+: (Scanner.ofText source).stream.tokens := by
  have htokens : (resultsOf ts last).filterMap Scan.token? = ts ++ last.token?.toList := by
    rw [resultsOf, List.filterMap_append, filterMap_token]
    cases last <;> rfl
  rw [← htokens]
  exact h.filterMap _

theorem quotes_of_ends (hends : Ends ts last d)
    (hbegins : resultsOf ts last <+: (Scanner.ofText source).stream.results) {p : Position}
    (hp : d.position = some p) : d.fault.Quotes source p := by
  have htokens := tokens_isPrefix hbegins
  cases hends with
  | lexical e =>
    obtain ⟨q, e⟩ := e
    cases e with
    | unexpectedEnd => cases hp
    | badChar c =>
      cases hp
      exact standsAt_badChar (hbegins.subset (by simp [resultsOf]))
  | unexpected t expected =>
    cases hp
    exact holds_of_mem (htokens.subset (by simp [Scan.token?]))
  | unexpectedEnd expected => cases hp
  | @previous before t hts last hlast fault hfault =>
    cases hp
    subst hts
    exact Fault.quotes_of_subject hfault (holds_of_mem (htokens.subset (by simp)))
  | @expectedReal before us name hts semicolon a ha =>
    cases hp
    subst hts
    obtain ⟨after, hafter⟩ := htokens
    refine ⟨holds_of_mem ?_, before, us ++ [semicolon], after, a, ha, ?_⟩
    · rw [← hafter]
      simp
    · rw [← hafter]
      simp [Scan.token?]

theorem atEnd_of_ends (hends : Ends ts last d) (hp : d.position = none) :
    d.fault = .lexical .unexpectedEnd ∨
      ∃ expected, d.fault = .syntactic (.unexpectedToken .endOfText expected) := by
  cases hends with
  | lexical e =>
    obtain ⟨q, e⟩ := e
    cases e with
    | unexpectedEnd => exact .inl rfl
    | badChar c => cases hp
  | unexpectedEnd expected => exact .inr ⟨expected, rfl⟩
  | unexpected t expected => cases hp
  | previous hts hlast hfault => cases hp
  | expectedReal hts ha => cases hp

end Ends

theorem Holds.wellSpelled {source : String} {t : Located Token} (h : Holds source t) :
    t.value.WellSpelled := by
  obtain ⟨scan, hscan, htoken⟩ := List.mem_filterMap.mp h.scanned
  have hresult : scan = .token t := by
    cases scan <;> simp_all [Scan.token?]
  exact wellSpelled_of_results (hresult ▸ hscan)

/-- A diagnostic is about the end of the text or stands at what it quotes. -/
theorem position_of_compile {source : String} {target : Target} {d : Diagnostic}
    (h : (compile source target).result = .error d) :
    (d.position = none ↔ d.fault = .lexical .unexpectedEnd ∨
      ∃ expected, d.fault = .syntactic (.unexpectedToken .endOfText expected)) ∧
    ∀ p, d.position = some p → d.fault.Quotes source p := by
  obtain ⟨ts, last, s, hpulls, -, -, hends⟩ := exists_stops_of_readProgram (error_of_compile h)
  have hbegins : resultsOf ts last <+: (Scanner.ofText source).stream.results := by
    rw [← hpulls]
    exact Reader.pulls_isPrefix ..
  have hquotes : ∀ p, d.position = some p → d.fault.Quotes source p :=
    fun p hp => quotes_of_ends hends hbegins hp
  refine ⟨⟨atEnd_of_ends hends, ?_⟩, hquotes⟩
  intro hfault
  -- A fault at the end of the text quotes nothing that could stand anywhere.
  cases hp : d.position with
  | none => rfl
  | some p =>
    have hquote := hquotes p hp
    rcases hfault with hfault | ⟨expected, hfault⟩
    · rw [hfault] at hquote
      cases hquote
    · rw [hfault] at hquote
      exact hquote.wellSpelled.elim

/-- An assignment with its target on the second line, between comments. -/
def commentedAssignment : String := "main()\x7bint a;\n\t/* a */ a /* = */ = a + 2.5;"

theorem position_of_commentedAssignment :
    (compile commentedAssignment .c).result =
      .error ⟨.semantic (.expectedReal "a"), some ⟨2, 10⟩⟩ ∧
    Holds commentedAssignment ⟨⟨2, 10⟩, .name "a"⟩ ∧
    HoldsAssignment commentedAssignment ⟨⟨2, 10⟩, "a"⟩ := by
  have h : (compile commentedAssignment .c).result =
      .error ⟨.semantic (.expectedReal "a"), some ⟨2, 10⟩⟩ :=
    Traced.result_eq_error_iff.mpr (by decide +kernel)
  exact ⟨h, (position_of_compile h).2 _ rfl⟩

end BlockLang
