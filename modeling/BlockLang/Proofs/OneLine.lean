import BlockLang.Proofs.Characters
import BlockLang.Proofs.FaultPositions

/-!
# Diagnostics take one line

A diagnostic quotes tokens, which have no line breaks, or a character that begins nothing, and a
line break is a blank.
-/

namespace BlockLang

/-- The character does not end a line. -/
def InLine (c : Char) : Prop := c ≠ '\n'

instance : DecidablePred InLine := fun c => inferInstanceAs (Decidable (c ≠ '\n'))

theorem admits_inLine : Admits InLine := by
  refine ⟨?_, by decide, ?_⟩
  · rintro c hc rfl
    cases hc
  · intro m
    cases m <;> decide

theorem inLine_position (p : Position) : AllChars InLine p.text := by
  have hline := admits_inLine.number p.line.toNat
  have hcolumn := admits_inLine.number p.column.toNat
  simp +decide only [Position.text, allChars_append, hline, hcolumn]

theorem inLine_expected (expected : ClassSet) : AllChars InLine expected.text := by
  apply allChars_join
  intro text htext
  obtain ⟨k, -, rfl⟩ := List.mem_map.mp htext
  cases k <;> decide

theorem inLine_phrase {opening text ending : String} (hopening : AllChars InLine opening)
    (h : AllChars InLine text) (hending : AllChars InLine ending) :
    AllChars InLine (opening ++ text ++ ending) :=
  (hopening.append h).append hending

theorem inLine_quoted {t : Token} (h : t.WellSpelled) : AllChars InLine t.quoted := by
  have hquoted : AllChars InLine ("'" ++ t.lexeme ++ "'") :=
    inLine_phrase (by decide) (admits_inLine.lexeme h) (by decide)
  cases t with
  | endOfText => decide
  | _ => exact hquoted

theorem inLine_unexpected {found : Token} (h : AllChars InLine found.quoted)
    (expected : ClassSet) :
    AllChars InLine (GrammarError.unexpectedToken found expected).message := by
  have hopening : AllChars InLine ("encontrado " ++ found.quoted) :=
    allChars_append.mpr ⟨by decide, h⟩
  exact inLine_phrase hopening (by decide) (inLine_expected expected)

theorem inLine_subject {fault : Fault} {t : Token} (hfault : fault.subject? = some t)
    (ht : t.WellSpelled) : AllChars InLine fault.message := by
  have hlexeme := admits_inLine.lexeme ht
  cases fault with
  | lexical e => cases hfault
  | syntactic e =>
    cases e with
    | unexpectedToken found expected => cases hfault
    | tooDeep => decide
  | semantic e =>
    cases e with
    | expectedReal name => cases hfault
    | _ =>
      cases hfault
      simp only [Fault.message, SemanticError.message]
      exact inLine_phrase (by decide) hlexeme (by decide)

theorem Ends.inLine_message {ts : List (Located Token)} {last : Scan} {d : Diagnostic}
    (h : Ends ts last d) (htokens : ∀ t, .token t ∈ resultsOf ts last → t.value.WellSpelled)
    (hchars : ∀ p c, .failure ⟨p, .badChar c⟩ ∈ resultsOf ts last → InLine c) :
    AllChars InLine d.fault.message := by
  cases h with
  | lexical e =>
    obtain ⟨q, e⟩ := e
    cases e with
    | unexpectedEnd =>
      show AllChars InLine LexicalError.unexpectedEnd.message
      decide
    | badChar c =>
      have hc : AllChars InLine (String.singleton c) := by
        intro e he
        rw [String.toList_singleton, List.mem_singleton] at he
        rw [he]
        exact hchars q c (by simp [resultsOf])
      show AllChars InLine ("caracter '" ++ String.singleton c ++ "' incorrecto")
      exact inLine_phrase (by decide) hc (by decide)
  | unexpected t expected =>
    exact inLine_unexpected (inLine_quoted (htokens t (by simp [resultsOf]))) expected
  | unexpectedEnd expected => exact inLine_unexpected (by decide) expected
  | @previous before t hts last hlast fault hfault =>
    exact inLine_subject hfault (htokens t (by simp [resultsOf, hts]))
  | @expectedReal before us name hts semicolon a ha =>
    have hname : AllChars InLine name.value :=
      admits_inLine.lexeme (htokens ⟨name.position, .name name.value⟩ (by simp [resultsOf, hts]))
    show AllChars InLine ("'" ++ name.value ++ "' debe ser de tipo real")
    exact inLine_phrase (by decide) hname (by decide)

theorem inLine_text {d : Diagnostic} (h : AllChars InLine d.fault.message) :
    AllChars InLine d.text := by
  obtain ⟨fault, position⟩ := d
  have hphase : AllChars InLine ("Error " ++ fault.phase.text) := by
    cases fault.phase <;> decide
  cases position with
  | none =>
    have hplace : AllChars InLine "" := by decide
    exact ((hphase.append hplace).append (by decide)).append h
  | some p =>
    have hplace : AllChars InLine (" " ++ p.text) :=
      allChars_append.mpr ⟨by decide, inLine_position p⟩
    exact ((hphase.append hplace).append (by decide)).append h

/-- The diagnostic of a refused text has no line break. -/
theorem inLine_diagnostic {source : String} {target : Target} {d : Diagnostic}
    (h : (compile source target).result = .error d) : AllChars InLine d.text := by
  obtain ⟨ts, last, s, hpulls, -, -, hends⟩ := exists_stops_of_readProgram (error_of_compile h)
  have hbegins : resultsOf ts last <+: (Scanner.ofText source).stream.results := by
    rw [← hpulls]
    exact Reader.pulls_isPrefix ..
  apply inLine_text
  apply hends.inLine_message
  · intro t ht
    exact wellSpelled_of_results (hbegins.subset ht)
  · intro p c hc
    obtain ⟨-, -, -, -, hnothing⟩ := exists_badChar (hbegins.subset hc)
    rintro rfl
    cases hnothing.blank

end BlockLang
