import BlockLang.Proofs.Stepping

/-!
# How tokens are spelled

`Token.WellSpelled` is the lexical rule of each token. The scanner yields no other
tokens (`wellSpelled_of_stream`); in particular it never yields the end of the text
as a token, and the integers that it yields are digits, so that a size is positive
iff its decimal value is (`positive_iff_decimalValue`).
-/

namespace BlockLang

/-- A letter, then letters and digits. -/
def IsWord (cs : List Char) : Prop :=
  ∃ c rest, cs = c :: rest ∧ c.isAlpha = true ∧ ∀ d ∈ rest, d.isAlphanum = true

/-- One digit or more. -/
def IsNumeral (cs : List Char) : Prop := cs ≠ [] ∧ ∀ c ∈ cs, c.isDigit = true

theorem IsWord.isAlphanum {cs : List Char} (h : IsWord cs) : ∀ c ∈ cs, c.isAlphanum = true := by
  obtain ⟨c, rest, rfl, hc, hrest⟩ := h
  exact List.forall_mem_cons.mpr ⟨by simp [Char.isAlphanum, hc], hrest⟩

theorem isDigit_of_mem_toString {k : Nat} {c : Char} (h : c ∈ (toString k).toList) :
    c.isDigit = true := by
  rw [Nat.toString_eq_ofList_toDigits, String.toList_ofList] at h
  exact Nat.isDigit_of_mem_toDigits (by decide) (by decide) h

theorem isWord_lexeme (k : Keyword) : IsWord k.lexeme.toList := by
  cases k with
  | int => exact ⟨'i', ['n', 't'], rfl, by decide, List.all_eq_true.mp (by decide)⟩
  | double =>
    exact ⟨'d', ['o', 'u', 'b', 'l', 'e'], rfl, by decide, List.all_eq_true.mp (by decide)⟩
  | main => exact ⟨'m', ['a', 'i', 'n'], rfl, by decide, List.all_eq_true.mp (by decide)⟩

/-- A token that obeys the lexical rule of its kind. -/
def Token.WellSpelled : Token → Prop
  | .name text => IsWord text.toList ∧ Keyword.ofLexeme? text = none
  | .keyword _ => True
  | .integer lexeme => IsNumeral lexeme.toList
  | .real lexeme => ∃ whole fraction, lexeme.toList = whole ++ '.' :: fraction ∧
      IsNumeral whole ∧ IsNumeral fraction
  | .mark _ => True
  | .endOfText => False

theorem isNumeral_takeWhile {cs : List (Located Char)} (h : cs.takeWhile isDigitAt ≠ []) :
    IsNumeral (plainChars (cs.takeWhile isDigitAt)) := by
  refine ⟨fun hnil => h (List.map_eq_nil_iff.mp hnil), ?_⟩
  intro c hc
  obtain ⟨d, hd, rfl⟩ := List.mem_map.mp hc
  exact List.all_eq_true.mp List.all_takeWhile d hd

namespace Scanner

theorem wellSpelled_word {start : Position} {c : Located Char} {cs : List (Located Char)}
    {t : Located Token} (hc : c.value.isAlpha = true)
    (h : (word start (c :: cs)).1 = .token t) : t.value.WellSpelled := by
  simp only [word, emit, Scan.token.injEq] at h
  subst h
  have hword : IsWord (lexemeOf ((c :: cs).takeWhile isAlphanumAt)).toList := by
    have halnum : isAlphanumAt c = true := by simp [isAlphanumAt, Char.isAlphanum, hc]
    refine ⟨c.value, plainChars (cs.takeWhile isAlphanumAt), ?_, hc, ?_⟩
    · simp [lexemeOf, plainChars, halnum]
    · intro d hd
      obtain ⟨e, he, rfl⟩ := List.mem_map.mp hd
      exact List.all_eq_true.mp List.all_takeWhile e he
  unfold Token.ofWord
  cases hk : Keyword.ofLexeme? (lexemeOf ((c :: cs).takeWhile isAlphanumAt)) with
  | none => exact ⟨hword, hk⟩
  | some k => exact trivial

theorem wellSpelled_number {start : Position} {c : Located Char} {cs : List (Located Char)}
    {t : Located Token} (hc : c.value.isDigit = true)
    (h : (number start (c :: cs)).1 = .token t) : t.value.WellSpelled := by
  have hdigits : (c :: cs).takeWhile isDigitAt ≠ [] := by
    simp [isDigitAt, hc]
  have hnumeral := isNumeral_takeWhile hdigits
  unfold number at h
  split at h
  · next point rest _ =>
    split at h
    · next hpoint =>
      split at h
      · simp only [Scan.token.injEq] at h
        subst h
        simpa [Token.WellSpelled, lexemeOf] using hnumeral
      · next hfraction =>
        simp only [emit, Scan.token.injEq] at h
        subst h
        refine ⟨_, _, ?_, hnumeral, isNumeral_takeWhile hfraction⟩
        simp [lexemeOf, plainChars, hpoint]
    · simp only [emit, Scan.token.injEq] at h
      subst h
      simpa [Token.WellSpelled, lexemeOf] using hnumeral
  · simp only [emit, Scan.token.injEq] at h
    subst h
    simpa [Token.WellSpelled, lexemeOf] using hnumeral

theorem wellSpelled_token {p : Position} {cs : List (Located Char)} {t : Located Token}
    (h : (token p cs).1 = .token t) : t.value.WellSpelled := by
  cases cs with
  | nil => simp [token] at h
  | cons c rest =>
    rw [token] at h
    by_cases letter : c.value.isAlpha = true
    · rw [if_pos letter] at h
      exact wellSpelled_word letter h
    · rw [if_neg letter] at h
      by_cases digit : c.value.isDigit = true
      · rw [if_pos digit] at h
        exact wellSpelled_number digit h
      · rw [if_neg digit] at h
        cases hmark : Mark.ofChar? c.value with
        | none => simp [hmark] at h
        | some m =>
          simp only [hmark, emit, Scan.token.injEq] at h
          subst h
          exact trivial

theorem wellSpelled_of_next {s s' : Scanner} {t : Located Token} (h : s.next = (.token t, s')) :
    t.value.WellSpelled := by
  unfold next at h
  split at h
  · simp at h
  · split at h
    · exact wellSpelled_token (congrArg Prod.fst h)
    · simp at h

theorem wellSpelled_of_stream {s : Scanner} {ts : List (Located Token)} {tail : TokenStream}
    (h : s.stream = .prepend ts tail) : ∀ t ∈ ts, t.value.WellSpelled := by
  induction ts generalizing s with
  | nil => simp
  | cons t ts ih =>
    rw [stream] at h
    split at h
    · next t' s' hnext =>
      obtain ⟨rfl, hrest⟩ := TokenStream.token.inj h
      intro u hu
      rcases List.mem_cons.mp hu with rfl | hu
      · exact wellSpelled_of_next hnext
      · exact ih hrest u hu
    · exact absurd h (by simp [TokenStream.prepend])
    · exact absurd h (by simp [TokenStream.prepend])

end Scanner

/-! ### Sizes -/

/-- The number that a string of digits stands for. -/
def decimalValue (lexeme : String) : Nat := Nat.ofDigitChars 10 lexeme.toList 0

theorem ofDigitChars_pos_iff {cs : List Char} (hcs : ∀ c ∈ cs, c.isDigit = true) (n : Nat) :
    0 < Nat.ofDigitChars 10 cs n ↔ 0 < n ∨ ∃ c ∈ cs, c ≠ '0' := by
  induction cs generalizing n with
  | nil => simp
  | cons c cs ih =>
    have hdigit := Char.isDigit_iff_toNat.mp (hcs c (by simp))
    rw [Nat.ofDigitChars_cons, ih (fun d hd => hcs d (by simp [hd]))]
    have hzero : c = '0' ↔ c.toNat = '0'.toNat := Char.toNat_inj.symm
    have hsplit : (∃ d ∈ c :: cs, d ≠ '0') ↔ c ≠ '0' ∨ ∃ d ∈ cs, d ≠ '0' := by simp
    rw [hsplit, ne_eq, hzero, ← or_assoc]
    have hvalue : 0 < 10 * n + (c.toNat - '0'.toNat) ↔ 0 < n ∨ ¬c.toNat = '0'.toNat := by omega
    rw [hvalue]

theorem positive_iff_decimalValue {size : String} (h : IsNumeral size.toList) :
    Positive size ↔ 0 < decimalValue size := by
  rw [decimalValue, ofDigitChars_pos_iff h.2]
  simp [Positive]

end BlockLang
