import BlockLang.Proofs.CharacterSteps

/-!
# What a call consumes

A call that yields a token consumes a gap and then the characters of the token, and a point after
them exactly if it leaves the point to be refused by the next call (`exists_consumed_of_next`). So
every token costs at least one character, and a stream yields no more tokens than it has characters,
however many calls are made (`progress_of_reached`).
-/

namespace BlockLang

/-! ### The gap before a token -/

/-- These characters, read from a given state, end the comment if there is one, and are a gap after
that. A star that the state holds belongs to the comment. -/
def EndsGap : CommentState → List Char → Prop
  | .outside, cs => IsGap cs
  | state, cs => ∃ body g, state.held ++ cs = body ++ '*' :: '/' :: g ∧ Unclosed body ∧ IsGap g

theorem endsGap_inside {c : Char} {cs : List Char} (h : EndsGap (.after c) cs) :
    ∃ body g, c :: cs = body ++ '*' :: '/' :: g ∧ Unclosed body ∧ IsGap g ∧
      ∀ d ∈ body.head?, d = c := by
  unfold CommentState.after at h
  split at h
  · next hstar =>
    subst hstar
    obtain ⟨body, g, heq, hbody, hg⟩ := h
    refine ⟨body, g, heq, hbody, hg, ?_⟩
    intro d hd
    obtain ⟨tail, rfl⟩ := List.head?_eq_some_iff.mp hd
    exact (List.cons.inj heq).1.symm
  · next hstar =>
    obtain ⟨body, g, heq, hbody, hg⟩ := h
    refine ⟨c :: body, g, congrArg (List.cons c) heq, ?_, hg, ?_⟩
    · exact unclosed_cons.mpr ⟨fun h => hstar h.1, hbody⟩
    · intro d hd
      exact (Option.some.inj hd).symm

theorem endsGap_star {c : Char} (hc : c ≠ '/') {cs : List Char} (h : EndsGap (.after c) cs) :
    EndsGap .star (c :: cs) := by
  obtain ⟨body, g, heq, hbody, hg, hhead⟩ := endsGap_inside h
  refine ⟨'*' :: body, g, congrArg (List.cons '*') heq, ?_, hg⟩
  refine unclosed_cons.mpr ⟨?_, hbody⟩
  rintro ⟨-, hslash⟩
  exact hc (hhead '/' hslash).symm

theorem exists_gap_of_skipGap {state : CommentState} {p : Position} {cs : List (Located Char)}
    (h : (skipGap state p cs).1 = .outside) :
    ∃ gap, cs = gap ++ (skipGap state p cs).2.2 ∧ EndsGap state (plainChars gap) := by
  fun_induction skipGap state p cs with
  | case1 state p =>
    obtain rfl : state = .outside := h
    exact ⟨[], rfl, .nil⟩
  | case2 p c hblank => exact ⟨[c], rfl, .blank hblank .nil⟩
  | case3 p c hblank => exact ⟨[], rfl, .nil⟩
  | case4 p c d rest hblank ih =>
    obtain ⟨gap, heq, hgap⟩ := ih h
    exact ⟨c :: gap, congrArg (List.cons c) heq, .blank hblank hgap⟩
  | case5 p c d rest hblank hopen ih =>
    obtain ⟨gap, heq, body, g, hclose, hbody, hg⟩ := ih h
    refine ⟨c :: d :: gap, congrArg (fun xs => c :: d :: xs) heq, ?_⟩
    have hclose : plainChars gap = body ++ '*' :: '/' :: g := hclose
    have hplain : plainChars (c :: d :: gap) = '/' :: '*' :: (body ++ '*' :: '/' :: g) := by
      rw [← hclose, ← hopen.1, ← hopen.2]
      rfl
    rw [hplain]
    exact .comment hbody hg
  | case6 p c d rest hblank hopen => exact ⟨[], rfl, .nil⟩
  | case7 p c rest ih =>
    obtain ⟨gap, heq, hgap⟩ := ih h
    obtain ⟨body, g, hclose, hbody, hg, -⟩ := endsGap_inside hgap
    exact ⟨c :: gap, congrArg (List.cons c) heq, body, g, hclose, hbody, hg⟩
  | case8 p c rest hclose ih =>
    obtain ⟨gap, heq, hgap⟩ := ih h
    refine ⟨c :: gap, congrArg (List.cons c) heq, [], plainChars gap, ?_, unclosed_nil, hgap⟩
    show '*' :: c.value :: plainChars gap = '*' :: '/' :: plainChars gap
    rw [hclose]
  | case9 p c rest hclose ih =>
    obtain ⟨gap, heq, hgap⟩ := ih h
    exact ⟨c :: gap, congrArg (List.cons c) heq, endsGap_star hclose hgap⟩

/-! ### The characters of a token -/

/-- These characters spell a token and the point after it, if that is left to be refused. -/
def Spell (consumed : List (Located Char)) (t : Token) (pointed : Bool) : Prop :=
  plainChars consumed = t.lexeme.toList ++ if pointed then ['.'] else []

theorem lexeme_ofWord (word : String) : (Token.ofWord word).lexeme = word := by
  unfold Token.ofWord
  split
  · next k hk => exact Keyword.lexeme_of_ofLexeme? hk
  · rfl

namespace Scanner

/-- A token, if this is the result, is spelled by characters at the head of the stream. -/
def Consumes (cs : List (Located Char)) (result : Scan × Scanner) : Prop :=
  ∀ t, result.1 = .token t → ∃ consumed, consumed ≠ [] ∧ cs = consumed ++ result.2.rest ∧
    Spell consumed t.value result.2.refused.isSome

theorem consumes_emit (start : Position) {t : Token} {consumed : List (Located Char)}
    (hne : consumed ≠ []) (ht : t.lexeme = lexemeOf consumed) (rest : List (Located Char)) :
    Consumes (consumed ++ rest) (emit start t consumed rest) := by
  rintro u ⟨⟩
  refine ⟨consumed, hne, rfl, ?_⟩
  show plainChars consumed = t.lexeme.toList ++ []
  rw [ht, lexemeOf, String.toList_ofList, List.append_nil]

theorem consumes_number (start : Position) {c : Located Char} (hc : isDigitAt c = true)
    (cs : List (Located Char)) : Consumes (c :: cs) (number start (c :: cs)) := by
  have hne : (c :: cs).takeWhile isDigitAt ≠ [] := by simp [hc]
  have hsplit : (c :: cs).takeWhile isDigitAt ++ (c :: cs).dropWhile isDigitAt = c :: cs :=
    List.takeWhile_append_dropWhile
  have hinteger := consumes_emit start (t := .integer (lexemeOf ((c :: cs).takeWhile isDigitAt)))
    hne rfl ((c :: cs).dropWhile isDigitAt)
  rw [hsplit] at hinteger
  rw [number]
  split
  · next point rest hdrop =>
    rw [hdrop] at hsplit hinteger
    split
    · next hpoint =>
      split
      · rintro u ⟨⟩
        refine ⟨(c :: cs).takeWhile isDigitAt ++ [point], by simp, ?_, ?_⟩
        · rw [List.append_assoc]
          exact hsplit.symm
        · show plainChars _ = (lexemeOf _).toList ++ ['.']
          simp [plainChars, lexemeOf, hpoint]
      · have hne : (c :: cs).takeWhile isDigitAt ++ point :: rest.takeWhile isDigitAt ≠ [] := by
          simp
        have hreal := consumes_emit start (t := .real (lexemeOf _)) hne rfl
          (rest.dropWhile isDigitAt)
        rw [List.append_assoc, List.cons_append, List.takeWhile_append_dropWhile, hsplit] at hreal
        exact hreal
    · exact hinteger
  · next hdrop =>
    rw [hdrop] at hinteger
    exact hinteger

theorem consumes_token (p : Position) (cs : List (Located Char)) : Consumes cs (token p cs) := by
  cases cs with
  | nil =>
    intro t h
    cases h
  | cons c rest =>
    rw [token]
    by_cases hletter : c.value.isAlpha = true
    · rw [if_pos hletter, word]
      have halnum : isAlphanumAt c = true := by simp [isAlphanumAt, Char.isAlphanum, hletter]
      have hne : (c :: rest).takeWhile isAlphanumAt ≠ [] := by simp [halnum]
      have hword := consumes_emit c.position hne (lexeme_ofWord (lexemeOf _))
        ((c :: rest).dropWhile isAlphanumAt)
      rwa [List.takeWhile_append_dropWhile] at hword
    rw [if_neg hletter]
    by_cases hdigit : c.value.isDigit = true
    · rw [if_pos hdigit]
      exact consumes_number c.position hdigit rest
    rw [if_neg hdigit]
    cases hmark : Mark.ofChar? c.value with
    | none =>
      intro t h
      cases h
    | some m =>
      refine consumes_emit c.position (List.cons_ne_nil c []) ?_ rest
      rw [Token.lexeme, Lexer.char_of_ofChar? hmark]
      rfl

/-- Inside a comment no characters are left. -/
def Exhausted (s : Scanner) : Prop := s.comment ≠ .outside → s.rest = []

theorem comment_token (p : Position) (cs : List (Located Char)) :
    (token p cs).2.comment = .outside := by
  have htoken := takes_token p cs
  generalize token p cs = result at htoken
  cases htoken <;> rfl

theorem Exhausted.next {s : Scanner} (h : s.Exhausted) : s.next.2.Exhausted := by
  cases hrefused : s.refused with
  | some q =>
    rw [next_of_refused hrefused]
    exact h
  | none =>
    by_cases hout : (skipGap s.comment s.position s.rest).1 = .outside
    · rw [next_of_outside hrefused (Prod.ext hout rfl)]
      intro hcomment
      exact absurd (comment_token ..) hcomment
    · rw [next_of_inside hrefused hout rfl]
      intro _
      exact Lexer.rest_skipGap_of_inside hout

theorem exhausted_afterCalls (cs : List (Located Char)) (n : Nat) :
    ((ofStream cs).afterCalls n).Exhausted := by
  induction n with
  | zero => exact fun h => absurd rfl h
  | succ n ih => exact ih.next

/-- A call that yields a token consumes a gap and then what spells the token. -/
theorem exists_consumed_of_next {s : Scanner} (hs : s.Exhausted) {t : Located Token}
    (h : s.next.1 = .token t) :
    ∃ gap consumed, s.rest = gap ++ consumed ++ s.next.2.rest ∧ IsGap (plainChars gap) ∧
      consumed ≠ [] ∧ Spell consumed t.value s.next.2.refused.isSome := by
  have hrefused : s.refused = none := by
    cases hrefused : s.refused with
    | none => rfl
    | some q =>
      rw [next_of_refused hrefused] at h
      cases h
  have hout : (skipGap s.comment s.position s.rest).1 = .outside := by
    refine Decidable.byContradiction fun hout => ?_
    rw [next_of_inside hrefused hout rfl] at h
    cases h
  have hconsumes : Consumes (skipGap s.comment s.position s.rest).2.2 s.next := by
    rw [next_of_outside hrefused (Prod.ext hout rfl)]
    exact consumes_token _ _
  obtain ⟨gap, hgap, hends⟩ := exists_gap_of_skipGap hout
  obtain ⟨consumed, hne, hrest, hspell⟩ := hconsumes t h
  have hall : s.rest = gap ++ consumed ++ s.next.2.rest := by
    rw [List.append_assoc, ← hrest]
    exact hgap
  have hcomment : s.comment = .outside := by
    refine Decidable.byContradiction fun hcomment => hne ?_
    rw [hs hcomment] at hall
    obtain ⟨hnil, -⟩ := List.append_eq_nil_iff.mp hall.symm
    exact (List.append_eq_nil_iff.mp hnil).2
  rw [hcomment] at hends
  exact ⟨gap, consumed, hall, hends, hne, hspell⟩

theorem afterCalls_next (s : Scanner) (n : Nat) :
    s.next.2.afterCalls n = s.afterCalls (n + 1) := by
  induction n with
  | zero => rfl
  | succ n ih => exact congrArg (fun s => s.next.2) ih

theorem results_succ (s : Scanner) (n : Nat) :
    s.results (n + 1) = s.results n ++ [(s.afterCalls n).next.1] := by
  induction n generalizing s with
  | zero => rfl
  | succ n ih =>
    have hlater : s.next.2.results (n + 1) =
        s.next.2.results n ++ [(s.afterCalls (n + 1)).next.1] := by
      rw [ih s.next.2, afterCalls_next]
    exact congrArg (List.cons s.next.1) hlater

theorem length_rest_le (s : Scanner) : s.next.2.rest.length ≤ s.rest.length := by
  obtain ⟨consumed, hrest, -⟩ := (call_next s).consumed
  rw [hrest, List.length_append]
  omega

end Scanner

namespace Lexer

/-- A call of the lexer, with however many steps, yields this result. -/
def Calls (l : Lexer) (scan : Scan) (l' : Lexer) : Prop := ∃ fuel, l.next fuel = .result scan l'

/-- The calls made on a stream have yielded these results and have led to this lexer. -/
inductive Reached (cs : List (Located Char)) : List Scan → Lexer → Prop
  | start : Reached cs [] (.ofStream cs)
  | call {scans : List Scan} {l : Lexer} {scan : Scan} {l' : Lexer}
      (earlier : Reached cs scans l) (h : l.Calls scan l') : Reached cs (scans ++ [scan]) l'

/-- More steps do not change the result of a call. -/
theorem Calls.unique {l l₁ l₂ : Lexer} {scan₁ scan₂ : Scan} (h₁ : l.Calls scan₁ l₁)
    (h₂ : l.Calls scan₂ l₂) : scan₁ = scan₂ ∧ l₁ = l₂ := by
  obtain ⟨fuel₁, h₁⟩ := h₁
  obtain ⟨fuel₂, h₂⟩ := h₂
  obtain ⟨v, l', hhalts⟩ := exists_halts l
  have hnext : ∀ {fuel scan m}, l.next fuel = .result scan m → l.deferred = none →
      l'.answer v = .result scan m := by
    intro fuel scan m h hdeferred
    simp only [next, hdeferred] at h
    cases hlex : l.lex fuel with
    | none =>
      rw [hlex] at h
      cases h
    | some result =>
      rw [hlex, hhalts.eq_of_lex hlex] at h
      exact h
  cases hdeferred : l.deferred with
  | some e =>
    simp only [next, hdeferred] at h₁ h₂
    cases h₁
    cases h₂
    exact ⟨rfl, rfl⟩
  | none =>
    have h := (hnext h₁ hdeferred).symm.trans (hnext h₂ hdeferred)
    cases h
    exact ⟨rfl, rfl⟩

theorem Mirrors.of_calls {l l' : Lexer} {s : Scanner} {scan : Scan} (h : l.Mirrors s)
    (hcalls : l.Calls scan l') : scan = s.next.1 ∧ l'.Mirrors s.next.2 := by
  obtain ⟨m, hm, hnext⟩ := h.exists_next
  obtain ⟨rfl, rfl⟩ := hcalls.unique ⟨_, hnext _ (Nat.le_refl _)⟩
  exact ⟨rfl, hm⟩

theorem mirrors_ofStream (cs : List (Located Char)) : (ofStream cs).Mirrors (.ofStream cs) :=
  ⟨rfl, rfl, rfl, rfl⟩

namespace Reached
variable {cs : List (Located Char)} {scans : List Scan} {l : Lexer}

theorem mirrors (h : Reached cs scans l) :
    l.Mirrors ((Scanner.ofStream cs).afterCalls scans.length) ∧
      scans = (Scanner.ofStream cs).results scans.length := by
  induction h with
  | start => exact ⟨mirrors_ofStream cs, rfl⟩
  | call earlier hcalls ih =>
    obtain ⟨hscan, hl'⟩ := ih.1.of_calls hcalls
    rw [List.length_append, List.length_singleton, Scanner.results_succ, ← ih.2, ← hscan]
    exact ⟨hl', rfl⟩

/-- Every token has cost a character. -/
theorem length_tokens_add_le (h : Reached cs scans l) :
    (scans.filterMap Scan.token?).length + l.rest.length ≤ cs.length := by
  induction h with
  | start => exact Nat.le_of_eq (Nat.zero_add _)
  | @call scans l scan l' earlier hcalls ih =>
    have hmirrors := earlier.mirrors.1
    obtain ⟨hscan, hl'⟩ := hmirrors.of_calls hcalls
    have hle := ((Scanner.ofStream cs).afterCalls scans.length).length_rest_le
    rw [List.filterMap_append, List.length_append, hl'.rest]
    rw [hmirrors.rest] at ih
    cases scan with
    | token t =>
      have hlt : ((Scanner.ofStream cs).afterCalls scans.length).next.2.rest.length <
          ((Scanner.ofStream cs).afterCalls scans.length).rest.length :=
        Scanner.rest_lt_of_next (Prod.ext hscan.symm rfl)
      show _ + 1 + _ ≤ _
      omega
    | failure e =>
      show _ + 0 + _ ≤ _
      omega
    | done =>
      show _ + 0 + _ ≤ _
      omega

end Reached

/-- What holds of a lexer that calls on a stream have led to. -/
structure Progress (cs : List (Located Char)) (scans : List Scan) (l : Lexer) : Prop where
  /-- The results are those of the scanner. -/
  scanned : scans = (Scanner.ofStream cs).results scans.length
  /-- The steps of a call end, and no state lacks the token that it is to give out. -/
  ends : ∃ v l', v ≠ .dead ∧ ∀ extra, l.lex (2 * l.rest.length + 2 + extra) = some (v, l')
  /-- A call that yields a token consumes a gap and at least one character more. These spell the
  token, and a point after it exactly if an error is left for the next call. -/
  consumes : ∀ t l', l.Calls (.token t) l' → ∃ gap consumed, l.rest = gap ++ consumed ++ l'.rest ∧
    IsGap (plainChars gap) ∧ consumed ≠ [] ∧ Spell consumed t.value l'.deferred.isSome
  /-- There are no more tokens than characters. -/
  tokens : (scans.filterMap Scan.token?).length ≤ cs.length

theorem progress_of_reached {cs : List (Located Char)} {scans : List Scan} {l : Lexer}
    (h : Reached cs scans l) : Progress cs scans l := by
  obtain ⟨hmirrors, hresults⟩ := h.mirrors
  refine ⟨hresults, ?_, ?_, ?_⟩
  · obtain ⟨v, l', hhalts⟩ := exists_halts l
    refine ⟨v, l', hhalts.ne_dead, ?_⟩
    intro extra
    have hrank := l.rank_le
    exact lex_of_halts hhalts (by omega)
  · intro t l' hcalls
    obtain ⟨hscan, hl'⟩ := hmirrors.of_calls hcalls
    have hexhausted := Scanner.exhausted_afterCalls cs scans.length
    obtain ⟨gap, consumed, hrest, hgap, hne, hspell⟩ :=
      Scanner.exists_consumed_of_next hexhausted hscan.symm
    refine ⟨gap, consumed, ?_, hgap, hne, ?_⟩
    · rw [hmirrors.rest, hl'.rest]
      exact hrest
    · rw [hl'.deferred, Option.isSome_map]
      exact hspell
  · have hle := h.length_tokens_add_le
    omega

/-- The point after an integer is consumed with it, and refused by the second call. -/
theorem progress_pointed :
    Reached (Position.start.locate ['/', '*', '*', '/', '1', '2', '.', 'x'])
      [.token ⟨⟨1, 5⟩, .integer "12"⟩]
      ⟨[⟨⟨1, 8⟩, 'x'⟩], .start, ⟨1, 5⟩, ⟨1, 8⟩, some ⟨⟨1, 7⟩, .badChar '.'⟩⟩ ∧
    Progress (Position.start.locate ['/', '*', '*', '/', '1', '2', '.', 'x'])
      [.token ⟨⟨1, 5⟩, .integer "12"⟩]
      ⟨[⟨⟨1, 8⟩, 'x'⟩], .start, ⟨1, 5⟩, ⟨1, 8⟩, some ⟨⟨1, 7⟩, .badChar '.'⟩⟩ := by
  have hreached : Reached (Position.start.locate ['/', '*', '*', '/', '1', '2', '.', 'x'])
      [.token ⟨⟨1, 5⟩, .integer "12"⟩]
      ⟨[⟨⟨1, 8⟩, 'x'⟩], .start, ⟨1, 5⟩, ⟨1, 8⟩, some ⟨⟨1, 7⟩, .badChar '.'⟩⟩ :=
    .call .start ⟨20, rfl⟩
  exact ⟨hreached, progress_of_reached hreached⟩

end Lexer

end BlockLang
