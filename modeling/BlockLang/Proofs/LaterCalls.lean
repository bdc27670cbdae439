import BlockLang.Proofs.Lookahead

/-!
# Calls after the end or an error

A scanner can be called on after it has met the end of the text or an error. `Call` lists all that
a call can do with any stream of characters, whatever positions they carry, and `call_next` says
that the list is complete. The end and an error are met again by every later call. Only the point
that an integer leaves behind is refused once, and the calls after that go on as a new scanner
would (`lasting`).
-/

namespace BlockLang

/-! ### Positions -/

theorem positionAfter_append (p : Position) (a b : List (Located Char)) :
    positionAfter p (a ++ b) = positionAfter (positionAfter p a) b :=
  List.foldl_append

theorem positionAfter_concat (p : Position) (a : List (Located Char)) (c : Located Char) :
    positionAfter p (a ++ [c]) = c.following :=
  positionAfter_append p a [c]

theorem positionAfter_eq (p : Position) (consumed : List (Located Char)) :
    positionAfter p consumed = (consumed.getLast?.map Located.following).getD p := by
  rcases List.eq_nil_or_concat consumed with rfl | ⟨a, c, rfl⟩
  · rfl
  · rw [List.concat_eq_append, positionAfter_concat, List.getLast?_concat]
    rfl

/-! ### Gaps -/

/-- The result of skipping some of these characters, from a position before them. -/
def Skipped (p : Position) (cs : List (Located Char))
    (result : CommentState × Position × List (Located Char)) : Prop :=
  ∃ gap, cs = gap ++ result.2.2 ∧ result.2.1 = positionAfter p gap

theorem Skipped.cons {p : Position} {c : Located Char} {cs : List (Located Char)}
    {result : CommentState × Position × List (Located Char)}
    (h : Skipped c.following cs result) : Skipped p (c :: cs) result := by
  obtain ⟨gap, hrest, hposition⟩ := h
  exact ⟨c :: gap, congrArg (List.cons c) hrest, hposition⟩

theorem skipped_skipGap (state : CommentState) (p : Position) (cs : List (Located Char)) :
    Skipped p cs (skipGap state p cs) := by
  fun_induction skipGap state p cs with
  | case1 state p => exact ⟨[], rfl, rfl⟩
  | case2 p c h => exact ⟨[c], rfl, rfl⟩
  | case3 p c h => exact ⟨[], rfl, rfl⟩
  | case4 p c d rest h ih => exact ih.cons
  | case5 p c d rest h hopen ih => exact ih.cons.cons
  | case6 p c d rest h hopen => exact ⟨[], rfl, rfl⟩
  | case7 p c rest ih => exact ih.cons
  | case8 p c rest h ih => exact ih.cons
  | case9 p c rest h ih => exact ih.cons

/-- Where a gap has been skipped there is none left. -/
theorem skipGap_skipGap (state : CommentState) (p : Position) (cs : List (Located Char)) :
    skipGap (skipGap state p cs).1 (skipGap state p cs).2.1 (skipGap state p cs).2.2 =
      skipGap state p cs := by
  fun_induction skipGap state p cs with
  | case1 state p => simp [skipGap]
  | case2 p c h => simp [skipGap]
  | case3 p c h => simp [skipGap, h]
  | case4 p c d rest h ih => exact ih
  | case5 p c d rest h hopen ih => exact ih
  | case6 p c d rest h hopen => simp [skipGap, h, hopen]
  | case7 p c rest ih => exact ih
  | case8 p c rest h ih => exact ih
  | case9 p c rest h ih => exact ih

/-- The position from which a gap is skipped is forgotten with the first character. -/
theorem skipGap_congr (p q : Position) (cs : List (Located Char)) :
    skipGap .outside p cs = skipGap .outside q cs ∨
      skipGap .outside p cs = (.outside, p, cs) ∧ skipGap .outside q cs = (.outside, q, cs) := by
  match cs with
  | [] => exact .inr ⟨by simp [skipGap], by simp [skipGap]⟩
  | [c] =>
    by_cases h : isBlank c.value = true
    · exact .inl (by simp [skipGap, h])
    · exact .inr ⟨by simp [skipGap, h], by simp [skipGap, h]⟩
  | c :: d :: rest =>
    by_cases h : isBlank c.value = true
    · exact .inl (by simp [skipGap, h])
    by_cases hopen : c.value = '/' ∧ d.value = '*'
    · exact .inl (by simp [skipGap, hopen])
    · exact .inr ⟨by simp [skipGap, h, hopen], by simp [skipGap, h, hopen]⟩

/-! ### One call -/

namespace Scanner

/-- All that taking a token can do. -/
inductive TokenCall (p : Position) : List (Located Char) → Scan × Scanner → Prop
  | done : TokenCall p [] (.done, ⟨[], p, .outside, none⟩)
  | badChar (c : Located Char) (rest : List (Located Char)) :
      TokenCall p (c :: rest)
        (.failure ⟨c.position, .badChar c.value⟩, ⟨c :: rest, p, .outside, none⟩)
  | token (t : Located Token) (before : List (Located Char)) {last : Located Char}
      (hlast : last.value ≠ '.') (rest : List (Located Char)) :
      TokenCall p (before ++ last :: rest) (.token t, ⟨rest, last.following, .outside, none⟩)
  | pointed (start : Position) (lexeme : String) (before : List (Located Char))
      {point : Located Char} (hpoint : point.value = '.') (rest : List (Located Char)) :
      TokenCall p (before ++ point :: rest)
        (.token ⟨start, .integer lexeme⟩,
          ⟨rest, point.following, .outside, some point.position⟩)

theorem takes_emit (p start : Position) (t : Token) (consumed : List (Located Char))
    (hne : consumed ≠ []) (hlast : ∀ c ∈ consumed.getLast?, c.value ≠ '.')
    (rest : List (Located Char)) :
    TokenCall p (consumed ++ rest) (emit start t consumed rest) := by
  rcases List.eq_nil_or_concat consumed with rfl | ⟨before, last, rfl⟩
  · exact absurd rfl hne
  · rw [List.concat_eq_append] at hlast ⊢
    rw [emit, positionAfter_concat, List.append_assoc]
    exact .token ⟨start, t⟩ before (hlast last (List.getLast?_concat ..)) rest

/-- The characters of a run are all of one kind, and no point is of that kind. -/
theorem value_ne_point {f : Located Char → Bool} (hf : ∀ c, f c = true → c.value ≠ '.')
    (cs : List (Located Char)) : ∀ c ∈ (cs.takeWhile f).getLast?, c.value ≠ '.' := by
  intro c hc
  have hall : ∀ d ∈ cs.takeWhile f, f d = true := List.all_eq_true.mp List.all_takeWhile
  exact hf c (hall c (List.mem_of_getLast? hc))

theorem isAlphanum_ne_point (c : Located Char) (h : isAlphanumAt c = true) : c.value ≠ '.' := by
  intro hpoint
  rw [isAlphanumAt, hpoint] at h
  cases h

theorem isDigit_ne_point (c : Located Char) (h : isDigitAt c = true) : c.value ≠ '.' := by
  intro hpoint
  rw [isDigitAt, hpoint] at h
  cases h

theorem takes_word (p start : Position) {c : Located Char} (h : isAlphanumAt c = true)
    (rest : List (Located Char)) : TokenCall p (c :: rest) (word start (c :: rest)) := by
  have htakes := takes_emit p start (.ofWord (lexemeOf ((c :: rest).takeWhile isAlphanumAt)))
    ((c :: rest).takeWhile isAlphanumAt) (by simp [h]) (value_ne_point isAlphanum_ne_point _)
    ((c :: rest).dropWhile isAlphanumAt)
  rwa [List.takeWhile_append_dropWhile] at htakes

theorem takes_number (p start : Position) {c : Located Char} (h : isDigitAt c = true)
    (cs : List (Located Char)) : TokenCall p (c :: cs) (number start (c :: cs)) := by
  have hne : (c :: cs).takeWhile isDigitAt ≠ [] := by simp [h]
  have hsplit : (c :: cs).takeWhile isDigitAt ++ (c :: cs).dropWhile isDigitAt = c :: cs :=
    List.takeWhile_append_dropWhile
  have hinteger := takes_emit p start (.integer (lexemeOf ((c :: cs).takeWhile isDigitAt)))
    ((c :: cs).takeWhile isDigitAt) hne (value_ne_point isDigit_ne_point _)
    ((c :: cs).dropWhile isDigitAt)
  rw [hsplit] at hinteger
  simp only [number]
  split
  · next point rest hdrop =>
    rw [hdrop] at hsplit hinteger
    split
    · next hpoint =>
      split
      · rw [← hsplit]
        exact .pointed start _ _ hpoint rest
      · next hfraction =>
        -- The last character of a real literal is a digit after its point.
        have hlast : ((c :: cs).takeWhile isDigitAt ++ point :: rest.takeWhile isDigitAt).getLast? =
            (rest.takeWhile isDigitAt).getLast? := by
          rw [List.getLast?_append, List.getLast?_cons_of_ne_nil hfraction,
            List.getLast?_eq_some_getLast hfraction, Option.some_or]
        have hreal := takes_emit p start
          (.real (lexemeOf ((c :: cs).takeWhile isDigitAt ++ point :: rest.takeWhile isDigitAt)))
          ((c :: cs).takeWhile isDigitAt ++ point :: rest.takeWhile isDigitAt) (by simp)
          (hlast ▸ value_ne_point isDigit_ne_point rest) (rest.dropWhile isDigitAt)
        rw [List.append_assoc, List.cons_append, List.takeWhile_append_dropWhile, hsplit] at hreal
        exact hreal
    · exact hinteger
  · next hdrop =>
    rw [hdrop] at hinteger
    exact hinteger

theorem takes_token (p : Position) (cs : List (Located Char)) : TokenCall p cs (token p cs) := by
  cases cs with
  | nil => exact .done
  | cons c rest =>
    rw [token]
    by_cases hletter : c.value.isAlpha = true
    · rw [if_pos hletter]
      exact takes_word p c.position (by simp [isAlphanumAt, Char.isAlphanum, hletter]) rest
    rw [if_neg hletter]
    by_cases hdigit : c.value.isDigit = true
    · rw [if_pos hdigit]
      exact takes_number p c.position hdigit rest
    rw [if_neg hdigit]
    cases hmark : Mark.ofChar? c.value with
    | none => exact .badChar c rest
    | some m =>
      have hpoint : c.value ≠ '.' := by
        intro hpoint
        rw [hpoint] at hmark
        cases hmark
      exact .token ⟨c.position, .mark m⟩ [] hpoint rest

theorem next_of_outside {s : Scanner} (hrefused : s.refused = none) {p : Position}
    {rest : List (Located Char)}
    (hskip : skipGap s.comment s.position s.rest = (.outside, p, rest)) :
    s.next = token p rest := by
  rw [next, hrefused, hskip]

theorem next_of_inside {s : Scanner} (hrefused : s.refused = none) {state : CommentState}
    (hstate : state ≠ .outside) {p : Position} {rest : List (Located Char)}
    (hskip : skipGap s.comment s.position s.rest = (state, p, rest)) :
    s.next = (.failure ⟨p, .unexpectedEnd⟩, ⟨rest, p, state, none⟩) := by
  rw [next, hrefused, hskip]
  cases state with
  | outside => exact absurd rfl hstate
  | inside => rfl
  | star => rfl

/-- All that a call can do. -/
inductive Call : Scanner → Scan × Scanner → Prop
  /-- The point after an integer is refused, and nothing is consumed. -/
  | refuse (rest : List (Located Char)) (p : Position) (comment : CommentState) (q : Position) :
      Call ⟨rest, p, comment, some q⟩
        (.failure ⟨q, .badChar '.'⟩, ⟨rest, p, comment, none⟩)
  /-- The end or an error, which the next call meets again. -/
  | stop (before rest : List (Located Char)) (p : Position) (comment : CommentState) {scan : Scan}
      {state : CommentState} (hscan : ∀ t, scan ≠ .token t)
      (hagain : next ⟨rest, positionAfter p before, state, none⟩ =
        (scan, ⟨rest, positionAfter p before, state, none⟩)) :
      Call ⟨before ++ rest, p, comment, none⟩
        (scan, ⟨rest, positionAfter p before, state, none⟩)
  | token (t : Located Token) (before : List (Located Char)) {last : Located Char}
      (hlast : last.value ≠ '.') (rest : List (Located Char)) (p : Position)
      (comment : CommentState) :
      Call ⟨before ++ last :: rest, p, comment, none⟩
        (.token t, ⟨rest, last.following, .outside, none⟩)
  | pointed (start : Position) (lexeme : String) (before : List (Located Char))
      {point : Located Char} (hpoint : point.value = '.') (rest : List (Located Char))
      (p : Position) (comment : CommentState) :
      Call ⟨before ++ point :: rest, p, comment, none⟩
        (.token ⟨start, .integer lexeme⟩,
          ⟨rest, point.following, .outside, some point.position⟩)

/-- The list is complete. -/
theorem call_next (s : Scanner) : Call s s.next := by
  obtain ⟨cs, p, comment, refused⟩ := s
  cases refused with
  | some q => exact .refuse cs p comment q
  | none =>
    obtain ⟨gap, hrest, hposition⟩ := skipped_skipGap comment p cs
    have hagain := skipGap_skipGap comment p cs
    generalize hskip : skipGap comment p cs = result at hrest hposition hagain
    obtain ⟨state, q, rest⟩ := result
    obtain rfl : cs = gap ++ rest := hrest
    obtain rfl : q = positionAfter p gap := hposition
    by_cases hstate : state = .outside
    · subst hstate
      have hnext : next ⟨gap ++ rest, p, comment, none⟩ = token (positionAfter p gap) rest :=
        next_of_outside rfl hskip
      have hsame : next ⟨rest, positionAfter p gap, .outside, none⟩ =
          token (positionAfter p gap) rest :=
        next_of_outside rfl hagain
      have htoken := takes_token (positionAfter p gap) rest
      rw [hnext]
      generalize token (positionAfter p gap) rest = result at hsame htoken
      cases htoken with
      | done => exact .stop gap [] p comment (by simp) hsame
      | badChar c rest => exact .stop gap (c :: rest) p comment (by simp) hsame
      | token t before hlast rest =>
        rw [← List.append_assoc]
        exact .token t (gap ++ before) hlast rest p comment
      | pointed start lexeme before hpoint rest =>
        rw [← List.append_assoc]
        exact .pointed start lexeme (gap ++ before) hpoint rest p comment
    · rw [next_of_inside rfl hstate hskip]
      exact .stop gap rest p comment (by simp) (next_of_inside rfl hstate hagain)

theorem Call.consumed {s : Scanner} {result : Scan × Scanner} (h : Call s result) :
    ∃ consumed, s.rest = consumed ++ result.2.rest ∧
      result.2.position = positionAfter s.position consumed := by
  cases h with
  | refuse rest p comment q => exact ⟨[], rfl, rfl⟩
  | stop before rest p comment hscan hagain => exact ⟨before, rfl, rfl⟩
  | @token t before last hlast rest p comment =>
    exact ⟨before ++ [last], by simp, (positionAfter_concat ..).symm⟩
  | @pointed start lexeme before point hpoint rest p comment =>
    exact ⟨before ++ [point], by simp, (positionAfter_concat ..).symm⟩

theorem again_of_not_token {s : Scanner} (hrefused : s.refused = none)
    (h : ∀ t, s.next.1 ≠ .token t) : s.next.2.next = s.next := by
  have hcall := call_next s
  generalize s.next = result at h hcall
  cases hcall with
  | refuse rest p comment q => cases hrefused
  | stop before rest p comment hscan hagain => exact hagain
  | token t before hlast rest p comment => exact absurd rfl (h t)
  | pointed start lexeme before hpoint rest p comment => exact absurd rfl (h _)

theorem calls_of_again {s : Scanner} {scan : Scan} (h : s.next = (scan, s)) (k : Nat) :
    s.calls k = List.replicate k (scan, s.position) := by
  induction k with
  | zero => rfl
  | succ k ih =>
    rw [calls, h, ih]
    rfl

/-! ### The point after an integer -/

/-- The next call yields an integer and consumes a point after it. -/
def EndsAtPoint (s : Scanner) (point : Located Char) : Prop :=
  ∃ start lexeme before, s.next.1 = .token ⟨start, .integer lexeme⟩ ∧
    s.rest = before ++ point :: s.next.2.rest ∧ point.value = '.'

theorem eq_of_append_cons {σ : Type} {a b rest : List σ} {x y : σ}
    (h : a ++ x :: rest = b ++ y :: rest) : x = y := by
  have hconcat : (a ++ [x]) ++ rest = (b ++ [y]) ++ rest := by
    rw [List.append_assoc, List.append_assoc]
    exact h
  exact List.singleton_inj.mp (List.append_inj' (List.append_cancel_right hconcat) rfl).2

/-- A point is left to be refused exactly by a call that consumes it after an integer. -/
theorem refused_iff (s : Scanner) (q : Position) :
    s.next.2.refused = some q ↔ ∃ point, s.EndsAtPoint point ∧ point.position = q := by
  unfold EndsAtPoint
  have hcall := call_next s
  generalize s.next = result at hcall
  cases hcall with
  | refuse rest p comment q' => simp
  | stop before rest p comment hscan hagain =>
    constructor
    · intro h
      cases h
    · rintro ⟨point, ⟨start, lexeme, _, hscan', -⟩, -⟩
      exact absurd hscan' (hscan _)
  | token t before hlast rest p comment =>
    constructor
    · intro h
      cases h
    · rintro ⟨point, ⟨start, lexeme, before', -, hrest, hpoint⟩, -⟩
      rw [eq_of_append_cons hrest] at hlast
      exact absurd hpoint hlast
  | @pointed start lexeme before point hpoint rest p comment =>
    constructor
    · intro h
      exact ⟨point, ⟨start, lexeme, before, rfl, rfl, hpoint⟩, Option.some.inj h⟩
    · rintro ⟨point', ⟨start', lexeme', before', -, hrest, -⟩, hposition⟩
      rw [← hposition, ← eq_of_append_cons hrest]

theorem outside_of_refused {s : Scanner} {q : Position} (h : s.next.2.refused = some q) :
    s.next.2.comment = .outside := by
  have hcall := call_next s
  generalize s.next = result at h hcall
  cases hcall with
  | pointed start lexeme before hpoint rest p comment => rfl
  | _ => cases h

/-! ### Scanners with the same characters ahead -/

/-- The same characters are ahead. Inside a comment the positions agree as well, because a comment
that is left open is reported there. -/
structure Alike (s s' : Scanner) : Prop where
  rest : s.rest = s'.rest
  comment : s.comment = s'.comment
  refused : s.refused = s'.refused
  position : s.comment ≠ .outside → s.position = s'.position

theorem Alike.refl (s : Scanner) : s.Alike s := ⟨rfl, rfl, rfl, fun _ => rfl⟩

theorem alike_outside (rest : List (Located Char)) (p p' : Position) (refused : Option Position) :
    Alike ⟨rest, p, .outside, refused⟩ ⟨rest, p', .outside, refused⟩ :=
  ⟨rfl, rfl, rfl, fun h => absurd rfl h⟩

theorem alike_token (p p' : Position) (cs : List (Located Char)) :
    (token p cs).1 = (token p' cs).1 ∧ (token p cs).2.Alike (token p' cs).2 := by
  cases cs with
  | nil => exact ⟨rfl, alike_outside ..⟩
  | cons c rest =>
    rw [token, token]
    split
    · exact ⟨rfl, .refl _⟩
    split
    · exact ⟨rfl, .refl _⟩
    split
    · exact ⟨rfl, .refl _⟩
    · exact ⟨rfl, alike_outside ..⟩

theorem Alike.next {s s' : Scanner} (h : s.Alike s') :
    s.next.1 = s'.next.1 ∧ s.next.2.Alike s'.next.2 := by
  obtain ⟨cs, p, comment, refused⟩ := s
  obtain ⟨cs', p', comment', refused'⟩ := s'
  obtain ⟨rfl, rfl, rfl, hposition⟩ := h
  cases refused with
  | some q => exact ⟨rfl, rfl, rfl, rfl, hposition⟩
  | none =>
    by_cases hcomment : comment = .outside
    · subst hcomment
      rcases skipGap_congr p p' cs with hskip | ⟨hskip, hskip'⟩
      · have hnext : Scanner.next ⟨cs, p, .outside, none⟩ =
            Scanner.next ⟨cs, p', .outside, none⟩ := by
          rw [Scanner.next, Scanner.next, hskip]
        rw [hnext]
        exact ⟨rfl, .refl _⟩
      · rw [next_of_outside rfl hskip, next_of_outside rfl hskip']
        exact alike_token p p' cs
    · obtain rfl : p = p' := hposition hcomment
      exact ⟨rfl, .refl _⟩

theorem Alike.results {s s' : Scanner} (h : s.Alike s') (k : Nat) : s.results k = s'.results k := by
  induction k generalizing s s' with
  | zero => rfl
  | succ k ih =>
    have hlater : s.next.2.results k = s'.next.2.results k := ih h.next.2
    show s.next.1 :: s.next.2.results k = s'.next.1 :: s'.next.2.results k
    rw [h.next.1, hlater]

/-! ### Any number of calls -/

/-- The scanner after `n` calls. -/
def afterCalls (s : Scanner) : Nat → Scanner
  | 0 => s
  | n + 1 => (s.afterCalls n).next.2

theorem exists_consumed (s : Scanner) (n : Nat) :
    ∃ consumed, s.rest = consumed ++ (s.afterCalls n).rest ∧
      (s.afterCalls n).position = positionAfter s.position consumed := by
  induction n with
  | zero => exact ⟨[], rfl, rfl⟩
  | succ n ih =>
    obtain ⟨before, hrest, hposition⟩ := ih
    obtain ⟨consumed, hrest', hposition'⟩ := (call_next (s.afterCalls n)).consumed
    refine ⟨before ++ consumed, ?_, ?_⟩
    · rw [hrest, hrest', List.append_assoc]
      rfl
    · rw [positionAfter_append, ← hposition]
      exact hposition'

theorem refused_eq_none {cs : List (Located Char)} {n : Nat}
    (h : ∀ m point, n = m + 1 → ¬((ofStream cs).afterCalls m).EndsAtPoint point) :
    ((ofStream cs).afterCalls n).refused = none := by
  cases n with
  | zero => rfl
  | succ m =>
    cases hrefused : ((ofStream cs).afterCalls (m + 1)).refused with
    | none => rfl
    | some q =>
      obtain ⟨point, hpoint, -⟩ := (refused_iff _ q).mp hrefused
      exact absurd hpoint (h m point rfl)

/-- What a scanner does after `n` calls, where `s` is the scanner after each number of calls and
`cs` the stream that it began with. -/
structure Lasting (cs : List (Located Char)) (s : Nat → Scanner) (n : Nat) : Prop where
  /-- It stands after the last character that it has consumed. -/
  position : ∃ consumed, cs = consumed ++ (s n).rest ∧
    (s n).position = (consumed.getLast?.map Located.following).getD .start
  /-- Once it has met the end, it meets nothing else. -/
  done : (s n).next.1 = .done → ∀ k,
    (s (n + 1)).calls k = List.replicate k (.done, (s (n + 1)).position)
  /-- Once it has met an error, it meets the same one again, unless the error is a point that the
  call before has left behind. -/
  failure : ∀ e, (s n).next.1 = .failure e →
    (∀ m point, n = m + 1 → ¬(s m).EndsAtPoint point) → ∀ k,
    (s (n + 1)).calls k = List.replicate k (.failure e, (s (n + 1)).position)
  /-- A point that this call leaves behind is refused by the next one, which consumes nothing. What
  the calls after that yield is what a new scanner yields for the characters after the point. -/
  refusal : ∀ point, (s n).EndsAtPoint point →
    (s (n + 1)).next.1 = .failure ⟨point.position, .badChar '.'⟩ ∧
    (s (n + 2)).rest = (s (n + 1)).rest ∧ (s (n + 2)).position = (s (n + 1)).position ∧
    ∀ k, (s (n + 2)).results k = (ofStream (s (n + 1)).rest).results k

theorem calls_of_not_token {s : Scanner} (hrefused : s.refused = none)
    (h : ∀ t, s.next.1 ≠ .token t) (k : Nat) :
    s.next.2.calls k = List.replicate k (s.next.1, s.next.2.position) :=
  calls_of_again (again_of_not_token hrefused h) k

theorem next_of_refused {s : Scanner} {q : Position} (h : s.refused = some q) :
    s.next = (.failure ⟨q, .badChar '.'⟩, ⟨s.rest, s.position, s.comment, none⟩) := by
  rw [next, h]

theorem refused_of_done {s : Scanner} (h : s.next.1 = .done) : s.refused = none := by
  cases hrefused : s.refused with
  | none => rfl
  | some q =>
    rw [next_of_refused hrefused] at h
    cases h

theorem lasting (cs : List (Located Char)) (n : Nat) :
    Lasting cs (ofStream cs).afterCalls n := by
  refine ⟨?_, ?_, ?_, ?_⟩
  · obtain ⟨consumed, hrest, hposition⟩ := (ofStream cs).exists_consumed n
    refine ⟨consumed, hrest, ?_⟩
    rw [hposition, positionAfter_eq]
    rfl
  · intro hdone k
    have hcalls := calls_of_not_token (refused_of_done hdone) (by simp [hdone]) k
    rwa [hdone] at hcalls
  · intro e hfailure hother k
    have hcalls := calls_of_not_token (refused_eq_none hother) (by simp [hfailure]) k
    rwa [hfailure] at hcalls
  · intro point hpoint
    have hrefused : ((ofStream cs).afterCalls (n + 1)).refused = some point.position :=
      (refused_iff _ _).mpr ⟨point, hpoint, rfl⟩
    have hcomment : ((ofStream cs).afterCalls (n + 1)).comment = .outside :=
      outside_of_refused hrefused
    have hnext := next_of_refused hrefused
    have hafter : (ofStream cs).afterCalls (n + 2) = ⟨((ofStream cs).afterCalls (n + 1)).rest,
        ((ofStream cs).afterCalls (n + 1)).position, .outside, none⟩ := by
      rw [afterCalls, hnext, hcomment]
    rw [hnext, hafter]
    exact ⟨rfl, rfl, rfl, (alike_outside _ _ _ _).results⟩

-- The first point is met once, after the integer that it ends. The second one is met by every call.
example : (Scanner.ofText "1..").calls 4 =
    [(.token ⟨⟨1, 1⟩, .integer "1"⟩, ⟨1, 3⟩), (.failure ⟨⟨1, 2⟩, .badChar '.'⟩, ⟨1, 3⟩),
      (.failure ⟨⟨1, 3⟩, .badChar '.'⟩, ⟨1, 3⟩), (.failure ⟨⟨1, 3⟩, .badChar '.'⟩, ⟨1, 3⟩)] := by
  decide +kernel

end Scanner

end BlockLang
