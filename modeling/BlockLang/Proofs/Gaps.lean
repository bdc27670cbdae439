import BlockLang.Proofs.Rescanning

/-!
# Gaps between tokens

A gap is a sequence of blanks and closed comments. A comment ends at the first `*/` after its
opening, so that its body has none. Every text begins with a gap after which a token may begin, the
text ends, or a comment is left open (`exists_gap`). `Yields` lists all that a call of the scanner
can do with a text, and `yields_next` says that the list is complete.
-/

namespace BlockLang

/-! ### Comments -/

/-- No comment ends in this text. -/
def Unclosed (body : List Char) : Prop := ¬['*', '/'] <:+: body

instance (body : List Char) : Decidable (Unclosed body) :=
  inferInstanceAs (Decidable (¬['*', '/'] <:+: body))

theorem unclosed_nil : Unclosed [] := by simp [Unclosed]

theorem unclosed_cons {c : Char} {cs : List Char} :
    Unclosed (c :: cs) ↔ ¬(c = '*' ∧ cs.head? = some '/') ∧ Unclosed cs := by
  have hprefix : ['*', '/'] <+: c :: cs ↔ c = '*' ∧ cs.head? = some '/' := by
    cases cs with
    | nil => simp
    | cons d cs => simp [List.cons_prefix_cons, eq_comm]
  rw [Unclosed, List.infix_cons_iff, hprefix, not_or, Unclosed]

theorem exists_body (cs : List Char) :
    Unclosed cs ∨ ∃ body rest, cs = body ++ '*' :: '/' :: rest ∧ Unclosed body := by
  induction cs with
  | nil => exact .inl unclosed_nil
  | cons c cs ih =>
    by_cases hclose : c = '*' ∧ cs.head? = some '/'
    · obtain ⟨rfl, hslash⟩ := hclose
      obtain ⟨rest, rfl⟩ := List.head?_eq_some_iff.mp hslash
      exact .inr ⟨[], rest, rfl, unclosed_nil⟩
    · rcases ih with hcs | ⟨body, rest, rfl, hbody⟩
      · exact .inl (unclosed_cons.mpr ⟨hclose, hcs⟩)
      · refine .inr ⟨c :: body, rest, rfl, unclosed_cons.mpr ⟨?_, hbody⟩⟩
        rintro ⟨hstar, hslash⟩
        apply hclose
        refine ⟨hstar, ?_⟩
        rw [List.head?_append, hslash]
        rfl

/-- What the state remembers of the comment: the star that a slash would make its end. -/
def CommentState.held : CommentState → List Char
  | .star => ['*']
  | _ => []

/-- The state inside a comment after a character that does not end it. -/
def CommentState.after (c : Char) : CommentState := if c = '*' then .star else .inside

theorem CommentState.after_ne (c : Char) : CommentState.after c ≠ .outside := by
  unfold CommentState.after
  split <;> simp

theorem unclosed_held {c : Char} {cs : List Char} (h : Unclosed (c :: cs)) :
    Unclosed ((CommentState.after c).held ++ cs) := by
  unfold CommentState.after
  split
  · next hstar =>
    subst hstar
    exact h
  · exact (unclosed_cons.mp h).2

section Skipping
variable {state : CommentState} (hstate : state ≠ .outside) (p : Position)
include hstate

theorem skipGap_within {c : Char} (cs : List Char) (h : state = .star → c ≠ '/') :
    skipGap state p (p.locate (c :: cs)) =
      skipGap (.after c) (p.after c) ((p.after c).locate cs) := by
  cases state with
  | outside => exact absurd rfl hstate
  | inside => simp [Position.locate, skipGap, Located.following, CommentState.after]
  | star => simp [Position.locate, skipGap, h rfl, Located.following, CommentState.after]

theorem unclosed_held_cons {c : Char} {cs : List Char} (h : Unclosed (state.held ++ c :: cs)) :
    (state = .star → c ≠ '/') ∧ Unclosed ((CommentState.after c).held ++ cs) := by
  cases state with
  | outside => exact absurd rfl hstate
  | inside => exact ⟨by simp, unclosed_held h⟩
  | star =>
    obtain ⟨hslash, htail⟩ := unclosed_cons.mp h
    refine ⟨?_, unclosed_held htail⟩
    rintro - rfl
    exact hslash ⟨rfl, rfl⟩

theorem skipGap_closed {body : List Char} (h : Unclosed (state.held ++ body)) (cs : List Char) :
    skipGap state p (p.locate (body ++ '*' :: '/' :: cs)) =
      skipGap .outside (p.past (body ++ ['*', '/']))
        ((p.past (body ++ ['*', '/'])).locate cs) := by
  -- A star at the end of what is skipped stays in the state, so no part of the body closes it.
  induction body generalizing state p with
  | nil =>
    have hstar : skipGap state p (p.locate ('*' :: '/' :: cs)) =
        skipGap .star (p.after '*') ((p.after '*').locate ('/' :: cs)) :=
      skipGap_within hstate p _ (by simp)
    rw [List.nil_append, hstar]
    simp [Position.locate, Position.past, skipGap, Located.following]
  | cons c body ih =>
    obtain ⟨hslash, hbody⟩ := unclosed_held_cons hstate h
    rw [List.cons_append, skipGap_within hstate p _ hslash]
    exact ih (CommentState.after_ne c) (p.after c) hbody

theorem skipGap_unclosed {body : List Char} (h : Unclosed (state.held ++ body)) :
    ∃ state', state' ≠ .outside ∧ skipGap state p (p.locate body) = (state', p.past body, []) := by
  induction body generalizing state p with
  | nil => exact ⟨state, hstate, by simp [Position.locate, Position.past, skipGap]⟩
  | cons c body ih =>
    obtain ⟨hslash, hbody⟩ := unclosed_held_cons hstate h
    rw [skipGap_within hstate p _ hslash]
    exact ih (CommentState.after_ne c) (p.after c) hbody

end Skipping

/-! ### Gaps -/

/-- Blanks and closed comments. -/
inductive IsGap : List Char → Prop
  | nil : IsGap []
  | blank {c : Char} {cs : List Char} (hc : isBlank c = true) (h : IsGap cs) : IsGap (c :: cs)
  | comment {body cs : List Char} (hbody : Unclosed body) (h : IsGap cs) :
      IsGap ('/' :: '*' :: (body ++ '*' :: '/' :: cs))

theorem skipGap_open (p : Position) (cs : List Char) :
    skipGap .outside p (p.locate ('/' :: '*' :: cs)) =
      skipGap .inside (p.past ['/', '*']) ((p.past ['/', '*']).locate cs) := by
  simp [Position.locate, Position.past, skipGap, isBlank, Located.following]

theorem skipGap_gap {g : List Char} (hg : IsGap g) (p : Position) (cs : List Char) :
    skipGap .outside p (p.locate (g ++ cs)) =
      skipGap .outside (p.past g) ((p.past g).locate cs) := by
  induction hg generalizing p with
  | nil => rfl
  | @blank c g hc h ih =>
    have hskip : skipGap .outside p (p.locate (c :: (g ++ cs))) =
        skipGap .outside (p.after c) ((p.after c).locate (g ++ cs)) := by
      cases g ++ cs <;> simp [Position.locate, skipGap, hc, Located.following]
    exact hskip.trans (ih (p.after c))
  | @comment body g hbody h ih =>
    have hinside : CommentState.inside ≠ .outside := by simp
    have hpast : p.past ('/' :: '*' :: (body ++ '*' :: '/' :: g)) =
        ((p.past ['/', '*']).past (body ++ ['*', '/'])).past g := by
      rw [← Position.past_append, ← Position.past_append]
      simp
    have hbody : Unclosed (CommentState.inside.held ++ body) := hbody
    have hclosed := skipGap_closed hinside (p.past ['/', '*']) hbody (g ++ cs)
    rw [hpast, ← ih, ← hclosed, ← skipGap_open]
    simp

/-- A token may begin here: the text has ended, or neither a blank nor a comment comes next. -/
def Ready : List Char → Prop
  | [] => True
  | c :: cs => isBlank c = false ∧ ¬(c = '/' ∧ cs.head? = some '*')

/-- Every text begins with a gap after which a token may begin or a comment is left open. -/
theorem exists_gap (cs : List Char) :
    ∃ g rest, cs = g ++ rest ∧ IsGap g ∧
      (Ready rest ∨ ∃ body, rest = '/' :: '*' :: body ∧ Unclosed body) := by
  -- By length, because a comment takes away more than one character.
  induction hn : cs.length using Nat.strongRecOn generalizing cs with
  | _ n ih =>
    subst hn
    cases cs with
    | nil => exact ⟨[], [], rfl, .nil, .inl trivial⟩
    | cons c cs =>
      by_cases hblank : isBlank c = true
      · obtain ⟨g, rest, rfl, hg, hrest⟩ := ih cs.length (by simp) cs rfl
        exact ⟨c :: g, rest, rfl, .blank hblank hg, hrest⟩
      by_cases hopen : c = '/' ∧ cs.head? = some '*'
      · obtain ⟨rfl, hstar⟩ := hopen
        obtain ⟨cs, rfl⟩ := List.head?_eq_some_iff.mp hstar
        rcases exists_body cs with hbody | ⟨body, tail, rfl, hbody⟩
        · exact ⟨[], _, rfl, .nil, .inr ⟨cs, rfl, hbody⟩⟩
        · have hshorter : tail.length < ('/' :: '*' :: (body ++ '*' :: '/' :: tail)).length := by
            simp only [List.length_cons, List.length_append]
            omega
          obtain ⟨g, rest, rfl, hg, hrest⟩ := ih tail.length hshorter tail rfl
          exact ⟨_, rest, by simp, .comment hbody hg, hrest⟩
      · exact ⟨[], c :: cs, rfl, .nil, .inl ⟨by simpa using hblank, hopen⟩⟩

/-! ### The token at the head of a text -/

theorem exists_span (f : Char → Bool) (cs : List Char) :
    ∃ a b, cs = a ++ b ∧ (∀ c ∈ a, f c = true) ∧ ∀ c ∈ b.head?, f c = false := by
  refine ⟨cs.takeWhile f, cs.dropWhile f, List.takeWhile_append_dropWhile.symm,
    List.all_eq_true.mp List.all_takeWhile, ?_⟩
  intro c hc
  have hhead := List.head?_dropWhile_not f cs
  rw [hc] at hhead
  simpa using hhead

/-- The text begins with a token that nothing after it continues. -/
def BeginsToken (cs : List Char) : Prop :=
  ∃ (t : Token) (rest : List Char),
    cs = t.lexeme.toList ++ rest ∧ t.WellSpelled ∧ t.EndsBefore rest

/-- The text begins with an integer and a point that no digit follows. -/
def BeginsPointed (cs : List Char) : Prop :=
  ∃ ds rest, cs = ds ++ '.' :: rest ∧ IsNumeral ds ∧ ∀ c ∈ rest.head?, c.isDigit = false

theorem Keyword.lexeme_of_ofLexeme? {word : String} {k : Keyword} (h : ofLexeme? word = some k) :
    k.lexeme = word := by
  unfold ofLexeme? at h
  split at h
  · next hword =>
    cases h
    exact hword.symm
  · split at h
    · next hword =>
      cases h
      exact hword.symm
    · split at h
      · next hword =>
        cases h
        exact hword.symm
      · cases h

theorem beginsToken_word {w : List Char} (hw : IsWord w) {cs : List Char}
    (hcs : ∀ c ∈ cs.head?, c.isAlphanum = false) : BeginsToken (w ++ cs) := by
  cases hk : Keyword.ofLexeme? (String.ofList w) with
  | none =>
    refine ⟨.name (String.ofList w), cs, ?_, ⟨?_, hk⟩, hcs⟩
    · rw [Token.lexeme, String.toList_ofList]
    · rwa [String.toList_ofList]
  | some k =>
    have hlexeme : k.lexeme = String.ofList w := Keyword.lexeme_of_ofLexeme? hk
    refine ⟨.keyword k, cs, ?_, trivial, hcs⟩
    rw [Token.lexeme, hlexeme, String.toList_ofList]

theorem beginsToken_letter {c : Char} (hc : c.isAlpha = true) (cs : List Char) :
    BeginsToken (c :: cs) := by
  obtain ⟨letters, rest, rfl, hletters, hrest⟩ := exists_span Char.isAlphanum cs
  exact beginsToken_word ⟨c, letters, rfl, hc, hletters⟩ hrest

theorem begins_digit {c : Char} (hc : c.isDigit = true) (cs : List Char) :
    BeginsToken (c :: cs) ∨ BeginsPointed (c :: cs) := by
  obtain ⟨digits, rest, rfl, hdigits, hrest⟩ := exists_span Char.isDigit cs
  have hds : IsNumeral (c :: digits) :=
    ⟨List.cons_ne_nil _ _, List.forall_mem_cons.mpr ⟨hc, hdigits⟩⟩
  by_cases hpoint : rest.head? = some '.'
  · obtain ⟨rest, rfl⟩ := List.head?_eq_some_iff.mp hpoint
    obtain ⟨fraction, rest, rfl, hfraction, hend⟩ := exists_span Char.isDigit rest
    cases fraction with
    | nil => exact .inr ⟨c :: digits, rest, rfl, hds, hend⟩
    | cons d fraction =>
      refine .inl ⟨.real (String.ofList (c :: digits ++ '.' :: d :: fraction)), rest, ?_,
        ⟨c :: digits, d :: fraction, ?_, hds, List.cons_ne_nil _ _, hfraction⟩, hend⟩
      · rw [Token.lexeme, String.toList_ofList]
        simp
      · rw [String.toList_ofList]
  · refine .inl ⟨.integer (String.ofList (c :: digits)), rest, ?_, ?_, ?_⟩
    · rw [Token.lexeme, String.toList_ofList]
      rfl
    · rw [Token.WellSpelled, String.toList_ofList]
      exact hds
    · intro d hd
      refine ⟨hrest d hd, ?_⟩
      rintro rfl
      exact hpoint hd

theorem beginsToken_mark {c : Char} {m : Mark} (hm : Mark.ofChar? c = some m) {cs : List Char}
    (hready : Ready (c :: cs)) : BeginsToken (c :: cs) := by
  have hchar : m.char = c := by simpa using List.find?_some hm
  refine ⟨.mark m, cs, ?_, trivial, ?_⟩
  · rw [Token.lexeme, String.toList_singleton, hchar]
    rfl
  · rintro rfl hstar
    exact hready.2 ⟨hchar.symm, hstar⟩

/-- No token, blank or comment begins with this character. -/
structure BeginsNothing (c : Char) : Prop where
  blank : isBlank c = false
  alphanum : c.isAlphanum = false
  mark : ∀ m : Mark, c ≠ m.char

theorem begins_of_ready {c : Char} {cs : List Char} (hready : Ready (c :: cs)) :
    BeginsToken (c :: cs) ∨ BeginsPointed (c :: cs) ∨ BeginsNothing c := by
  by_cases hletter : c.isAlpha = true
  · exact .inl (beginsToken_letter hletter cs)
  by_cases hdigit : c.isDigit = true
  · rcases begins_digit hdigit cs with htoken | hpointed
    · exact .inl htoken
    · exact .inr (.inl hpointed)
  cases hm : Mark.ofChar? c with
  | some m => exact .inl (beginsToken_mark hm hready)
  | none =>
    refine .inr (.inr ⟨hready.1, by simp [Char.isAlphanum, hletter, hdigit], ?_⟩)
    rintro m rfl
    rw [Mark.ofChar?_char] at hm
    cases hm

/-! ### One call -/

namespace Scanner

theorem next_gap {g : List Char} (hg : IsGap g) (p : Position) (cs : List Char) :
    (standing p (g ++ cs)).next = (standing (p.past g) cs).next := by
  have hskip := skipGap_gap hg p cs
  rw [next, next, standing, standing, hskip]

theorem next_unclosed (p : Position) {body : List Char} (h : Unclosed body) :
    ∃ state, (standing p ('/' :: '*' :: body)).next =
      (.failure ⟨p.past ('/' :: '*' :: body), .unexpectedEnd⟩,
        ⟨[], p.past ('/' :: '*' :: body), state, none⟩) := by
  have hinside : CommentState.inside ≠ .outside := by simp
  have hbody : Unclosed (CommentState.inside.held ++ body) := h
  obtain ⟨state, hstate, hskip⟩ := skipGap_unclosed hinside (p.past ['/', '*']) hbody
  have hskip : skipGap .outside p (p.locate ('/' :: '*' :: body)) =
      (state, p.past ('/' :: '*' :: body), []) := by
    rw [skipGap_open, hskip]
    rfl
  refine ⟨state, ?_⟩
  rw [next, standing, hskip]
  cases state with
  | outside => exact absurd rfl hstate
  | inside => rfl
  | star => rfl

/-- The scanner after an integer whose point it has yet to refuse. The point stands at `q`. -/
def refusing (q : Position) (rest : List Char) : Scanner :=
  ⟨(q.after '.').locate rest, q.after '.', .outside, some q⟩

/-- The next call refuses the point whatever comes after it. -/
theorem stream_refusing (q : Position) (rest : List Char) :
    (refusing q rest).stream = .failure ⟨q, .badChar '.'⟩ := by
  rw [stream_eq]
  rfl

theorem next_pointed (p : Position) {ds rest : List Char} (hds : IsNumeral ds)
    (hrest : ∀ c ∈ rest.head?, c.isDigit = false) :
    (standing p (ds ++ '.' :: rest)).next =
      (.token ⟨p, .integer (String.ofList ds)⟩, refusing (p.past ds) rest) := by
  obtain ⟨hne, hall⟩ := hds
  obtain ⟨c, digits, rfl⟩ := List.exists_cons_of_ne_nil hne
  have hpoint : ∀ d ∈ ('.' :: rest).head?, d.isDigit = false := by
    rintro d ⟨⟩
    decide
  obtain ⟨htake, hdrop⟩ := p.span_locate hall hpoint
  have htake : (p.locate (c :: digits ++ '.' :: rest)).takeWhile isDigitAt =
      p.locate (c :: digits) := htake
  have hdrop : (p.locate (c :: digits ++ '.' :: rest)).dropWhile isDigitAt =
      (p.past (c :: digits)).locate ('.' :: rest) := hdrop
  have hnone : (((p.past (c :: digits)).after '.').locate rest).takeWhile isDigitAt = [] := by
    cases rest with
    | nil => rfl
    | cons d rest =>
      have hd : isDigitAt ⟨(p.past (c :: digits)).after '.', d⟩ = false := hrest d rfl
      rw [Position.locate, List.takeWhile_cons_of_neg (by simp [hd])]
  rw [List.cons_append, next_digit p _ (hall c (List.mem_cons_self ..)), ← List.cons_append, number,
    htake, hdrop, lexemeOf, plainChars_locate]
  simp only [Position.locate, if_pos, hnone]
  rfl

theorem next_badChar (p : Position) {c : Char} (hc : BeginsNothing c) {cs : List Char}
    (hready : Ready (c :: cs)) :
    (standing p (c :: cs)).next = (.failure ⟨p, .badChar c⟩, standing p (c :: cs)) := by
  have halnum := hc.alphanum
  simp only [Char.isAlphanum, Bool.or_eq_false_iff] at halnum
  have hmark : Mark.ofChar? c = none := by
    rw [Mark.ofChar?, List.find?_eq_none]
    intro m _ hm
    exact hc.mark m (of_decide_eq_true hm).symm
  rw [next_of_start p hready.1 hready.2, Position.locate, token]
  simp only [halnum.1, halnum.2, hmark]
  rfl

/-- All that a call can do with a text that begins at `p`. -/
inductive Yields (p : Position) : List Char → Scan × Scanner → Prop
  | done {g : List Char} (hg : IsGap g) : Yields p g (.done, standing (p.past g) [])
  | token {g rest : List Char} {t : Token} (hg : IsGap g) (ht : t.WellSpelled)
      (hrest : t.EndsBefore rest) :
      Yields p (g ++ (t.lexeme.toList ++ rest))
        (.token ⟨p.past g, t⟩, standing (p.past (g ++ t.lexeme.toList)) rest)
  | pointed {g ds rest : List Char} (hg : IsGap g) (hds : IsNumeral ds)
      (hrest : ∀ c ∈ rest.head?, c.isDigit = false) :
      Yields p (g ++ (ds ++ '.' :: rest))
        (.token ⟨p.past g, .integer (String.ofList ds)⟩, refusing (p.past (g ++ ds)) rest)
  | badChar {g rest : List Char} {c : Char} (hg : IsGap g) (hc : BeginsNothing c) :
      Yields p (g ++ c :: rest)
        (.failure ⟨p.past g, .badChar c⟩, standing (p.past g) (c :: rest))
  | unclosed {g body : List Char} (hg : IsGap g) (hbody : Unclosed body) (state : CommentState) :
      Yields p (g ++ '/' :: '*' :: body)
        (.failure ⟨p.past (g ++ '/' :: '*' :: body), .unexpectedEnd⟩,
          ⟨[], p.past (g ++ '/' :: '*' :: body), state, none⟩)

/-- The list is complete. -/
theorem yields_next (p : Position) (cs : List Char) : Yields p cs (standing p cs).next := by
  -- A gap is skipped by the call for what comes after it, so only the head of that counts.
  obtain ⟨g, rest, rfl, hg, hready | ⟨body, rfl, hbody⟩⟩ := exists_gap cs
  · rw [next_gap hg]
    cases rest with
    | nil =>
      rw [List.append_nil]
      exact .done hg
    | cons c rest =>
      rcases begins_of_ready hready with
        ⟨t, tail, heq, ht, htail⟩ | ⟨ds, tail, heq, hds, htail⟩ | hc
      · rw [heq, next_token _ ht htail, ← Position.past_append]
        exact .token hg ht htail
      · rw [heq, next_pointed _ hds htail, ← Position.past_append]
        exact .pointed hg hds htail
      · rw [next_badChar _ hc hready]
        exact .badChar hg hc
  · obtain ⟨state, hnext⟩ := next_unclosed (p.past g) hbody
    rw [next_gap hg, hnext, ← Position.past_append]
    exact .unclosed hg hbody state

end Scanner

end BlockLang
