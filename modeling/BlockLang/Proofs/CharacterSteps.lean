import BlockLang.Proofs.Gaps
import BlockLang.Proofs.LaterCalls

/-!
# The scanner, one character at a time

`Lexer` takes the characters one at a time. It has nine states; in each of them the next character,
which may be missing, decides what comes next. A step either goes on or halts with a verdict. Not
every step consumes a character: a word and a number begin in a step of their own, and a mark is
given out in the step after it. So the steps of a call are bounded by the characters left together
with a rank of the state (`rank_lt_of_step`).

Its calls yield what those of `Scanner` yield (`Mirrors.exists_next`). The state `complete` is left
by a step that expects to find a token in it and has nowhere to go otherwise; that never happens
(`step_ne_dead`).
-/

namespace BlockLang

/-- What has been read of the token or the comment in which a lexer stands. -/
inductive LexState where
  | start
  /-- A mark has been read, and is given out by the next step. -/
  | complete (t : Token)
  | slash
  | comment
  /-- Inside a comment, right after a `*`. -/
  | commentStar
  | integer (digits : List Char)
  /-- Digits and a point, which stands at this position. -/
  | fraction (digits : List Char) (point : Position)
  | real (lexeme : List Char)
  | word (letters : List Char)

/-- The characters left, the state, the position at which the token begins, the position after the
last character consumed, and an error that the next call reports. -/
structure Lexer where
  rest : List (Located Char)
  state : LexState
  start : Position
  position : Position
  deferred : Option (Located LexicalError)

/-- How the steps of a call end. -/
inductive Verdict where
  | token (t : Token)
  | failure (e : Located LexicalError)
  | done
  /-- A state that was thought to hold a token does not. -/
  | dead

inductive LexStep where
  | goOn (l : Lexer)
  | halt (v : Verdict) (l : Lexer)

/-- What a call of a lexer comes to. -/
inductive LexCall where
  | result (scan : Scan) (l : Lexer)
  | dead
  /-- The steps granted are not enough. -/
  | unfinished

namespace Lexer

/-- Go to a state and consume the next character, if there is one. -/
def consume (l : Lexer) (state : LexState) : Lexer :=
  match l.rest with
  | [] => { l with state := state }
  | c :: rest => { l with rest := rest, state := state, position := c.following }

/-- The step of a lexer at the first character of a token or in a gap. -/
def begin (l : Lexer) (c : Located Char) : LexStep :=
  match Mark.ofChar? c.value with
  | some .slash => .goOn (l.consume .slash)
  | some m => .goOn (l.consume (.complete (.mark m)))
  | none =>
    if c.value.isAlpha then .goOn { l with state := .word [] }
    else if c.value.isDigit then .goOn { l with state := .integer [] }
    else if isBlank c.value then .goOn (l.consume .start)
    else .halt (.failure ⟨c.position, .badChar c.value⟩) l

/-- Give out the token that the state holds. -/
def release (l : Lexer) : LexStep :=
  match l.state with
  | .complete t => .halt (.token t) { l with state := .start }
  | _ => .halt .dead { l with state := .start }

def step (l : Lexer) : LexStep :=
  match l.state, l.rest with
  | .start, [] => .halt .done { l with start := l.position }
  | .start, c :: _ => { l with start := c.position }.begin c
  | .complete _, _ => l.release
  | .slash, c :: _ =>
    if c.value = '*' then .goOn (l.consume .comment) else .halt (.token (.mark .slash)) l
  | .slash, [] => .halt (.token (.mark .slash)) l
  | .comment, c :: _ =>
    .goOn (l.consume (if c.value = '*' then .commentStar else .comment))
  | .commentStar, c :: _ =>
    if c.value = '/' then .goOn (l.consume .start)
    else .goOn (l.consume (if c.value = '*' then .commentStar else .comment))
  | .comment, [] => .halt (.failure ⟨l.position, .unexpectedEnd⟩) l
  | .commentStar, [] => .halt (.failure ⟨l.position, .unexpectedEnd⟩) l
  | .integer digits, c :: _ =>
    if c.value.isDigit then .goOn (l.consume (.integer (digits ++ [c.value])))
    else if c.value = '.' then .goOn (l.consume (.fraction digits c.position))
    else .halt (.token (.integer (String.ofList digits))) l
  | .integer digits, [] => .halt (.token (.integer (String.ofList digits))) l
  | .fraction digits point, c :: _ =>
    if c.value.isDigit then .goOn (l.consume (.real (digits ++ ['.', c.value])))
    else .halt (.token (.integer (String.ofList digits)))
      { l with deferred := some ⟨point, .badChar '.'⟩ }
  | .fraction digits point, [] =>
    .halt (.token (.integer (String.ofList digits)))
      { l with deferred := some ⟨point, .badChar '.'⟩ }
  | .real lexeme, c :: _ =>
    if c.value.isDigit then .goOn (l.consume (.real (lexeme ++ [c.value])))
    else .halt (.token (.real (String.ofList lexeme))) l
  | .real lexeme, [] => .halt (.token (.real (String.ofList lexeme))) l
  | .word letters, c :: _ =>
    if c.value.isAlphanum then .goOn (l.consume (.word (letters ++ [c.value])))
    else .halt (.token (.ofWord (String.ofList letters))) l
  | .word letters, [] => .halt (.token (.ofWord (String.ofList letters))) l

/-- Make steps until one halts, but no more than `fuel`. -/
def lex : (fuel : Nat) → Lexer → Option (Verdict × Lexer)
  | 0, _ => none
  | fuel + 1, l =>
    match l.step with
    | .goOn l' => lex fuel l'
    | .halt v l' => some (v, l')

/-- What a verdict means to the caller. A token begins where the lexer began it, and the next call
begins a new one. -/
def answer (l : Lexer) : Verdict → LexCall
  | .token t => .result (.token ⟨l.start, t⟩) { l with state := .start }
  | .failure e => .result (.failure e) l
  | .done => .result .done l
  | .dead => .dead

/-- One call, of at most `fuel` steps. -/
def next (fuel : Nat) (l : Lexer) : LexCall :=
  match l.deferred with
  | some e => .result (.failure e) { l with deferred := none }
  | none =>
    match l.lex fuel with
    | some (v, l') => l'.answer v
    | none => .unfinished

/-- A lexer at the head of a stream of characters. -/
def ofStream (cs : List (Located Char)) : Lexer := ⟨cs, .start, .start, .start, none⟩

/-! ### Every call ends -/

/-- Only at the start is there a step that consumes nothing and goes on. -/
def rank (l : Lexer) : Nat :=
  2 * l.rest.length + match l.state with
    | .start => 1
    | _ => 0

theorem rank_le (l : Lexer) : l.rank ≤ 2 * l.rest.length + 1 := by
  unfold rank
  split <;> omega

theorem rank_consume {l : Lexer} {c : Located Char} {rest : List (Located Char)}
    (h : l.rest = c :: rest) (state : LexState) : (l.consume state).rank < 2 * l.rest.length := by
  have hrank := (l.consume state).rank_le
  rw [consume, h] at hrank ⊢
  simp only [List.length_cons] at hrank ⊢
  omega

theorem rank_of_begin {l l' : Lexer} {c : Located Char} {rest : List (Located Char)}
    (hrest : l.rest = c :: rest) (h : l.begin c = .goOn l') : l'.rank < 2 * l.rest.length + 1 := by
  have hconsume := fun state => Nat.lt_succ_of_lt (rank_consume hrest state)
  unfold begin at h
  split at h
  · cases h
    exact hconsume _
  · cases h
    exact hconsume _
  · split at h
    · cases h
      exact Nat.lt_succ_self _
    · split at h
      · cases h
        exact Nat.lt_succ_self _
      · split at h
        · cases h
          exact hconsume _
        · cases h

theorem rank_lt_of_step {l l' : Lexer} (h : l.step = .goOn l') : l'.rank < l.rank := by
  obtain ⟨rest, state, start, position, deferred⟩ := l
  cases rest with
  | nil => cases state <;> cases h
  | cons c rest =>
    have hconsume := fun state' => rank_consume (l := ⟨c :: rest, state, start, position, deferred⟩)
      rfl state'
    cases state with
    | start => exact rank_of_begin (l := ⟨c :: rest, .start, c.position, position, deferred⟩) rfl h
    | complete t => cases h
    | comment =>
      cases h
      exact hconsume _
    | commentStar =>
      simp only [step] at h
      split at h <;> cases h <;> exact hconsume _
    | integer digits =>
      simp only [step] at h
      split at h
      · cases h
        exact hconsume _
      · split at h <;> cases h
        exact hconsume _
    | slash | fraction digits point | real lexeme | word letters =>
      simp only [step] at h
      split at h <;> cases h
      exact hconsume _

theorem begin_ne_dead (l : Lexer) (c : Located Char) (l' : Lexer) : l.begin c ≠ .halt .dead l' := by
  intro h
  unfold begin at h
  split at h
  · cases h
  · cases h
  · split at h
    · cases h
    · split at h
      · cases h
      · split at h <;> cases h

/-- A token is released only from a state that holds one. -/
theorem step_ne_dead (l l' : Lexer) : l.step ≠ .halt .dead l' := by
  obtain ⟨rest, state, start, position, deferred⟩ := l
  intro h
  cases rest with
  | nil => cases state <;> cases h
  | cons c rest =>
    cases state with
    | start => exact begin_ne_dead _ c l' h
    | complete t => cases h
    | comment => cases h
    | integer digits =>
      simp only [step] at h
      split at h
      · cases h
      · split at h <;> cases h
    | commentStar | slash | fraction digits point | real lexeme | word letters =>
      simp only [step] at h
      split at h <;> cases h

/-- The steps from a lexer end with this verdict. -/
inductive Halts : Lexer → Verdict → Lexer → Prop
  | halt {l : Lexer} {v : Verdict} {l' : Lexer} (h : l.step = .halt v l') : Halts l v l'
  | goOn {l m : Lexer} {v : Verdict} {l' : Lexer} (h : l.step = .goOn m) (rest : Halts m v l') :
      Halts l v l'

theorem Halts.ne_dead {l l' : Lexer} {v : Verdict} (h : Halts l v l') : v ≠ .dead := by
  induction h with
  | halt h =>
    rintro rfl
    exact step_ne_dead _ _ h
  | goOn h rest ih => exact ih

theorem exists_halts (l : Lexer) : ∃ v l', Halts l v l' := by
  induction hn : l.rank using Nat.strongRecOn generalizing l with
  | _ n ih =>
    subst hn
    cases hstep : l.step with
    | goOn m =>
      obtain ⟨v, l', hrest⟩ := ih m.rank (rank_lt_of_step hstep) m rfl
      exact ⟨v, l', .goOn hstep hrest⟩
    | halt v l' => exact ⟨v, l', .halt hstep⟩

theorem lex_of_halts {l l' : Lexer} {v : Verdict} (h : Halts l v l') {fuel : Nat}
    (hfuel : l.rank < fuel) : l.lex fuel = some (v, l') := by
  induction h generalizing fuel with
  | halt h =>
    cases fuel with
    | zero => omega
    | succ fuel => rw [lex, h]
  | goOn h rest ih =>
    have hrank := rank_lt_of_step h
    cases fuel with
    | zero => omega
    | succ fuel =>
      rw [lex, h]
      exact ih (by omega)

theorem Halts.eq_of_lex {l l' : Lexer} {v : Verdict} (h : Halts l v l') {fuel : Nat}
    {result : Verdict × Lexer} (hlex : l.lex fuel = some result) : result = (v, l') := by
  induction fuel generalizing l with
  | zero => cases hlex
  | succ fuel ih =>
    rw [lex] at hlex
    cases h with
    | halt h =>
      rw [h] at hlex
      exact (Option.some.inj hlex).symm
    | goOn h rest =>
      rw [h] at hlex
      exact ih rest hlex

theorem next_ne_dead (l : Lexer) (fuel : Nat) : l.next fuel ≠ .dead := by
  obtain ⟨v, l', hhalts⟩ := exists_halts l
  have hv := hhalts.ne_dead
  intro h
  cases hdeferred : l.deferred with
  | some e =>
    simp only [next, hdeferred] at h
    cases h
  | none =>
    simp only [next, hdeferred] at h
    cases hlex : l.lex fuel with
    | none =>
      rw [hlex] at h
      cases h
    | some result =>
      rw [hlex, hhalts.eq_of_lex hlex] at h
      cases v with
      | dead => exact hv rfl
      | token t => cases h
      | failure e => cases h
      | done => cases h

end Lexer

/-! ### The same results as those of the scanner -/

/-- The state of a lexer between two calls. -/
def LexState.ofComment : CommentState → LexState
  | .outside => .start
  | .inside => .comment
  | .star => .commentStar

namespace Lexer

/-- The lexer stands where the scanner stands. Where it began its last token does not matter. -/
structure Mirrors (l : Lexer) (s : Scanner) : Prop where
  rest : l.rest = s.rest
  state : l.state = .ofComment s.comment
  position : l.position = s.position
  deferred : l.deferred = s.refused.map (fun p => ⟨p, .badChar '.'⟩)

/-- The steps from a lexer end as this call of the scanner does. -/
def EndsAs (l : Lexer) (result : Scan × Scanner) : Prop :=
  ∃ v l' l'', Halts l v l' ∧ l'.answer v = .result result.1 l'' ∧ l''.Mirrors result.2

theorem EndsAs.goOn {l m : Lexer} {result : Scan × Scanner} (h : l.step = .goOn m)
    (hm : m.EndsAs result) : l.EndsAs result := by
  obtain ⟨v, l', l'', hhalts, hrest⟩ := hm
  exact ⟨v, l', l'', .goOn h hhalts, hrest⟩

/-- A token is given out from any state. -/
theorem endsAs_token {l : Lexer} {t : Token} {cs : List (Located Char)} {state : LexState}
    {start p : Position} {deferred : Option (Located LexicalError)} {refused : Option Position}
    (h : l.step = .halt (.token t) ⟨cs, state, start, p, deferred⟩)
    (hrefused : deferred = refused.map (fun q => ⟨q, .badChar '.'⟩)) :
    l.EndsAs (.token ⟨start, t⟩, ⟨cs, p, .outside, refused⟩) :=
  ⟨_, _, _, .halt h, rfl, rfl, rfl, rfl, hrefused⟩

/-- A run of characters of one kind is read into the state. -/
theorem endsAs_run (state : List Char → LexState) (f : Located Char → Bool) {start : Position}
    (hstep : ∀ read c rest p, f c = true → step ⟨c :: rest, state read, start, p, none⟩ =
      .goOn ⟨rest, state (read ++ [c.value]), start, c.following, none⟩)
    {result : Scan × Scanner} {cs : List (Located Char)} {read : List Char} {p : Position}
    (h : EndsAs ⟨cs.dropWhile f, state (read ++ plainChars (cs.takeWhile f)), start,
      positionAfter p (cs.takeWhile f), none⟩ result) :
    EndsAs ⟨cs, state read, start, p, none⟩ result := by
  induction cs generalizing read p with
  | nil => simpa [plainChars, positionAfter] using h
  | cons c cs ih =>
    by_cases hc : f c = true
    · refine .goOn (hstep read c cs p hc) (ih ?_)
      simpa [hc, plainChars, positionAfter] using h
    · simpa [hc, plainChars, positionAfter] using h

theorem not_head_dropWhile {f : Located Char → Bool} {cs rest : List (Located Char)}
    {c : Located Char} (h : cs.dropWhile f = c :: rest) : ¬f c = true := by
  have hhead := List.head?_dropWhile_not f cs
  rw [h] at hhead
  simpa using hhead

section Numbers
variable (start : Position)

theorem endsAs_word (cs : List (Located Char)) (letters : List Char) (p : Position) :
    EndsAs ⟨cs, .word letters, start, p, none⟩
      (.token ⟨start, .ofWord (.ofList (letters ++ plainChars (cs.takeWhile isAlphanumAt)))⟩,
        ⟨cs.dropWhile isAlphanumAt, positionAfter p (cs.takeWhile isAlphanumAt), .outside,
          none⟩) := by
  refine endsAs_run .word isAlphanumAt (fun read c rest p hc => if_pos hc) ?_
  cases hrest : cs.dropWhile isAlphanumAt with
  | nil => exact endsAs_token rfl rfl
  | cons d rest => exact endsAs_token (if_neg (not_head_dropWhile hrest)) rfl

theorem endsAs_real (cs : List (Located Char)) (lexeme : List Char) (p : Position) :
    EndsAs ⟨cs, .real lexeme, start, p, none⟩
      (.token ⟨start, .real (.ofList (lexeme ++ plainChars (cs.takeWhile isDigitAt)))⟩,
        ⟨cs.dropWhile isDigitAt, positionAfter p (cs.takeWhile isDigitAt), .outside, none⟩) := by
  refine endsAs_run .real isDigitAt (fun read c rest p hc => if_pos hc) ?_
  cases hrest : cs.dropWhile isDigitAt with
  | nil => exact endsAs_token rfl rfl
  | cons d rest => exact endsAs_token (if_neg (not_head_dropWhile hrest)) rfl

/-- After a point a digit makes a real literal, and anything else an integer. -/
theorem endsAs_fraction (digits : List (Located Char)) (point : Located Char)
    (hpoint : point.value = '.') (rest : List (Located Char)) :
    EndsAs ⟨rest, .fraction (plainChars digits) point.position, start, point.following, none⟩
      (if rest.takeWhile isDigitAt = [] then
        (.token ⟨start, .integer (lexemeOf digits)⟩,
          ⟨rest, point.following, .outside, some point.position⟩)
      else
        Scanner.emit start (.real (lexemeOf (digits ++ point :: rest.takeWhile isDigitAt)))
          (digits ++ point :: rest.takeWhile isDigitAt) (rest.dropWhile isDigitAt)) := by
  cases rest with
  | nil => exact endsAs_token rfl rfl
  | cons d rest =>
    by_cases hd : isDigitAt d = true
    · have htake : (d :: rest).takeWhile isDigitAt = d :: rest.takeWhile isDigitAt :=
        List.takeWhile_cons_of_pos hd
      have hreal := endsAs_real start rest (plainChars digits ++ ['.', d.value]) d.following
      have hlexeme : lexemeOf (digits ++ point :: d :: rest.takeWhile isDigitAt) =
          .ofList (plainChars digits ++ ['.', d.value] ++
            plainChars (rest.takeWhile isDigitAt)) := by
        simp [lexemeOf, plainChars, hpoint]
      rw [htake, if_neg (List.cons_ne_nil _ _), hlexeme, List.dropWhile_cons_of_pos hd,
        Scanner.emit, positionAfter_append]
      exact .goOn (if_pos hd) hreal
    · rw [List.takeWhile_cons_of_neg hd, if_pos rfl]
      exact endsAs_token (if_neg hd) rfl

theorem endsAs_number {c : Located Char} (hc : isDigitAt c = true) (cs : List (Located Char))
    (p : Position) :
    EndsAs ⟨c :: cs, .integer [], start, p, none⟩ (Scanner.number start (c :: cs)) := by
  refine endsAs_run .integer isDigitAt (fun read d rest q hd => if_pos hd) ?_
  have hposition : positionAfter p ((c :: cs).takeWhile isDigitAt) =
      positionAfter start ((c :: cs).takeWhile isDigitAt) := by
    rw [List.takeWhile_cons_of_pos hc]
    rfl
  rw [hposition, List.nil_append, Scanner.number]
  split
  · next point rest hdrop =>
    have hdigit : ¬point.value.isDigit = true := not_head_dropWhile hdrop
    rw [hdrop]
    split
    · next hpoint =>
      refine .goOn ((if_neg hdigit).trans (if_pos hpoint)) ?_
      exact endsAs_fraction start _ point hpoint rest
    · next hpoint => exact endsAs_token ((if_neg hdigit).trans (if_neg hpoint)) rfl
  · next hdrop =>
    rw [hdrop]
    exact endsAs_token rfl rfl

end Numbers

theorem char_of_ofChar? {c : Char} {m : Mark} (h : Mark.ofChar? c = some m) : m.char = c := by
  simpa using List.find?_some h

theorem not_alphanum_of_mark {c : Char} {m : Mark} (h : Mark.ofChar? c = some m) :
    ¬c.isAlpha = true ∧ ¬c.isDigit = true := by
  rw [← char_of_ofChar? h]
  cases m <;> decide

/-- The steps from a place at which a token may begin. -/
theorem endsAs_begin (start p : Position) {cs : List (Located Char)}
    (hready : Ready (plainChars cs)) :
    EndsAs ⟨cs, .start, start, p, none⟩ (Scanner.token p cs) := by
  cases cs with
  | nil => exact ⟨_, _, _, .halt rfl, rfl, rfl, rfl, rfl, rfl⟩
  | cons c rest =>
    obtain ⟨hblank, hcomment⟩ := hready
    have hstep : step ⟨c :: rest, .start, start, p, none⟩ =
        begin ⟨c :: rest, .start, c.position, p, none⟩ c := rfl
    rw [Scanner.token]
    cases hmark : Mark.ofChar? c.value with
    | some m =>
      obtain ⟨hletter, hdigit⟩ := not_alphanum_of_mark hmark
      rw [if_neg hletter, if_neg hdigit]
      rw [begin, hmark] at hstep
      cases m with
      | slash =>
        refine .goOn hstep ?_
        cases rest with
        | nil => exact endsAs_token rfl rfl
        | cons d rest =>
          have hstar : d.value ≠ '*' := by
            intro hstar
            exact hcomment ⟨(char_of_ofChar? hmark).symm, congrArg some hstar⟩
          exact endsAs_token (if_neg hstar) rfl
      | _ => exact .goOn hstep (endsAs_token rfl rfl)
    | none =>
      rw [begin, hmark] at hstep
      by_cases hletter : c.value.isAlpha = true
      · rw [if_pos hletter]
        have halnum : isAlphanumAt c = true := by simp [isAlphanumAt, Char.isAlphanum, hletter]
        have hword := endsAs_word c.position (c :: rest) [] p
        have hposition : positionAfter p ((c :: rest).takeWhile isAlphanumAt) =
            positionAfter c.position ((c :: rest).takeWhile isAlphanumAt) := by
          rw [List.takeWhile_cons_of_pos halnum]
          rfl
        rw [hposition] at hword
        exact .goOn (hstep.trans (if_pos hletter)) hword
      · rw [if_neg hletter]
        by_cases hdigit : c.value.isDigit = true
        · rw [if_pos hdigit]
          refine .goOn (hstep.trans ((if_neg hletter).trans (if_pos hdigit))) ?_
          exact endsAs_number c.position hdigit rest p
        · rw [if_neg hdigit]
          have hother : ¬isBlank c.value = true := by simpa using hblank
          have hhalt := hstep.trans ((if_neg hletter).trans ((if_neg hdigit).trans (if_neg hother)))
          exact ⟨_, _, _, .halt hhalt, rfl, rfl, rfl, rfl, rfl⟩

/-- Where a gap has been skipped a token may begin. -/
theorem ready_skipGap {state : CommentState} {p : Position} {cs : List (Located Char)}
    (h : (skipGap state p cs).1 = .outside) : Ready (plainChars (skipGap state p cs).2.2) := by
  fun_induction skipGap state p cs with
  | case1 state p => trivial
  | case2 p c hblank => trivial
  | case3 p c hblank => exact ⟨by simpa using hblank, by simp⟩
  | case4 p c d rest hblank ih => exact ih h
  | case5 p c d rest hblank hopen ih => exact ih h
  | case6 p c d rest hblank hopen =>
    refine ⟨by simpa using hblank, ?_⟩
    rintro ⟨hslash, hstar⟩
    exact hopen ⟨hslash, Option.some.inj hstar⟩
  | case7 p c rest ih => exact ih h
  | case8 p c rest hclose ih => exact ih h
  | case9 p c rest hclose ih => exact ih h

theorem mark_eq_none_of_isBlank {c : Char} (h : isBlank c = true) : Mark.ofChar? c = none := by
  simp only [isBlank, Bool.or_eq_true, decide_eq_true_eq] at h
  rcases h with ((rfl | rfl) | rfl) | rfl <;> decide

theorem step_blank (start p : Position) {c : Located Char} (h : isBlank c.value = true)
    (rest : List (Located Char)) :
    step ⟨c :: rest, .start, start, p, none⟩ =
      .goOn ⟨rest, .start, c.position, c.following, none⟩ := by
  have hother : ¬c.value.isAlpha = true ∧ ¬c.value.isDigit = true := by
    simp only [isBlank, Bool.or_eq_true, decide_eq_true_eq] at h
    rcases h with ((h | h) | h) | h <;> rw [h] <;> decide
  have hstep : step ⟨c :: rest, .start, start, p, none⟩ =
      begin ⟨c :: rest, .start, c.position, p, none⟩ c := rfl
  rw [hstep, begin, mark_eq_none_of_isBlank h]
  exact (if_neg hother.1).trans ((if_neg hother.2).trans (if_pos h))

theorem step_within (start p : Position) (c : Located Char) (rest : List (Located Char)) :
    step ⟨c :: rest, .comment, start, p, none⟩ =
      .goOn ⟨rest, .ofComment (if c.value = '*' then .star else .inside), start, c.following,
        none⟩ := by
  rw [apply_ite LexState.ofComment]
  rfl

/-- The steps through a gap. The position at which a token begins is set after it. -/
theorem endsAs_skipGap {result : Scan × Scanner} {state : CommentState} {p : Position}
    {cs : List (Located Char)}
    (h : ∀ start, EndsAs ⟨(skipGap state p cs).2.2, .ofComment (skipGap state p cs).1, start,
      (skipGap state p cs).2.1, none⟩ result) (start : Position) :
    EndsAs ⟨cs, .ofComment state, start, p, none⟩ result := by
  fun_induction skipGap state p cs generalizing start with
  | case1 state p => exact h start
  | case2 p c hblank => exact .goOn (step_blank start p hblank []) (h c.position)
  | case3 p c hblank => exact h start
  | case4 p c d rest hblank ih =>
    exact .goOn (step_blank start p hblank (d :: rest)) (ih h c.position)
  | case5 p c d rest hblank hopen ih =>
    have hmark : Mark.ofChar? c.value = some .slash := by
      rw [hopen.1]
      rfl
    have hslash : step ⟨c :: d :: rest, .start, start, p, none⟩ =
        .goOn ⟨d :: rest, .slash, c.position, c.following, none⟩ := by
      show begin ⟨c :: d :: rest, .start, c.position, p, none⟩ c = _
      rw [begin, hmark]
      rfl
    exact .goOn hslash (.goOn (if_pos hopen.2) (ih h c.position))
  | case6 p c d rest hblank hopen => exact h start
  | case7 p c rest ih => exact .goOn (step_within start p c rest) (ih h start)
  | case8 p c rest hclose ih => exact .goOn (if_pos hclose) (ih h start)
  | case9 p c rest hclose ih =>
    exact .goOn ((if_neg hclose).trans (step_within start p c rest)) (ih h start)

/-- Only the end of the text ends a gap inside a comment. -/
theorem rest_skipGap_of_inside {state : CommentState} {p : Position} {cs : List (Located Char)}
    (h : (skipGap state p cs).1 ≠ .outside) : (skipGap state p cs).2.2 = [] := by
  fun_induction skipGap state p cs with
  | case1 state p => rfl
  | case2 p c hblank => rfl
  | case3 p c hblank => exact absurd rfl h
  | case4 p c d rest hblank ih => exact ih h
  | case5 p c d rest hblank hopen ih => exact ih h
  | case6 p c d rest hblank hopen => exact absurd rfl h
  | case7 p c rest ih => exact ih h
  | case8 p c rest hclose ih => exact ih h
  | case9 p c rest hclose ih => exact ih h

theorem Mirrors.endsAs_next {l : Lexer} {s : Scanner} (h : l.Mirrors s) (hs : s.refused = none) :
    l.EndsAs s.next := by
  obtain ⟨rest, state, start, position, deferred⟩ := l
  obtain ⟨cs, p, comment, refused⟩ := s
  obtain rfl : refused = none := hs
  obtain rfl : rest = cs := h.rest
  obtain rfl : state = .ofComment comment := h.state
  obtain rfl : position = p := h.position
  obtain rfl : deferred = none := h.deferred
  refine endsAs_skipGap ?_ start
  intro start
  by_cases hout : (skipGap comment position rest).1 = .outside
  · have hnext := Scanner.next_of_outside (s := ⟨rest, position, comment, none⟩) rfl
      (Prod.ext hout rfl)
    rw [hnext, hout]
    exact endsAs_begin start _ (ready_skipGap hout)
  · have hnext := Scanner.next_of_inside (s := ⟨rest, position, comment, none⟩) rfl hout rfl
    rw [hnext, rest_skipGap_of_inside hout]
    -- The text has ended, and the lexer reports that where it stands.
    generalize (skipGap comment position rest).1 = state at hout
    cases state with
    | outside => exact absurd rfl hout
    | inside => exact ⟨_, _, _, .halt rfl, rfl, rfl, rfl, rfl, rfl⟩
    | star => exact ⟨_, _, _, .halt rfl, rfl, rfl, rfl, rfl, rfl⟩

/-- A call of a lexer yields what a call of the scanner yields. -/
theorem Mirrors.exists_next {l : Lexer} {s : Scanner} (h : l.Mirrors s) :
    ∃ l', l'.Mirrors s.next.2 ∧ ∀ fuel, 2 * l.rest.length + 2 ≤ fuel →
      l.next fuel = .result s.next.1 l' := by
  cases hrefused : s.refused with
  | some q =>
    have hdeferred : l.deferred = some ⟨q, .badChar '.'⟩ := by
      rw [h.deferred, hrefused]
      rfl
    rw [Scanner.next_of_refused hrefused]
    refine ⟨{ l with deferred := none }, ⟨h.rest, h.state, h.position, rfl⟩, ?_⟩
    intro fuel _
    rw [next, hdeferred]
  | none =>
    have hdeferred : l.deferred = none := by
      rw [h.deferred, hrefused]
      rfl
    obtain ⟨v, l', l'', hhalts, hanswer, hmirrors⟩ := h.endsAs_next hrefused
    refine ⟨l'', hmirrors, ?_⟩
    intro fuel hfuel
    have hrank := l.rank_le
    have hlex : l.lex fuel = some (v, l') := lex_of_halts hhalts (by omega)
    simp only [next, hdeferred, hlex, hanswer]

end Lexer

end BlockLang
