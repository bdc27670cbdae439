import BlockLang.Diagnostic

/-! # The scanner

The scanner cuts a text into tokens, dropping blanks and comments. It takes the
longest word or number that begins where it stands. A comment runs from `/*` to
the first `*/` after it. A real literal has digits on both sides of its point,
so the point in `12.a` belongs to no token: the integer `12` comes out first,
and the next call refuses the point.

`Scanner.next` is one call and `Scanner.stream` all of them, up to the end of the
text or the first error. A call that yields a token leaves a shorter rest
(`Scanner.rest_lt_of_next`), so the stream is finite. -/

namespace BlockLang

/-- Where the scanner stands with respect to a comment. -/
inductive CommentState where
  | outside
  | inside
  /-- Inside, right after a `*`. -/
  | star
deriving DecidableEq, Repr

/-- A scanner: the characters that it has not consumed, the position after the
last one that it has, whether it stands in a comment, and the position of a
point that it has yet to refuse. -/
structure Scanner where
  rest : List (Located Char)
  position : Position
  comment : CommentState
  refused : Option Position
deriving DecidableEq, Repr

inductive Scan where
  | token (t : Located Token)
  | failure (e : Located LexicalError)
  | done
deriving DecidableEq, Repr

def isBlank (c : Char) : Bool := c = ' ' || c = '\t' || c = '\r' || c = '\n'

def isDigitAt (c : Located Char) : Bool := c.value.isDigit

def isAlphanumAt (c : Located Char) : Bool := c.value.isAlphanum

def lexemeOf (cs : List (Located Char)) : String := String.ofList (plainChars cs)

/-- The position after the last of the consumed characters, or `p` if there are
none. -/
def positionAfter (p : Position) (consumed : List (Located Char)) : Position :=
  consumed.foldl (fun _ c => c.following) p

/-- Skip blanks and comments, from a given state with respect to comments and a
given position. Outside comments it stops at the first other character. -/
def skipGap : CommentState → Position → List (Located Char) →
    CommentState × Position × List (Located Char)
  | state, p, [] => (state, p, [])
  | .outside, p, [c] =>
    if isBlank c.value then (.outside, c.following, []) else (.outside, p, [c])
  | .outside, p, c :: d :: rest =>
    if isBlank c.value then skipGap .outside c.following (d :: rest)
    else if c.value = '/' ∧ d.value = '*' then skipGap .inside d.following rest
    else (.outside, p, c :: d :: rest)
  | .inside, _, c :: rest =>
    skipGap (if c.value = '*' then .star else .inside) c.following rest
  | .star, _, c :: rest =>
    if c.value = '/' then skipGap .outside c.following rest
    else skipGap (if c.value = '*' then .star else .inside) c.following rest

namespace Scanner

def ofStream (cs : List (Located Char)) : Scanner := ⟨cs, .start, .outside, none⟩

def ofText (source : String) : Scanner := ofStream (locatedChars source)

/-- Yield a token that begins at `start` and is spelled by `consumed`. -/
def emit (start : Position) (t : Token) (consumed rest : List (Located Char)) : Scan × Scanner :=
  (.token ⟨start, t⟩, ⟨rest, positionAfter start consumed, .outside, none⟩)

def word (start : Position) (cs : List (Located Char)) : Scan × Scanner :=
  let letters := cs.takeWhile isAlphanumAt
  emit start (.ofWord (lexemeOf letters)) letters (cs.dropWhile isAlphanumAt)

/-- Take the number at the head of `cs`. A point that no digit follows is
consumed, and refused by the next call. -/
def number (start : Position) (cs : List (Located Char)) : Scan × Scanner :=
  let digits := cs.takeWhile isDigitAt
  match cs.dropWhile isDigitAt with
  | point :: rest =>
    if point.value = '.' then
      if rest.takeWhile isDigitAt = [] then
        (.token ⟨start, .integer (lexemeOf digits)⟩,
          ⟨rest, point.following, .outside, some point.position⟩)
      else
        let lexeme := digits ++ point :: rest.takeWhile isDigitAt
        emit start (.real (lexemeOf lexeme)) lexeme (rest.dropWhile isDigitAt)
    else emit start (.integer (lexemeOf digits)) digits (point :: rest)
  | [] => emit start (.integer (lexemeOf digits)) digits []

/-- Take the token at the head of a text that begins with neither a blank nor a
comment. A character that begins no token stays where it is. -/
def token (p : Position) : List (Located Char) → Scan × Scanner
  | [] => (.done, ⟨[], p, .outside, none⟩)
  | c :: rest =>
    if c.value.isAlpha then word c.position (c :: rest)
    else if c.value.isDigit then number c.position (c :: rest)
    else match Mark.ofChar? c.value with
      | some m => emit c.position (.mark m) [c] rest
      | none => (.failure ⟨c.position, .badChar c.value⟩, ⟨c :: rest, p, .outside, none⟩)

/-- One call: the next token, an error or the end of the text. -/
def next (s : Scanner) : Scan × Scanner :=
  match s.refused with
  | some p => (.failure ⟨p, .badChar '.'⟩, ⟨s.rest, s.position, s.comment, none⟩)
  | none =>
    match skipGap s.comment s.position s.rest with
    | (.outside, p, rest) => token p rest
    | (state, p, rest) => (.failure ⟨p, .unexpectedEnd⟩, ⟨rest, p, state, none⟩)

/-- What `n` calls yield, each with the position of the scanner after it. -/
def calls : Nat → Scanner → List (Scan × Position)
  | 0, _ => []
  | n + 1, s => (s.next.1, s.next.2.position) :: calls n s.next.2

/-! ### A token shortens the rest -/

theorem length_skipGap_le (state : CommentState) (p : Position) (cs : List (Located Char)) :
    (skipGap state p cs).2.2.length ≤ cs.length := by
  fun_induction skipGap state p cs <;> simp_all <;> omega

theorem length_dropWhile_le {α : Type} (f : α → Bool) (l : List α) :
    (l.dropWhile f).length ≤ l.length :=
  (List.dropWhile_sublist f).length_le

theorem length_dropWhile_lt {α : Type} (f : α → Bool) (a : α) (l : List α) (h : f a = true) :
    ((a :: l).dropWhile f).length < (a :: l).length := by
  have := length_dropWhile_le f l
  simp [h]
  omega

theorem rest_lt_of_number (start : Position) (c : Located Char) (cs : List (Located Char))
    (h : isDigitAt c = true) :
    (number start (c :: cs)).2.rest.length < (c :: cs).length := by
  have shorter := length_dropWhile_lt isDigitAt c cs h
  simp only [number]
  split
  · next point rest eq =>
    rw [eq, List.length_cons] at shorter
    have := length_dropWhile_le isDigitAt rest
    split
    · split
      · simp only
        omega
      · simp only [emit]
        omega
    · simpa only [emit, List.length_cons] using shorter
  · simp [emit]

theorem rest_lt_of_token {p : Position} {cs : List (Located Char)} {t : Located Token}
    (h : (token p cs).1 = .token t) : (token p cs).2.rest.length < cs.length := by
  match cs with
  | [] => simp [token] at h
  | c :: rest =>
    unfold token at h ⊢
    by_cases letter : c.value.isAlpha = true
    · have alnum : isAlphanumAt c = true := by simp [isAlphanumAt, Char.isAlphanum, letter]
      simpa [letter, word, emit] using length_dropWhile_lt isAlphanumAt c rest alnum
    · by_cases digit : c.value.isDigit = true
      · simpa [letter, digit] using rest_lt_of_number c.position c rest digit
      · cases mark : Mark.ofChar? c.value with
        | none => simp [letter, digit, mark] at h
        | some m => simp [letter, digit, mark, emit]

/-- A call that yields a token consumes at least one character. -/
theorem rest_lt_of_next {s s' : Scanner} {t : Located Token}
    (h : s.next = (.token t, s')) : s'.rest.length < s.rest.length := by
  unfold next at h
  split at h
  · simp at h
  · split at h
    · next p rest gap =>
      have le := length_skipGap_le s.comment s.position s.rest
      rw [gap] at le
      have lt := rest_lt_of_token (congrArg Prod.fst h)
      rw [h] at lt
      exact Nat.lt_of_lt_of_le lt le
    · simp at h

end Scanner

/-- All that a scanner yields up to the end of the text or the first error. -/
inductive TokenStream where
  | token (t : Located Token) (rest : TokenStream)
  /-- The text ends at this position. -/
  | done (p : Position)
  | failure (e : Located LexicalError)
deriving DecidableEq, Repr

def Scanner.stream (s : Scanner) : TokenStream :=
  match _h : s.next with
  | (.token t, s') => .token t s'.stream
  | (.failure e, _) => .failure e
  | (.done, s') => .done s'.position
termination_by s.rest.length
decreasing_by exact Scanner.rest_lt_of_next _h

/-- What the calls up to the end of the text or the first error yield, each with
the position of the scanner after it. -/
def Scanner.history (s : Scanner) : List (Scan × Position) :=
  match _h : s.next with
  | (.token t, s') => (.token t, s'.position) :: s'.history
  | (scan, s') => [(scan, s'.position)]
termination_by s.rest.length
decreasing_by exact Scanner.rest_lt_of_next _h

end BlockLang
