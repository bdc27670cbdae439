import BlockLang.Proofs.Stepping
import BlockLang.Proofs.Spelling

/-!
# Scanning a text of tokens

A text that consists of tokens with blanks between them is scanned into these tokens
(`exists_stream_of_spaced`), provided that no token runs into the text after it. The scanner takes
the longest token where it stands, hence the proviso: a word must not be followed by a letter or
digit, nor a number by a digit or point, nor a slash by a star.
-/

namespace BlockLang

/-! ### Located characters -/

namespace Position

/-- The position after a text. -/
def past (p : Position) (cs : List Char) : Position := cs.foldl after p

theorem past_append (p : Position) (a b : List Char) : p.past (a ++ b) = (p.past a).past b :=
  List.foldl_append

theorem locate_append (p : Position) (a b : List Char) :
    p.locate (a ++ b) = p.locate a ++ (p.past a).locate b := by
  induction a generalizing p with
  | nil => rfl
  | cons c a ih => exact congrArg (⟨p, c⟩ :: ·) (ih (p.after c))

theorem mem_of_mem_locate {p : Position} {cs : List Char} {c : Located Char}
    (h : c ∈ p.locate cs) : c.value ∈ cs := by
  rw [← plainChars_locate p cs]
  exact List.mem_map_of_mem h

/-- The longest run of characters of one kind, where it ends before `b`. -/
theorem span_locate {f : Char → Bool} {a b : List Char} (p : Position)
    (ha : ∀ c ∈ a, f c = true) (hb : ∀ c ∈ b.head?, f c = false) :
    (p.locate (a ++ b)).takeWhile (fun c => f c.value) = p.locate a ∧
      (p.locate (a ++ b)).dropWhile (fun c => f c.value) = (p.past a).locate b := by
  have hall : ∀ c ∈ p.locate a, f c.value = true := fun c hc => ha _ (mem_of_mem_locate hc)
  rw [locate_append, List.takeWhile_append_of_pos hall, List.dropWhile_append_of_pos hall]
  cases b with
  | nil => simp [locate]
  | cons c b =>
    have hc : f c = false := hb c rfl
    simp [locate, hc]

end Position

theorem positionAfter_locate (p : Position) (cs : List Char) :
    positionAfter p (p.locate cs) = p.past cs := by
  induction cs generalizing p with
  | nil => rfl
  | cons c cs ih => exact ih (p.after c)

namespace Scanner

/-- A scanner before a text, outside comments. -/
def standing (p : Position) (cs : List Char) : Scanner := ⟨p.locate cs, p, .outside, none⟩

theorem ofText_eq_standing (source : String) : ofText source = standing .start source.toList := rfl

/-! ### One call -/

theorem emit_locate (p : Position) (t : Token) (a b : List Char) :
    emit p t (p.locate a) ((p.past a).locate b) = (.token ⟨p, t⟩, standing (p.past a) b) := by
  rw [emit, positionAfter_locate]
  rfl

theorem next_blank (p : Position) {c : Char} (cs : List Char) (h : isBlank c = true) :
    (standing p (c :: cs)).next = (standing (p.after c) cs).next := by
  have hskip : skipGap .outside p (p.locate (c :: cs)) =
      skipGap .outside (p.after c) ((p.after c).locate cs) := by
    cases cs <;> simp [Position.locate, skipGap, h, Located.following]
  rw [next, next, standing, standing, hskip]

theorem next_of_start (p : Position) {c : Char} {cs : List Char} (hblank : isBlank c = false)
    (hcomment : ¬(c = '/' ∧ cs.head? = some '*')) :
    (standing p (c :: cs)).next = token p (p.locate (c :: cs)) := by
  have hskip : skipGap .outside p (p.locate (c :: cs)) = (.outside, p, p.locate (c :: cs)) := by
    cases cs with
    | nil => simp [Position.locate, skipGap, hblank]
    | cons d cs =>
      have hpair : ¬(c = '/' ∧ d = '*') := by simpa using hcomment
      simp [Position.locate, skipGap, hblank, hpair]
  rw [next, standing, hskip]

theorem next_letterOrDigit (p : Position) {c : Char} {cs : List Char}
    (h : c.isAlphanum = true) : (standing p (c :: cs)).next = token p (p.locate (c :: cs)) := by
  refine next_of_start p ?_ ?_
  · rw [Bool.eq_false_iff]
    intro hblank
    simp only [isBlank, Bool.or_eq_true, decide_eq_true_eq] at hblank
    rcases hblank with ((rfl | rfl) | rfl) | rfl <;> exact absurd h (by decide)
  · rintro ⟨rfl, -⟩
    exact absurd h (by decide)

theorem next_word (p : Position) {w cs : List Char} (hw : IsWord w)
    (hcs : ∀ c ∈ cs.head?, c.isAlphanum = false) :
    (standing p (w ++ cs)).next =
      (.token ⟨p, .ofWord (String.ofList w)⟩, standing (p.past w) cs) := by
  have hall := hw.isAlphanum
  obtain ⟨c, rest, rfl, hc, -⟩ := hw
  have hletter := hall c (List.mem_cons_self ..)
  obtain ⟨htake, hdrop⟩ := p.span_locate hall hcs
  have htoken : token p (p.locate (c :: rest ++ cs)) = word p (p.locate (c :: rest ++ cs)) :=
    if_pos hc
  have htake : (p.locate (c :: rest ++ cs)).takeWhile isAlphanumAt = p.locate (c :: rest) := htake
  have hdrop : (p.locate (c :: rest ++ cs)).dropWhile isAlphanumAt =
      (p.past (c :: rest)).locate cs := hdrop
  rw [List.cons_append, next_letterOrDigit p hletter, ← List.cons_append, htoken, word, htake,
    hdrop, lexemeOf, plainChars_locate, emit_locate]

theorem isAlpha_eq_false_of_isDigit {c : Char} (h : c.isDigit = true) : c.isAlpha = false := by
  have hle : c.val ≤ '9'.val := of_decide_eq_true (Bool.and_eq_true_iff.mp h).2
  have hupper : c.isUpper = false := decide_eq_false fun hcase =>
    absurd (UInt32.le_trans hcase.1 hle) (by decide)
  have hlower : c.isLower = false := Bool.and_eq_false_iff.mpr <| .inl <| decide_eq_false fun hge =>
    absurd (UInt32.le_trans hge hle) (by decide)
  exact Bool.or_eq_false_iff.mpr ⟨hupper, hlower⟩

theorem next_digit (p : Position) {c : Char} (cs : List Char) (h : c.isDigit = true) :
    (standing p (c :: cs)).next = number p (p.locate (c :: cs)) := by
  have hdigit : c.isAlphanum = true := by simp [Char.isAlphanum, h]
  have hletter : ¬c.isAlpha = true := by simp [isAlpha_eq_false_of_isDigit h]
  rw [next_letterOrDigit p hdigit]
  exact (if_neg hletter).trans (if_pos h)

theorem next_integer (p : Position) {ds cs : List Char} (hds : IsNumeral ds)
    (hcs : ∀ c ∈ cs.head?, c.isDigit = false ∧ c ≠ '.') :
    (standing p (ds ++ cs)).next =
      (.token ⟨p, .integer (String.ofList ds)⟩, standing (p.past ds) cs) := by
  obtain ⟨hne, hall⟩ := hds
  obtain ⟨c, rest, rfl⟩ := List.exists_cons_of_ne_nil hne
  obtain ⟨htake, hdrop⟩ := p.span_locate hall (fun c hc => (hcs c hc).1)
  have htake : (p.locate (c :: rest ++ cs)).takeWhile isDigitAt = p.locate (c :: rest) := htake
  have hdrop : (p.locate (c :: rest ++ cs)).dropWhile isDigitAt =
      (p.past (c :: rest)).locate cs := hdrop
  rw [List.cons_append, next_digit p _ (hall c (List.mem_cons_self ..)), ← List.cons_append, number,
    htake, hdrop, lexemeOf, plainChars_locate]
  cases cs with
  | nil =>
    simp only [Position.locate]
    exact emit_locate p _ (c :: rest) []
  | cons d cs =>
    have hpoint : d ≠ '.' := (hcs d rfl).2
    simp only [Position.locate, if_neg hpoint]
    exact emit_locate p _ _ (d :: cs)

theorem next_real (p : Position) {ds fs cs : List Char} (hds : IsNumeral ds) (hfs : IsNumeral fs)
    (hcs : ∀ c ∈ cs.head?, c.isDigit = false) :
    (standing p (ds ++ '.' :: fs ++ cs)).next =
      (.token ⟨p, .real (String.ofList (ds ++ '.' :: fs))⟩,
        standing (p.past (ds ++ '.' :: fs)) cs) := by
  obtain ⟨hne, hall⟩ := hds
  obtain ⟨c, rest, rfl⟩ := List.exists_cons_of_ne_nil hne
  have hassoc : c :: rest ++ '.' :: fs ++ cs = c :: rest ++ '.' :: (fs ++ cs) := by simp
  have hstart := next_digit p (rest ++ '.' :: (fs ++ cs)) (hall c (List.mem_cons_self ..))
  have hpoint : ∀ d ∈ ('.' :: (fs ++ cs)).head?, d.isDigit = false := by
    simp only [List.head?_cons, Option.mem_def, Option.some.injEq]
    rintro d rfl
    decide
  obtain ⟨htake, hdrop⟩ := p.span_locate hall hpoint
  have htake : (p.locate (c :: rest ++ '.' :: (fs ++ cs))).takeWhile isDigitAt =
      p.locate (c :: rest) := htake
  have hdrop : (p.locate (c :: rest ++ '.' :: (fs ++ cs))).dropWhile isDigitAt =
      (p.past (c :: rest)).locate ('.' :: (fs ++ cs)) := hdrop
  obtain ⟨htake', hdrop'⟩ := ((p.past (c :: rest)).after '.').span_locate hfs.2 hcs
  have htake' : (((p.past (c :: rest)).after '.').locate (fs ++ cs)).takeWhile isDigitAt =
      ((p.past (c :: rest)).after '.').locate fs := htake'
  have hdrop' : (((p.past (c :: rest)).after '.').locate (fs ++ cs)).dropWhile isDigitAt =
      (((p.past (c :: rest)).after '.').past fs).locate cs := hdrop'
  have hfraction : ((p.past (c :: rest)).after '.').locate fs ≠ [] := by
    intro hnil
    have hplain := plainChars_locate ((p.past (c :: rest)).after '.') fs
    rw [hnil] at hplain
    exact hfs.1 hplain.symm
  have hlexeme : p.locate (c :: rest) ++ ⟨p.past (c :: rest), '.'⟩ ::
      ((p.past (c :: rest)).after '.').locate fs = p.locate (c :: rest ++ '.' :: fs) := by
    rw [Position.locate_append]
    rfl
  have hpast : ((p.past (c :: rest)).after '.').past fs = p.past (c :: rest ++ '.' :: fs) := by
    simp [Position.past]
  rw [hassoc, List.cons_append, hstart, ← List.cons_append, number, htake, hdrop]
  simp only [Position.locate, if_pos, htake', hdrop', if_neg hfraction]
  rw [← Position.locate, hlexeme, lexemeOf, plainChars_locate, hpast, emit_locate]

theorem next_mark (p : Position) (m : Mark) {cs : List Char}
    (hcs : m = .slash → cs.head? ≠ some '*') :
    (standing p (m.char :: cs)).next = (.token ⟨p, .mark m⟩, standing (p.after m.char) cs) := by
  have hblank : isBlank m.char = false := by
    cases m <;> decide
  have hletter : ¬m.char.isAlpha = true := by
    cases m <;> decide
  have hdigit : ¬m.char.isDigit = true := by
    cases m <;> decide
  have hcomment : ¬(m.char = '/' ∧ cs.head? = some '*') := by
    rintro ⟨hslash, hstar⟩
    have hmark : m = .slash := by
      cases m <;> first | rfl | exact absurd hslash (by decide)
    exact hcs hmark hstar
  rw [next_of_start p hblank hcomment, Position.locate, token, if_neg hletter, if_neg hdigit,
    Mark.ofChar?_char]
  exact emit_locate p (.mark m) [m.char] cs

/-! ### All calls -/

/-- What the calls from this one on yield. -/
def streamFrom : Scan × Scanner → TokenStream
  | (.token t, s) => .token t s.stream
  | (.failure e, _) => .failure e
  | (.done, s) => .done s.position

theorem stream_eq (s : Scanner) : s.stream = streamFrom s.next := by
  rw [stream]
  split
  · next hnext => rw [hnext, streamFrom]
  · next hnext => rw [hnext, streamFrom]
  · next hnext => rw [hnext, streamFrom]

end Scanner

/-- Nothing at the head of the text continues the token. -/
def Token.EndsBefore : Token → List Char → Prop
  | .name _, cs => ∀ c ∈ cs.head?, c.isAlphanum = false
  | .keyword _, cs => ∀ c ∈ cs.head?, c.isAlphanum = false
  | .integer _, cs => ∀ c ∈ cs.head?, c.isDigit = false ∧ c ≠ '.'
  | .real _, cs => ∀ c ∈ cs.head?, c.isDigit = false
  | .mark m, cs => m = .slash → cs.head? ≠ some '*'
  | .endOfText, _ => True

/-- The text begins with a character that continues no token. -/
def Delimited (cs : List Char) : Prop :=
  ∃ c rest, cs = c :: rest ∧ c.isAlphanum = false ∧ c ≠ '.' ∧ c ≠ '*'

theorem Delimited.append {cs : List Char} (h : Delimited cs) (rest : List Char) :
    Delimited (cs ++ rest) := by
  obtain ⟨c, cs', rfl, hc⟩ := h
  exact ⟨c, cs' ++ rest, rfl, hc⟩

theorem Delimited.endsBefore {cs : List Char} (h : Delimited cs) (t : Token) :
    t.EndsBefore cs := by
  obtain ⟨c, rest, rfl, halnum, hpoint, hstar⟩ := h
  have hdigit : c.isDigit = false := by
    simp only [Char.isAlphanum, Bool.or_eq_false_iff] at halnum
    exact halnum.2
  cases t <;> simp [Token.EndsBefore, halnum, hdigit, hpoint, hstar]

/-- The call before a token yields it, and leaves the scanner behind it. -/
theorem Scanner.next_token (p : Position) {t : Token} {cs : List Char} (ht : t.WellSpelled)
    (hcs : t.EndsBefore cs) :
    (standing p (t.lexeme.toList ++ cs)).next =
      (.token ⟨p, t⟩, standing (p.past t.lexeme.toList) cs) := by
  cases t with
  | name text =>
    have hnext := next_word p ht.1 hcs
    have hword : Token.ofWord (String.ofList text.toList) = .name text := by
      rw [String.ofList_toList, Token.ofWord, ht.2]
    rwa [hword] at hnext
  | keyword k =>
    have hnext := next_word p (isWord_lexeme k) hcs
    have hword : Token.ofWord (String.ofList k.lexeme.toList) = .keyword k := by
      rw [String.ofList_toList, Token.ofWord, Keyword.ofLexeme?_lexeme]
    rwa [hword] at hnext
  | integer lexeme =>
    have hnext := next_integer p ht hcs
    rwa [String.ofList_toList] at hnext
  | real lexeme =>
    obtain ⟨whole, fraction, heq, hwhole, hfraction⟩ := ht
    have hnext := next_real p hwhole hfraction hcs
    rwa [← heq, String.ofList_toList] at hnext
  | mark m =>
    have hlexeme : (Token.mark m).lexeme.toList = [m.char] := String.toList_singleton _
    rw [hlexeme]
    exact next_mark p m hcs
  | endOfText => exact absurd ht (by simp [Token.WellSpelled])

/-- A text of tokens with blanks before, between and after them. -/
inductive Spaced : List Char → List Token → Prop
  | nil : Spaced [] []
  | blank {c : Char} {cs : List Char} {ts : List Token} (hc : isBlank c = true)
      (h : Spaced cs ts) : Spaced (c :: cs) ts
  | token {t : Token} {cs : List Char} {ts : List Token} (ht : t.WellSpelled)
      (hcs : t.EndsBefore cs) (h : Spaced cs ts) : Spaced (t.lexeme.toList ++ cs) (t :: ts)

/-- What is no blank belongs to a token. -/
theorem Spaced.exists_token {cs : List Char} {ts : List Token} (h : Spaced cs ts) {c : Char}
    (hc : c ∈ cs) (hblank : isBlank c = false) :
    ∃ t ∈ ts, t.WellSpelled ∧ c ∈ t.lexeme.toList := by
  induction h with
  | nil => cases hc
  | @blank d cs ts hd h ih =>
    rcases List.mem_cons.mp hc with rfl | hc
    · rw [hd] at hblank
      cases hblank
    · exact ih hc
  | @token t cs ts ht hcs h ih =>
    rcases List.mem_append.mp hc with hlexeme | hrest
    · exact ⟨t, List.mem_cons_self .., ht, hlexeme⟩
    · obtain ⟨u, hu, hfound⟩ := ih hrest
      exact ⟨u, List.mem_cons_of_mem _ hu, hfound⟩

/-- Scanning yields the tokens of the text. -/
theorem exists_stream_of_spaced {cs : List Char} {ts : List Token} (h : Spaced cs ts)
    (p : Position) : ∃ us ending, (Scanner.standing p cs).stream = .prepend us (.done ending) ∧
      us.map Located.value = ts := by
  induction h generalizing p with
  | nil =>
    refine ⟨[], p, ?_, rfl⟩
    rw [Scanner.stream_eq]
    rfl
  | @blank c cs ts hc h ih =>
    rw [Scanner.stream_eq, Scanner.next_blank p cs hc, ← Scanner.stream_eq]
    exact ih (p.after c)
  | @token t cs ts ht hcs h ih =>
    obtain ⟨us, ending, hstream, hvalues⟩ := ih (p.past t.lexeme.toList)
    refine ⟨⟨p, t⟩ :: us, ending, ?_, ?_⟩
    · rw [Scanner.stream_eq, Scanner.next_token p ht hcs, Scanner.streamFrom, hstream]
      rfl
    · rw [List.map_cons, hvalues]

end BlockLang
