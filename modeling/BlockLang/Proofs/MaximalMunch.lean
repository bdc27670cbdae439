import BlockLang.Proofs.Gaps

/-!
# Texts as tokens and gaps

The scanner cuts a text into gaps and the lexemes of tokens, up to the end of the text or the first
error, and loses nothing of it. Each lexeme is the longest that begins where it stands. Conversely,
a text put together from tokens and gaps is scanned into these tokens, provided that a gap is not
empty where two lexemes would run into each other.
-/

namespace BlockLang

/-! ### The longest lexeme -/

/-- Digits, a point and digits. -/
def IsDecimal (cs : List Char) : Prop :=
  ∃ whole fraction, cs = whole ++ '.' :: fraction ∧ IsNumeral whole ∧ IsNumeral fraction

theorem IsWord.head {c : Char} {cs : List Char} (h : IsWord (c :: cs)) : c.isAlpha = true := by
  obtain ⟨d, rest, heq, hd, -⟩ := h
  cases heq
  exact hd

theorem IsNumeral.head {c : Char} {cs : List Char} (h : IsNumeral (c :: cs)) : c.isDigit = true :=
  h.2 c (List.mem_cons_self ..)

theorem IsDecimal.head {c : Char} {cs : List Char} (h : IsDecimal (c :: cs)) :
    c.isDigit = true := by
  obtain ⟨whole, fraction, heq, hwhole, -⟩ := h
  obtain ⟨d, whole, rfl⟩ := List.exists_cons_of_ne_nil hwhole.1
  cases heq
  exact hwhole.head

/-- No longer text than the lexeme at the head of `lexeme ++ rest` is a word or a number, and a
slash opens no comment. -/
structure Token.Longest (t : Token) (rest : List Char) : Prop where
  maximal : ∀ longer, longer <+: t.lexeme.toList ++ rest →
    t.lexeme.toList.length < longer.length →
    ¬IsWord longer ∧ ¬IsNumeral longer ∧ ¬IsDecimal longer
  slash : t = .mark .slash → rest.head? ≠ some '*'

theorem exists_of_longer {a b longer : List Char} (h : longer <+: a ++ b)
    (hlength : a.length < longer.length) : ∃ c more, longer = a ++ c :: more ∧ c :: more <+: b := by
  obtain ⟨w, hw⟩ := h
  rcases List.append_eq_append_iff.mp hw with ⟨v, hv, -⟩ | ⟨v, rfl, hv⟩
  · rw [hv, List.length_append] at hlength
    omega
  · cases v with
    | nil => simp at hlength
    | cons c more => exact ⟨c, more, rfl, w, hv.symm⟩

theorem head?_of_isPrefix {c : Char} {more cs : List Char} (h : c :: more <+: cs) :
    c ∈ cs.head? := by
  obtain ⟨w, rfl⟩ := h
  rfl

theorem digits_unique {a b x y : List Char} {c d : Char} (ha : ∀ e ∈ a, e.isDigit = true)
    (hb : ∀ e ∈ b, e.isDigit = true) (hc : c.isDigit = false) (hd : d.isDigit = false)
    (h : a ++ c :: x = b ++ d :: y) : a = b ∧ c = d ∧ x = y := by
  induction a generalizing b with
  | nil =>
    cases b with
    | nil =>
      cases h
      exact ⟨rfl, rfl, rfl⟩
    | cons e b =>
      cases h
      rw [hb c (List.mem_cons_self ..)] at hc
      cases hc
  | cons e a ih =>
    cases b with
    | nil =>
      cases h
      rw [ha d (List.mem_cons_self ..)] at hd
      cases hd
    | cons e' b =>
      obtain ⟨rfl, htail⟩ := List.cons.inj h
      obtain ⟨rfl, hrest⟩ := ih (fun z hz => ha z (List.mem_cons_of_mem _ hz))
        (fun z hz => hb z (List.mem_cons_of_mem _ hz)) htail
      exact ⟨rfl, hrest⟩

theorem isDigit_eq_false_of_isAlpha {c : Char} (hc : c.isAlpha = true) : c.isDigit = false := by
  rw [Bool.eq_false_iff]
  intro hdigit
  rw [Scanner.isAlpha_eq_false_of_isDigit hdigit] at hc
  cases hc

theorem longest_word {t : Token} (hword : IsWord t.lexeme.toList) (hmark : t ≠ .mark .slash)
    {rest : List Char} (hrest : ∀ c ∈ rest.head?, c.isAlphanum = false) : t.Longest rest := by
  refine ⟨?_, fun hslash => absurd hslash hmark⟩
  intro longer hbegins hlength
  obtain ⟨c, more, rfl, hmore⟩ := exists_of_longer hbegins hlength
  obtain ⟨d, letters, hlexeme, hd, -⟩ := hword
  have hfirst : ¬d.isDigit = true := Bool.eq_false_iff.mp (isDigit_eq_false_of_isAlpha hd)
  rw [hlexeme]
  refine ⟨?_, fun hnumeral => hfirst hnumeral.head, fun hdecimal => hfirst hdecimal.head⟩
  intro hlonger
  have hc := hlonger.isAlphanum c (by simp)
  rw [hrest c (head?_of_isPrefix hmore)] at hc
  cases hc

theorem not_isWord_of_isNumeral {ds cs : List Char} (hds : IsNumeral ds) : ¬IsWord (ds ++ cs) := by
  intro hword
  obtain ⟨d, digits, rfl⟩ := List.exists_cons_of_ne_nil hds.1
  have hdigit := hds.head
  rw [isDigit_eq_false_of_isAlpha hword.head] at hdigit
  cases hdigit

theorem not_isDigit_point : ('.' : Char).isDigit = false := by decide

theorem longest_integer {ds rest : List Char} (hds : IsNumeral ds)
    (hdigit : ∀ c ∈ rest.head?, c.isDigit = false)
    (hpoint : ∀ fraction, '.' :: fraction <+: rest → ¬IsNumeral fraction) :
    (Token.integer (String.ofList ds)).Longest rest := by
  refine ⟨?_, by simp⟩
  rw [Token.lexeme, String.toList_ofList]
  intro longer hbegins hlength
  obtain ⟨c, more, rfl, hmore⟩ := exists_of_longer hbegins hlength
  have hc := hdigit c (head?_of_isPrefix hmore)
  refine ⟨not_isWord_of_isNumeral hds, ?_, ?_⟩
  · intro hnumeral
    rw [hnumeral.2 c (by simp)] at hc
    cases hc
  · -- The digits before the point are the integer, so the point is what follows it.
    rintro ⟨whole, fraction, heq, hwhole, hfraction⟩
    obtain ⟨-, rfl, rfl⟩ := digits_unique hds.2 hwhole.2 hc not_isDigit_point heq
    exact hpoint more hmore hfraction

theorem longest_real {whole rest : List Char} (fraction : List Char) (hwhole : IsNumeral whole)
    (hdigit : ∀ c ∈ rest.head?, c.isDigit = false) :
    (Token.real (String.ofList (whole ++ '.' :: fraction))).Longest rest := by
  refine ⟨?_, by simp⟩
  rw [Token.lexeme, String.toList_ofList]
  intro longer hbegins hlength
  obtain ⟨c, more, rfl, hmore⟩ := exists_of_longer hbegins hlength
  have hc := hdigit c (head?_of_isPrefix hmore)
  rw [List.append_assoc]
  refine ⟨not_isWord_of_isNumeral hwhole, ?_, ?_⟩
  · intro hnumeral
    have hpoint := hnumeral.2 '.' (by simp)
    rw [not_isDigit_point] at hpoint
    cases hpoint
  · rintro ⟨whole', fraction', heq, hwhole', hfraction'⟩
    obtain ⟨-, -, rfl⟩ :=
      digits_unique hwhole.2 hwhole'.2 not_isDigit_point not_isDigit_point heq
    rw [hfraction'.2 c (by simp)] at hc
    cases hc

theorem longest_mark (m : Mark) {rest : List Char} (hrest : m = .slash → rest.head? ≠ some '*') :
    (Token.mark m).Longest rest := by
  refine ⟨?_, fun hslash => hrest (Token.mark.inj hslash)⟩
  intro longer hbegins hlength
  obtain ⟨c, more, rfl, -⟩ := exists_of_longer hbegins hlength
  have hletter : ¬m.char.isAlpha = true := by
    cases m <;> decide
  have hdigit : ¬m.char.isDigit = true := by
    cases m <;> decide
  rw [Token.lexeme, String.toList_singleton]
  exact ⟨fun hword => hletter hword.head, fun hnumeral => hdigit hnumeral.head,
    fun hdecimal => hdigit hdecimal.head⟩

theorem longest_of_endsBefore {t : Token} {rest : List Char} (ht : t.WellSpelled)
    (hrest : t.EndsBefore rest) : t.Longest rest := by
  cases t with
  | name text => exact longest_word (t := .name text) ht.1 (by simp) hrest
  | keyword k => exact longest_word (t := .keyword k) (isWord_lexeme k) (by simp) hrest
  | integer lexeme =>
    have hlongest := longest_integer ht (fun c hc => (hrest c hc).1) ?_
    · rwa [String.ofList_toList] at hlongest
    · intro fraction hbegins
      exact absurd rfl (hrest '.' (head?_of_isPrefix hbegins)).2
  | real lexeme =>
    obtain ⟨whole, fraction, heq, hwhole, -⟩ := ht
    have hlongest := longest_real fraction hwhole hrest
    rwa [← heq, String.ofList_toList] at hlongest
  | mark m => exact longest_mark m hrest
  | endOfText => exact absurd ht (by simp [Token.WellSpelled])

/-- A point after an integer is left to the next call where no digit follows it. -/
theorem longest_pointed {ds rest : List Char} (hds : IsNumeral ds)
    (hrest : ∀ c ∈ rest.head?, c.isDigit = false) :
    (Token.integer (String.ofList ds)).Longest ('.' :: rest) := by
  refine longest_integer hds ?_ ?_
  · rintro c ⟨⟩
    decide
  · intro fraction hbegins hfraction
    obtain ⟨c, digits, rfl⟩ := List.exists_cons_of_ne_nil hfraction.1
    have hc := hrest c (head?_of_isPrefix (List.cons_prefix_cons.mp hbegins).2)
    rw [hfraction.head] at hc
    cases hc

/-! ### The first character of a lexeme -/

/-- What the first character of a lexeme is. -/
def Token.Leads (c : Char) : Token → Prop
  | .name _ => c.isAlpha = true
  | .keyword _ => c.isAlpha = true
  | .integer _ => c.isDigit = true
  | .real _ => c.isDigit = true
  | .mark m => c = m.char
  | .endOfText => False

theorem Token.exists_lead {t : Token} (ht : t.WellSpelled) :
    ∃ c more, t.lexeme.toList = c :: more ∧ t.Leads c := by
  cases t with
  | name text =>
    obtain ⟨⟨c, more, heq, hc, -⟩, -⟩ := ht
    exact ⟨c, more, heq, hc⟩
  | keyword k =>
    obtain ⟨c, more, heq, hc, -⟩ := isWord_lexeme k
    exact ⟨c, more, heq, hc⟩
  | integer lexeme =>
    have hnumeral : IsNumeral lexeme.toList := ht
    obtain ⟨c, more, heq⟩ := List.exists_cons_of_ne_nil hnumeral.1
    rw [heq] at hnumeral
    exact ⟨c, more, heq, hnumeral.head⟩
  | real lexeme =>
    obtain ⟨whole, fraction, heq, hwhole, -⟩ := ht
    obtain ⟨c, more, rfl⟩ := List.exists_cons_of_ne_nil hwhole.1
    exact ⟨c, _, heq, hwhole.head⟩
  | mark m => exact ⟨m.char, [], String.toList_singleton _, rfl⟩
  | endOfText => exact absurd ht (by simp [Token.WellSpelled])

/-! ### Pieces of a text -/

/-- A token and the gap before it. -/
structure Piece where
  gap : List Char
  token : Token

def Piece.text (x : Piece) : List Char := x.gap ++ x.token.lexeme.toList

def textOf (xs : List Piece) : List Char := xs.flatMap Piece.text

@[simp] theorem textOf_nil : textOf [] = [] := rfl

@[simp] theorem textOf_cons (x : Piece) (xs : List Piece) :
    textOf (x :: xs) = x.text ++ textOf xs :=
  List.flatMap_cons

/-- The tokens of some pieces, each at the position of its first character, where the text of the
pieces begins at `p`. -/
def tokensOf (p : Position) : List Piece → List (Located Token)
  | [] => []
  | x :: xs => ⟨p.past x.gap, x.token⟩ :: tokensOf (p.past x.text) xs

/-- Every piece is a gap and the longest lexeme after it, where `rest` follows the pieces. -/
def Munched : List Piece → List Char → Prop
  | [], _ => True
  | x :: xs, rest => (IsGap x.gap ∧ x.token.WellSpelled ∧ x.token.Longest (textOf xs ++ rest)) ∧
      Munched xs rest

/-- Why scanning ends before `rest`, which begins at `p`. -/
def TokenStream.EndsBefore (p : Position) (rest : List Char) : TokenStream → Prop
  | .token _ _ => False
  | .done _ => rest = []
  | .failure ⟨q, .badChar c⟩ => q = p ∧ BeginsNothing c ∧ ∃ more, rest = c :: more
  | .failure ⟨_, .unexpectedEnd⟩ => ∃ body, rest = '/' :: '*' :: body ∧ Unclosed body

/-- A stream is the tokens of some pieces of a text, and there is a reason for it to end after them
and the gap `last`. -/
structure Cuts (p : Position) (cs : List Char) (stream : TokenStream) (pieces : List Piece)
    (last rest : List Char) (tail : TokenStream) : Prop where
  text : cs = textOf pieces ++ (last ++ rest)
  tokens : stream = .prepend (tokensOf p pieces) tail
  munched : Munched pieces (last ++ rest)
  gap : IsGap last
  ends : tail.EndsBefore (p.past (textOf pieces ++ last)) rest

theorem Cuts.cons {p : Position} {cs : List Char} {stream : TokenStream} {pieces : List Piece}
    {last rest : List Char} {tail : TokenStream} {x : Piece}
    (h : Cuts (p.past x.text) cs stream pieces last rest tail) (hgap : IsGap x.gap)
    (hspelled : x.token.WellSpelled) (hlongest : x.token.Longest cs) :
    Cuts p (x.text ++ cs) (.token ⟨p.past x.gap, x.token⟩ stream) (x :: pieces) last rest tail := by
  obtain ⟨rfl, rfl, hmunched, hlast, hends⟩ := h
  refine ⟨?_, rfl, ⟨⟨hgap, hspelled, hlongest⟩, hmunched⟩, hlast, ?_⟩
  · rw [textOf_cons, List.append_assoc]
  · rw [textOf_cons, List.append_assoc, Position.past_append]
    exact hends

theorem exists_cuts (p : Position) (cs : List Char) :
    ∃ pieces last rest tail, Cuts p cs (Scanner.standing p cs).stream pieces last rest tail := by
  -- By length, because a token takes away its whole lexeme and the gap before it.
  induction hn : cs.length using Nat.strongRecOn generalizing p cs with
  | _ n ih =>
    subst hn
    have hyields := Scanner.yields_next p cs
    rw [Scanner.stream_eq]
    generalize (Scanner.standing p cs).next = call at hyields
    cases hyields with
    | done hg =>
      exact ⟨[], cs, [], .done _, (List.append_nil cs).symm, rfl, trivial, hg, rfl⟩
    | @token g rest t hg ht hrest =>
      obtain ⟨c, more, hlexeme, -⟩ := Token.exists_lead ht
      have hshorter : rest.length < (g ++ (t.lexeme.toList ++ rest)).length := by
        simp only [hlexeme, List.length_append, List.length_cons]
        omega
      obtain ⟨pieces, last, rest', tail, hcuts⟩ :=
        ih rest.length hshorter (p.past (g ++ t.lexeme.toList)) rest rfl
      rw [← List.append_assoc]
      exact ⟨⟨g, t⟩ :: pieces, last, rest', tail,
        hcuts.cons (x := ⟨g, t⟩) hg ht (longest_of_endsBefore ht hrest)⟩
    | @pointed g ds rest hg hds hrest =>
      have hpoint : BeginsNothing '.' :=
        ⟨by decide, by decide, by intro m; cases m <;> decide⟩
      have hcuts : Cuts (p.past (g ++ ds)) ('.' :: rest)
          (.failure ⟨p.past (g ++ ds), .badChar '.'⟩) [] [] ('.' :: rest) _ :=
        ⟨rfl, rfl, trivial, .nil, rfl, hpoint, rest, rfl⟩
      have htext : Piece.text ⟨g, .integer (String.ofList ds)⟩ = g ++ ds := by
        rw [Piece.text, Token.lexeme, String.toList_ofList]
      have hspelled : (Token.integer (String.ofList ds)).WellSpelled := by
        rwa [Token.WellSpelled, String.toList_ofList]
      rw [← List.append_assoc, Scanner.streamFrom, Scanner.stream_refusing, ← htext]
      rw [← htext] at hcuts
      exact ⟨_, _, _, _, hcuts.cons hg hspelled (longest_pointed hds hrest)⟩
    | @badChar g rest c hg hc =>
      exact ⟨[], g, c :: rest, .failure _, rfl, rfl, trivial, hg, rfl, hc, rest, rfl⟩
    | @unclosed g body hg hbody state =>
      exact ⟨[], g, '/' :: '*' :: body, .failure _, rfl, rfl, trivial, hg, body, rfl, hbody⟩

/-! ### Where a token stands -/

/-- At position `p` of the source stands `text`, which is followed by `rest`. -/
def StandsAt (source : String) (p : Position) (text rest : List Char) : Prop :=
  ∃ before c after, locatedChars source = before ++ ⟨p, c⟩ :: after ∧
    c :: plainChars after = text ++ rest

theorem standsAt_of_split {source : String} {a text rest : List Char}
    (h : source.toList = a ++ (text ++ rest)) (htext : text ≠ []) :
    StandsAt source (Position.start.past a) text rest := by
  obtain ⟨c, more, rfl⟩ := List.exists_cons_of_ne_nil htext
  refine ⟨Position.start.locate a, c,
    ((Position.start.past a).after c).locate (more ++ rest), ?_, ?_⟩
  · rw [locatedChars, h, Position.locate_append]
    rfl
  · rw [plainChars_locate]
    rfl

theorem exists_piece_of_mem {p : Position} {pieces : List Piece} {t : Located Token}
    (h : t ∈ tokensOf p pieces) :
    ∃ xs x ys, pieces = xs ++ x :: ys ∧ t = ⟨p.past (textOf xs ++ x.gap), x.token⟩ := by
  induction pieces generalizing p with
  | nil => cases h
  | cons x pieces ih =>
    rcases List.mem_cons.mp h with rfl | h
    · exact ⟨[], x, pieces, rfl, rfl⟩
    · obtain ⟨xs, y, ys, rfl, rfl⟩ := ih h
      refine ⟨x :: xs, y, ys, rfl, ?_⟩
      rw [textOf_cons, List.append_assoc, p.past_append]

theorem textOf_append (xs ys : List Piece) : textOf (xs ++ ys) = textOf xs ++ textOf ys :=
  List.flatMap_append

theorem Munched.piece {xs ys : List Piece} {x : Piece} {rest : List Char}
    (h : Munched (xs ++ x :: ys) rest) :
    x.token.WellSpelled ∧ x.token.Longest (textOf ys ++ rest) := by
  induction xs with
  | nil => exact h.1.2
  | cons _ xs ih => exact ih h.2

/-- Every token stands in the text where its position says. -/
theorem Munched.standsAt {source : String} {pieces : List Piece} {rest : List Char}
    (h : Munched pieces rest) (htext : source.toList = textOf pieces ++ rest) {t : Located Token}
    (ht : t ∈ tokensOf .start pieces) :
    ∃ more, StandsAt source t.position t.value.lexeme.toList more ∧ t.value.Longest more := by
  obtain ⟨xs, x, ys, rfl, rfl⟩ := exists_piece_of_mem ht
  obtain ⟨hspelled, hlongest⟩ := h.piece
  obtain ⟨c, more, hlexeme, -⟩ := Token.exists_lead hspelled
  refine ⟨textOf ys ++ rest, standsAt_of_split ?_ ?_, hlongest⟩
  · rw [htext, textOf_append, textOf_cons, Piece.text]
    simp only [List.append_assoc]
  · rw [hlexeme]
    exact List.cons_ne_nil c more

/-- Scanning loses nothing of a text. -/
theorem exists_pieces (source : String) :
    ∃ pieces last rest tail,
      (Scanner.ofText source).stream = .prepend (tokensOf .start pieces) tail ∧
      source.toList = textOf pieces ++ (last ++ rest) ∧ Munched pieces (last ++ rest) ∧
      IsGap last ∧ tail.EndsBefore (Position.start.past (textOf pieces ++ last)) rest ∧
      ∀ t ∈ tokensOf .start pieces,
        ∃ more, StandsAt source t.position t.value.lexeme.toList more := by
  obtain ⟨pieces, last, rest, tail, hcuts⟩ := exists_cuts .start source.toList
  refine ⟨pieces, last, rest, tail, hcuts.tokens, hcuts.text, hcuts.munched, hcuts.gap,
    hcuts.ends, ?_⟩
  intro t ht
  obtain ⟨more, hstands, -⟩ := hcuts.munched.standsAt hcuts.text ht
  exact ⟨more, hstands⟩

/-! ### Texts put together from tokens and gaps -/

/-- Whether two lexemes would be scanned as something else if no gap were between them. -/
def Token.runsInto : Token → Token → Bool
  | .name _, .name _ => true
  | .name _, .keyword _ => true
  | .name _, .integer _ => true
  | .name _, .real _ => true
  | .keyword _, .name _ => true
  | .keyword _, .keyword _ => true
  | .keyword _, .integer _ => true
  | .keyword _, .real _ => true
  | .integer _, .integer _ => true
  | .integer _, .real _ => true
  | .real _, .integer _ => true
  | .real _, .real _ => true
  | .mark .slash, .mark .times => true
  | _, _ => false

/-- A gap is not empty where the lexemes around it would run into each other. -/
def Separated : List Piece → Prop
  | x :: y :: rest => (x.token.runsInto y.token = true → y.gap ≠ []) ∧ Separated (y :: rest)
  | _ => True

theorem IsGap.delimited {g : List Char} (hg : IsGap g) (hne : g ≠ []) : Delimited g := by
  cases hg with
  | nil => exact absurd rfl hne
  | @blank c g hc h =>
    refine ⟨c, g, rfl, ?_⟩
    simp only [isBlank, Bool.or_eq_true, decide_eq_true_eq] at hc
    rcases hc with ((rfl | rfl) | rfl) | rfl <;> decide
  | comment hbody h => exact ⟨'/', _, rfl, by decide⟩

theorem endsBefore_nil (t : Token) : t.EndsBefore [] := by
  cases t <;> simp [Token.EndsBefore]

theorem endsBefore_mark {t : Token} {m : Mark} (hapart : t.runsInto (.mark m) = false)
    (cs : List Char) : t.EndsBefore (m.char :: cs) := by
  have halnum : m.char.isAlphanum = false := by
    cases m <;> decide
  have hdigit : m.char.isDigit = false := by
    cases m <;> decide
  have hpoint : m.char ≠ '.' := by
    cases m <;> decide
  cases t with
  | mark k =>
    rintro rfl hstar
    have hchar : m.char = Mark.times.char := Option.some.inj hstar
    have hmark := Mark.ofChar?_char m
    rw [hchar, Mark.ofChar?_char] at hmark
    cases hmark
    cases hapart
  | _ => simp [Token.EndsBefore, halnum, hdigit, hpoint]

theorem endsBefore_letter {t : Token} {c : Char} (hc : c.isAlpha = true)
    (hname : ∀ text, t ≠ .name text) (hkeyword : ∀ k, t ≠ .keyword k) (cs : List Char) :
    t.EndsBefore (c :: cs) := by
  have hdigit : c.isDigit = false := isDigit_eq_false_of_isAlpha hc
  have hpoint : c ≠ '.' := by
    rintro rfl
    cases hc
  have hstar : c ≠ '*' := by
    rintro rfl
    cases hc
  cases t with
  | name text => exact absurd rfl (hname text)
  | keyword k => exact absurd rfl (hkeyword k)
  | _ => simp [Token.EndsBefore, hdigit, hpoint, hstar]

theorem endsBefore_lead {t u : Token} {c : Char} {cs : List Char} (hapart : t.runsInto u = false)
    (hc : u.Leads c) : t.EndsBefore (c :: cs) := by
  have hstar : c.isDigit = true → c ≠ '*' := by
    rintro hdigit rfl
    cases hdigit
  cases u with
  | name text =>
    refine endsBefore_letter hc ?_ ?_ cs
    · rintro w rfl
      cases hapart
    · rintro k rfl
      cases hapart
  | keyword k =>
    refine endsBefore_letter hc ?_ ?_ cs
    · rintro w rfl
      cases hapart
    · rintro k' rfl
      cases hapart
  | integer lexeme =>
    cases t with
    | mark m => simp [Token.EndsBefore, hstar hc]
    | endOfText => trivial
    | _ => cases hapart
  | real lexeme =>
    cases t with
    | mark m => simp [Token.EndsBefore, hstar hc]
    | endOfText => trivial
    | _ => cases hapart
  | mark m =>
    cases hc
    exact endsBefore_mark hapart cs
  | endOfText => cases hc

theorem endsBefore_gap {t : Token} {g : List Char} (hg : IsGap g) : t.EndsBefore g := by
  by_cases hnil : g = []
  · rw [hnil]
    exact endsBefore_nil t
  · exact (hg.delimited hnil).endsBefore t

theorem endsBefore_piece {t : Token} {x : Piece} (hg : IsGap x.gap) (hx : x.token.WellSpelled)
    (hapart : t.runsInto x.token = true → x.gap ≠ []) (cs : List Char) :
    t.EndsBefore (x.text ++ cs) := by
  rw [Piece.text, List.append_assoc]
  by_cases hnil : x.gap = []
  · obtain ⟨c, more, hlexeme, hc⟩ := Token.exists_lead hx
    rw [hnil, hlexeme]
    exact endsBefore_lead (Bool.eq_false_iff.mpr fun h => hapart h hnil) hc
  · exact ((hg.delimited hnil).append _).endsBefore t

theorem Separated.endsBefore {x : Piece} {xs : List Piece} {last : List Char}
    (h : Separated (x :: xs)) (hxs : ∀ y ∈ xs, IsGap y.gap ∧ y.token.WellSpelled)
    (hlast : IsGap last) : x.token.EndsBefore (textOf xs ++ last) := by
  cases xs with
  | nil => exact endsBefore_gap hlast
  | cons y ys =>
    obtain ⟨hgap, hspelled⟩ := hxs y (List.mem_cons_self ..)
    rw [textOf_cons, List.append_assoc]
    exact endsBefore_piece hgap hspelled h.1 _

theorem Separated.tail {x : Piece} {xs : List Piece} (h : Separated (x :: xs)) : Separated xs := by
  cases xs with
  | nil => trivial
  | cons y ys => exact h.2

section Printing
variable {pieces : List Piece} {last : List Char} (hlast : IsGap last)
include hlast

theorem stream_textOf (h : Separated pieces)
    (hpieces : ∀ x ∈ pieces, IsGap x.gap ∧ x.token.WellSpelled) (p : Position) :
    (Scanner.standing p (textOf pieces ++ last)).stream =
      .prepend (tokensOf p pieces) (.done (p.past (textOf pieces ++ last))) := by
  induction pieces generalizing p with
  | nil =>
    have hnext := Scanner.next_gap hlast p []
    rw [List.append_nil] at hnext
    rw [textOf_nil, List.nil_append, Scanner.stream_eq, hnext]
    rfl
  | cons x xs ih =>
    obtain ⟨⟨hgap, hspelled⟩, hxs⟩ := List.forall_mem_cons.mp hpieces
    have hends := h.endsBefore hxs hlast
    have htext : textOf (x :: xs) ++ last =
        x.gap ++ (x.token.lexeme.toList ++ (textOf xs ++ last)) := by
      rw [textOf_cons, Piece.text]
      simp only [List.append_assoc]
    have hpast : p.past (textOf (x :: xs) ++ last) =
        (p.past x.text).past (textOf xs ++ last) := by
      rw [textOf_cons, List.append_assoc, p.past_append]
    rw [hpast, htext, Scanner.stream_eq, Scanner.next_gap hgap, Scanner.next_token _ hspelled hends,
      Scanner.streamFrom, ← p.past_append, ← Piece.text, ih h.tail hxs]
    rfl

theorem munched_of_separated (h : Separated pieces)
    (hpieces : ∀ x ∈ pieces, IsGap x.gap ∧ x.token.WellSpelled) : Munched pieces last := by
  induction pieces with
  | nil => trivial
  | cons x xs ih =>
    obtain ⟨⟨hgap, hspelled⟩, hxs⟩ := List.forall_mem_cons.mp hpieces
    exact ⟨⟨hgap, hspelled, longest_of_endsBefore hspelled (h.endsBefore hxs hlast)⟩, ih h.tail hxs⟩

end Printing

/-- Scanning a text put together from tokens and gaps yields these tokens, each at the position of
its first character. -/
theorem stream_of_pieces {source : String} {pieces : List Piece} {last : List Char}
    (htext : source.toList = textOf pieces ++ last)
    (hpieces : ∀ x ∈ pieces, IsGap x.gap ∧ x.token.WellSpelled) (hlast : IsGap last)
    (hseparated : Separated pieces) :
    (Scanner.ofText source).stream = .prepend (tokensOf .start pieces)
      (.done (Position.start.past source.toList)) ∧
    ∀ t ∈ tokensOf .start pieces,
      ∃ more, StandsAt source t.position t.value.lexeme.toList more := by
  constructor
  · rw [Scanner.ofText_eq_standing, htext]
    exact stream_textOf hlast hseparated hpieces .start
  · intro t ht
    obtain ⟨more, hstands, -⟩ := (munched_of_separated hlast hseparated hpieces).standsAt htext ht
    exact ⟨more, hstands⟩

/-- No gap is longer than it must be, and two of them are comments that hold a star and a slash. -/
theorem stream_of_crowded :
    (Scanner.ofText " int/***/a//*/*/*12b\n").stream =
      .prepend [⟨⟨1, 2⟩, .keyword .int⟩, ⟨⟨1, 10⟩, .name "a"⟩, ⟨⟨1, 11⟩, .mark .slash⟩,
        ⟨⟨1, 17⟩, .mark .times⟩, ⟨⟨1, 18⟩, .integer "12"⟩, ⟨⟨1, 20⟩, .name "b"⟩]
        (.done ⟨2, 1⟩) := by
  have hblank : IsGap [' '] := .blank (by decide) .nil
  have hstar : IsGap ['/', '*', '*', '*', '/'] := @IsGap.comment ['*'] [] (by decide) .nil
  have hslash : IsGap ['/', '*', '/', '*', '/'] := @IsGap.comment ['/'] [] (by decide) .nil
  have hkeyword : (Token.keyword .int).WellSpelled := trivial
  have hmark : ∀ m, (Token.mark m).WellSpelled := fun _ => trivial
  have ha : (Token.name "a").WellSpelled := ⟨⟨'a', [], rfl, by decide, by simp⟩, by decide⟩
  have hb : (Token.name "b").WellSpelled := ⟨⟨'b', [], rfl, by decide, by simp⟩, by decide⟩
  have htwelve : (Token.integer "12").WellSpelled :=
    ⟨List.cons_ne_nil '1' ['2'], List.all_eq_true.mp (by decide)⟩
  have hpieces := @stream_of_pieces " int/***/a//*/*/*12b\n"
    [⟨[' '], .keyword .int⟩, ⟨['/', '*', '*', '*', '/'], .name "a"⟩, ⟨[], .mark .slash⟩,
      ⟨['/', '*', '/', '*', '/'], .mark .times⟩, ⟨[], .integer "12"⟩, ⟨[], .name "b"⟩]
    ['\n'] (by decide +kernel)
    (by simp [hblank, hstar, hslash, IsGap.nil, hkeyword, hmark, ha, hb, htwelve])
    (.blank (by decide) .nil) (by simp [Separated, Token.runsInto])
  exact hpieces.1.trans (by decide +kernel)

end BlockLang
