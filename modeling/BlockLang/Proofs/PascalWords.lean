import BlockLang.Pascal.Names
import BlockLang.Proofs.Rescanning

/-!
# The words of a Pascal text

A Pascal text is read as words: names, keywords, numbers and symbols, each as long as it can be,
with blanks between them. A word of letters is a keyword if it is reserved in any case. A text put
together from words is read as these words (`words?_of_consists`), provided that none of them runs
into the text after it.
-/

namespace BlockLang.Pascal

inductive Word where
  | name (text : String)
  | keyword (text : String)
  | integer (text : String)
  | real (text : String)
  | symbol (text : String)
deriving DecidableEq, Repr

def Word.text : Word → String
  | .name text => text
  | .keyword text => text
  | .integer text => text
  | .real text => text
  | .symbol text => text

/-! ### Reading words -/

def isNameChar (c : Char) : Bool := c.isAlphanum || c = '_'

/-- A word of letters, digits and underscores. -/
def Word.ofLetters (text : String) : Word :=
  if fold text ∈ reserved.map fold then .keyword (fold text) else .name text

def letters (cs : List Char) : Word × List Char :=
  (.ofLetters (String.ofList (cs.takeWhile isNameChar)), cs.dropWhile isNameChar)

/-- A point belongs to a number only if a digit comes after it. -/
def digits (cs : List Char) : Word × List Char :=
  let whole := cs.takeWhile Char.isDigit
  match cs.dropWhile Char.isDigit with
  | '.' :: c :: rest =>
    if c.isDigit then
      (.real (String.ofList (whole ++ '.' :: (c :: rest).takeWhile Char.isDigit)),
        (c :: rest).dropWhile Char.isDigit)
    else (.integer (String.ofList whole), '.' :: c :: rest)
  | rest => (.integer (String.ofList whole), rest)

def marks : List Char := [';', ':', ',', '[', ']', '.', '+', '-', '*', '/']

def symbol? : List Char → Option (Word × List Char)
  | ':' :: '=' :: rest => some (.symbol ":=", rest)
  | '.' :: '.' :: rest => some (.symbol "..", rest)
  | c :: rest => if c ∈ marks then some (.symbol (String.singleton c), rest) else none
  | [] => none

def nextWord? : List Char → Option (Word × List Char)
  | [] => none
  | c :: rest =>
    if c.isAlpha then some (letters (c :: rest))
    else if c.isDigit then some (digits (c :: rest))
    else symbol? (c :: rest)

/-- The words of a text of at most `steps` characters. -/
def wordsFrom? : (steps : Nat) → List Char → Option (List Word)
  | _, [] => some []
  | 0, _ :: _ => none
  | steps + 1, c :: rest =>
    if isBlank c then wordsFrom? steps rest
    else (nextWord? (c :: rest)).bind fun next => (wordsFrom? steps next.2).map (next.1 :: ·)

def words? (text : String) : Option (List Word) := wordsFrom? text.toList.length text.toList

/-! ### Words one by one -/

/-- A letter, then letters, digits and underscores. -/
def IsName (cs : List Char) : Prop :=
  ∃ c rest, cs = c :: rest ∧ c.isAlpha = true ∧ ∀ d ∈ rest, isNameChar d = true

def symbols : List String := marks.map String.singleton ++ [":=", ".."]

/-- A word that obeys the lexical rule of its kind. -/
def Word.Proper : Word → Prop
  | .name text => IsName text.toList ∧ fold text ∉ reserved.map fold
  | .keyword text => text ∈ reserved
  | .integer text => IsNumeral text.toList
  | .real text => ∃ whole fraction, text.toList = whole ++ '.' :: fraction ∧
      IsNumeral whole ∧ IsNumeral fraction
  | .symbol text => text ∈ symbols

/-- The text after a word does not go on with it. -/
def Word.EndsBefore : Word → List Char → Prop
  | .name _, cs => ∀ c ∈ cs.head?, isNameChar c = false
  | .keyword _, cs => ∀ c ∈ cs.head?, isNameChar c = false
  | .integer _, cs => (∀ c ∈ cs.head?, c.isDigit = false) ∧
      ∀ c rest, cs = '.' :: c :: rest → c.isDigit = false
  | .real _, cs => ∀ c ∈ cs.head?, c.isDigit = false
  | .symbol text, cs => (text = ":" → cs.head? ≠ some '=') ∧ (text = "." → cs.head? ≠ some '.')

theorem span_append {f : Char → Bool} {a b : List Char} (ha : ∀ c ∈ a, f c = true)
    (hb : ∀ c ∈ b.head?, f c = false) :
    (a ++ b).takeWhile f = a ∧ (a ++ b).dropWhile f = b := by
  rw [List.takeWhile_append_of_pos ha, List.dropWhile_append_of_pos ha]
  cases b with
  | nil => simp
  | cons c b =>
    have hc : f c = false := hb c rfl
    simp [hc]

theorem IsName.isNameChar {cs : List Char} (h : IsName cs) : ∀ c ∈ cs, isNameChar c = true := by
  obtain ⟨c, rest, rfl, hc, hrest⟩ := h
  refine List.forall_mem_cons.mpr ⟨?_, hrest⟩
  simp [Pascal.isNameChar, Char.isAlphanum, hc]

theorem nextWord?_letters {cs rest : List Char} (h : IsName cs)
    (hend : ∀ c ∈ rest.head?, isNameChar c = false) :
    nextWord? (cs ++ rest) = some (.ofLetters (String.ofList cs), rest) := by
  obtain ⟨htake, hdrop⟩ := span_append h.isNameChar hend
  obtain ⟨c, more, rfl, hc, -⟩ := h
  have hletters : nextWord? (c :: more ++ rest) = some (letters (c :: more ++ rest)) := if_pos hc
  rw [hletters, letters, htake, hdrop]

theorem nextWord?_digit {c : Char} (cs : List Char) (hc : c.isDigit = true) :
    nextWord? (c :: cs) = some (digits (c :: cs)) := by
  have hletter : ¬c.isAlpha = true := by simp [Scanner.isAlpha_eq_false_of_isDigit hc]
  exact (if_neg hletter).trans (if_pos hc)

theorem digits_integer {ds rest : List Char} (h : ∀ c ∈ ds, c.isDigit = true)
    (hend : (Word.integer (String.ofList ds)).EndsBefore rest) :
    digits (ds ++ rest) = (.integer (String.ofList ds), rest) := by
  obtain ⟨hhead, hpoint⟩ := hend
  obtain ⟨htake, hdrop⟩ := span_append h hhead
  unfold digits
  rw [htake, hdrop]
  dsimp only
  split
  · next c rest =>
    have hc : ¬c.isDigit = true := by simp [hpoint c rest rfl]
    rw [if_neg hc]
  · rfl

theorem digits_real {whole fraction rest : List Char} (hwhole : IsNumeral whole)
    (hfraction : IsNumeral fraction) (hend : ∀ c ∈ rest.head?, c.isDigit = false) :
    digits (whole ++ '.' :: fraction ++ rest) =
      (.real (String.ofList (whole ++ '.' :: fraction)), rest) := by
  obtain ⟨htake, hdrop⟩ := span_append hfraction.2 hend
  obtain ⟨hne, hall⟩ := hfraction
  obtain ⟨c, more, rfl⟩ := List.exists_cons_of_ne_nil hne
  have hpoint : ∀ d ∈ ('.' :: (c :: more ++ rest)).head?, Char.isDigit d = false := by
    intro d hd
    obtain rfl := Option.some.inj hd
    decide
  obtain ⟨htake', hdrop'⟩ := span_append hwhole.2 hpoint
  unfold digits
  rw [List.append_assoc, List.cons_append, htake', hdrop']
  have hc : c.isDigit = true := hall c (List.mem_cons_self ..)
  show (if c.isDigit = true then _ else _) = _
  rw [if_pos hc]
  show (Word.real (String.ofList (whole ++ '.' :: (c :: more ++ rest).takeWhile Char.isDigit)),
    (c :: more ++ rest).dropWhile Char.isDigit) = _
  rw [htake, hdrop]

theorem symbol?_mark {c : Char} {rest : List Char} (hc : c ∈ marks)
    (hcolon : c = ':' → rest.head? ≠ some '=') (hpoint : c = '.' → rest.head? ≠ some '.') :
    symbol? (c :: rest) = some (.symbol (String.singleton c), rest) := by
  unfold symbol?
  split
  · next h =>
    obtain ⟨rfl, rfl⟩ := List.cons_eq_cons.mp h
    exact absurd rfl (hcolon rfl)
  · next h =>
    obtain ⟨rfl, rfl⟩ := List.cons_eq_cons.mp h
    exact absurd rfl (hpoint rfl)
  · next h =>
    obtain ⟨rfl, rfl⟩ := List.cons_eq_cons.mp h
    exact if_pos hc
  · next h => cases h

theorem nextWord?_symbol {text : String} {rest : List Char} (h : text ∈ symbols)
    (hend : (Word.symbol text).EndsBefore rest) :
    nextWord? (text.toList ++ rest) = some (.symbol text, rest) := by
  obtain ⟨hcolon, hpoint⟩ := hend
  rcases List.mem_append.mp h with hmark | hpair
  · obtain ⟨c, hc, rfl⟩ := List.mem_map.mp hmark
    have hall : marks.all (fun c => !c.isAlpha && !c.isDigit) = true := by decide
    have hother : c.isAlpha = false ∧ c.isDigit = false := by
      simpa using List.all_eq_true.mp hall c hc
    have hnext : nextWord? (c :: rest) = symbol? (c :: rest) := by
      simp [nextWord?, hother]
    rw [String.toList_singleton]
    refine hnext.trans (symbol?_mark hc ?_ ?_)
    · rintro rfl
      exact hcolon rfl
    · rintro rfl
      exact hpoint rfl
  · rcases List.mem_cons.mp hpair with rfl | hpair
    · rfl
    · obtain rfl := List.mem_singleton.mp hpair
      rfl

theorem ofLetters_keyword {text : String} (h : text ∈ reserved) :
    IsName text.toList ∧ Word.ofLetters text = .keyword text := by
  have hall : ∀ word ∈ reserved, word.toList.head?.any Char.isAlpha ∧
      word.toList.tail.all isNameChar ∧ fold word = word := by decide +kernel
  obtain ⟨hhead, htail, hfold⟩ := hall text h
  constructor
  · cases htext : text.toList with
    | nil => simp [htext] at hhead
    | cons c rest =>
      rw [htext] at hhead htail
      exact ⟨c, rest, rfl, by simpa using hhead, List.all_eq_true.mp htail⟩
  · have hmem : fold text ∈ reserved.map fold := List.mem_map_of_mem h
    rw [Word.ofLetters, if_pos hmem, hfold]

theorem nextWord?_of_proper {w : Word} {rest : List Char} (hw : w.Proper)
    (hend : w.EndsBefore rest) : nextWord? (w.text.toList ++ rest) = some (w, rest) := by
  cases w with
  | name text =>
    obtain ⟨hname, hfree⟩ := hw
    rw [Word.text, nextWord?_letters hname hend, String.ofList_toList, Word.ofLetters, if_neg hfree]
  | keyword text =>
    obtain ⟨hname, hword⟩ := ofLetters_keyword hw
    rw [Word.text, nextWord?_letters hname hend, String.ofList_toList, hword]
  | integer text =>
    obtain ⟨hne, hall⟩ := hw
    have hdigits := digits_integer hall hend
    rw [String.ofList_toList] at hdigits
    obtain ⟨c, more, htext⟩ := List.exists_cons_of_ne_nil hne
    rw [Word.text, ← hdigits, htext]
    exact nextWord?_digit _ (hall c (by simp [htext]))
  | real text =>
    obtain ⟨whole, fraction, htext, hwhole, hfraction⟩ := hw
    have hdigits := digits_real hwhole hfraction hend
    rw [← htext, String.ofList_toList] at hdigits
    obtain ⟨c, more, hmore⟩ := List.exists_cons_of_ne_nil hwhole.1
    rw [Word.text, ← hdigits, htext, hmore]
    exact nextWord?_digit _ (hwhole.2 c (by simp [hmore]))
  | symbol text => exact nextWord?_symbol hw hend

/-! ### Texts put together from words -/

/-- The text consists of these words with blanks between them. A proper word is read as a whole
where it stands. -/
inductive Consists : List Char → List Word → Prop
  | nil : Consists [] []
  | blank {c : Char} {cs : List Char} {ws : List Word} (hc : isBlank c = true)
      (h : Consists cs ws) : Consists (c :: cs) ws
  | word {w : Word} {cs : List Char} {ws : List Word} (hend : w.Proper → w.EndsBefore cs)
      (h : Consists cs ws) : Consists (w.text.toList ++ cs) (w :: ws)

theorem Word.Proper.exists_lead {w : Word} (h : w.Proper) :
    ∃ c rest, w.text.toList = c :: rest ∧ isBlank c = false := by
  have hkind : ∀ c : Char, c.isAlphanum = true → isBlank c = false := by
    intro c hc
    rw [Bool.eq_false_iff]
    intro hblank
    simp only [isBlank, Bool.or_eq_true, decide_eq_true_eq] at hblank
    rcases hblank with ((rfl | rfl) | rfl) | rfl <;> exact absurd hc (by decide)
  have hname : ∀ text : String, IsName text.toList → ∃ c rest, text.toList = c :: rest ∧
      isBlank c = false := by
    rintro text ⟨c, rest, htext, hc, -⟩
    exact ⟨c, rest, htext, hkind c (by simp [Char.isAlphanum, hc])⟩
  have hnumeral : ∀ (cs more : List Char), IsNumeral cs → ∃ c rest, cs ++ more = c :: rest ∧
      isBlank c = false := by
    rintro cs more ⟨hne, hall⟩
    obtain ⟨c, rest, rfl⟩ := List.exists_cons_of_ne_nil hne
    exact ⟨c, rest ++ more, rfl, hkind c (by simp [Char.isAlphanum, hall c])⟩
  cases w with
  | name text => exact hname text h.1
  | keyword text => exact hname text (ofLetters_keyword h).1
  | integer text =>
    have hlead := hnumeral text.toList [] h
    rwa [List.append_nil] at hlead
  | real text =>
    obtain ⟨whole, fraction, htext, hwhole, -⟩ := h
    rw [Word.text, htext]
    exact hnumeral whole _ hwhole
  | symbol text =>
    have hall : ∀ text ∈ symbols, text.toList.head?.any (fun c => !isBlank c) := by decide +kernel
    have hlead := hall text h
    cases htext : text.toList with
    | nil => simp [htext] at hlead
    | cons c rest =>
      rw [htext] at hlead
      exact ⟨c, rest, htext, by simpa using hlead⟩

theorem wordsFrom?_of_consists {cs : List Char} {ws : List Word} (h : Consists cs ws)
    (hproper : ∀ w ∈ ws, w.Proper) {steps : Nat} (hsteps : cs.length ≤ steps) :
    wordsFrom? steps cs = some ws := by
  induction h generalizing steps with
  | nil => cases steps <;> rfl
  | blank hc h ih =>
    cases steps with
    | zero => cases hsteps
    | succ steps =>
      rw [wordsFrom?, if_pos hc]
      exact ih hproper (Nat.le_of_succ_le_succ hsteps)
  | @word w cs ws hend h ih =>
    obtain ⟨hw, hws⟩ := List.forall_mem_cons.mp hproper
    have hnext := nextWord?_of_proper hw (hend hw)
    obtain ⟨c, rest, htext, hc⟩ := hw.exists_lead
    rw [htext, List.cons_append] at hnext hsteps ⊢
    cases steps with
    | zero => cases hsteps
    | succ steps =>
      have hlength : cs.length ≤ steps := by
        rw [List.length_cons, List.length_append] at hsteps
        omega
      have hblank : ¬isBlank c = true := by simp [hc]
      rw [wordsFrom?, if_neg hblank, hnext, Option.bind_some, ih hws hlength]
      rfl

theorem words?_of_consists {text : String} {ws : List Word} (h : Consists text.toList ws)
    (hproper : ∀ w ∈ ws, w.Proper) : words? text = some ws :=
  wordsFrom?_of_consists h hproper (Nat.le_refl _)

end BlockLang.Pascal
