import BlockLang.Proofs.PascalText

/-!
# Reading a Pascal text

The words of a text are read as a listing by descent: a heading, a `var` section, functions and
statements, each of which tells by its first word what it is. The reader has steps for as many
words as the text has. Reading the words of a listing gives the listing back (`ofWords?_words`).
-/

namespace BlockLang.Pascal

/-! ### The reader -/

/-- The words after those that have to stand first. -/
def expect? : List Word → List Word → Option (List Word)
  | [], rest => some rest
  | _ :: _, [] => none
  | w :: ws, u :: rest => if w = u then expect? ws rest else none

def tyOf? : Word → Option Ty
  | .keyword "integer" => some .int
  | .keyword "real" => some .real
  | _ => none

/-- The type that the next word names. -/
def readTy? : List Word → Option (Ty × List Word)
  | w :: rest => (tyOf? w).map (·, rest)
  | [] => none

/-- The sizes of further indices. -/
def readSizes : List Word → List String × List Word
  | .symbol "," :: .integer "1" :: .symbol ".." :: .integer size :: rest =>
    (size :: (readSizes rest).1, (readSizes rest).2)
  | rest => ([], rest)

def readType? : List Word → Option ((List String × Ty) × List Word)
  | .keyword "array" :: .symbol "[" :: .integer "1" :: .symbol ".." :: .integer size :: rest =>
    (expect? [.symbol "]", .keyword "of"] (readSizes rest).2).bind fun after =>
      (readTy? after).map fun (ty, after) => ((size :: (readSizes rest).1, ty), after)
  | rest => (readTy? rest).map fun (ty, after) => (([], ty), after)

def readEntries? : (steps : Nat) → List Word → Option (List Entry × List Word)
  | 0, _ => none
  | steps + 1, .name name :: .symbol ":" :: rest => do
    let ((sizes, ty), rest) ← readType? rest
    let rest ← expect? [.symbol ";"] rest
    let (entries, rest) ← readEntries? steps rest
    return (⟨name, sizes, ty⟩ :: entries, rest)
  | _ + 1, rest => some ([], rest)

def readSection? (steps : Nat) : List Word → Option (List Entry × List Word)
  | .keyword "var" :: rest => readEntries? steps rest
  | rest => some ([], rest)

def operatorOf? : Word → Option Operator
  | .symbol "+" => some .add
  | .symbol "-" => some .sub
  | .symbol "*" => some .mul
  | .symbol "/" => some .div
  | .keyword "div" => some .intDiv
  | _ => none

def operandOf? : Word → Option Operand
  | .integer lexeme => some (.integer lexeme)
  | .real lexeme => some (.real lexeme)
  | .name name => some (.variable name)
  | _ => none

/-- Operands, each after an operator, as many as there are. -/
def readSteps : List Word → List (Operator × Operand) × List Word
  | w :: u :: rest =>
    match operatorOf? w, operandOf? u with
    | some op, some o => ((op, o) :: (readSteps rest).1, (readSteps rest).2)
    | _, _ => ([], w :: u :: rest)
  | rest => ([], rest)

def readFormula? : List Word → Option (Formula × List Word)
  | w :: rest => (operandOf? w).map fun o =>
      ((none, o) :: (readSteps rest).1.map (fun step => (some step.1, step.2)), (readSteps rest).2)
  | [] => none

def readBody? : (steps : Nat) → List Word → Option (Body × List Word)
  | 0, _ => none
  | steps + 1, .name target :: .symbol ":=" :: rest => do
    let (value, rest) ← readFormula? rest
    let rest ← expect? [.symbol ";"] rest
    let (later, rest) ← readBody? steps rest
    return (.assign target value later, rest)
  | steps + 1, .keyword "begin" :: rest => do
    let (inner, rest) ← readBody? steps rest
    let rest ← expect? [.keyword "end", .symbol ";"] rest
    let (later, rest) ← readBody? steps rest
    return (.group inner later, rest)
  | _ + 1, rest => some (.empty, rest)

/-- The statements of a subprogram, with the words around them. -/
def readCompound? (steps : Nat) (rest : List Word) : Option (Body × List Word) := do
  let rest ← expect? [.keyword "begin"] rest
  let (body, rest) ← readBody? steps rest
  let rest ← expect? [.keyword "end"] rest
  return (body, rest)

def readRoutines? : (steps : Nat) → List Word → Option (List Routine × List Word)
  | 0, _ => none
  | steps + 1, .keyword "function" :: .name name :: .symbol ":" :: rest => do
    let (returns, rest) ← readTy? rest
    let rest ← expect? [.symbol ";"] rest
    let (entries, rest) ← readSection? steps rest
    let (body, rest) ← readCompound? steps rest
    let rest ← expect? [.symbol ";"] rest
    let (routines, rest) ← readRoutines? steps rest
    return (⟨name, returns, entries, body⟩ :: routines, rest)
  | _ + 1, rest => some ([], rest)

/-- The listing that these words are, with nothing left over. -/
def Listing.ofWords? (ws : List Word) : Option Listing := do
  let rest ← expect? [.keyword "program", .name "main", .symbol ";"] ws
  let (entries, rest) ← readSection? ws.length rest
  let (routines, rest) ← readRoutines? ws.length rest
  let (body, rest) ← readCompound? ws.length rest
  if rest = [.symbol "."] then some ⟨entries, routines, body⟩ else none

/-- The listing that a text is. -/
def Listing.read? (text : String) : Option Listing := (words? text).bind ofWords?

/-! ### Types and entries -/

@[simp] theorem expect?_nil (rest : List Word) : expect? [] rest = some rest := by
  cases rest <;> rfl

@[simp] theorem expect?_cons (w : Word) (ws rest : List Word) :
    expect? (w :: ws) (w :: rest) = expect? ws rest := if_pos rfl

@[simp] theorem readTy?_word (ty : Ty) (rest : List Word) :
    readTy? (tyWord ty :: rest) = some (ty, rest) := by
  cases ty <;> rfl

theorem readSizes_words (sizes : List String) (rest : List Word) :
    readSizes (sizes.flatMap (fun size => .symbol "," :: rangeWords size) ++
      .symbol "]" :: rest) = (sizes, .symbol "]" :: rest) := by
  induction sizes with
  | nil => rfl
  | cons size sizes ih =>
    simp only [rangeWords] at ih
    simp only [List.flatMap_cons, rangeWords, List.cons_append, List.nil_append, readSizes, ih]

theorem readType?_words (sizes : List String) (ty : Ty) (rest : List Word) :
    readType? (typeWords sizes ty ++ rest) = some ((sizes, ty), rest) := by
  cases sizes with
  | nil => cases ty <;> rfl
  | cons size sizes =>
    have hsizes := readSizes_words sizes (.keyword "of" :: tyWord ty :: rest)
    simp only [rangeWords] at hsizes
    simp only [typeWords, rangeWords, List.cons_append, List.nil_append, List.append_assoc,
      readType?, hsizes]
    simp

theorem readEntries?_words {entries : List Entry} {steps : Nat}
    (h : (entries.flatMap Entry.words).length < steps) (k : String) (rest : List Word) :
    readEntries? steps (entries.flatMap Entry.words ++ .keyword k :: rest) =
      some (entries, .keyword k :: rest) := by
  induction entries generalizing steps with
  | nil =>
    cases steps with
    | zero => cases h
    | succ steps => rfl
  | cons e entries ih =>
    cases steps with
    | zero => cases h
    | succ steps =>
      have hlater : (entries.flatMap Entry.words).length < steps := by
        simp only [List.flatMap_cons, List.length_append, Entry.words, List.length_cons] at h
        omega
      rw [List.flatMap_cons, List.append_assoc]
      simp only [Entry.words, List.cons_append, List.append_assoc, readEntries?]
      simp [readType?_words, ih hlater]

theorem readSection?_words {entries : List Entry} {steps : Nat}
    (h : (sectionWords entries).length < steps) {k : String} (hk : k ≠ "var") (rest : List Word) :
    readSection? steps (sectionWords entries ++ .keyword k :: rest) =
      some (entries, .keyword k :: rest) := by
  cases entries with
  | nil =>
    unfold readSection? sectionWords
    split
    · next heq =>
      cases heq
      exact absurd rfl hk
    · rfl
  | cons e entries =>
    rw [sectionWords, List.length_cons] at h
    exact readEntries?_words (Nat.lt_of_succ_lt h) k rest

/-! ### Statements -/

@[simp] theorem operatorOf?_signWord (op : Operator) : operatorOf? (signWord op) = some op := by
  cases op <;> rfl

@[simp] theorem operandOf?_word (o : Operand) : operandOf? o.word = some o := by
  cases o <;> rfl

theorem readSteps_words (steps : List (Operator × Operand)) (rest : List Word) :
    readSteps (steps.flatMap (fun step => [signWord step.1, step.2.word]) ++
      .symbol ";" :: rest) = (steps, .symbol ";" :: rest) := by
  induction steps with
  | nil => cases rest <;> rfl
  | cons step steps ih =>
    simp only [List.flatMap_cons, List.cons_append, List.nil_append, readSteps,
      operatorOf?_signWord, operandOf?_word, ih]

theorem readFormula?_words {value : Formula} (h : Formula.Flat value) (rest : List Word) :
    readFormula? (Formula.words value ++ .symbol ";" :: rest) =
      some (value, .symbol ";" :: rest) := by
  obtain ⟨o, steps, rfl⟩ := h
  have hsteps := readSteps_words steps rest
  rw [Formula.words, List.flatMap_cons, List.flatMap_map]
  simp only [stepWords, List.cons_append, List.nil_append, readFormula?, operandOf?_word,
    Option.map_some, hsteps]

theorem readBody?_words {b : Body} (hb : b.Flat) {steps : Nat} (h : b.words.length < steps)
    (rest : List Word) :
    readBody? steps (b.words ++ .keyword "end" :: rest) = some (b, .keyword "end" :: rest) := by
  induction b generalizing steps rest with
  | empty =>
    cases steps with
    | zero => cases h
    | succ steps => rfl
  | assign target value later ih =>
    cases steps with
    | zero => cases h
    | succ steps =>
      have hlater : later.words.length < steps := by
        simp only [Body.words, List.length_cons, List.length_append] at h
        omega
      simp only [Body.words, List.cons_append, List.append_assoc, readBody?]
      simp [readFormula?_words hb.1, ih hb.2 hlater]
  | group inner later ihInner ih =>
    cases steps with
    | zero => cases h
    | succ steps =>
      have hlengths : inner.words.length < steps ∧ later.words.length < steps := by
        simp only [Body.words, List.length_cons, List.length_append] at h
        omega
      simp only [Body.words, List.cons_append, List.append_assoc, readBody?]
      simp [ihInner hb.1 hlengths.1, ih hb.2 hlengths.2]

theorem readCompound?_words {b : Body} (hb : b.Flat) {steps : Nat} (h : b.words.length < steps)
    (rest : List Word) :
    readCompound? steps (.keyword "begin" :: (b.words ++ .keyword "end" :: rest)) =
      some (b, rest) := by
  simp [readCompound?, readBody?_words hb h]

/-! ### Subprograms -/

theorem readRoutines?_words {routines : List Routine} (hflat : ∀ r ∈ routines, r.body.Flat)
    {steps : Nat} (h : (routines.flatMap Routine.words).length < steps) (rest : List Word) :
    readRoutines? steps (routines.flatMap Routine.words ++ .keyword "begin" :: rest) =
      some (routines, .keyword "begin" :: rest) := by
  induction routines generalizing steps with
  | nil =>
    cases steps with
    | zero => cases h
    | succ steps => rfl
  | cons r routines ih =>
    cases steps with
    | zero => cases h
    | succ steps =>
      obtain ⟨hr, hlater⟩ := List.forall_mem_cons.mp hflat
      have hlengths : (sectionWords r.entries).length < steps ∧ r.body.words.length < steps ∧
          (routines.flatMap Routine.words).length < steps := by
        simp only [List.flatMap_cons, Routine.words, List.length_cons, List.length_append] at h
        omega
      obtain ⟨hsection, hbody, hroutines⟩ := hlengths
      simp only [List.flatMap_cons, Routine.words, List.cons_append, List.append_assoc,
        List.nil_append, readRoutines?]
      simp [readSection?_words hsection, readCompound?_words hr hbody, ih hlater hroutines]

theorem readSection?_routines {entries : List Entry} {steps : Nat}
    (h : (sectionWords entries).length < steps) (routines : List Routine) (rest : List Word) :
    readSection? steps
        (sectionWords entries ++ (routines.flatMap Routine.words ++ .keyword "begin" :: rest)) =
      some (entries, routines.flatMap Routine.words ++ .keyword "begin" :: rest) := by
  cases routines with
  | nil => exact readSection?_words h (by decide) rest
  | cons r routines => exact readSection?_words h (by decide) _

/-- The words of a listing are read as the listing. -/
theorem ofWords?_words {l : Listing} (h : l.Flat) : Listing.ofWords? l.words = some l := by
  have hlengths : (sectionWords l.entries).length < l.words.length ∧
      (l.routines.flatMap Routine.words).length < l.words.length ∧
      l.body.words.length < l.words.length := by
    simp only [Listing.words, List.length_cons, List.length_append]
    omega
  obtain ⟨hsection, hroutines, hbody⟩ := hlengths
  have hheading : expect? [.keyword "program", .name "main", .symbol ";"] l.words =
      some (sectionWords l.entries ++ (l.routines.flatMap Routine.words ++
        .keyword "begin" :: (l.body.words ++ [.keyword "end", .symbol "."]))) := by
    simp [Listing.words]
  rw [Listing.ofWords?, hheading]
  simp [readSection?_routines hsection, readRoutines?_words h.routines hroutines,
    readCompound?_words h.body hbody]

theorem read?_text {l : Listing} (h : l.Flat) (hproper : ∀ w ∈ l.words, w.Proper) :
    Listing.read? l.text = some l := by
  rw [Listing.read?, words?_of_consists (consists_text h) hproper, Option.bind_some,
    ofWords?_words h]

end BlockLang.Pascal
