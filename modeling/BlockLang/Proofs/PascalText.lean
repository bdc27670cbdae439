import BlockLang.Pascal.Listing
import BlockLang.Proofs.PascalWords

/-!
# The text of a Pascal listing

`Listing.words` is the grammar of listings: the words of a program heading, of `var` sections,
functions and statements, in order. The text of any listing consists of these words
(`consists_text`), also where its names are no names for Pascal.
-/

namespace BlockLang.Pascal

/-! ### The words of a listing -/

def tyWord : Ty → Word
  | .int => .keyword "integer"
  | .real => .keyword "real"

/-- The range of one index of an array. -/
def rangeWords (size : String) : List Word := [.integer "1", .symbol "..", .integer size]

def typeWords : List String → Ty → List Word
  | [], ty => [tyWord ty]
  | size :: sizes, ty =>
    .keyword "array" :: .symbol "[" :: (rangeWords size ++
      (sizes.flatMap (fun size => .symbol "," :: rangeWords size) ++
        [.symbol "]", .keyword "of", tyWord ty]))

def Entry.words (e : Entry) : List Word :=
  .name e.name :: .symbol ":" :: (typeWords e.sizes e.ty ++ [.symbol ";"])

def sectionWords : List Entry → List Word
  | [] => []
  | e :: entries => .keyword "var" :: (e :: entries).flatMap Entry.words

def signWord : Operator → Word
  | .add => .symbol "+"
  | .sub => .symbol "-"
  | .mul => .symbol "*"
  | .div => .symbol "/"
  | .intDiv => .keyword "div"

def Operand.word : Operand → Word
  | .integer lexeme => .integer lexeme
  | .real lexeme => .real lexeme
  | .variable name => .name name

def stepWords : Option Operator × Operand → List Word
  | (none, o) => [o.word]
  | (some op, o) => [signWord op, o.word]

def Formula.words (value : Formula) : List Word := value.flatMap stepWords

def Body.words : Body → List Word
  | .empty => []
  | .assign target value rest =>
    .name target :: .symbol ":=" :: (Formula.words value ++ .symbol ";" :: rest.words)
  | .group inner rest =>
    .keyword "begin" :: (inner.words ++ .keyword "end" :: .symbol ";" :: rest.words)

def Routine.words (r : Routine) : List Word :=
  .keyword "function" :: .name r.name :: .symbol ":" :: tyWord r.returns :: .symbol ";" ::
    (sectionWords r.entries ++
      .keyword "begin" :: (r.body.words ++ [.keyword "end", .symbol ";"]))

def Listing.words (l : Listing) : List Word :=
  .keyword "program" :: .name "main" :: .symbol ";" ::
    (sectionWords l.entries ++ (l.routines.flatMap Routine.words ++
      .keyword "begin" :: (l.body.words ++ [.keyword "end", .symbol "."])))

/-! ### Texts that end between words, and in a word -/

/-- No word goes on with this text. -/
def SetsOff (cs : List Char) : Prop :=
  ∃ c rest, cs = c :: rest ∧ isNameChar c = false ∧ c ≠ '.' ∧ c ≠ '='

/-- The text consists of these words, whatever comes after it. -/
def Prints (text : String) (ws : List Word) : Prop :=
  ∀ rest us, Consists rest us → Consists (text.toList ++ rest) (ws ++ us)

/-- The text consists of these words if the text after it does not go on with the last one. -/
def PrintsUpTo (text : String) (ws : List Word) : Prop :=
  ∀ rest us, SetsOff rest → Consists rest us → Consists (text.toList ++ rest) (ws ++ us)

section Prints
variable {text text' : String} {ws ws' : List Word}

theorem SetsOff.endsBefore {cs : List Char} (h : SetsOff cs) (w : Word) : w.EndsBefore cs := by
  obtain ⟨c, rest, rfl, hname, hpoint, hequals⟩ := h
  have hdigit : c.isDigit = false := by
    simp only [isNameChar, Char.isAlphanum, Bool.or_eq_false_iff] at hname
    exact hname.1.2
  cases w <;> simp [Word.EndsBefore, hname, hdigit, hpoint, hequals]

theorem SetsOff.append {cs : List Char} (h : SetsOff cs) (rest : List Char) :
    SetsOff (cs ++ rest) := by
  obtain ⟨c, more, rfl, hc⟩ := h
  exact ⟨c, more ++ rest, rfl, hc⟩

theorem Prints.of_eq (h : Prints text ws) (hws : ws = ws') : Prints text ws' := hws ▸ h

theorem PrintsUpTo.of_eq (h : PrintsUpTo text ws) (hws : ws = ws') : PrintsUpTo text ws' := hws ▸ h

theorem prints_empty : Prints "" [] := fun _ _ h => h

theorem Prints.append (h : Prints text ws) (h' : Prints text' ws') :
    Prints (text ++ text') (ws ++ ws') := by
  intro rest us hrest
  rw [String.toList_append, List.append_assoc, List.append_assoc]
  exact h _ _ (h' _ _ hrest)

theorem Prints.appendUpTo (h : Prints text ws) (h' : PrintsUpTo text' ws') :
    PrintsUpTo (text ++ text') (ws ++ ws') := by
  intro rest us hoff hrest
  rw [String.toList_append, List.append_assoc, List.append_assoc]
  exact h _ _ (h' _ _ hoff hrest)

theorem PrintsUpTo.append (h : PrintsUpTo text ws) (h' : Prints text' ws')
    (hoff : SetsOff text'.toList) : Prints (text ++ text') (ws ++ ws') := by
  intro rest us hrest
  rw [String.toList_append, List.append_assoc, List.append_assoc]
  exact h _ _ (hoff.append rest) (h' _ _ hrest)

theorem PrintsUpTo.appendUpTo (h : PrintsUpTo text ws) (h' : PrintsUpTo text' ws')
    (hoff : SetsOff text'.toList) : PrintsUpTo (text ++ text') (ws ++ ws') := by
  intro rest us hrestOff hrest
  rw [String.toList_append, List.append_assoc, List.append_assoc]
  exact h _ _ (hoff.append rest) (h' _ _ hrestOff hrest)

theorem printsUpTo_word (w : Word) : PrintsUpTo w.text [w] :=
  fun _ _ hoff h => .word (fun _ => hoff.endsBefore w) h

theorem prints_join {α : Type} {f : α → String} {g : α → List Word} {l : List α}
    (h : ∀ a ∈ l, Prints (f a) (g a)) : Prints (String.join (l.map f)) (l.flatMap g) := by
  induction l with
  | nil => exact prints_empty
  | cons a l ih =>
    obtain ⟨ha, hl⟩ := List.forall_mem_cons.mp h
    rw [List.map_cons, String.join_cons, List.flatMap_cons]
    exact ha.append (ih hl)

theorem prints_margin (depth : Nat) : Prints (margin depth) [] := by
  intro rest us h
  rw [margin, String.toList_ofList]
  induction 2 * depth with
  | zero => exact h
  | succ n ih => exact .blank (by decide) ih

end Prints

/-! ### Fixed texts -/

section Fixed
variable {rest : List Char} {us : List Word}

theorem setsOff_cons {c : Char} (rest : List Char)
    (h : isNameChar c = false ∧ c ≠ '.' ∧ c ≠ '=') : SetsOff (c :: rest) := ⟨c, rest, rfl, h⟩

/-- A word and a blank after it. -/
theorem Consists.spaced (w : Word) {c : Char} (hc : c = ' ' ∨ c = '\n') (h : Consists rest us) :
    Consists (w.text.toList ++ c :: rest) (w :: us) := by
  rcases hc with rfl | rfl
  · exact .word (fun _ => (setsOff_cons rest (by decide)).endsBefore w) (.blank rfl h)
  · exact .word (fun _ => (setsOff_cons rest (by decide)).endsBefore w) (.blank rfl h)

theorem prints_heading :
    Prints "program main;\n" [.keyword "program", .name "main", .symbol ";"] := by
  intro rest us h
  refine .spaced (.keyword "program") (.inl rfl) (.word (w := .name "main") (fun _ => ?_) ?_)
  · exact (setsOff_cons ('\n' :: rest) (by decide)).endsBefore _
  · exact .spaced (.symbol ";") (.inr rfl) h

theorem prints_var : Prints "var\n" [.keyword "var"] :=
  fun _ _ h => .spaced (.keyword "var") (.inr rfl) h

theorem prints_function : Prints "\nfunction " [.keyword "function"] :=
  fun _ _ h => .blank rfl (.spaced (.keyword "function") (.inl rfl) h)

theorem prints_begin : Prints "begin\n" [.keyword "begin"] :=
  fun _ _ h => .spaced (.keyword "begin") (.inr rfl) h

theorem prints_end : Prints "end;\n" [.keyword "end", .symbol ";"] := by
  intro rest us h
  refine .word (w := .keyword "end") (fun _ => ?_) (.spaced (.symbol ";") (.inr rfl) h)
  exact (setsOff_cons ('\n' :: rest) (by decide)).endsBefore _

theorem prints_close : Prints "end.\n" [.keyword "end", .symbol "."] := by
  intro rest us h
  refine .word (w := .keyword "end") (fun _ => ?_) (.spaced (.symbol ".") (.inr rfl) h)
  intro c hc
  obtain rfl := Option.some.inj hc
  decide

theorem prints_colon : Prints ": " [.symbol ":"] :=
  fun _ _ h => .spaced (.symbol ":") (.inl rfl) h

theorem prints_becomes : Prints " := " [.symbol ":="] :=
  fun _ _ h => .blank rfl (.spaced (.symbol ":=") (.inl rfl) h)

theorem prints_semicolon : Prints ";\n" [.symbol ";"] :=
  fun _ _ h => .spaced (.symbol ";") (.inr rfl) h

theorem prints_comma : Prints ", " [.symbol ","] :=
  fun _ _ h => .spaced (.symbol ",") (.inl rfl) h

theorem prints_array : Prints "array [" [.keyword "array", .symbol "["] := by
  intro rest us h
  refine .spaced (.keyword "array") (.inl rfl) (.word (w := .symbol "[") (fun _ => ?_) h)
  exact ⟨nofun, nofun⟩

theorem prints_of : Prints "] of " [.symbol "]", .keyword "of"] :=
  fun _ _ h => .spaced (.symbol "]") (.inl rfl) (.spaced (.keyword "of") (.inl rfl) h)

/-- The two points after the first index do not belong to it. -/
theorem prints_range : Prints "1.." [.integer "1", .symbol ".."] := by
  intro rest us h
  have hpoints : Consists ('.' :: '.' :: rest) (.symbol ".." :: us) :=
    .word (w := .symbol "..") (fun _ => ⟨nofun, nofun⟩) h
  refine .word (w := .integer "1") (fun _ => ?_) hpoints
  constructor
  · intro c hc
    obtain rfl := Option.some.inj hc
    decide
  · intro c more hmore
    obtain ⟨-, hmore⟩ := List.cons_eq_cons.mp hmore
    obtain ⟨rfl, -⟩ := List.cons_eq_cons.mp hmore
    decide

theorem prints_sign (op : Operator) : Prints (" " ++ sign op ++ " ") [signWord op] := by
  intro rest us h
  cases op with
  | add => exact .blank rfl (.spaced (.symbol "+") (.inl rfl) h)
  | sub => exact .blank rfl (.spaced (.symbol "-") (.inl rfl) h)
  | mul => exact .blank rfl (.spaced (.symbol "*") (.inl rfl) h)
  | div => exact .blank rfl (.spaced (.symbol "/") (.inl rfl) h)
  | intDiv => exact .blank rfl (.spaced (.keyword "div") (.inl rfl) h)

end Fixed

/-! ### Entries -/

theorem printsUpTo_tyName (ty : Ty) : PrintsUpTo (tyName ty) [tyWord ty] := by
  cases ty with
  | int => exact printsUpTo_word (.keyword "integer")
  | real => exact printsUpTo_word (.keyword "real")

theorem printsUpTo_ranges (size : String) (sizes : List String) :
    PrintsUpTo (", ".intercalate ((size :: sizes).map (fun size => "1.." ++ size)))
      (rangeWords size ++ sizes.flatMap (fun size => .symbol "," :: rangeWords size)) := by
  have hrange (size : String) : PrintsUpTo ("1.." ++ size) (rangeWords size) :=
    prints_range.appendUpTo (printsUpTo_word (.integer size))
  induction sizes generalizing size with
  | nil =>
    rw [List.map_cons, List.map_nil, String.intercalate_singleton, List.flatMap_nil,
      List.append_nil]
    exact hrange size
  | cons next sizes ih =>
    have hcomma := (hrange size).append prints_comma (setsOff_cons _ (by decide))
    have hall := hcomma.appendUpTo (ih next)
    rw [List.map_cons, List.map_cons, String.intercalate_cons_cons]
    simpa using hall

theorem printsUpTo_typeText (e : Entry) : PrintsUpTo e.typeText (typeWords e.sizes e.ty) := by
  obtain ⟨name, sizes, ty⟩ := e
  cases sizes with
  | nil => exact printsUpTo_tyName ty
  | cons size sizes =>
    have hranges := prints_array.appendUpTo (printsUpTo_ranges size sizes)
    have hof := hranges.append prints_of (setsOff_cons _ (by decide))
    exact (hof.appendUpTo (printsUpTo_tyName ty)).of_eq (by simp [typeWords])

theorem prints_entry (e : Entry) : Prints e.text e.words := by
  have hmargin : Prints "  " [] := fun _ _ h => .blank rfl (.blank rfl h)
  have hname := hmargin.appendUpTo (printsUpTo_word (.name e.name))
  have hcolon := hname.append prints_colon (setsOff_cons _ (by decide))
  have htype := hcolon.appendUpTo (printsUpTo_typeText e)
  have hall := htype.append prints_semicolon (setsOff_cons _ (by decide))
  exact hall.of_eq (by simp [Entry.words])

theorem prints_section (entries : List Entry) :
    Prints (sectionText entries) (sectionWords entries) := by
  cases entries with
  | nil => exact prints_empty
  | cons e entries => exact prints_var.append (prints_join fun e _ => prints_entry e)

/-! ### Statements -/

/-- Only the first operand follows no operator. -/
def Formula.Flat (value : Formula) : Prop :=
  ∃ (o : Operand) (steps : List (Operator × Operand)),
    value = (none, o) :: steps.map (fun step => (some step.1, step.2))

def Body.Flat : Body → Prop
  | .empty => True
  | .assign _ value rest => Formula.Flat value ∧ rest.Flat
  | .group inner rest => inner.Flat ∧ rest.Flat

theorem printsUpTo_operand : (o : Operand) → PrintsUpTo o.text [o.word]
  | .integer lexeme => printsUpTo_word (.integer lexeme)
  | .real lexeme => printsUpTo_word (.real lexeme)
  | .variable name => printsUpTo_word (.name name)

theorem printsUpTo_steps {text : String} {ws : List Word} (h : PrintsUpTo text ws)
    (steps : List (Operator × Operand)) :
    PrintsUpTo (text ++ String.join (steps.map (fun step => stepText (some step.1, step.2))))
      (ws ++ steps.flatMap (fun step => [signWord step.1, step.2.word])) := by
  induction steps generalizing text ws with
  | nil => simpa using h
  | cons step steps ih =>
    have hoff : SetsOff (" " ++ sign step.1 ++ " ").toList := by
      rw [String.toList_append, String.toList_append]
      exact setsOff_cons _ (by decide)
    have hstep := (h.append (prints_sign step.1) hoff).appendUpTo (printsUpTo_operand step.2)
    have hall := ih hstep
    simpa [String.join_cons, stepText, String.append_assoc] using hall

theorem printsUpTo_formula {value : Formula} (h : Formula.Flat value) :
    PrintsUpTo (Formula.text value) (Formula.words value) := by
  obtain ⟨o, steps, rfl⟩ := h
  have hall := printsUpTo_steps (printsUpTo_operand o) steps
  have htext : Formula.text ((none, o) :: steps.map (fun step => (some step.1, step.2))) =
      o.text ++ String.join (steps.map (fun step => stepText (some step.1, step.2))) := by
    rw [Formula.text, List.map_cons, String.join_cons, List.map_map]
    rfl
  have hwords : Formula.words ((none, o) :: steps.map (fun step => (some step.1, step.2))) =
      [o.word] ++ steps.flatMap (fun step => [signWord step.1, step.2.word]) := by
    rw [Formula.words, List.flatMap_cons, List.flatMap_map]
    rfl
  rw [htext, hwords]
  exact hall

theorem prints_body (depth : Nat) {b : Body} (h : b.Flat) : Prints (b.text depth) b.words := by
  induction b generalizing depth with
  | empty => exact prints_empty
  | assign target value rest ih =>
    obtain ⟨hvalue, hrest⟩ := h
    have htarget := (prints_margin depth).appendUpTo (printsUpTo_word (.name target))
    have hbecomes := htarget.append prints_becomes (setsOff_cons _ (by decide))
    have hformula := hbecomes.appendUpTo (printsUpTo_formula hvalue)
    have hline := hformula.append prints_semicolon (setsOff_cons _ (by decide))
    have hall := hline.append (ih depth hrest)
    exact hall.of_eq (by simp [Body.words])
  | group inner rest ihInner ih =>
    obtain ⟨hinner, hrest⟩ := h
    have hbegin := (prints_margin depth).append prints_begin
    have hinside := (hbegin.append (ihInner (depth + 1) hinner)).append (prints_margin depth)
    have hall := (hinside.append prints_end).append (ih depth hrest)
    exact hall.of_eq (by simp [Body.words])

/-! ### Subprograms -/

structure Listing.Flat (l : Listing) : Prop where
  routines : ∀ r ∈ l.routines, r.body.Flat
  body : l.body.Flat

theorem prints_routine {r : Routine} (h : r.body.Flat) : Prints r.text r.words := by
  have hname := prints_function.appendUpTo (printsUpTo_word (.name r.name))
  have hcolon := hname.append prints_colon (setsOff_cons _ (by decide))
  have htype := hcolon.appendUpTo (printsUpTo_tyName r.returns)
  have hheading := htype.append prints_semicolon (setsOff_cons _ (by decide))
  have hbegin := (hheading.append (prints_section r.entries)).append prints_begin
  have hall := (hbegin.append (prints_body 1 h)).append prints_end
  exact hall.of_eq (by simp [Routine.words])

/-- The text of a listing consists of its words. -/
theorem consists_text {l : Listing} (h : l.Flat) : Consists l.text.toList l.words := by
  have hbegin : Prints "\nbegin\n" [.keyword "begin"] :=
    fun _ _ h => .blank rfl (.spaced (.keyword "begin") (.inr rfl) h)
  have hroutines : Prints (String.join (l.routines.map Routine.text))
      (l.routines.flatMap Routine.words) := prints_join fun r hr => prints_routine (h.routines r hr)
  have hheads := (prints_heading.append (prints_section l.entries)).append hroutines
  have hbody := (hheads.append hbegin).append (prints_body 1 h.body)
  have hall : Prints l.text l.words :=
    (hbody.append prints_close).of_eq (by simp [Listing.words])
  have htext := hall [] [] .nil
  rwa [List.append_nil, List.append_nil] at htext

end BlockLang.Pascal
