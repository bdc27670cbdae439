import BlockLang.Proofs.Refusal
import BlockLang.Proofs.Spelling

/-!
# Viable prefixes

Where a token is refused, the tokens before it begin some sentence, and the classes
that are expected are those of the tokens that can follow there
(`Control.mem_expected_iff`). Every state that the control reaches can be completed:
open blocks are closed, and a main block is added where there is none.
-/

namespace BlockLang

/-! ### A token of each class -/

def TokenClass.sample : TokenClass → Token
  | .openParen => .mark .openParen
  | .closeParen => .mark .closeParen
  | .multiplicative => .mark .times
  | .additive => .mark .plus
  | .semicolon => .mark .semicolon
  | .comma => .mark .comma
  | .openBracket => .mark .openBracket
  | .closeBracket => .mark .closeBracket
  | .assign => .mark .assign
  | .openBrace => .mark .openBrace
  | .closeBrace => .mark .closeBrace
  | .double => .keyword .double
  | .int => .keyword .int
  | .main => .keyword .main
  | .integer => .integer "1"
  | .name => .name "a"
  | .real => .real "1.0"
  | .endOfText => .endOfText

theorem TokenClass.kind_sample (k : TokenClass) : k.sample.kind = k := by
  cases k <;> rfl

theorem isNumeral_digit (c : Char) (h : c.isDigit = true) : IsNumeral [c] :=
  ⟨List.cons_ne_nil c [], List.forall_mem_singleton.mpr h⟩

theorem TokenClass.wellSpelled_sample (k : TokenClass) (h : k ≠ .endOfText) :
    k.sample.WellSpelled := by
  cases k with
  | endOfText => exact absurd rfl h
  | name => exact ⟨⟨'a', [], rfl, by decide, by simp⟩, by decide⟩
  | integer => exact isNumeral_digit '1' rfl
  | real => exact ⟨['1'], ['0'], rfl, isNumeral_digit '1' rfl, isNumeral_digit '0' rfl⟩
  | _ => trivial

/-! ### Completions -/

namespace Control

/-- Some well-spelled tokens complete what has been read. -/
def Live (c : Control) : Prop := ∃ w, (∀ t ∈ w, t.WellSpelled) ∧ c.Accepts w

theorem live_of_step {c c' : Control} (k : TokenClass) (hk : k ≠ .endOfText)
    (h : c.step k.sample = some c') (hc : c'.Live) : c.Live := by
  obtain ⟨w, hw, haccepts⟩ := hc
  refine ⟨k.sample :: w, List.forall_mem_cons.mpr ⟨k.wellSpelled_sample hk, hw⟩, ?_⟩
  exact accepts_cons.mpr ⟨c', h, haccepts⟩

theorem live_finish (d : Nat) (m : Bool) : Live ⟨.finish, d, m⟩ :=
  ⟨[], by simp, ⟨.finish, d, m⟩, rfl, rfl⟩

/-- Blocks are closed from the innermost outwards. -/
theorem live_item_of_closed (m : Bool) (h : Live (closed 1 m)) (d : Nat) :
    Live ⟨.item, d + 1, m⟩ := by
  induction d with
  | zero => exact live_of_step .closeBrace (by decide) rfl h
  | succ d ih => exact live_of_step .closeBrace (by decide) rfl ih

theorem live_mainClose (m : Bool) : Live ⟨.mainClose, 0, m⟩ := by
  have hitem : Live ⟨.item, 1, true⟩ := live_item_of_closed true (live_finish 0 true) 0
  have hbody : Live ⟨.body, 0, true⟩ := live_of_step .openBrace (by decide) rfl hitem
  exact live_of_step .closeParen (by decide) rfl hbody

theorem live_mainOpen (m : Bool) : Live ⟨.mainOpen, 0, m⟩ :=
  live_of_step .openParen (by decide) rfl (live_mainClose m)

theorem live_top (m : Bool) : Live ⟨.top, 0, m⟩ :=
  live_of_step .main (by decide) rfl (live_mainOpen m)

theorem live_item (d : Nat) (m : Bool) : Live ⟨.item, d + 1, m⟩ := by
  cases m with
  | true => exact live_item_of_closed true (live_finish 0 true) d
  | false => exact live_item_of_closed false (live_top true) d

theorem live_body (m : Bool) : Live ⟨.body, 0, m⟩ :=
  live_of_step .openBrace (by decide) rfl (live_item 0 m)

theorem live_functionClose (m : Bool) : Live ⟨.functionClose, 0, m⟩ :=
  live_of_step .closeParen (by decide) rfl (live_body false)

theorem live_functionOpen (m : Bool) : Live ⟨.functionOpen, 0, m⟩ :=
  live_of_step .openParen (by decide) rfl (live_functionClose m)

theorem live_declarator (d : Nat) (m : Bool) : Live ⟨.declarator, d + 1, m⟩ :=
  live_of_step .semicolon (by decide) rfl (live_item d m)

theorem live_sizeClose (d : Nat) (m : Bool) : Live ⟨.sizeClose, d + 1, m⟩ :=
  live_of_step .closeBracket (by decide) rfl (live_declarator d m)

theorem live_operator (d : Nat) (m : Bool) : Live ⟨.operator, d + 1, m⟩ :=
  live_of_step .semicolon (by decide) rfl (live_item d m)

theorem live_operand (d : Nat) (m : Bool) : Live ⟨.operand, d + 1, m⟩ :=
  live_of_step .integer (by decide) rfl (live_operator d m)

end Control

/-- The places inside a block. -/
def Place.inBlock : Place → Bool
  | .item => true
  | .variableName => true
  | .declarator => true
  | .size => true
  | .sizeClose => true
  | .assignSign => true
  | .operand => true
  | .operator => true
  | _ => false

namespace Control

/-- Blocks are open exactly at the places inside a block. -/
def Sane (c : Control) : Prop := c.depth = 0 ↔ c.place.inBlock = false

theorem sane_mk (place : Place) (d : Nat) (m : Bool) :
    Sane ⟨place, d, m⟩ ↔ (d = 0 ↔ place.inBlock = false) := Iff.rfl

theorem sane_closed (d : Nat) (m : Bool) : (closed d m).Sane := by
  match d with
  | 0 => cases m <;> simp [closed, Sane, Place.inBlock]
  | 1 => cases m <;> simp [closed, Sane, Place.inBlock]
  | d + 2 => simp [closed, Sane, Place.inBlock]

theorem sane_step {c c' : Control} {t : Token} (hc : c.Sane) (h : c.step t = some c') :
    c'.Sane := by
  unfold step at h
  split at h <;> cases h <;> simp_all [sane_mk, sane_closed, Place.inBlock]

theorem sane_run {c c' : Control} {ts : List Token} (hc : c.Sane) (h : c.run ts = some c') :
    c'.Sane := by
  induction ts generalizing c with
  | nil =>
    cases h
    exact hc
  | cons t ts ih =>
    obtain ⟨next, hstep, hrest⟩ := Option.bind_eq_some_iff.mp h
    exact ih (sane_step hc hstep) hrest

theorem live_of_sane {c : Control} (h : c.Sane) : c.Live := by
  obtain ⟨place, depth, m⟩ := c
  cases depth with
  | zero =>
    have hplace : place.inBlock = false := h.mp rfl
    cases place with
    | top => exact live_top m
    | functionName => exact live_of_step .name (by decide) rfl (live_functionOpen m)
    | functionOpen => exact live_functionOpen m
    | functionClose => exact live_functionClose m
    | mainOpen => exact live_mainOpen m
    | mainClose => exact live_mainClose m
    | body => exact live_body m
    | finish => exact live_finish 0 m
    | _ => cases hplace
  | succ d =>
    have hplace : place.inBlock ≠ false := fun hfalse => Nat.succ_ne_zero d (h.mpr hfalse)
    cases place with
    | item => exact live_item d m
    | variableName => exact live_of_step .name (by decide) rfl (live_declarator d m)
    | declarator => exact live_declarator d m
    | size => exact live_of_step .integer (by decide) rfl (live_sizeClose d m)
    | sizeClose => exact live_sizeClose d m
    | assignSign => exact live_of_step .assign (by decide) rfl (live_operand d m)
    | operand => exact live_operand d m
    | operator => exact live_operator d m
    | _ => exact absurd rfl hplace

end Control

/-! ### What can follow -/

/-- Some token of the class can follow in a sentence. The end of the text can follow
where a sentence is complete. -/
def CanFollow (ts : List Token) (k : TokenClass) : Prop :=
  if k = .endOfText then Sentence ts
  else ∃ t rest, t.kind = k ∧ (∀ u ∈ t :: rest, u.WellSpelled) ∧ Sentence (ts ++ t :: rest)

namespace Control

section Reached
variable {c : Control} {ts : List Token}

theorem sentence_append_iff (h : start.run ts = some c) (us : List Token) :
    Sentence (ts ++ us) ↔ c.Accepts us := by
  rw [sentence_iff_accepts, accepts_append h]

theorem sane_of_run (h : start.run ts = some c) : c.Sane :=
  sane_run (by simp [start, Sane, Place.inBlock]) h

theorem exists_sentence (h : start.run ts = some c) :
    ∃ rest, (∀ t ∈ rest, t.WellSpelled) ∧ Sentence (ts ++ rest) := by
  obtain ⟨w, hw, haccepts⟩ := live_of_sane (sane_of_run h)
  exact ⟨w, hw, (sentence_append_iff h w).mpr haccepts⟩

theorem sentence_iff_finish (h : start.run ts = some c) : Sentence ts ↔ c.place = .finish := by
  have hiff := sentence_append_iff h []
  rw [List.append_nil] at hiff
  rw [hiff]
  constructor
  · rintro ⟨c', hrun, hplace⟩
    cases hrun
    exact hplace
  · intro hplace
    exact ⟨c, rfl, hplace⟩

theorem mem_expected_iff (h : start.run ts = some c) (k : TokenClass) :
    k ∈ c.place.expected ↔ CanFollow ts k := by
  unfold CanFollow
  by_cases hk : k = .endOfText
  · subst hk
    rw [if_pos rfl, sentence_iff_finish h]
    cases c.place <;> simp [Place.expected]
  · rw [if_neg hk]
    constructor
    · intro hmem
      -- Take the sample token and complete the state after it.
      have hsample : k.sample ≠ .endOfText := by
        intro heq
        apply hk
        rw [← k.kind_sample, heq]
        rfl
      have hstep := (isSome_step_iff c k.sample hsample).mpr (by rw [k.kind_sample]; exact hmem)
      obtain ⟨c', hc'⟩ := Option.isSome_iff_exists.mp hstep
      obtain ⟨w, hw, haccepts⟩ := live_of_sane (sane_step (sane_of_run h) hc')
      refine ⟨k.sample, w, k.kind_sample,
        List.forall_mem_cons.mpr ⟨k.wellSpelled_sample hk, hw⟩, ?_⟩
      exact (sentence_append_iff h _).mpr (accepts_cons.mpr ⟨c', hc', haccepts⟩)
    · rintro ⟨t, rest, rfl, -, hsentence⟩
      obtain ⟨c', hstep, -⟩ := accepts_cons.mp ((sentence_append_iff h _).mp hsentence)
      exact kind_mem_expected hstep

end Reached

end Control

/-- No place expects a type only, the end of an expression only or the end of a
declaration only. -/
theorem Place.expected_ne (p : Place) : ClassSet.ofList p.expected ≠ .ofList [.double, .int] ∧
    ClassSet.ofList p.expected ≠ .ofList [.additive, .semicolon] ∧
    ClassSet.ofList p.expected ≠ .ofList [.semicolon] := by
  cases p <;> decide

/-- Where a text is refused for an unexpected token, the classes reported are those that can
follow the tokens pulled before it. -/
theorem expected_of_readProgram {source : String} {found : Token} {expected : ClassSet}
    {position : Option Position} (h : (readProgram source).result =
      .error ⟨.syntactic (.unexpectedToken found expected), position⟩) :
    ∃ before rest, (Scanner.ofText source).stream = .prepend before rest ∧
      rest.next? = some found ∧ pulled (readProgram source).records = before ++ rest.first ∧
      (∀ k, k ∈ expected ↔ CanFollow (before.map Located.value) k) ∧
      (∃ rest, Sentence (before.map Located.value ++ rest)) ∧ found.kind ∉ expected ∧
      expected ≠ .ofList [.double, .int] ∧ expected ≠ .ofList [.additive, .semicolon] ∧
      expected ≠ .ofList [.semicolon] := by
  obtain ⟨hrun, hrecords⟩ := run_of_readProgram_error h
  obtain ⟨ts, tail, hstream, htail⟩ : ∃ ts tail,
      (Scanner.ofText source).stream = .prepend ts tail ∧ tail.first = [] := by
    obtain ⟨ts, ⟨p, hstream⟩ | ⟨e, hstream⟩⟩ :=
      TokenStream.exists_prepend (Scanner.ofText source).stream
    · exact ⟨ts, .done p, hstream, rfl⟩
    · exact ⟨ts, .failure e, hstream, rfl⟩
  have hts : ∀ t ∈ ts, t.value ≠ .endOfText := by
    intro t ht heq
    have hspelled := Scanner.wellSpelled_of_stream hstream t ht
    rw [heq] at hspelled
    exact hspelled
  rw [hstream] at hrun hrecords
  obtain ⟨before, rest, s, hsplit, hnext, hpulled, hreads, rfl, hkind⟩ :=
    Reader.run_refuses hts htail hrun rfl
  have hcontrol : Control.start.run (before.map Located.value) = some (s.1.control s.2) :=
    Reader.reads_control hreads
  refine ⟨before, rest, hstream.trans hsplit, hnext, by rw [hrecords, hpulled], ?_, ?_, hkind, ?_⟩
  · intro k
    rw [Point.expected_eq, ClassSet.mem_ofList]
    exact Control.mem_expected_iff hcontrol k
  · obtain ⟨w, -, hsentence⟩ := Control.exists_sentence hcontrol
    exact ⟨w, hsentence⟩
  · rw [Point.expected_eq]
    exact s.2.place.expected_ne

def Traced.diagnostic? {α : Type} (x : Traced α) : Option Diagnostic :=
  match x.result with
  | .ok _ => none
  | .error d => some d

theorem Traced.result_eq_error_iff {α : Type} {x : Traced α} {d : Diagnostic} :
    x.result = .error d ↔ x.diagnostic? = some d := by
  unfold diagnostic?
  cases x.result <;> simp

theorem expected_after_declarator :
    (readProgram "main() \x7b int a \x7d").result = .error ⟨.syntactic (.unexpectedToken
      (.mark .closeBrace) (.ofList [.semicolon, .comma, .openBracket])), some ⟨1, 16⟩⟩ ∧
    ∃ before rest, (Scanner.ofText "main() \x7b int a \x7d").stream = .prepend before rest ∧
      rest.next? = some (.mark .closeBrace) ∧
      pulled (readProgram "main() \x7b int a \x7d").records = before ++ rest.first ∧
      (∀ k, k ∈ ClassSet.ofList [.semicolon, .comma, .openBracket] ↔
        CanFollow (before.map Located.value) k) := by
  have h : (readProgram "main() \x7b int a \x7d").result = .error ⟨.syntactic (.unexpectedToken
      (.mark .closeBrace) (.ofList [.semicolon, .comma, .openBracket])), some ⟨1, 16⟩⟩ :=
    Traced.result_eq_error_iff.mpr (by decide +kernel)
  obtain ⟨before, rest, hstream, hnext, hpulled, hfollow, -⟩ := expected_of_readProgram h
  exact ⟨h, before, rest, hstream, hnext, hpulled, hfollow⟩

end BlockLang
