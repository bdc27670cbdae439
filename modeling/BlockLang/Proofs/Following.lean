import BlockLang.Proofs.Descent
import BlockLang.Proofs.Progress
import BlockLang.Proofs.TraceShape

/-!
# The descent beside the reader

The reader takes one token after the other and keeps its place in the grammar as data; the descent
keeps it in the procedures that it is inside of. They are compared at moments: a reader with a token
that it has pulled or taken, and the state of the descent that goes with it (`Moment.parser`). A
procedure follows the reader (`Follows`) if both are refused alike, or both come to a later moment
with the same records. The relation composes along `bind`, so that a procedure is followed through
its body line by line. The rules for the tokens are here; each of them leaves less text ahead, which
is what bounds the fuel.
-/

namespace BlockLang

open Descent

/-! ### The reader at the pace of the descent -/

/-- What is ahead of both: the token that the descent looks at, and the rest of the text. -/
structure Input where
  look : Located Token
  scanner : Scanner
  lexer : Lexer
  mirrors : lexer.Mirrors scanner

/-- Every token takes at least one character. -/
def Input.size (i : Input) : Nat :=
  i.scanner.rest.length + if i.look.value = .endOfText then 0 else 1

theorem Input.size_of_ne {i : Input} (h : i.look.value ≠ .endOfText) :
    i.size = i.scanner.rest.length + 1 := by
  rw [size, if_neg h]

/-- The reader has taken the token ahead, or it has yet to settle what the token before did. -/
inductive Pace where
  | taken (e : Effect)
  | pulled (e : Effect)

/-- The token ahead is to stand here. -/
abbrev Pace.due (p : Point) : Pace := .pulled (.goTo p)

structure Moment where
  reader : Reader
  pace : Pace
  input : Input

/-- Go on with the token ahead. -/
def Reader.ahead (r : Reader) (p : Point) (i : Input) : Traced Reader :=
  if i.look.value = .endOfText ∧ TokenClass.endOfText ∈ p.expected then return r
  else do
    let s ← r.take p i.look
    s.1.run s.2 i.scanner.stream

theorem Reader.ahead_of_ne (r : Reader) (p : Point) {i : Input} (h : i.look.value ≠ .endOfText) :
    r.ahead p i = (do
      let s ← r.take p i.look
      s.1.run s.2 i.scanner.stream) :=
  if_neg fun hlook => h hlook.1

theorem Reader.ahead_of_not_mem (r : Reader) {p : Point} {i : Input}
    (h : i.look.value.kind ∉ p.place.expected) : r.ahead p i = unexpected p i.look := by
  have hnot : ¬(i.look.value = .endOfText ∧ TokenClass.endOfText ∈ p.expected) := by
    rintro ⟨hlook, hmem⟩
    rw [hlook] at h
    rw [Point.expected_eq, ClassSet.mem_ofList] at hmem
    exact h hmem
  rw [ahead, if_neg hnot, take_eq_unexpected r p i.look h]
  rfl

theorem Reader.ahead_of_endOfText (r : Reader) (p : Point) {i : Input}
    (h : i.look.value = .endOfText) :
    r.ahead p i =
      if TokenClass.endOfText ∈ p.expected then return r else unexpected p i.look := by
  by_cases hmem : TokenClass.endOfText ∈ p.expected
  · rw [ahead, if_pos ⟨h, hmem⟩, if_pos hmem]
  · rw [if_neg hmem]
    refine r.ahead_of_not_mem ?_
    rwa [h, ← ClassSet.mem_ofList, ← Point.expected_eq]

namespace Moment

/-- What is left for the reader to do. -/
def rest (m : Moment) : Traced Reader :=
  match m.pace with
  | .taken e => m.reader.run e m.input.scanner.stream
  | .pulled e => do
    let s ← m.reader.settle e
    s.1.ahead s.2 m.input

/-- The state of the descent. -/
def parser (m : Moment) : Parser :=
  ⟨m.input.lexer, m.input.look, ⟨m.reader.scopes.frames, m.reader.scopes.blocks⟩,
    m.reader.builder, m.reader.nesting⟩

theorem parser_look (r : Reader) (pace : Pace) (i : Input) :
    (parser ⟨r, pace, i⟩).look = i.look := rfl

end Moment

/-! ### A procedure that keeps step with the reader -/

/-- From this moment the procedure and the reader leave the same records, up to a refusal of both
or to a later moment. If there is a lack of fuel the procedure may run out of it before. -/
inductive Follows {α : Type} (lack : Nat) (m : Moment) (q : α → Moment → Prop) (x : Descent α) :
    Prop
  | refuses (records : List Record) (d : Diagnostic)
      (hx : x.outcome m.parser = ⟨records, .error d⟩) (hm : m.rest = ⟨records, .error d⟩)
  | goesOn (records : List Record) (a : α) (m' : Moment)
      (hx : x.outcome m.parser = ⟨records, .ok (.ok (a, m'.parser))⟩)
      (hm : m.rest = ⟨records ++ m'.rest.records, m'.rest.result⟩) (hq : q a m')
  | runsOut (records : List Record)
      (hx : x.outcome m.parser = ⟨records, .ok (.error .unfinished)⟩) (hlack : 0 < lack)

section Outcomes
variable {α β : Type} {x : Descent α} {σ σ' : Parser} {records : List Record}

theorem outcome_get (f : Parser → Descent α) (σ : Parser) :
    outcome (get >>= f) σ = outcome (f σ) σ := rfl

theorem outcome_bind_of_ok {a : α} (h : x.outcome σ = ⟨records, .ok (.ok (a, σ'))⟩)
    (f : α → Descent β) :
    outcome (x >>= f) σ = ⟨records ++ ((f a).outcome σ').records, ((f a).outcome σ').result⟩ := by
  have hresult : (x.outcome σ).result = .ok (.ok (a, σ')) := by rw [h]
  refine (Traced.bind_of_ok hresult _).trans ?_
  rw [h]
  rfl

theorem outcome_bind_of_unfinished (h : x.outcome σ = ⟨records, .ok (.error .unfinished)⟩)
    (f : α → Descent β) : outcome (x >>= f) σ = ⟨records, .ok (.error .unfinished)⟩ := by
  have hresult : (x.outcome σ).result = .ok (.error .unfinished) := by rw [h]
  refine (Traced.bind_of_ok hresult _).trans ?_
  rw [h]
  show (⟨records ++ [], _⟩ : Traced _) = _
  rw [List.append_nil]
  rfl

theorem outcome_bind_of_error {d : Diagnostic} (h : x.outcome σ = ⟨records, .error d⟩)
    (f : α → Descent β) : outcome (x >>= f) σ = ⟨records, .error d⟩ := by
  have hresult : (x.outcome σ).result = .error d := by rw [h]
  refine (Traced.bind_of_error hresult _).trans ?_
  rw [h]

end Outcomes

section Rules
variable {α β : Type} {lack : Nat} {m m' : Moment} {q : α → Moment → Prop} {q' : β → Moment → Prop}
  {x : Descent α}

theorem Follows.bind {f : α → Descent β} (h : Follows lack m q x)
    (hf : ∀ a m', q a m' → Follows lack m' q' (f a)) : Follows lack m q' (x >>= f) := by
  cases h with
  | refuses records d hx hm => exact .refuses records d (outcome_bind_of_error hx f) hm
  | goesOn records a m' hx hm hq =>
    cases hf a m' hq with
    | refuses records' d hx' hm' =>
      refine .refuses (records ++ records') d ?_ ?_
      · rw [outcome_bind_of_ok hx f, hx']
      · rw [hm, hm']
    | goesOn records' b m'' hx' hm' hq' =>
      refine .goesOn (records ++ records') b m'' ?_ ?_ hq'
      · rw [outcome_bind_of_ok hx f, hx']
      · rw [hm, hm', List.append_assoc]
    | runsOut records' hx' hlack =>
      refine .runsOut (records ++ records') ?_ hlack
      rw [outcome_bind_of_ok hx f, hx']
  | runsOut records hx hlack => exact .runsOut records (outcome_bind_of_unfinished hx f) hlack

theorem Follows.mono {q' : α → Moment → Prop} (h : Follows lack m q x)
    (hq : ∀ a m', q a m' → q' a m') : Follows lack m q' x := by
  cases h with
  | refuses records d hx hm => exact .refuses records d hx hm
  | goesOn records a m' hx hm h => exact .goesOn records a m' hx hm (hq a m' h)
  | runsOut records hx hlack => exact .runsOut records hx hlack

theorem follows_pure {a : α} (h : q a m) : Follows lack m q (pure a) := .goesOn [] a m rfl rfl h

theorem follows_get {f : Parser → Descent α} (h : Follows lack m q (f m.parser)) :
    Follows lack m q (get >>= f) := by
  cases h with
  | refuses records d hx hm => exact .refuses records d ((outcome_get f _).trans hx) hm
  | goesOn records a m' hx hm hq => exact .goesOn records a m' ((outcome_get f _).trans hx) hm hq
  | runsOut records hx hlack => exact .runsOut records ((outcome_get f _).trans hx) hlack

/-- The reader may be ahead of the descent by what shows neither in its state nor in records. -/
theorem Follows.of_rest_eq (h : Follows lack m' q x) (hparser : m.parser = m'.parser)
    (hrest : m.rest = m'.rest) : Follows lack m q x := by
  cases h with
  | refuses records d hx hm => exact .refuses records d (hparser ▸ hx) (hrest.trans hm)
  | goesOn records a m'' hx hm hq =>
    exact .goesOn records a m'' (hparser ▸ hx) (hrest.trans hm) hq
  | runsOut records hx hlack => exact .runsOut records (hparser ▸ hx) hlack

end Rules

/-! ### Tokens -/

/-- The reader is at this pace, with less text ahead. -/
def Later (i : Input) (r : Reader) (pace : Pace) (m : Moment) : Prop :=
  ∃ i', m = ⟨r, pace, i'⟩ ∧ i'.size < i.size

/-- The reader is at this pace before one of these marks. -/
def Upto (i : Input) (r : Reader) (pace : Pace) (marks : List Mark) (m : Moment) : Prop :=
  ∃ i', m = ⟨r, pace, i'⟩ ∧ i'.size ≤ i.size ∧ ∃ k ∈ marks, i'.look.value = .mark k

section Sizes
variable {i i' : Input} {r : Reader} {pace : Pace} {marks : List Mark} {m : Moment}

theorem Later.mono (h : Later i' r pace m) (hle : i'.size ≤ i.size) : Later i r pace m := by
  obtain ⟨i₁, hm, hlt⟩ := h
  exact ⟨i₁, hm, by omega⟩

theorem Upto.mono (h : Upto i' r pace marks m) (hle : i'.size ≤ i.size) :
    Upto i r pace marks m := by
  obtain ⟨i₁, hm, hle₁, hlook⟩ := h
  exact ⟨i₁, hm, by omega, hlook⟩

theorem Upto.here {k : Mark} (hlook : i.look.value = .mark k) (hk : k ∈ marks) :
    Upto i r pace marks ⟨r, pace, i⟩ :=
  ⟨i, rfl, Nat.le_refl _, k, hk, hlook⟩

end Sizes

section Tokens
variable {α : Type} {r : Reader} {p : Point} {e : Effect} {i : Input}
  {fuel lack : Nat} {q : α → Moment → Prop} {x : Descent α}

theorem rest_due_of_ne (hlook : i.look.value ≠ .endOfText) :
    Moment.rest ⟨r, .due p, i⟩ = (do
      let s ← r.take p i.look
      s.1.run s.2 i.scanner.stream) :=
  r.ahead_of_ne p hlook

theorem rest_due_of_mark {k : Mark} (hlook : i.look.value = .mark k) :
    Moment.rest ⟨r, .due p, i⟩ = (do
      let s ← r.take p ⟨i.look.position, .mark k⟩
      s.1.run s.2 i.scanner.stream) := by
  rw [rest_due_of_ne (by simp [hlook]), ← hlook]

theorem follows_fail (h : i.look.value.kind ∉ p.place.expected) :
    Follows lack ⟨r, .due p, i⟩ q (fail p.expected) :=
  .refuses [] _ rfl (r.ahead_of_not_mem h)

theorem ne_endOfText_of_next {s s' : Scanner} {t : Located Token} (h : s.next = (.token t, s')) :
    t.value ≠ .endOfText := by
  intro ht
  have hspelled := Scanner.wellSpelled_of_next h
  rw [ht] at hspelled
  exact hspelled

theorem follows_advance (hfuel : 2 * i.scanner.rest.length + 2 ≤ fuel + lack) :
    Follows lack ⟨r, .taken e, i⟩ (fun t m => t = i.look ∧ ∃ i', m = ⟨r, .pulled e, i'⟩ ∧
      i'.size ≤ i.scanner.rest.length) (advance fuel) := by
  obtain ⟨look, s, l, mirrors⟩ := i
  have hfuel : 2 * s.rest.length + 2 ≤ fuel + lack := hfuel
  have hrest : Moment.rest ⟨r, .taken e, ⟨look, s, l, mirrors⟩⟩ =
      r.run e (Scanner.streamFrom s.next) := congrArg (r.run e) s.stream_eq
  refine follows_get ?_
  simp only [Moment.parser]
  cases hnext : l.next fuel with
  | dead => exact absurd hnext (l.next_ne_dead fuel)
  | unfinished =>
    obtain ⟨l', -, hresult⟩ := mirrors.exists_next
    have hshort : ¬2 * l.rest.length + 2 ≤ fuel := by
      intro henough
      rw [hresult fuel henough] at hnext
      cases hnext
    rw [mirrors.rest] at hshort
    exact .runsOut [] rfl (by omega)
  | result scan l' =>
    have hshorter := s.length_rest_le
    obtain ⟨hscan, hmirrors⟩ := mirrors.of_calls ⟨fuel, hnext⟩
    have hcall : s.next = (scan, s.next.2) := Prod.ext hscan.symm rfl
    generalize s.next.2 = s' at hcall hmirrors hshorter
    rw [hcall] at hrest
    cases scan with
    | token t =>
      have hlook := ne_endOfText_of_next hcall
      have hlt : s'.rest.length < s.rest.length := Scanner.rest_lt_of_next hcall
      refine .goesOn [.token t] look ⟨r, .pulled e, ⟨t, s', l', hmirrors⟩⟩ rfl ?_
        ⟨rfl, _, rfl, ?_⟩
      · rw [hrest, Scanner.streamFrom, Reader.run_token, Traced.emit_bind]
        simp only [Moment.rest, Reader.ahead_of_ne _ _ (i := ⟨t, s', l', hmirrors⟩) hlook]
        rfl
      · rw [Input.size_of_ne hlook]
        exact hlt
    | failure error => exact .refuses [] (.lexical error) rfl hrest
    | done =>
      have hposition : l'.position = s'.position := hmirrors.position
      refine .goesOn [] look ⟨r, .pulled e, ⟨⟨s'.position, .endOfText⟩, s', l', hmirrors⟩⟩ ?_ ?_
        ⟨rfl, _, rfl, hshorter⟩
      · rw [← hposition]
        rfl
      · rw [hrest, Scanner.streamFrom, Reader.run_done]
        simp only [Moment.rest, Reader.ahead_of_endOfText _ _
          (i := ⟨⟨s'.position, .endOfText⟩, s', l', hmirrors⟩) rfl]
        rfl

/-- Advance over a token that the reader has taken. -/
theorem follows_advance_taken (hlook : i.look.value ≠ .endOfText)
    (hfuel : 2 * i.size ≤ fuel + lack) :
    Follows lack ⟨r, .taken e, i⟩ (fun t m => t = i.look ∧ Later i r (.pulled e) m)
      (advance fuel) := by
  have hsize := i.size_of_ne hlook
  refine (follows_advance (by omega)).mono ?_
  rintro t m ⟨ht, i', hm, hle⟩
  exact ⟨ht, i', hm, by omega⟩

theorem ne_endOfText_of_take {t : Located Token} {s : Reader × Effect}
    (h : r.take p t = .ok s) : t.value ≠ .endOfText := by
  intro ht
  have hrefused : r.take p t = Reader.unexpected p t := by
    unfold Reader.take
    rw [ht]
    cases p <;> rfl
  rw [hrefused] at h
  cases h

/-- Advance over a token that may stand here. -/
theorem follows_accept {t : Token} (hlook : i.look.value = t)
    (htake : r.take p ⟨i.look.position, t⟩ = .ok (r, e)) (hfuel : 2 * i.size ≤ fuel + lack) :
    Follows lack ⟨r, .due p, i⟩ (fun u m => u = i.look ∧ Later i r (.pulled e) m)
      (advance fuel) := by
  subst hlook
  have hne : i.look.value ≠ .endOfText := ne_endOfText_of_take htake
  refine (follows_advance_taken hne hfuel).of_rest_eq rfl ?_
  refine (rest_due_of_ne hne).trans ?_
  rw [htake]
  rfl

theorem follows_expect {pace : Pace} {q : Located Token → Moment → Prop} {k : TokenClass}
    (hkind : i.look.value.kind = k) (h : Follows lack ⟨r, pace, i⟩ q (advance fuel)) :
    Follows lack ⟨r, pace, i⟩ q (expect fuel (.ofList [k])) := by
  have hmem : i.look.value.kind ∈ ClassSet.ofList [k] := by
    rw [ClassSet.mem_ofList]
    exact List.mem_singleton.mpr hkind
  refine follows_get ?_
  rwa [Moment.parser_look, if_pos hmem]

theorem follows_expect_fail {q : Located Token → Moment → Prop} {k : TokenClass}
    (hexpected : p.expected = .ofList [k]) (h : i.look.value.kind ≠ k) :
    Follows lack ⟨r, .due p, i⟩ q (expect fuel (.ofList [k])) := by
  have hnot : i.look.value.kind ∉ ClassSet.ofList [k] := by
    rw [ClassSet.mem_ofList]
    exact fun hmem => h (List.mem_singleton.mp hmem)
  refine follows_get ?_
  rw [Moment.parser_look, if_neg hnot, ← hexpected]
  refine follows_fail ?_
  rwa [← ClassSet.mem_ofList, ← Point.expected_eq, hexpected]

/-- A mark that is the only token of its class. -/
theorem follows_mark {k : Mark} {e : Position → Effect}
    (hclass : (Token.mark k).kind ≠ .multiplicative ∧ (Token.mark k).kind ≠ .additive)
    (hexpected : i.look.value.kind = (Token.mark k).kind ∨
      p.expected = .ofList [(Token.mark k).kind])
    (htake : ∀ q, r.take p ⟨q, .mark k⟩ = .ok (r, e q)) (hfuel : 2 * i.size ≤ fuel + lack) :
    Follows lack ⟨r, .due p, i⟩ (fun t m => Later i r (.pulled (e t.position)) m)
      (expect fuel (.ofList [(Token.mark k).kind])) := by
  by_cases hkind : i.look.value.kind = (Token.mark k).kind
  · have hlook := Token.eq_mark_of_kind hkind hclass.1 hclass.2
    refine (follows_expect hkind (follows_accept hlook (htake _) hfuel)).mono ?_
    rintro t m ⟨rfl, hm⟩
    exact hm
  · exact follows_expect_fail (hexpected.resolve_left hkind) hkind

theorem follows_name {e : Located String → Effect}
    (hexpected : i.look.value.kind = .name ∨ p.expected = .ofList [.name])
    (htake : ∀ q text, r.take p ⟨q, .name text⟩ = .ok (r, e ⟨q, text⟩))
    (hfuel : 2 * i.size ≤ fuel + lack) :
    Follows lack ⟨r, .due p, i⟩ (fun name m => Later i r (.pulled (e name)) m) (name fuel) := by
  by_cases hkind : i.look.value.kind = .name
  · obtain ⟨text, hlook⟩ := Token.exists_name_of_kind hkind
    refine (follows_expect hkind (follows_accept hlook (htake _ text) hfuel)).bind ?_
    rintro t m ⟨rfl, hm⟩
    simp only [hlook]
    exact follows_pure hm
  · exact (follows_expect_fail (q := fun _ _ => False) (hexpected.resolve_left hkind) hkind).bind
      fun _ _ h => h.elim

theorem follows_literal {e : Located String → Effect} (hexpected : p.expected = .ofList [.integer])
    (htake : ∀ q lexeme, r.take p ⟨q, .integer lexeme⟩ = .ok (r, e ⟨q, lexeme⟩))
    (hfuel : 2 * i.size ≤ fuel + lack) :
    Follows lack ⟨r, .due p, i⟩ (fun size m => Later i r (.pulled (e size)) m)
      (literal fuel (.ofList [.integer])) := by
  by_cases hkind : i.look.value.kind = .integer
  · obtain ⟨lexeme, hlook⟩ := Token.exists_integer_of_kind hkind
    refine (follows_expect hkind (follows_accept hlook (htake _ lexeme) hfuel)).bind ?_
    rintro t m ⟨rfl, hm⟩
    simp only [hlook]
    exact follows_pure hm
  · exact (follows_expect_fail (q := fun _ _ => False) hexpected hkind).bind fun _ _ h => h.elim

theorem follows_typeWord {e : Ty → Effect} {ty : Ty} (hlook : i.look.value = ty.token)
    (htake : ∀ q (ty : Ty), r.take p ⟨q, ty.token⟩ = .ok (r, e ty))
    (hfuel : 2 * i.size ≤ fuel + lack) :
    Follows lack ⟨r, .due p, i⟩ (fun ty m => Later i r (.pulled (e ty)) m) (typeWord fuel) := by
  have haccept := follows_accept hlook (htake _ ty) hfuel
  refine follows_get ?_
  cases ty <;> simp only [Moment.parser_look, hlook, Ty.token] <;>
    exact haccept.bind fun _ _ hm => follows_pure hm.2

end Tokens

end BlockLang
