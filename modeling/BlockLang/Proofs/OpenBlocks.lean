import BlockLang.Proofs.Binding
import BlockLang.Proofs.Lookahead
import Mathlib.Logic.Function.Iterate

/-!
# Open blocks

The open blocks are counted three times: by the reader, by the stack of frames and by the stack of
blocks under construction. Whenever the reader asks the scanner for a result (`Asks`) the three
agree, and the number of the innermost frame is the place in preorder of the block that is being
filled (`Aligned`). `Tallied` is the invariant of a step from which this follows: the number of each
open block is computed from the items of the blocks around it. A block too many is refused before
anything is opened for it (`run_overflow`).
-/

namespace BlockLang

/-! ### Blocks in preorder -/

namespace Block

/-- The blocks inside a block at any depth, each before those inside it. -/
def innerBlocks : Block → List Block
  | .empty => []
  | .declare _ rest => rest.innerBlocks
  | .assign _ _ rest => rest.innerBlocks
  | .nest inner rest => inner :: (inner.innerBlocks ++ rest.innerBlocks)

/-- The blocks of a body in preorder. -/
def preorder (body : Block) : List Block := body :: body.innerBlocks

theorem innerBlocks_append (a b : Block) :
    (a ++ b).innerBlocks = a.innerBlocks ++ b.innerBlocks := by
  induction a with
  | empty => rfl
  | declare d rest ih => exact ih
  | assign target value rest ih => exact ih
  | nest inner rest _ ih => rw [nest_append, innerBlocks, innerBlocks, ih]; simp

theorem length_innerBlocks (b : Block) : b.innerBlocks.length = b.blocks := by
  induction b with
  | empty => rfl
  | declare d rest ih => exact ih
  | assign target value rest ih => exact ih
  | nest inner rest ihInner ih =>
    rw [innerBlocks, blocks, List.length_cons, List.length_append, ihInner, ih]
    omega

end Block

/-- The number of the innermost open block, from the items of the blocks around it. The last of
these is outside the body. -/
def numberOf : List Block → Nat
  | outer :: outermost :: rest => numberOf (outermost :: rest) + (outer.blocks + 1)
  | _ => 0

/-- The numbers of the open blocks, the innermost first. -/
def numbersOf : List Block → List Nat
  | [] => []
  | outer :: rest => numberOf (outer :: rest) :: numbersOf rest

/-- Once the blocks inside the body are closed, the innermost one stands in it under its number. -/
theorem exists_preorder_closeBlock {outer : Block} {rest : List Block} (b : Builder)
    (h : b.enclosing = outer :: rest) :
    ∃ before, (Builder.closeBlock^[rest.length] b).current.preorder =
      before ++ b.current.preorder ∧ before.length = numberOf (outer :: rest) := by
  induction rest generalizing outer b with
  | nil => exact ⟨[], rfl, rfl⟩
  | cons outermost rest ih =>
    rw [List.length_cons, Function.iterate_succ_apply, b.closeBlock_nested outer outermost rest h]
    obtain ⟨before, hpreorder, hlength⟩ := ih { b with
      current := outer ++ .nest b.current .empty, enclosing := outermost :: rest } rfl
    -- The block around it and the blocks that this one already holds come first.
    refine ⟨before ++ (outer ++ .nest b.current .empty) :: outer.innerBlocks, ?_, ?_⟩
    · rw [hpreorder, Block.preorder, Block.innerBlocks_append]
      simp [Block.preorder, Block.innerBlocks]
    · rw [List.length_append, List.length_cons, Block.length_innerBlocks, hlength, numberOf]

theorem Scopes.blocks_insert (s : Scopes) (symbol : Symbol) :
    (s.insert symbol).blocks = s.blocks := by
  obtain ⟨inner, global, blocks⟩ := s
  cases inner <;> rfl

/-! ### The invariant of a step -/

namespace Reader

/-- The three counts agree. The frames have the numbers of the open blocks, and the last number
given is that of the last block inside the innermost one. -/
structure Tallied (r : Reader) : Prop extends Lockstep r where
  outermost : (r.builder.current :: r.builder.enclosing).getLast? = some .empty
  path : r.scopes.path = numbersOf r.builder.enclosing
  last : r.builder.enclosing ≠ [] →
    r.scopes.blocks = numberOf r.builder.enclosing + r.builder.current.blocks

theorem tallied_new : Reader.new.Tallied :=
  ⟨⟨rfl, rfl, Nat.zero_le _⟩, rfl, rfl, fun h => absurd rfl h⟩

theorem Tallied.inner_eq_nil_iff {r : Reader} (h : r.Tallied) :
    r.scopes.inner = [] ↔ r.builder.enclosing = [] := by
  rw [← List.length_eq_zero_iff, ← List.length_eq_zero_iff, h.scopes, h.builder]

theorem nextBlock_of_tallied {r : Reader} (h : r.Tallied) :
    r.scopes.nextBlock = numberOf (r.builder.current :: r.builder.enclosing) := by
  by_cases hopen : r.builder.enclosing = []
  · rw [Scopes.nextBlock, if_pos (h.inner_eq_nil_iff.mpr hopen), hopen]
    rfl
  · rw [Scopes.nextBlock, if_neg (mt h.inner_eq_nil_iff.mp hopen), h.last hopen, Nat.add_assoc]
    obtain ⟨outer, rest, hcons⟩ := List.exists_cons_of_ne_nil hopen
    rw [hcons, numberOf]

theorem tallied_open {r : Reader} (h : r.Tallied) (room : r.nesting ≠ maxNesting) :
    Tallied ⟨r.nesting + 1, r.scopes.openFrame, r.builder.openBlock⟩ := by
  have hnext := nextBlock_of_tallied h
  have hroom : r.nesting < maxNesting := Nat.lt_of_le_of_ne h.limit room
  refine ⟨lockstep_open h.toLockstep hroom, h.outermost, ?_, fun _ => hnext⟩
  exact congr (congrArg List.cons hnext) h.path

theorem tallied_close {r : Reader} (h : r.Tallied) (hopen : r.builder.enclosing ≠ []) :
    Tallied ⟨r.nesting - 1, r.scopes.closeFrame, r.builder.closeBlock⟩ := by
  have hinner : r.scopes.closeFrame.inner.length = r.nesting - 1 := by
    rw [← h.scopes]
    exact List.length_tail
  have hlimit : r.nesting - 1 ≤ maxNesting := Nat.le_trans (Nat.sub_le ..) h.limit
  have hpath : r.scopes.closeFrame.path = (numbersOf r.builder.enclosing).tail := by
    rw [← h.path]
    exact List.map_tail
  have hlength := h.builder
  have houtermost := h.outermost
  have hlast := h.last hopen
  obtain ⟨outer, rest, hcons⟩ := List.exists_cons_of_ne_nil hopen
  rw [hcons] at hlength houtermost hlast hpath
  -- Closing the body leaves what is outside it; closing any other block adds it to the one around.
  cases rest with
  | nil =>
    rw [r.builder.closeBlock_outermost outer hcons]
    refine ⟨⟨hinner, ?_, hlimit⟩, houtermost, hpath, fun hne => absurd rfl hne⟩
    exact congrArg (· - 1) hlength
  | cons inner rest =>
    rw [r.builder.closeBlock_nested outer inner rest hcons]
    refine ⟨⟨hinner, congrArg (· - 1) hlength, hlimit⟩, houtermost, hpath, fun _ => ?_⟩
    rw [numberOf] at hlast
    simp only [Scopes.closeFrame, Block.blocks_append, Block.blocks]
    omega

theorem Tallied.insert {r : Reader} (h : r.Tallied) (symbol : Symbol) :
    Tallied { r with scopes := r.scopes.insert symbol } := by
  have hpath := Scopes.path_insert r.scopes symbol
  have hlength : (r.scopes.insert symbol).inner.length = r.scopes.inner.length := by
    simpa [Scopes.path] using congrArg List.length hpath
  exact ⟨⟨hlength.trans h.scopes, h.builder, h.limit⟩, h.outermost, hpath.trans h.path,
    fun hopen => (Scopes.blocks_insert ..).trans (h.last hopen)⟩

/-- Items without blocks leave the numbers as they are. -/
theorem Tallied.add {r : Reader} (h : r.Tallied) (hopen : r.builder.enclosing ≠ []) {items : Block}
    (hitems : items.blocks = 0) : Tallied { r with builder := r.builder.add items } := by
  refine ⟨⟨h.scopes, h.builder, h.limit⟩, ?_, h.path, fun _ => ?_⟩
  · show ((r.builder.current ++ items) :: r.builder.enclosing).getLast? = some .empty
    rw [List.getLast?_cons_of_ne_nil hopen, ← List.getLast?_cons_of_ne_nil hopen]
    exact h.outermost
  · show r.scopes.blocks = numberOf r.builder.enclosing + (r.builder.current ++ items).blocks
    rw [Block.blocks_append, hitems, Nat.add_zero, h.last hopen]

theorem tallied_declaring {r : Reader} (h : r.Tallied) (hopen : r.builder.enclosing ≠ [])
    (d : Declarator) : (r.declaring d).Tallied :=
  (h.insert _).add hopen rfl

theorem open_of_sane {r : Reader} {p : Point} (h : (r.control p).Sane)
    (hp : p.place.inBlock = true) : r.builder.enclosing ≠ [] := by
  intro hnil
  have hout : p.place.inBlock = false := h.mp (List.length_eq_zero_iff.mpr hnil)
  rw [hp] at hout
  cases hout

theorem tallied_step {r r' : Reader} {p p' : Point} {t : Located Token} (h : r.Tallied)
    (hsane : (r.control p).Sane) (hstep : Step r p t r' p') : r'.Tallied := by
  have hopen : p.place.inBlock = true → r.builder.enclosing ≠ [] := open_of_sane hsane
  cases hstep with
  | functionName q ty name fresh => exact h.insert _
  | functionClose q ty name => exact ⟨⟨h.scopes, h.builder, h.limit⟩, h.outermost, h.path, h.last⟩
  | mainClose q => exact ⟨⟨h.scopes, h.builder, h.limit⟩, h.outermost, h.path, h.last⟩
  | bodyOpen q room => exact tallied_open h room
  | blockOpen q room => exact tallied_open h room
  | blockClose q => exact tallied_close h (hopen rfl)
  | comma q d fresh => exact tallied_declaring h (hopen rfl) d
  | semicolon q d fresh => exact tallied_declaring h (hopen rfl) d
  | assign q a o fits => exact h.add (hopen rfl) rfl
  | _ => exact h

theorem tallied_of_reads {ts : List (Located Token)} {s : Reader × Point}
    (h : Reader.new.reads .top ts = some s) : s.1.Tallied ∧ (s.1.control s.2).Sane := by
  have htop : Reader.new.Tallied ∧ (Reader.new.control .top).Sane :=
    ⟨tallied_new, iff_of_true rfl rfl⟩
  refine invariant_of_reads (P := fun r p _ => r.Tallied ∧ (r.control p).Sane) ?_ [] htop h
  -- Which blocks are open is known from the place, so that the two are carried together.
  intro r p t r' p' _ hr hstep
  exact ⟨tallied_step hr.1 hr.2 hstep, Control.sane_step hr.2 (step_control hstep)⟩

end Reader

/-! ### Moments at which a result is asked for -/

/-- Reading the text has left these records, and the reader now asks for the first result of this
stream. The effect is that of the last token taken. -/
inductive Asks (source : String) : List Record → Reader → Effect → TokenStream → Prop
  | first : Asks source [] .new (.goTo .top) (Scanner.ofText source).stream
  | next {records : List Record} {r : Reader} {e : Effect} {t : Located Token} {rest : TokenStream}
      {s : Reader × Effect} (earlier : Asks source records r e (.token t rest))
      (accepts : (r.accept e t).result = .ok s) :
      Asks source (records ++ .token t :: (r.accept e t).records) s.1 s.2 rest

theorem pulled_ne_nil (before : List Record) (t : Located Token) (after : List Record) :
    pulled (before ++ .token t :: after) ≠ [] := by
  rw [pulled_append]
  exact List.append_ne_nil_of_right_ne_nil _ (List.cons_ne_nil t (pulled after))

/-- The record of a token stands after all records of a stage that pulls none. -/
theorem split_of_pulled_eq_nil {quiet rest before after : List Record} {t : Located Token}
    (hquiet : pulled quiet = []) (h : quiet ++ rest = before ++ .token t :: after) :
    ∃ between, before = quiet ++ between ∧ rest = between ++ .token t :: after := by
  rcases List.append_eq_append_iff.mp h with hbefore | ⟨between, hsplit, hafter⟩
  · exact hbefore
  · cases between with
    | nil => exact ⟨[], by simpa using hsplit.symm, by simpa using hafter.symm⟩
    | cons record between =>
      obtain ⟨rfl, -⟩ := List.cons.inj hafter
      rw [hsplit] at hquiet
      exact absurd hquiet (pulled_ne_nil before t between)

namespace Reader
open Traced

theorem exists_take_of_accept {r : Reader} {e : Effect} {t : Located Token} {s : Reader × Effect}
    (h : (r.accept e t).result = .ok s) :
    ∃ s', (r.settle e).result = .ok s' ∧ (s'.1.take s'.2 t).value? = some s := by
  have hvalue := result_eq_ok_iff.mp h
  rw [accept, value?_bind] at hvalue
  obtain ⟨s', hsettle, htake⟩ := Option.bind_eq_some_iff.mp hvalue
  exact ⟨s', result_eq_ok_iff.mpr hsettle, htake⟩

theorem pulled_accept (records : List Record) (r : Reader) (e : Effect) (t : Located Token) :
    pulled (records ++ .token t :: (r.accept e t).records) = pulled records ++ [t] := by
  rw [pulled_append]
  exact congrArg (fun ts => pulled records ++ t :: ts) (r.quiet_accept e t)

theorem reader_of_declare {r : Reader} {d : Declarator} {e : Effect} {s : Reader × Effect}
    (h : (r.declare d e).value? = some s) : s.1 = r.declaring d := by
  simp only [declare, value?_bind, value?_check, Scopes.toOption_declareVariable] at h
  split at h
  · cases h
    rfl
  · cases h

/-- Taking a token changes nothing but what a declarator that it ends declares. -/
theorem reader_of_take {r : Reader} {p : Point} {t : Located Token} {s : Reader × Effect}
    (h : (r.take p t).value? = some s) :
    s.1 = r ∨ ∃ d, p = .declarator d ∧ s.1 = r.declaring d := by
  have htakes := takes_take r p t
  generalize r.take p t = x at h htakes
  cases htakes with
  | accepts row =>
    cases h
    exact .inl rfl
  | comma q d => exact .inr ⟨d, rfl, reader_of_declare h⟩
  | semicolon q d => exact .inr ⟨d, rfl, reader_of_declare h⟩
  | assigns q a o =>
    obtain ⟨u, -, hrest⟩ := Option.bind_eq_some_iff.mp ((value?_bind ..).symm.trans h)
    cases hrest
    exact .inl rfl
  | refuses misplaced => cases h

theorem effect_of_openBrace {r : Reader} {p : Point} {q : Position} {s : Reader × Effect}
    (h : (r.take p ⟨q, .mark .openBrace⟩).value? = some s) : s.2 = .openBlock q := by
  cases p <;> cases h <;> rfl

theorem openBlock_of_subject {e : Effect} {q : Position}
    (h : e.subject? = some ⟨q, .mark .openBrace⟩) : e = .openBlock q := by
  cases e <;> cases h
  rfl

end Reader

namespace Asks
open Traced
variable {source : String} {records : List Record} {r : Reader} {e : Effect} {rest : TokenStream}

theorem after_pulled (h : Asks source records r e rest) :
    Reader.new.after (.goTo .top) (pulled records) = some (r, e) := by
  induction h with
  | first => rfl
  | next earlier accepts ih =>
    rw [Reader.pulled_accept, Reader.after_concat, ih, Option.bind_some]
    exact result_eq_ok_iff.mp accepts

/-- The rest of the run starts from the reader that asks. -/
theorem run_eq (h : Asks source records r e rest) :
    Reader.new.run (.goTo .top) (Scanner.ofText source).stream =
      ⟨records ++ (r.run e rest).records, (r.run e rest).result⟩ := by
  induction h with
  | first => rfl
  | next earlier accepts ih =>
    rw [ih, Reader.run_accept, emit_bind, bind_of_ok accepts]
    simp

theorem tallied (h : Asks source records r e rest) : r.Tallied := by
  cases h with
  | first => exact Reader.tallied_new
  | next earlier accepts =>
    obtain ⟨s, hsettle, htake⟩ := Reader.exists_take_of_accept accepts
    obtain ⟨htallied, hsane⟩ :=
      Reader.tallied_of_reads (Reader.reads_of_settle earlier.after_pulled hsettle)
    rcases Reader.reader_of_take htake with hsame | ⟨d, hp, hdeclaring⟩
    · rwa [hsame]
    · rw [hdeclaring]
      exact Reader.tallied_declaring htallied (Reader.open_of_sane hsane (by rw [hp]; rfl)) d

/-- A block is due exactly when the last token taken is its brace. -/
theorem openBlock_iff (h : Asks source records r e rest) (q : Position) :
    e = .openBlock q ↔ (pulled records).getLast? = some ⟨q, .mark .openBrace⟩ := by
  cases h with
  | first => simp [pulled]
  | @next _ _ _ t _ s earlier accepts =>
    obtain ⟨s', hsettle, htake⟩ := Reader.exists_take_of_accept accepts
    rw [Reader.pulled_accept, List.getLast?_concat, Option.some.injEq]
    constructor
    · intro heffect
      have hsubject : s.2.subject? = some ⟨q, .mark .openBrace⟩ := by rw [heffect]; rfl
      exact (Reader.subject_of_take htake _ hsubject).symm
    · rintro rfl
      exact Reader.effect_of_openBrace htake

/-- A run that fails stops at one of the moments at which it asks for a result. -/
theorem exists_stops {d : Diagnostic} (h : Asks source records r e rest)
    (herror : (r.run e rest).result = .error d) :
    ∃ records' r' e' rest', Asks source records' r' e' rest' ∧
      ∃ last ∈ rest'.results.head?, r'.Stops e' d last := by
  induction rest generalizing records r e with
  | token t rest ih =>
    rcases Reader.accept_cases r e t with ⟨s, hresult, -⟩ | ⟨d', hresult, -⟩
    · rw [Reader.result_run_of_accept hresult] at herror
      exact ih (.next h hresult) herror
    · rw [Reader.result_run_of_refuse hresult] at herror
      cases herror
      exact ⟨records, r, e, _, h, .token t, rfl, hresult⟩
  | done p => exact ⟨records, r, e, _, h, .done, rfl, herror⟩
  | failure error =>
    cases herror
    exact ⟨records, r, e, _, h, .failure error, rfl, rfl⟩

/-- Every token that the rest of the run records is the answer at one of these moments. -/
theorem exists_of_record {before after : List Record} {t : Located Token}
    (h : Asks source records r e rest)
    (hrecords : (r.run e rest).records = before ++ .token t :: after) :
    ∃ r' e' rest', Asks source (records ++ before) r' e' (.token t rest') := by
  induction rest generalizing records r e before with
  | token u rest ih =>
    rw [Reader.run_accept, emit_bind] at hrecords
    cases before with
    | nil =>
      cases hrecords
      rw [List.append_nil]
      exact ⟨r, e, rest, h⟩
    | cons record before =>
      obtain ⟨hrecord, hlater⟩ := List.cons.inj hrecords
      subst hrecord
      have hquiet := r.quiet_accept e u
      rcases Reader.accept_cases r e u with ⟨s, hresult, -⟩ | ⟨d, hresult, -⟩
      · rw [bind_of_ok hresult] at hlater
        obtain ⟨before, rfl, hrest⟩ := split_of_pulled_eq_nil hquiet hlater
        obtain ⟨r', e', rest', hasks⟩ := ih (.next h hresult) hrest
        refine ⟨r', e', rest', ?_⟩
        rwa [List.append_assoc] at hasks
      · rw [bind_of_error hresult] at hlater
        have hlater : (r.accept e u).records = before ++ .token t :: after := hlater
        rw [hlater] at hquiet
        exact absurd hquiet (pulled_ne_nil before t after)
  | done p =>
    have hquiet := r.pulled_run e (.done p)
    rw [hrecords] at hquiet
    exact absurd hquiet (pulled_ne_nil before t after)
  | failure error =>
    have hquiet := r.pulled_run e (.failure error)
    rw [hrecords] at hquiet
    exact absurd hquiet (pulled_ne_nil before t after)

end Asks

/-! ### The counts of the open blocks -/

/-- The counts of the open blocks agree, and the innermost frame has the number of the block that is
being filled. -/
structure Reader.Aligned (r : Reader) : Prop where
  depth : r.scopes.depth = r.nesting + 1
  enclosing : r.builder.enclosing.length = r.nesting
  limit : r.nesting ≤ maxNesting
  outside : r.nesting = 0 → r.builder.current = .empty
  /-- Whatever items the innermost block is given, it stands under that number in the preorder of
  the body once the blocks inside the body are closed. -/
  numbered : 0 < r.nesting → ∀ items,
    (Builder.closeBlock^[r.nesting - 1]
      { r.builder with current := items }).current.preorder[r.scopes.current.block]? = some items

namespace Reader
open Traced

theorem aligned_of_tallied {r : Reader} (h : r.Tallied) : r.Aligned := by
  refine ⟨congrArg (· + 1) h.scopes, h.builder, h.limit, ?_, ?_⟩
  · intro hzero
    have houtermost := h.outermost
    rw [List.length_eq_zero_iff.mp (h.builder.trans hzero)] at houtermost
    exact Option.some.inj houtermost
  · intro hpos items
    obtain ⟨outer, rest, hcons⟩ := List.exists_cons_of_length_pos (h.builder.symm ▸ hpos)
    have hrest : rest.length = r.nesting - 1 := by
      rw [← h.builder, hcons]
      rfl
    have hblock : r.scopes.current.block = numberOf (outer :: rest) := by
      have hpath := h.path
      rw [hcons, Scopes.path] at hpath
      obtain ⟨f, frames, hinner, hf, -⟩ := List.map_eq_cons_iff.mp hpath
      rw [Scopes.current, hinner]
      exact hf
    obtain ⟨before, hpreorder, hlength⟩ :=
      exists_preorder_closeBlock { r.builder with current := items } hcons
    rw [← hrest, hpreorder, hblock, ← hlength]
    simp [Block.preorder]

/-- After the main block all blocks are closed. -/
theorem closed_of_run {ts : List (Located Token)} {ending : Position} {r : Reader}
    (h : (Reader.new.run (.goTo .top) (.prepend ts (.done ending))).result = .ok r) :
    r.Tallied ∧ r.nesting = 0 := by
  have hvalue : (Reader.new.reads .top ts).bind finished = some r :=
    (value?_run ..).symm.trans (result_eq_ok_iff.mp h)
  obtain ⟨s, hreads, hfinished⟩ := Option.bind_eq_some_iff.mp hvalue
  obtain ⟨hplace, hreader⟩ := Option.ite_none_right_eq_some.mp hfinished
  obtain ⟨htallied, hsane⟩ := tallied_of_reads hreads
  cases hreader
  refine ⟨htallied, htallied.builder.symm.trans (hsane.mpr ?_)⟩
  rw [control, hplace]
  rfl

/-! ### A block too many -/

theorem settle_tooDeep {r : Reader} {e : Effect} {position : Option Position}
    (h : (r.settle e).result = .error ⟨.syntactic .tooDeep, position⟩) :
    ∃ q, position = some q ∧ e = .openBlock q ∧ r.nesting = maxNesting := by
  obtain ⟨⟨q, t⟩, hsubject, fault, hfault, hd⟩ := blames_of_settle h
  cases hd
  cases hfault
  obtain rfl := openBlock_of_subject hsubject
  refine ⟨q, rfl, rfl, ?_⟩
  have hopen : (r.openBlock q).result = .error ⟨.syntactic .tooDeep, some q⟩ := h
  unfold openBlock at hopen
  split at hopen
  · assumption
  · cases hopen

theorem run_overflow {r : Reader} (full : r.nesting = maxNesting) (q : Position)
    {rest : TokenStream} (hrest : rest.next? ≠ none) :
    r.run (.openBlock q) rest =
      ⟨rest.first.map .token, .error ⟨.syntactic .tooDeep, some q⟩⟩ := by
  have hsettle : r.settle (.openBlock q) = .fail (.syntactic ⟨q, .tooDeep⟩) := if_pos full
  cases rest with
  | token t rest =>
    rw [run_token, hsettle]
    rfl
  | done p =>
    rw [run_done, hsettle]
    rfl
  | failure error => exact absurd rfl hrest

/-- Only an effect that is refused leads to a block too many. -/
theorem settle_of_stops {ts : List (Located Token)} {s : Reader × Effect}
    (hafter : Reader.new.after (.goTo .top) ts = some s) {position : Option Position} {last : Scan}
    (h : s.1.Stops s.2 ⟨.syntactic .tooDeep, position⟩ last) :
    (∀ error, last ≠ .failure error) ∧
      (s.1.settle s.2).result = .error ⟨.syntactic .tooDeep, position⟩ := by
  rcases stops_cases h with ⟨error, -, hd⟩ | hsettle | ⟨s', hsettle, ⟨t, -, htake⟩ | ⟨-, hd⟩⟩
  · cases hd
  · exact hsettle
  · have hreads := reads_of_settle hafter hsettle
    rcases refused_of_take (undeclared_of_reads hreads) htake with hd | ⟨a, o, q, -, -, hd⟩
    · cases hd
    · cases hd
  · cases hd

end Reader

/-- The last token taken is the brace at this position, with as many blocks open as may be. The next
result is no lexical error, so that the brace is consumed. -/
structure Overflows (records : List Record) (r : Reader) (rest : TokenStream) (q : Position) :
    Prop where
  brace : (pulled records).getLast? = some ⟨q, .mark .openBrace⟩
  full : r.nesting = maxNesting
  consumed : rest.next? ≠ none

theorem run_of_overflows {source : String} {records : List Record} {r : Reader} {e : Effect}
    {rest : TokenStream} {q : Position} (h : Asks source records r e rest)
    (hover : Overflows records r rest q) :
    Reader.new.run (.goTo .top) (Scanner.ofText source).stream =
      ⟨records ++ rest.first.map .token, .error ⟨.syntactic .tooDeep, some q⟩⟩ := by
  obtain rfl := (h.openBlock_iff q).mpr hover.brace
  rw [h.run_eq, Reader.run_overflow hover.full q hover.consumed]

theorem exists_overflows {source : String} {position : Option Position}
    (h : (readProgram source).result = .error ⟨.syntactic .tooDeep, position⟩) :
    ∃ q records r e rest, position = some q ∧ Asks source records r e rest ∧
      Overflows records r rest q := by
  obtain ⟨records, r, e, rest, hasks, last, hlast, hstops⟩ :=
    Asks.first.exists_stops ((error_of_readProgram_iff source _).mp h)
  obtain ⟨hfailure, hsettle⟩ := Reader.settle_of_stops hasks.after_pulled hstops
  obtain ⟨q, hq, heffect, hfull⟩ := Reader.settle_tooDeep hsettle
  refine ⟨q, records, r, e, rest, hq, hasks, (hasks.openBlock_iff q).mp heffect, hfull, ?_⟩
  cases rest with
  | failure error =>
    cases hlast
    exact absurd rfl (hfailure error)
  | _ => simp [TokenStream.next?]

theorem exists_reader_of_ok {source : String} {p : Program}
    (h : (readProgram source).result = .ok p) :
    ∃ r, (Reader.new.run (.goTo .top) (Scanner.ofText source).stream).result = .ok r ∧
      r.builder.program = p ∧ r.Aligned ∧ r.nesting = 0 := by
  obtain ⟨ts, ending, hstream, -⟩ := pulls_of_readProgram_ok h
  rw [readProgram_eq] at h
  cases hrun : (Reader.new.run (.goTo .top) (Scanner.ofText source).stream).result with
  | error d =>
    rw [Traced.bind_of_error hrun] at h
    cases h
  | ok r =>
    rw [Traced.bind_of_ok hrun] at h
    rw [hstream] at hrun
    obtain ⟨htallied, hzero⟩ := Reader.closed_of_run hrun
    exact ⟨r, rfl, Except.ok.inj h, Reader.aligned_of_tallied htallied, hzero⟩

/-- Whenever a result is asked for, the counts of the open blocks agree. All blocks are closed at
the end of a program, and a block too many is refused before anything is opened for it. -/
theorem aligned_readProgram (source : String) :
    (∀ before t after, (readProgram source).records = before ++ .token t :: after →
      ∃ r e rest, Asks source before r e (.token t rest)) ∧
    (∀ records r e rest, Asks source records r e rest → r.Aligned) ∧
    (∀ p, (readProgram source).result = .ok p →
      ∃ r, (Reader.new.run (.goTo .top) (Scanner.ofText source).stream).result = .ok r ∧
        r.builder.program = p ∧ r.Aligned ∧ r.nesting = 0) ∧
    (∀ position, (readProgram source).result = .error ⟨.syntactic .tooDeep, position⟩ ↔
      ∃ q records r e rest, position = some q ∧ Asks source records r e rest ∧
        Overflows records r rest q) ∧
    ∀ q records r e rest, Asks source records r e rest → Overflows records r rest q →
      (readProgram source).records = records ++ rest.first.map .token := by
  refine ⟨?_, fun _ _ _ _ h => Reader.aligned_of_tallied h.tallied,
    fun _ => exists_reader_of_ok, ?_, ?_⟩
  · intro before t after hrecords
    rw [records_readProgram] at hrecords
    exact Asks.first.exists_of_record hrecords
  · intro position
    refine ⟨exists_overflows, ?_⟩
    rintro ⟨q, records, r, e, rest, rfl, hasks, hover⟩
    rw [error_of_readProgram_iff, run_of_overflows hasks hover]
  · intro q records r e rest hasks hover
    rw [records_readProgram, run_of_overflows hasks hover]

/-- A main block with one block too many, each inside the one before. -/
def overfull : List Char := "main()".toList ++ List.replicate 257 '\x7b'

theorem aligned_overfull :
    (readProgram (.ofList overfull)).result = .error ⟨.syntactic .tooDeep, some ⟨1, 263⟩⟩ ∧
    ∃ records r e rest, Asks (.ofList overfull) records r e rest ∧ r.Aligned ∧
      r.scopes.depth = 257 ∧
      (readProgram (.ofList overfull)).records = records ++ rest.first.map .token := by
  have hscanner : Scanner.ofText (.ofList overfull) = .standing .start overfull := by
    rw [Scanner.ofText_eq_standing, String.toList_ofList]
  have hresult : (readProgram (.ofList overfull)).result =
      .error ⟨.syntactic .tooDeep, some ⟨1, 263⟩⟩ := by
    apply Traced.result_eq_error_iff.mpr
    unfold readProgram
    rw [hscanner]
    decide +kernel
  obtain ⟨-, haligned, -, htooDeep, hrecords⟩ := aligned_readProgram (.ofList overfull)
  obtain ⟨q, records, r, e, rest, -, hasks, hover⟩ := (htooDeep _).mp hresult
  have hr := haligned records r e rest hasks
  refine ⟨hresult, records, r, e, rest, hasks, hr, ?_, hrecords q records r e rest hasks hover⟩
  rw [hr.depth, hover.full]
  rfl

end BlockLang
