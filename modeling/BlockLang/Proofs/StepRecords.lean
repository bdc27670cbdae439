import BlockLang.Proofs.OpenBlocks

/-!
# What the steps of a run record

A run settles a token only when the next one is there, so that its records of tokens stand between
those of the steps. Without them the records of a run are those of its steps, each settled at once
(`walk`), also where the run fails: a stage that fails records nothing, and what is never settled is
not recorded (`exists_walkedTo_of_run`). An invariant of the steps and their records is therefore an
invariant of runs.
-/

namespace BlockLang

def Record.isToken : Record → Bool
  | .token _ => true
  | _ => false

/-- The records that are not of tokens. -/
def noted (records : List Record) : List Record := records.filter (fun record => !record.isToken)

theorem noted_append (xs ys : List Record) : noted (xs ++ ys) = noted xs ++ noted ys :=
  List.filter_append ..

theorem noted_of_quiet {records : List Record} (h : pulled records = []) :
    noted records = records := by
  refine List.filter_eq_self.mpr ?_
  intro record hmem
  have hnone := List.filterMap_eq_nil_iff.mp h record hmem
  cases record with
  | token t => cases hnone
  | _ => rfl

/-- A part of the records that has no tokens is a part of the noted ones. -/
theorem filter_noted {keep : Record → Bool} (h : ∀ t, keep (.token t) = false)
    (records : List Record) : (noted records).filter keep = records.filter keep := by
  rw [noted, List.filter_filter]
  refine List.filter_congr ?_
  intro record _
  cases record with
  | token t => rw [h t, Bool.false_and]
  | _ => exact Bool.and_true _

namespace Reader
open Traced

/-- Accept one token and settle at once what it does. -/
def stepped (r : Reader) (p : Point) (t : Located Token) : Traced (Reader × Point) := do
  let s ← r.take p t
  s.1.settle s.2

/-- Make the steps of some tokens. -/
def walk (r : Reader) (p : Point) : List (Located Token) → Traced (Reader × Point)
  | [] => return (r, p)
  | t :: ts => do
    let s ← r.stepped p t
    s.1.walk s.2 ts

theorem value?_stepped (r : Reader) (p : Point) (t : Located Token) :
    (r.stepped p t).value? = r.step p t :=
  value?_bind ..

theorem walk_concat (r : Reader) (p : Point) (ts : List (Located Token)) (t : Located Token) :
    r.walk p (ts ++ [t]) = r.walk p ts >>= fun s => s.1.stepped s.2 t := by
  induction ts generalizing r p with
  | nil => exact bind_pure (r.stepped p t)
  | cons u ts ih =>
    rw [List.cons_append, walk, walk, bind_assoc]
    exact congrArg (r.stepped p u >>= ·) (funext fun s => ih s.1 s.2)

theorem invariant_of_walk {P : Reader → Point → List (Located Token) → List Record → Prop}
    (hstep : ∀ {r p t r' p' ts records}, P r p ts records → Step r p t r' p' →
      P r' p' (ts ++ [t]) (records ++ (r.stepped p t).records))
    {r : Reader} {p : Point} {ts : List (Located Token)} {s : Reader × Point}
    (before : List (Located Token)) (records : List Record) (hP : P r p before records)
    (h : (r.walk p ts).result = .ok s) :
    P s.1 s.2 (before ++ ts) (records ++ (r.walk p ts).records) := by
  induction ts generalizing r p before records with
  | nil =>
    cases h
    rw [List.append_nil]
    exact (List.append_nil records).symm ▸ hP
  | cons t ts ih =>
    have hvalue := result_eq_ok_iff.mp h
    rw [walk, value?_bind, value?_stepped] at hvalue
    obtain ⟨next, hnext, hrest⟩ := Option.bind_eq_some_iff.mp hvalue
    have hstepped : (r.stepped p t).result = .ok next :=
      result_eq_ok_iff.mpr ((value?_stepped r p t).trans hnext)
    have hrun := ih (before ++ [t]) _ (hstep hP (step_iff.mp hnext)) (result_eq_ok_iff.mpr hrest)
    rw [walk, bind_of_ok hstepped]
    rwa [List.append_assoc, List.append_assoc] at hrun

/-! ### Stages that fail or wait record nothing -/

theorem records_of_check_error {α β : Type} {x : Except (Located SemanticError) α}
    {f : α → Traced β} {d : Diagnostic} (h : (check x >>= f).result = .error d)
    (hf : ∀ a, ∃ b, (f a).result = .ok b) : (check x >>= f).records = [] := by
  obtain ⟨e, rfl, -⟩ := error_of_check_bind h hf
  rfl

theorem records_of_settle_error {r : Reader} {e : Effect} {d : Diagnostic}
    (h : (r.settle e).result = .error d) : (r.settle e).records = [] := by
  cases e with
  | goTo p => cases h
  | nameFunction ty name => exact records_of_check_error h fun _ => ⟨_, rfl⟩
  | beginFunction ty name => cases h
  | beginMain => cases h
  | openBlock brace =>
    show (r.openBlock brace).records = []
    have hopen : (r.openBlock brace).result = .error d := h
    unfold openBlock at hopen ⊢
    split at hopen
    · rename_i full
      rw [if_pos full]
      rfl
    · cases hopen
  | closeBlock =>
    have hclose : r.closeBlock.result = .error d := h
    unfold closeBlock at hclose
    cases hcompletes : r.builder.completes <;> rw [hcompletes] at hclose <;> cases hclose
  | nameVariable ty name => exact records_of_check_error h fun _ => ⟨_, rfl⟩
  | addSize declarator size => exact records_of_check_error h fun _ => ⟨_, rfl⟩
  | nameAssignee name => exact records_of_check_error h fun _ => ⟨_, rfl⟩
  | readOperand a context name => exact records_of_check_error h fun _ => ⟨_, rfl⟩
  | assign target value => cases h

theorem records_of_take_error {r : Reader} {p : Point} {t : Located Token} {d : Diagnostic}
    (h : (r.take p t).result = .error d) : (r.take p t).records = [] := by
  have htakes := takes_take r p t
  generalize r.take p t = x at h htakes
  cases htakes with
  | accepts row => rfl
  | comma q d => exact records_of_check_error h fun _ => ⟨_, rfl⟩
  | semicolon q d => exact records_of_check_error h fun _ => ⟨_, rfl⟩
  | assigns q a o => exact records_of_check_error h fun _ => ⟨_, rfl⟩
  | refuses misplaced => rfl

/-- A token whose acceptance is recorded has no effect left that could fail. -/
theorem goTo_of_take {r : Reader} {p : Point} {t : Located Token} {s : Reader × Effect}
    (h : (r.take p t).value? = some s) : (r.take p t).records = [] ∨ ∃ p', s.2 = .goTo p' := by
  have htakes := takes_take r p t
  generalize r.take p t = x at h htakes
  cases htakes with
  | accepts row => exact .inl rfl
  | comma q d => exact .inr ⟨_, effect_of_declare h⟩
  | semicolon q d => exact .inr ⟨_, effect_of_declare h⟩
  | assigns q a o =>
    refine .inl ?_
    cases checkAssignment a.name a.target o.toExpr <;> rfl
  | refuses misplaced => exact .inl rfl

theorem records_accept {r : Reader} {e : Effect} {t : Located Token} {s : Reader × Point}
    (h : (r.settle e).result = .ok s) :
    (r.accept e t).records = (r.settle e).records ++ (s.1.take s.2 t).records := by
  rw [accept, bind_of_ok h]

theorem records_run_done (r : Reader) (e : Effect) (p : Position) :
    (r.run e (.done p)).records = (r.settle e).records := by
  rw [run_done]
  cases hsettle : (r.settle e).result with
  | ok s =>
    rw [bind_of_ok hsettle]
    refine (congrArg ((r.settle e).records ++ ·) ?_).trans (List.append_nil _)
    split <;> rfl
  | error d => rw [bind_of_error hsettle]

end Reader

/-! ### The records of a run -/

/-- These are the records of the steps of some of the tokens recorded, which have led to this reader
and place. -/
def WalkedTo (records : List Record) (s : Reader × Point) : Prop :=
  ∃ ts, Reader.new.walk .top ts = ⟨noted records, .ok s⟩ ∧ ts <+: pulled records

theorem WalkedTo.congr {records records' : List Record} {s : Reader × Point}
    (h : WalkedTo records s) (hnoted : noted records' = noted records)
    (hpulled : pulled records <+: pulled records') : WalkedTo records' s := by
  obtain ⟨ts, hwalk, hts⟩ := h
  exact ⟨ts, hnoted ▸ hwalk, hts.trans hpulled⟩

namespace Asks
open Traced
variable {source : String} {records : List Record} {r : Reader} {e : Effect} {rest : TokenStream}

theorem noted_accept (records : List Record) (r : Reader) (e : Effect) (t : Located Token) :
    noted (records ++ .token t :: (r.accept e t).records) =
      noted records ++ (r.accept e t).records := by
  rw [noted_append]
  exact congrArg (noted records ++ ·) (noted_of_quiet (r.quiet_accept e t))

theorem noted_settle (records : List Record) (r : Reader) (e : Effect) :
    noted (records ++ (r.settle e).records) = noted records ++ (r.settle e).records := by
  rw [noted_append, noted_of_quiet (r.inert_settle e).quiet]

/-- Once the last token is settled, all tokens taken have made their steps. -/
theorem walk_of_settle (h : Asks source records r e rest) {s : Reader × Point}
    (hsettle : (r.settle e).result = .ok s) :
    Reader.new.walk .top (pulled records) = ⟨noted records ++ (r.settle e).records, .ok s⟩ := by
  induction h generalizing s with
  | first =>
    cases hsettle
    rfl
  | @next records r e t rest next earlier accepts ih =>
    obtain ⟨at', hsettle', htake⟩ := Reader.exists_take_of_accept accepts
    have hstepped : at'.1.stepped at'.2 t =
        ⟨(at'.1.take at'.2 t).records ++ (next.1.settle next.2).records, .ok s⟩ := by
      rw [Reader.stepped, bind_of_ok (result_eq_ok_iff.mpr htake), hsettle]
    rw [Reader.pulled_accept, Reader.walk_concat, ih hsettle', noted_accept,
      Reader.records_accept hsettle', bind_of_ok rfl, hstepped]
    simp only [List.append_assoc]

theorem walkedTo_of_settle (h : Asks source records r e rest) {s : Reader × Point}
    (hsettle : (r.settle e).result = .ok s) : WalkedTo (records ++ (r.settle e).records) s := by
  refine ⟨pulled records, ?_, ?_⟩
  · rw [h.walk_of_settle hsettle, noted_settle]
  · rw [pulled_append]
    exact List.prefix_append _ _

/-- A token that is never settled has at most declared a variable, and then has nothing to
settle. -/
theorem exists_walkedTo (h : Asks source records r e rest) : ∃ s, WalkedTo records s := by
  cases h with
  | first => exact ⟨_, [], rfl, List.nil_prefix⟩
  | @next before _ _ t _ next earlier accepts =>
    obtain ⟨s, hsettle, htake⟩ := Reader.exists_take_of_accept accepts
    rcases Reader.goTo_of_take htake with hsilent | ⟨p, hgoTo⟩
    · refine ⟨s, (earlier.walkedTo_of_settle hsettle).congr ?_ ?_⟩
      · rw [noted_accept, noted_settle, Reader.records_accept hsettle, hsilent, List.append_nil]
      · rw [Reader.pulled_accept, pulled_append, (Reader.inert_settle ..).quiet, List.append_nil]
        exact List.prefix_append _ _
    · have hsettled : next.1.settle next.2 = ok (next.1, p) := by
        rw [hgoTo]
        rfl
      have hwalked := walkedTo_of_settle (.next earlier accepts) (congrArg Traced.result hsettled)
      rw [hsettled, ok, List.append_nil] at hwalked
      exact ⟨(next.1, p), hwalked⟩

theorem exists_walkedTo_of_refuse {t : Located Token} (h : Asks source records r e (.token t rest))
    {d : Diagnostic} (hresult : (r.accept e t).result = .error d) :
    ∃ s, WalkedTo (records ++ .token t :: (r.accept e t).records) s := by
  -- Either the last token or this one is at fault.
  cases hsettle : (r.settle e).result with
  | ok s =>
    have htake : (s.1.take s.2 t).result = .error d := by
      rw [Reader.accept, bind_of_ok hsettle] at hresult
      exact hresult
    refine ⟨s, (h.walkedTo_of_settle hsettle).congr ?_ ?_⟩
    · rw [noted_accept, noted_settle, Reader.records_accept hsettle,
        Reader.records_of_take_error htake, List.append_nil]
    · rw [Reader.pulled_accept, pulled_append, (r.inert_settle e).quiet, List.append_nil]
      exact List.prefix_append _ _
  | error d' =>
    have hsilent : (r.accept e t).records = [] := by
      rw [Reader.accept, bind_of_error hsettle]
      exact Reader.records_of_settle_error hsettle
    obtain ⟨s, hwalked⟩ := h.exists_walkedTo
    refine ⟨s, hwalked.congr ?_ ?_⟩
    · rw [noted_accept, hsilent, List.append_nil]
    · rw [Reader.pulled_accept]
      exact List.prefix_append _ _

theorem exists_walkedTo_of_done {p : Position} (h : Asks source records r e (.done p)) :
    ∃ s, WalkedTo (records ++ (r.run e (.done p)).records) s ∧
      ∀ r', (r.run e (.done p)).result = .ok r' → s = (r', .finish) := by
  rw [Reader.records_run_done]
  simp only [result_eq_ok_iff, Reader.value?_run_done]
  cases hsettle : (r.settle e).result with
  | ok s =>
    refine ⟨s, h.walkedTo_of_settle hsettle, ?_⟩
    intro r' hfinished
    rw [result_eq_ok_iff.mp hsettle, Option.bind_some] at hfinished
    obtain ⟨hplace, hreader⟩ := Option.ite_none_right_eq_some.mp hfinished
    cases hreader
    exact congrArg (Prod.mk s.1) hplace
  | error d =>
    obtain ⟨s, hwalked⟩ := h.exists_walkedTo
    rw [Reader.records_of_settle_error hsettle, List.append_nil]
    refine ⟨s, hwalked, ?_⟩
    intro r' hfinished
    rw [value?, hsettle] at hfinished
    cases hfinished

/-- What a run records besides tokens are the records of steps, and of all steps if it succeeds. -/
theorem exists_walkedTo_of_run (h : Asks source records r e rest) :
    ∃ s, WalkedTo (records ++ (r.run e rest).records) s ∧
      ∀ r', (r.run e rest).result = .ok r' → s = (r', .finish) := by
  induction rest generalizing records r e with
  | token t rest ih =>
    rw [Reader.run_accept, emit_bind]
    rcases Reader.accept_cases r e t with ⟨next, hresult, -⟩ | ⟨d, hresult, -⟩
    · have hrest := ih (.next h hresult)
      rw [List.append_assoc, List.cons_append] at hrest
      rw [bind_of_ok hresult]
      exact hrest
    · obtain ⟨s, hwalked⟩ := h.exists_walkedTo_of_refuse hresult
      rw [bind_of_error hresult]
      refine ⟨s, hwalked, ?_⟩
      intro r' hok
      cases hok
  | done p => exact h.exists_walkedTo_of_done
  | failure error =>
    obtain ⟨s, hwalked⟩ := h.exists_walkedTo
    refine ⟨s, (List.append_nil records).symm ▸ hwalked, ?_⟩
    intro r' hok
    cases hok

end Asks

end BlockLang
