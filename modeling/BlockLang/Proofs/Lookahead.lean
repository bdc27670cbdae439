import BlockLang.Proofs.Blame
import BlockLang.Proofs.Rescanning
import BlockLang.Proofs.ViablePrefix

/-!
# One token of lookahead

The reader pulls the results of the scanner one at a time, and a token takes effect only when the
result after it has been pulled. A run that fails depends on nothing but what it has pulled
(`run_of_isPrefix`), and `Ends` says where the fault stands among that: at the last result, at the
token before it, or, for a real value, at the target of an assignment that the last result ends.
-/

namespace BlockLang

/-! ### Results of the scanner -/

/-- What the first `n` calls yield. -/
def Scanner.results (s : Scanner) (n : Nat) : List Scan := (s.calls n).map Prod.fst

/-- The results of a stream, its end or its error included. -/
def TokenStream.results : TokenStream → List Scan
  | .token t rest => .token t :: rest.results
  | .done _ => [.done]
  | .failure e => [.failure e]

/-- The token of a result, if it is one. -/
def Scan.token? : Scan → Option (Located Token)
  | .token t => some t
  | _ => none

/-- Some tokens and one more result. -/
def resultsOf (ts : List (Located Token)) (last : Scan) : List Scan := ts.map .token ++ [last]

theorem length_resultsOf (ts : List (Located Token)) (last : Scan) :
    (resultsOf ts last).length = ts.length + 1 := by
  simp [resultsOf]

theorem Scanner.results_eq_iff (s : Scanner) (ts : List (Located Token)) (last : Scan) :
    s.results (ts.length + 1) = resultsOf ts last ↔ resultsOf ts last <+: s.stream.results := by
  induction ts generalizing s with
  | nil =>
    have hresults : s.results 1 = [s.next.1] := rfl
    have hhead : ∃ rest, s.stream.results = s.next.1 :: rest := by
      rw [stream_eq]
      obtain ⟨scan, s'⟩ := s.next
      cases scan <;> exact ⟨_, rfl⟩
    obtain ⟨rest, hrest⟩ := hhead
    rw [List.length_nil, hresults, hrest]
    simp [resultsOf, eq_comm]
  | cons t ts ih =>
    have hresults : s.results (ts.length + 1 + 1) =
        s.next.1 :: s.next.2.results (ts.length + 1) := rfl
    rw [List.length_cons, hresults, stream_eq]
    obtain ⟨scan, s'⟩ := s.next
    cases scan with
    | token u =>
      have hpulls : resultsOf (t :: ts) last = .token t :: resultsOf ts last := rfl
      have hstream : (streamFrom (.token u, s')).results = .token u :: s'.stream.results := rfl
      rw [hpulls, hstream, List.cons_prefix_cons, ← ih]
      simp [eq_comm]
    | failure e => simp [resultsOf, streamFrom, TokenStream.results]
    | done => simp [resultsOf, streamFrom, TokenStream.results]

namespace Reader
open Traced

/-- Settle the last token and take this one. -/
def accept (r : Reader) (e : Effect) (t : Located Token) : Traced (Reader × Effect) := do
  let s ← r.settle e
  s.1.take s.2 t

theorem run_accept (r : Reader) (e : Effect) (t : Located Token) (rest : TokenStream) :
    r.run e (.token t rest) = (do
      Traced.emit (.token t)
      let s ← r.accept e t
      s.1.run s.2 rest) := by
  rw [run_token, accept]
  simp only [bind_assoc]

/-- The results that a run pulls. -/
def pulls (r : Reader) (e : Effect) : TokenStream → List Scan
  | .token t rest => .token t :: match (r.accept e t).value? with
    | some s => s.1.pulls s.2 rest
    | none => []
  | .done _ => [.done]
  | .failure error => [.failure error]

/-- The reader after some tokens, the last of which has yet to take effect. -/
def after (r : Reader) (e : Effect) : List (Located Token) → Option (Reader × Effect)
  | [] => some (r, e)
  | t :: ts => (r.accept e t).value?.bind (fun s => s.1.after s.2 ts)

/-- The result ends the run with this diagnostic. -/
def Stops (r : Reader) (e : Effect) (d : Diagnostic) : Scan → Prop
  | .token t => (r.accept e t).result = .error d
  | .done => (r.run e (.done .start)).result = .error d
  | .failure error => d = .lexical error

theorem accept_cases (r : Reader) (e : Effect) (t : Located Token) :
    (∃ s, (r.accept e t).result = .ok s ∧ (r.accept e t).value? = some s) ∨
      ∃ d, (r.accept e t).result = .error d ∧ (r.accept e t).value? = none := by
  unfold value?
  cases (r.accept e t).result with
  | ok s => exact .inl ⟨s, rfl, rfl⟩
  | error d => exact .inr ⟨d, rfl, rfl⟩

theorem quiet_accept (r : Reader) (e : Effect) (t : Located Token) :
    pulled (r.accept e t).records = [] := by
  unfold accept
  cases h : (r.settle e).result with
  | ok s =>
    rw [bind_of_ok h]
    show pulled ((r.settle e).records ++ (s.1.take s.2 t).records) = []
    rw [pulled_append, (inert_settle r e).quiet, quiet_take, List.append_nil]
  | error d =>
    rw [bind_of_error h]
    exact (inert_settle r e).quiet

section Token
variable {r : Reader} {e : Effect} {t : Located Token} {rest : TokenStream} {s : Reader × Effect}

theorem result_run_of_accept (h : (r.accept e t).result = .ok s) :
    (r.run e (.token t rest)).result = (s.1.run s.2 rest).result := by
  rw [run_accept, emit_bind, bind_of_ok h]

theorem result_run_of_refuse {d : Diagnostic} (h : (r.accept e t).result = .error d) :
    (r.run e (.token t rest)).result = .error d := by
  rw [run_accept, emit_bind, bind_of_error h]

theorem pulls_of_accept (h : (r.accept e t).value? = some s) :
    r.pulls e (.token t rest) = .token t :: s.1.pulls s.2 rest := by
  rw [pulls, h]

theorem pulls_of_refuse (h : (r.accept e t).value? = none) :
    r.pulls e (.token t rest) = [.token t] := by
  rw [pulls, h]

end Token

theorem pulled_run (r : Reader) (e : Effect) (s : TokenStream) :
    pulled (r.run e s).records = (r.pulls e s).filterMap Scan.token? := by
  induction s generalizing r e with
  | token t rest ih =>
    rw [run_accept, emit_bind]
    rcases accept_cases r e t with ⟨s, hresult, hvalue⟩ | ⟨d, hresult, hvalue⟩
    · rw [pulls_of_accept hvalue, bind_of_ok hresult]
      show t :: pulled ((r.accept e t).records ++ (s.1.run s.2 rest).records) = _
      rw [pulled_append, quiet_accept, List.nil_append, ih]
      rfl
    · rw [pulls_of_refuse hvalue, bind_of_error hresult]
      exact congrArg (List.cons t) (quiet_accept r e t)
  | done p =>
    rw [run_done]
    cases h : (r.settle e).result with
    | ok s =>
      rw [bind_of_ok h]
      show pulled ((r.settle e).records ++ _) = []
      rw [pulled_append, (inert_settle r e).quiet, List.nil_append]
      split <;> rfl
    | error d =>
      rw [bind_of_error h]
      exact (inert_settle r e).quiet
  | failure error => rfl

theorem pulls_isPrefix (r : Reader) (e : Effect) (s : TokenStream) : r.pulls e s <+: s.results := by
  induction s generalizing r e with
  | token t rest ih =>
    rcases accept_cases r e t with ⟨s, -, hvalue⟩ | ⟨d, -, hvalue⟩
    · rw [pulls_of_accept hvalue]
      exact List.cons_prefix_cons.mpr ⟨rfl, ih s.1 s.2⟩
    · rw [pulls_of_refuse hvalue]
      exact List.cons_prefix_cons.mpr ⟨rfl, List.nil_prefix⟩
  | done p => exact List.prefix_refl _
  | failure error => exact List.prefix_refl _

/-- A run that fails takes all tokens that it pulls but the last result, and that one stops it. -/
theorem exists_stops {r : Reader} {e : Effect} {s : TokenStream} {d : Diagnostic}
    (h : (r.run e s).result = .error d) :
    ∃ ts last s', r.pulls e s = resultsOf ts last ∧ r.after e ts = some s' ∧
      s'.1.Stops s'.2 d last := by
  induction s generalizing r e with
  | token t rest ih =>
    rcases accept_cases r e t with ⟨s, hresult, hvalue⟩ | ⟨d', hresult, hvalue⟩
    · rw [result_run_of_accept hresult] at h
      obtain ⟨ts, last, s', hpulls, hafter, hstops⟩ := ih h
      refine ⟨t :: ts, last, s', ?_, ?_, hstops⟩
      · rw [pulls_of_accept hvalue, hpulls]
        rfl
      · rw [after, hvalue, Option.bind_some, hafter]
    · rw [result_run_of_refuse hresult] at h
      cases h
      exact ⟨[], .token t, (r, e), pulls_of_refuse hvalue, rfl, hresult⟩
  | done p => exact ⟨[], .done, (r, e), rfl, rfl, h⟩
  | failure error =>
    cases h
    exact ⟨[], .failure error, (r, e), rfl, rfl, rfl⟩

theorem run_of_isPrefix {r : Reader} {e : Effect} {ts : List (Located Token)} {s' : Reader × Effect}
    (hafter : r.after e ts = some s') {d : Diagnostic} {last : Scan}
    (hstops : s'.1.Stops s'.2 d last) {s : TokenStream}
    (hbegins : resultsOf ts last <+: s.results) : (r.run e s).result = .error d := by
  -- The stream after the last of these results is never looked at.
  induction ts generalizing r e s with
  | nil =>
    cases hafter
    have hhead : last ∈ s.results.head? := by
      obtain ⟨rest, hrest⟩ := hbegins
      rw [← hrest]
      rfl
    cases s with
    | token t rest =>
      cases hhead
      exact result_run_of_refuse hstops
    | done p =>
      cases hhead
      exact hstops
    | failure error =>
      cases hhead
      cases hstops
      rfl
  | cons t ts ih =>
    obtain ⟨next, hvalue, hafter⟩ := Option.bind_eq_some_iff.mp hafter
    cases s with
    | token u rest =>
      obtain ⟨heq, hrest⟩ := List.cons_prefix_cons.mp hbegins
      cases heq
      rw [result_run_of_accept (result_eq_ok_iff.mpr hvalue)]
      exact ih hafter hrest
    | done p => exact absurd hbegins (by simp [resultsOf, TokenStream.results])
    | failure error => exact absurd hbegins (by simp [resultsOf, TokenStream.results])

theorem pulls_of_ok {r r' : Reader} {e : Effect} {s : TokenStream}
    (h : (r.run e s).result = .ok r') :
    ∃ ts p, s = .prepend ts (.done p) ∧ r.pulls e s = resultsOf ts .done := by
  induction s generalizing r e with
  | token t rest ih =>
    rcases accept_cases r e t with ⟨s, hresult, hvalue⟩ | ⟨d', hresult, hvalue⟩
    · rw [result_run_of_accept hresult] at h
      obtain ⟨ts, p, rfl, hpulls⟩ := ih h
      refine ⟨t :: ts, p, rfl, ?_⟩
      rw [pulls_of_accept hvalue, hpulls]
      rfl
    · rw [result_run_of_refuse hresult] at h
      cases h
  | done p => exact ⟨[], p, rfl, rfl⟩
  | failure error => cases h

/-! ### Where a run fails -/

theorem after_concat (r : Reader) (e : Effect) (ts : List (Located Token)) (t : Located Token) :
    r.after e (ts ++ [t]) = (r.after e ts).bind (fun s => (s.1.accept s.2 t).value?) := by
  induction ts generalizing r e with
  | nil =>
    show (r.accept e t).value?.bind some = _
    rw [Option.bind_fun_some]
    rfl
  | cons u ts ih =>
    rw [List.cons_append, after, after, Option.bind_assoc]
    exact Option.bind_congr fun s _ => ih s.1 s.2

/-- Once its last token takes effect, the reader has made the steps of all of them. -/
theorem settle_after (r : Reader) (e : Effect) (ts : List (Located Token)) :
    (r.after e ts).bind (fun s => (s.1.settle s.2).value?) =
      (r.settle e).value?.bind (fun s => s.1.reads s.2 ts) := by
  induction ts generalizing r e with
  | nil => exact (Option.bind_fun_some _).symm
  | cons t ts ih =>
    rw [after, Option.bind_assoc, accept, value?_bind, Option.bind_assoc]
    refine Option.bind_congr ?_
    intro s _
    rw [reads_cons, step, Option.bind_assoc]
    exact Option.bind_congr fun s _ => ih s.1 s.2

end Reader

/-- All the ways to fail for a run that has taken the tokens `ts` and pulled one more result. -/
inductive Ends (ts : List (Located Token)) : Scan → Diagnostic → Prop
  /-- The last result is a lexical error. -/
  | lexical (e : Located LexicalError) : Ends ts (.failure e) (.lexical e)
  /-- The last result is a token that does not belong there. -/
  | unexpected (t : Located Token) (expected : ClassSet) :
      Ends ts (.token t) ⟨.syntactic (.unexpectedToken t.value expected), some t.position⟩
  /-- The text ends where it may not. -/
  | unexpectedEnd (expected : ClassSet) :
      Ends ts .done ⟨.syntactic (.unexpectedToken .endOfText expected), none⟩
  /-- The token before the last result is at fault, and the last result is no error. -/
  | previous {before : List (Located Token)} {t : Located Token} (hts : ts = before ++ [t])
      {last : Scan} (hlast : ∀ e, last ≠ .failure e) {fault : Fault}
      (hfault : fault.subject? = some t.value) : Ends ts last ⟨fault, some t.position⟩
  /-- The last result is the semicolon of an assignment whose target is at fault. -/
  | expectedReal {before us : List (Located Token)} {name : Located String}
      (hts : ts = before ++ ⟨name.position, .name name.value⟩ :: us) {semicolon : Located Token}
      {a : AssignmentTree}
      (ha : a.tokens = .name name.value :: (us ++ [semicolon]).map Located.value) :
      Ends ts (.token semicolon) ⟨.semantic (.expectedReal name.value), some name.position⟩

namespace Reader
open Traced

theorem ends_of_settle {ts : List (Located Token)} {s : Reader × Effect}
    (hafter : Reader.new.after (.goTo .top) ts = some s) {d : Diagnostic}
    (h : (s.1.settle s.2).result = .error d) {last : Scan} (hlast : ∀ e, last ≠ .failure e) :
    Ends ts last d := by
  -- An effect that can be refused is the effect of the last token taken.
  obtain ⟨u, hsubject, fault, hfault, rfl⟩ := blames_of_settle h
  rcases List.eq_nil_or_concat ts with rfl | ⟨before, t, rfl⟩
  · cases hafter
    cases hsubject
  · rw [List.concat_eq_append] at hafter ⊢
    rw [after_concat] at hafter
    obtain ⟨s', -, haccept⟩ := Option.bind_eq_some_iff.mp hafter
    rw [accept, value?_bind] at haccept
    obtain ⟨at', -, htake⟩ := Option.bind_eq_some_iff.mp haccept
    obtain rfl : u = t := subject_of_take htake u hsubject
    exact .previous rfl hlast hfault

theorem reads_of_settle {ts : List (Located Token)} {s : Reader × Effect} {s' : Reader × Point}
    (hafter : Reader.new.after (.goTo .top) ts = some s) (h : (s.1.settle s.2).result = .ok s') :
    Reader.new.reads .top ts = some s' := by
  have hsettle := settle_after Reader.new (.goTo .top) ts
  rw [hafter, Option.bind_some, result_eq_ok_iff.mp h] at hsettle
  exact hsettle.symm

theorem ends_of_take {ts : List (Located Token)} {s : Reader × Point}
    (hreads : Reader.new.reads .top ts = some s) {t : Located Token} (ht : t.value ≠ .endOfText)
    {d : Diagnostic} (h : (s.1.take s.2 t).result = .error d) : Ends ts (.token t) d := by
  rcases refused_of_take (undeclared_of_reads hreads) h with rfl | ⟨a, o, q, hp, rfl, rfl⟩
  · have hposition : (Fault.syntactic (.unexpectedToken t.value s.2.expected)).atEnd = false := by
      obtain ⟨q, t⟩ := t
      cases t with
      | endOfText => exact absurd rfl ht
      | _ => rfl
    rw [Diagnostic.syntactic, Diagnostic.ofFault, hposition]
    exact .unexpected t s.2.expected
  · have hassigning := assigning_of_reads hreads
    rw [hp] at hassigning
    obtain ⟨e, before, q', us, hus, rfl⟩ := hassigning
    refine .expectedReal (a := ⟨a.name.value, e⟩) rfl ?_
    simp [AssignmentTree.tokens, hus]

/-- The result that ends a run is an error, or the token before it is refused when it takes effect,
or else the result is not what may stand there. -/
theorem stops_cases {r : Reader} {e : Effect} {d : Diagnostic} {last : Scan}
    (h : r.Stops e d last) :
    (∃ error, last = .failure error ∧ d = .lexical error) ∨
    ((∀ error, last ≠ .failure error) ∧ (r.settle e).result = .error d) ∨
    ∃ s, (r.settle e).result = .ok s ∧
      ((∃ t, last = .token t ∧ (s.1.take s.2 t).result = .error d) ∨
        last = .done ∧ d = ⟨.syntactic (.unexpectedToken .endOfText s.2.expected), none⟩) := by
  cases last with
  | failure error => exact .inl ⟨error, rfl, h⟩
  | token t =>
    have h : (r.accept e t).result = .error d := h
    cases hsettle : (r.settle e).result with
    | error d' =>
      rw [accept, bind_of_error hsettle] at h
      cases h
      exact .inr (.inl ⟨by simp, rfl⟩)
    | ok s =>
      rw [accept, bind_of_ok hsettle] at h
      exact .inr (.inr ⟨s, rfl, .inl ⟨t, rfl, h⟩⟩)
  | done =>
    have h : (r.run e (.done .start)).result = .error d := h
    rw [run_done] at h
    cases hsettle : (r.settle e).result with
    | error d' =>
      rw [bind_of_error hsettle] at h
      cases h
      exact .inr (.inl ⟨by simp, rfl⟩)
    | ok s =>
      rw [bind_of_ok hsettle] at h
      split at h
      · cases h
      · cases h
        exact .inr (.inr ⟨s, rfl, .inr ⟨rfl, rfl⟩⟩)

theorem ends_of_stops {ts : List (Located Token)} {s : Reader × Effect}
    (hafter : Reader.new.after (.goTo .top) ts = some s) {d : Diagnostic} {last : Scan}
    (hlast : ∀ t ∈ last.token?, t.value ≠ .endOfText) (h : s.1.Stops s.2 d last) :
    Ends ts last d := by
  rcases stops_cases h with ⟨error, rfl, rfl⟩ | ⟨hfailure, hsettle⟩ | ⟨s', hsettle, hrefused⟩
  · exact .lexical error
  · -- The token before is settled first, so that its fault comes before one of the last result.
    exact ends_of_settle hafter hsettle hfailure
  · rcases hrefused with ⟨t, rfl, htake⟩ | ⟨rfl, rfl⟩
    · exact ends_of_take (reads_of_settle hafter hsettle) (hlast t rfl) htake
    · exact .unexpectedEnd s'.2.expected

end Reader

/-! ### Reading a text -/

/-- The results that reading a text pulls from the scanner. -/
def pullsOf (source : String) : List Scan :=
  Reader.new.pulls (.goTo .top) (Scanner.ofText source).stream

theorem error_of_readProgram_iff (source : String) (d : Diagnostic) :
    (readProgram source).result = .error d ↔
      (Reader.new.run (.goTo .top) (Scanner.ofText source).stream).result = .error d := by
  rw [readProgram_eq]
  cases h : (Reader.new.run (.goTo .top) (Scanner.ofText source).stream).result with
  | ok r =>
    rw [Traced.bind_of_ok h]
    simp [Traced.ok]
  | error d' =>
    rw [Traced.bind_of_error h]
    simp

theorem records_readProgram (source : String) : (readProgram source).records =
    (Reader.new.run (.goTo .top) (Scanner.ofText source).stream).records := by
  rw [readProgram_eq]
  cases h : (Reader.new.run (.goTo .top) (Scanner.ofText source).stream).result with
  | ok r =>
    rw [Traced.bind_of_ok h]
    exact List.append_nil _
  | error d => rw [Traced.bind_of_error h]

theorem TokenStream.results_prepend (ts : List (Located Token)) (tail : TokenStream) :
    (prepend ts tail).results = ts.map .token ++ tail.results := by
  induction ts with
  | nil => rfl
  | cons t ts ih => exact congrArg (List.cons (Scan.token t)) ih

theorem wellSpelled_of_results {s : Scanner} {t : Located Token}
    (h : .token t ∈ s.stream.results) : t.value.WellSpelled := by
  obtain ⟨ts, ⟨p, hstream⟩ | ⟨e, hstream⟩⟩ := s.stream.exists_prepend
  · rw [hstream, TokenStream.results_prepend] at h
    have ht : t ∈ ts := by simpa [TokenStream.results] using h
    exact Scanner.wellSpelled_of_stream hstream t ht
  · rw [hstream, TokenStream.results_prepend] at h
    have ht : t ∈ ts := by simpa [TokenStream.results] using h
    exact Scanner.wellSpelled_of_stream hstream t ht

/-- A reading that fails takes some tokens, and fails at the result that it pulls after them. -/
theorem exists_stops_of_readProgram {source : String} {d : Diagnostic}
    (h : (readProgram source).result = .error d) :
    ∃ ts last s, pullsOf source = resultsOf ts last ∧
      Reader.new.after (.goTo .top) ts = some s ∧ s.1.Stops s.2 d last ∧ Ends ts last d := by
  obtain ⟨ts, last, s, hpulls, hafter, hstops⟩ :=
    Reader.exists_stops ((error_of_readProgram_iff source d).mp h)
  refine ⟨ts, last, s, hpulls, hafter, hstops, Reader.ends_of_stops hafter ?_ hstops⟩
  intro t ht hend
  have hlast : last = .token t := by
    cases last <;> simp_all [Scan.token?]
  have hmem : .token t ∈ (Scanner.ofText source).stream.results := by
    apply (Reader.pulls_isPrefix Reader.new (.goTo .top) (Scanner.ofText source).stream).subset
    rw [hpulls, hlast]
    simp [resultsOf]
  have hspelled := wellSpelled_of_results hmem
  rw [hend] at hspelled
  exact hspelled

theorem readProgram_of_results {ts : List (Located Token)} {s : Reader × Effect}
    (hafter : Reader.new.after (.goTo .top) ts = some s) {d : Diagnostic} {last : Scan}
    (hstops : s.1.Stops s.2 d last) {other : String}
    (h : (Scanner.ofText other).results (ts.length + 1) = resultsOf ts last) :
    (readProgram other).result = .error d := by
  rw [error_of_readProgram_iff]
  exact Reader.run_of_isPrefix hafter hstops ((Scanner.results_eq_iff _ ts last).mp h)

theorem pulls_of_readProgram_ok {source : String} {p : Program}
    (h : (readProgram source).result = .ok p) :
    ∃ ts ending, (Scanner.ofText source).stream = .prepend ts (.done ending) ∧
      pullsOf source = resultsOf ts .done := by
  cases hrun : (Reader.new.run (.goTo .top) (Scanner.ofText source).stream).result with
  | ok r => exact Reader.pulls_of_ok hrun
  | error d =>
    rw [(error_of_readProgram_iff source d).mpr hrun] at h
    cases h

/-- What reading a text pulls from the scanner decides how it fails. -/
theorem readProgram_pulls (source : String) :
    ∃ ts last, pullsOf source = ts.map .token ++ [last] ∧
      (Scanner.ofText source).results (pullsOf source).length = pullsOf source ∧
      pulled (readProgram source).records = (pullsOf source).filterMap Scan.token? ∧
      (∀ d, (readProgram source).result = .error d → Ends ts last d ∧
        (∀ other, (Scanner.ofText other).results (pullsOf source).length = pullsOf source →
          (readProgram other).result = .error d) ∧
        ∀ other e, (Scanner.ofText other).results (pullsOf source).length =
            ts.map .token ++ [.failure e] →
          (readProgram other).result = .error (.lexical e)) ∧
      ∀ p, (readProgram source).result = .ok p →
        last = .done ∧ ∃ ending, (Scanner.ofText source).stream = .prepend ts (.done ending) := by
  have hbegins : pullsOf source <+: (Scanner.ofText source).stream.results :=
    Reader.pulls_isPrefix ..
  have hrecords : pulled (readProgram source).records =
      (pullsOf source).filterMap Scan.token? := by
    rw [records_readProgram]
    exact Reader.pulled_run ..
  cases hresult : (readProgram source).result with
  | error d =>
    obtain ⟨ts, last, s, hpulls, hafter, hstops, hends⟩ := exists_stops_of_readProgram hresult
    rw [hpulls] at hbegins hrecords ⊢
    rw [length_resultsOf]
    refine ⟨ts, last, rfl, (Scanner.results_eq_iff _ ts last).mpr hbegins, hrecords, ?_, by simp⟩
    intro d' hd'
    cases hd'
    refine ⟨hends, fun other hother => readProgram_of_results hafter hstops hother, ?_⟩
    intro other e hother
    have hlexical : s.1.Stops s.2 (.lexical e) (.failure e) := rfl
    exact readProgram_of_results hafter hlexical hother
  | ok p =>
    obtain ⟨ts, ending, hstream, hpulls⟩ := pulls_of_readProgram_ok hresult
    rw [hpulls] at hbegins hrecords ⊢
    rw [length_resultsOf]
    refine ⟨ts, .done, rfl, (Scanner.results_eq_iff _ ts .done).mpr hbegins, hrecords, by simp, ?_⟩
    intro p' _
    exact ⟨rfl, ending, hstream⟩

theorem pulls_of_realValue :
    (readProgram "main() \x7b int a; a = 2.5; $").result =
      .error ⟨.semantic (.expectedReal "a"), some ⟨1, 17⟩⟩ ∧
    (readProgram "main() \x7b int a; a = 2.5; \x7d").result =
      .error ⟨.semantic (.expectedReal "a"), some ⟨1, 17⟩⟩ := by
  have h : (readProgram "main() \x7b int a; a = 2.5; $").result =
      .error ⟨.semantic (.expectedReal "a"), some ⟨1, 17⟩⟩ :=
    Traced.result_eq_error_iff.mpr (by decide +kernel)
  obtain ⟨ts, last, -, -, -, hfails, -⟩ := readProgram_pulls "main() \x7b int a; a = 2.5; $"
  obtain ⟨-, hother, -⟩ := hfails _ h
  refine ⟨h, hother _ ?_⟩
  decide +kernel

end BlockLang
