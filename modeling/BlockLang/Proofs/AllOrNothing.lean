import BlockLang.Proofs.OneLine
import BlockLang.Proofs.Usages

/-!
# Runs are all or nothing

A run ends in one of three ways, and files change only in the first: the listing is delivered as a
whole, the text is refused, or a file cannot be reached. Whatever the log shows is printed as an
error and changes nothing else. All this holds with any parser that conforms and any logger that
shows nothing as long as only errors are asked for.
-/

namespace BlockLang.CommandLine

/-! ### The ways in which a run ends -/

section Runs
variable {σ φ : Type} [DecidableEq φ] (store : FileStore σ φ)

namespace FileStore

/-- What reading the file at a path gives. -/
def read (s : σ) (path : String) : Except AccessError ByteArray :=
  ((store.access.read path).run s).1

/-- What writing a file at a path gives, and the files then. -/
def write (s : σ) (path : String) (bytes : ByteArray) : Except AccessError Unit × σ :=
  (store.access.write path bytes).run s

/-- How the command ends, and the files then. -/
def run (parse : List String → Answer) (logger : Logger) (env : Environment) (s : σ)
    (arguments : List String) : Outcome × σ :=
  (command parse logger env store.access arguments).run s

theorem run_deliver (s : σ) (i : Invocation) (log listing : String) :
    (i.deliver store.access log listing).run s =
      match i.output with
      | .standardOutput => (⟨0, listing, log⟩, s)
      | .file path =>
        match store.write s path listing.toUTF8 with
        | (.ok (), after) => (⟨0, "", log⟩, after)
        | (.error e, after) =>
          (⟨accessStatus, "", log ++ accessText "Failed to write to file" path e⟩, after) := by
  rw [Invocation.deliver]
  cases i.output with
  | standardOutput => rfl
  | file path =>
    have hwrite : (store.access.write path listing.toUTF8).run s =
        pure (store.write s path listing.toUTF8) := rfl
    simp only [StateT.run_bind, hwrite, pure_bind]
    obtain ⟨result, after⟩ := store.write s path listing.toUTF8
    cases result with
    | ok => rfl
    | error e => rfl

theorem run_invocation (s : σ) (i : Invocation) (print : List LogLine → String) :
    (i.run print store.access).run s =
      match store.read s i.input with
      | .error e =>
        (⟨accessStatus, "", print [] ++ accessText "Failed to read source file" i.input e⟩, s)
      | .ok bytes =>
        let log := print (i.compile bytes).log
        match (i.compile bytes).result with
        | .error d => (⟨refusalStatus, "", log ++ d.text ++ "\n"⟩, s)
        | .ok listing => (i.deliver store.access log listing).run s := by
  have hread : (store.access.read i.input).run s = pure (store.read s i.input, s) :=
    Prod.ext rfl (store.read_keeps s i.input)
  simp only [Invocation.run, StateT.run_bind, hread, pure_bind]
  cases store.read s i.input with
  | error e => rfl
  | ok bytes =>
    dsimp only
    cases (i.compile bytes).result with
    | error d => rfl
    | ok listing => rfl

/-- The lines logged by a run. Nothing is logged before the file has been read. -/
def linesOf (s : σ) (i : Invocation) : List LogLine :=
  match store.read s i.input with
  | .error _ => []
  | .ok bytes => (i.compile bytes).log

/-- What is shown of the log comes before anything else that is printed as an error. It changes
neither the status, nor standard output, nor files. -/
theorem run_print (s : σ) (i : Invocation) {silent : List LogLine → String}
    (hsilent : ∀ lines, silent lines = "") (print : List LogLine → String) :
    ((i.run print store.access).run s).1.status = ((i.run silent store.access).run s).1.status ∧
      ((i.run print store.access).run s).1.stdout = ((i.run silent store.access).run s).1.stdout ∧
      ((i.run print store.access).run s).1.stderr =
        print (store.linesOf s i) ++ ((i.run silent store.access).run s).1.stderr ∧
      ((i.run print store.access).run s).2 = ((i.run silent store.access).run s).2 := by
  rw [run_invocation, run_invocation, linesOf]
  simp only [hsilent, String.empty_append]
  cases store.read s i.input with
  | error e => exact ⟨rfl, rfl, rfl, rfl⟩
  | ok bytes =>
    dsimp only
    cases (i.compile bytes).result with
    | error d => exact ⟨rfl, rfl, String.append_assoc, rfl⟩
    | ok listing =>
      simp only [run_deliver, String.empty_append]
      cases i.output with
      | standardOutput => exact ⟨rfl, rfl, String.append_empty.symm, rfl⟩
      | file path =>
        dsimp only
        obtain ⟨result, after⟩ := store.write s path listing.toUTF8
        cases result with
        | ok => exact ⟨rfl, rfl, String.append_empty.symm, rfl⟩
        | error e => exact ⟨rfl, rfl, rfl, rfl⟩

end FileStore

/-! ### What a usage asks for -/

namespace Usage

/-- The file to which the listing goes, if it goes to one. -/
def path? (u : Usage) : Option String := u.output.filter (fun path => path ≠ "-")

def invocation (u : Usage) : Invocation :=
  ⟨u.input, u.target.getD .pascal, destinationOf (u.output.getD "-")⟩

theorem invocation_of_foundAs {u : Usage} {m : Matches} (h : u.FoundAs m) :
    m.invocation? = some u.invocation := by
  have htarget : (m.target.bind Target.ofName?).getD default = u.target.getD .pascal := by
    rw [h.target]
    obtain ⟨input, target, output, verbose⟩ := u
    rcases target with _ | target
    · rfl
    · cases target <;> rfl
  rw [Matches.invocation?, htarget, h.input, h.output]
  rfl

theorem output_invocation (u : Usage) :
    u.invocation.output = u.path?.elim .standardOutput .file := by
  obtain ⟨input, target, output, verbose⟩ := u
  cases output with
  | none => rfl
  | some path =>
    by_cases hpath : path = "-"
    · subst hpath
      rfl
    · simp [invocation, path?, destinationOf, Option.filter, hpath]

end Usage

/-- A logger that shows nothing as long as only errors are asked for. No line of the command is
about an error. -/
def ErrorsOnly (logger : Logger) : Prop := ∀ lines, logger ⟨"error", none⟩ lines = ""

theorem errorsOnly_directiveLogger (search : String → String → Bool) :
    ErrorsOnly (directiveLogger search) := by
  intro lines
  have hfilter : Filter.ofText "error" = ⟨[⟨"", .error⟩], none, []⟩ := by decide +kernel
  have hhidden : lines.filter (((Filter.ofText "error").raise none).shows search) = [] := by
    rw [hfilter, List.filter_eq_nil_iff]
    intro line _
    simp [Filter.raise, Filter.shows, Filter.governing, Threshold.admits]
  rw [directiveLogger, hhidden, hfilter]
  rfl

theorem FileStore.run_of_spelledBy {parse : List String → Answer} (hparse : Conforms parse)
    (logger : Logger) (env : Environment) (s : σ) {u : Usage} {arguments : List String}
    (h : u.SpelledBy arguments) :
    store.run parse logger env s arguments =
      (u.invocation.run (logger (logSettings env u.verbose)) store.access).run s := by
  obtain ⟨m, hfound, hm⟩ := hparse u arguments h
  rw [run, command, hfound]
  dsimp only
  rw [Usage.invocation_of_foundAs hm, hm.verbose]

/-! ### Endings -/

/-- The ways in which a run ends. -/
inductive Ending where
  | translated
  | refused
  | unreachable
deriving DecidableEq, Repr

/-- The exit status of each way. -/
def Ending.status : Ending → Nat
  | .translated => 0
  | .refused => 255
  | .unreachable => 1

theorem Ending.status_injective : Function.Injective Ending.status := by
  intro a b h
  cases a <;> cases b <;> simp_all [Ending.status]

/-- The path names a file that can be read and holds these bytes. -/
def FileStore.Holds (s : σ) (path : String) (bytes : ByteArray) : Prop :=
  store.read s path = .ok bytes ∧
    ∃ file, store.locate s path = some file ∧ store.contents s file = some bytes

theorem FileStore.holds_of_read {s : σ} {path : String} {bytes : ByteArray}
    (h : store.read s path = .ok bytes) : store.Holds s path bytes :=
  ⟨h, store.contents_of_read s path bytes h⟩

/-- The listing is where it goes, a file or standard output, and nothing else has changed. -/
def FileStore.Delivered (before after : σ) (listing stdout : String) : Option String → Prop
  | none => stdout = listing ∧ after = before
  | some path => stdout = "" ∧ ∃ file, store.locate before path = some file ∧
      store.contents after = Function.update (store.contents before) file (some listing.toUTF8)

theorem FileStore.delivered_of_write {before after : σ} {path listing : String}
    (h : store.write before path listing.toUTF8 = (.ok (), after)) :
    store.Delivered before after listing "" (some path) := by
  obtain ⟨file, hfile, hcontents⟩ :=
    store.contents_of_write before path listing.toUTF8 (congrArg Prod.fst h)
  have hafter : ((store.access.write path listing.toUTF8).run before).2 = after :=
    congrArg Prod.snd h
  rw [hafter] at hcontents
  exact ⟨rfl, file, hfile, hcontents⟩

theorem FileStore.eq_of_failed_write {before after : σ} {path : String} {bytes : ByteArray}
    {e : AccessError} (h : store.write before path bytes = (.error e, after)) : after = before :=
  (congrArg Prod.snd h).symm.trans
    (store.failed_write_keeps before path bytes e (congrArg Prod.fst h))

/-- What each way of ending means for the files and for what is printed. -/
def Ending.Describes (u : Usage) (before : σ) (outcome : Outcome) (after : σ) :
    Ending → Prop
  | .translated => outcome.stderr = "" ∧
      ∃ bytes listing, store.Holds before u.input bytes ∧
        (compile (decode bytes).2 (u.target.getD .pascal)).result = .ok listing ∧
        store.Delivered before after listing outcome.stdout u.path?
  | .refused => outcome.stdout = "" ∧ after = before ∧
      ∃ bytes d, store.Holds before u.input bytes ∧
        (compile (decode bytes).2 (u.target.getD .pascal)).result = .error d ∧
        outcome.stderr = d.text ++ "\n" ∧ '\n' ∉ d.text.toList
  | .unreachable => outcome.stdout = "" ∧ after = before ∧
      ((∃ e, store.read before u.input = .error e) ∨
        ∃ bytes listing path e, store.Holds before u.input bytes ∧
          (compile (decode bytes).2 (u.target.getD .pascal)).result = .ok listing ∧
          u.path? = some path ∧ (store.write before path listing.toUTF8).1 = .error e)

theorem exists_ending (u : Usage) (s : σ) {print : List LogLine → String}
    (hsilent : ∀ lines, print lines = "") :
    ∃ ending : Ending,
      ((u.invocation.run print store.access).run s).1.status = ending.status ∧
      ending.Describes store u s ((u.invocation.run print store.access).run s).1
        ((u.invocation.run print store.access).run s).2 := by
  rw [store.run_invocation]
  cases hread : store.read s u.invocation.input with
  | error e => exact ⟨.unreachable, rfl, rfl, rfl, .inl ⟨e, hread⟩⟩
  | ok bytes =>
    have hholds := store.holds_of_read hread
    dsimp only
    cases hresult : (u.invocation.compile bytes).result with
    | error d =>
      have hline : '\n' ∉ d.text.toList := fun h => inLine_diagnostic hresult '\n' h rfl
      refine ⟨.refused, rfl, rfl, rfl, bytes, d, hholds, hresult, ?_, hline⟩
      simp only [hsilent, String.empty_append]
    | ok listing =>
      simp only [store.run_deliver, hsilent, u.output_invocation]
      cases hpath : u.path? with
      | none =>
        refine ⟨.translated, rfl, rfl, bytes, listing, hholds, hresult, ?_⟩
        rw [hpath]
        exact ⟨rfl, rfl⟩
      | some path =>
        simp only [Option.elim_some]
        cases hwrite : store.write s path listing.toUTF8 with
        | mk result after =>
          cases result with
          | ok =>
            refine ⟨.translated, rfl, rfl, bytes, listing, hholds, hresult, ?_⟩
            rw [hpath]
            exact store.delivered_of_write hwrite
          | error e =>
            have hafter := store.eq_of_failed_write hwrite
            refine ⟨.unreachable, rfl, rfl, hafter, .inr ?_⟩
            exact ⟨bytes, listing, path, e, hholds, hresult, hpath, congrArg Prod.fst hwrite⟩

end Runs

/-- The output is the input under another name. -/
def overwriting : Usage := ⟨"./p", none, some "p", false⟩

theorem overwriting_spelledBy : overwriting.SpelledBy ["./p", "-o", "p"] :=
  ⟨[.file "./p", .output "p"],
    .file (.inr (by decide)) (.shortSeparate 0 (.output "p") (.inr (by decide)) .nil),
    rfl, rfl, rfl, rfl⟩

def overwritten : Directory := .file "p" "main()\x7b\x7d".toUTF8 (.folder "q" .empty .empty)

end BlockLang.CommandLine
