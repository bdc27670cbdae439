import BlockLang.Compile
import BlockLang.Proofs.Bracketing
import BlockLang.Proofs.FaultPositions
import BlockLang.Proofs.ScopeHistory
import BlockLang.Proofs.StepRecords

/-!
# The shape of a trace

The log of a run is read as three words: the tokens, the frames and the subprograms. Every line
belongs to one of them. The word of the frames is that of the scopes (`Scopes.Moves`). The word of
the subprograms is that of a machine with four stages (`Outline`), and `Chronicle` says what it has
logged at each of them. Both follow the steps of the reader (`traces_of_step`), so that they hold of
every run, and `accounts_compile` puts them together.
-/

namespace BlockLang

/-! ### The words of a log -/

/-- The lines about tokens. -/
def tokenLines (lines : List LogLine) : List LogLine :=
  lines.filter (fun line => line.level = .trace ∧ line.channel = "traductor::lex")

/-- The lines about frames and about names declared in them. -/
def frameLines (lines : List LogLine) : List LogLine :=
  lines.filter (fun line => line.level = .trace ∧ line.channel ≠ "traductor::lex")

def debugLines (lines : List LogLine) : List LogLine :=
  lines.filter (fun line => line.level = .debug)

/-- The record of a frame that opens or closes, or of a name declared in one. -/
def Record.isOfFrame : Record → Bool
  | .opening _ _ => true
  | .closing _ _ _ => true
  | .declared _ => true
  | _ => false

def frameRecords (records : List Record) : List Record := records.filter Record.isOfFrame

def debugRecords (records : List Record) : List Record :=
  records.filter (fun record => record.level = .debug)

theorem tokenLines_line (records : List Record) :
    tokenLines (records.map Record.line) = ((pulled records).map .token).map Record.line := by
  induction records with
  | nil => rfl
  | cons record records ih =>
    cases record with
    | token t => exact congrArg (List.cons (Record.token t).line) ih
    | _ => exact ih

theorem frameLines_line (records : List Record) :
    frameLines (records.map Record.line) = (frameRecords records).map Record.line := by
  induction records with
  | nil => rfl
  | cons record records ih =>
    cases record with
    | opening depth block => exact congrArg (List.cons (Record.opening depth block).line) ih
    | closing depth block names =>
      exact congrArg (List.cons (Record.closing depth block names).line) ih
    | declared symbol => exact congrArg (List.cons (Record.declared symbol).line) ih
    | _ => exact ih

theorem debugLines_line (records : List Record) :
    debugLines (records.map Record.line) = (debugRecords records).map Record.line :=
  List.filter_map

/-! ### Lines about tokens and subprograms -/

/-- A token is quoted as it is spelled, with its line and column. -/
def tokenLine (t : Located Token) : LogLine :=
  ⟨.trace, "traductor::lex",
    "token " ++ ("'" ++ t.value.lexeme ++ "'") ++ " at " ++
      ("(" ++ toString t.position.line.toNat ++ "," ++ toString t.position.column.toNat ++ ")")⟩

def functionLine (name : Located String) : LogLine :=
  ⟨.debug, "traductor::parse",
    "function `" ++ name.value ++ "` at " ++
      ("(" ++ toString name.position.line.toNat ++ "," ++
        toString name.position.column.toNat ++ ")")⟩

def generatedLine (name : String) : LogLine :=
  ⟨.debug, "traductor::codegen", "generated function `" ++ name ++ "`"⟩

def mainLine : LogLine := ⟨.debug, "traductor::parse", "main block"⟩

def generatedMainLine : LogLine := ⟨.debug, "traductor::codegen", "generated main block"⟩

def materializingLine (target : Target) : LogLine :=
  ⟨.debug, "traductor::codegen", "materializing for target " ++ target.name⟩

/-- The name of a function where it stands, and its type. -/
structure FunctionHead where
  name : Located String
  returns : Ty

namespace FunctionHead

def signature (f : FunctionHead) : String × Ty := (f.name.value, f.returns)

def nameToken (f : FunctionHead) : Located Token := ⟨f.name.position, .name f.name.value⟩

/-- A function is logged when its heading has been read and when it is complete. -/
def lines (f : FunctionHead) : List LogLine := [functionLine f.name, generatedLine f.name.value]

end FunctionHead

/-- The lines of some functions and of the main block after them. -/
def programLines (heads : List FunctionHead) : List LogLine :=
  heads.flatMap FunctionHead.lines ++ [mainLine, generatedMainLine]

/-- How far a subprogram has been read. -/
inductive Stage where
  /-- There is no name of a function yet. -/
  | between
  /-- The heading of this function is being read. -/
  | named (f : FunctionHead)
  /-- The heading has been read. -/
  | within
  /-- The main block has been read. -/
  | finished

def Point.stage : Point → Stage
  | .top => .between
  | .functionName _ => .between
  | .functionOpen ty name => .named ⟨name, ty⟩
  | .functionClose ty name => .named ⟨name, ty⟩
  | .mainOpen => .between
  | .mainClose => .between
  | .finish => .finished
  | _ => .within

def Program.signatures (p : Program) : List (String × Ty) :=
  p.functions.map (fun f => (f.name, f.returns))

/-- The subprograms as far as they have been read. -/
structure Outline where
  stage : Stage
  heading : Heading
  functions : List (String × Ty)

def Reader.outline (r : Reader) (p : Point) : Outline :=
  ⟨p.stage, r.builder.heading, r.builder.program.signatures⟩

namespace Outline

/-- All that a token does to the subprograms, with the lines that are logged for it. -/
inductive Advances : Outline → Located Token → List LogLine → Outline → Prop
  | stays (o : Outline) (t : Located Token) : Advances o t [] o
  | names (heading : Heading) (functions : List (String × Ty)) (f : FunctionHead) :
      Advances ⟨.between, heading, functions⟩ f.nameToken [] ⟨.named f, heading, functions⟩
  | beginsFunction (heading : Heading) (functions : List (String × Ty)) (f : FunctionHead)
      (t : Located Token) :
      Advances ⟨.named f, heading, functions⟩ t [functionLine f.name]
        ⟨.within, .function f.name.value f.returns, functions⟩
  | beginsMain (heading : Heading) (functions : List (String × Ty)) (t : Located Token) :
      Advances ⟨.between, heading, functions⟩ t [mainLine] ⟨.within, .main, functions⟩
  | completesFunction (name : String) (ty : Ty) (functions : List (String × Ty))
      (t : Located Token) :
      Advances ⟨.within, .function name ty, functions⟩ t [generatedLine name]
        ⟨.between, .main, functions ++ [(name, ty)]⟩
  | completesMain (functions : List (String × Ty)) (t : Located Token) :
      Advances ⟨.within, .main, functions⟩ t [generatedMainLine] ⟨.finished, .main, functions⟩

/-- What has been logged at each stage. The functions are named by tokens in their order. -/
inductive Chronicle : Outline → List (Located Token) → List LogLine → Prop
  | between {heads : List FunctionHead} {ts : List (Located Token)} (heading : Heading)
      (order : (heads.map FunctionHead.nameToken).Sublist ts) :
      Chronicle ⟨.between, heading, heads.map FunctionHead.signature⟩ ts
        (heads.flatMap FunctionHead.lines)
  | named {heads : List FunctionHead} {f : FunctionHead} {ts : List (Located Token)}
      (heading : Heading) (order : ((heads ++ [f]).map FunctionHead.nameToken).Sublist ts) :
      Chronicle ⟨.named f, heading, heads.map FunctionHead.signature⟩ ts
        (heads.flatMap FunctionHead.lines)
  | function {heads : List FunctionHead} {f : FunctionHead} {ts : List (Located Token)}
      (order : ((heads ++ [f]).map FunctionHead.nameToken).Sublist ts) :
      Chronicle ⟨.within, .function f.name.value f.returns, heads.map FunctionHead.signature⟩ ts
        (heads.flatMap FunctionHead.lines ++ [functionLine f.name])
  | main {heads : List FunctionHead} {ts : List (Located Token)}
      (order : (heads.map FunctionHead.nameToken).Sublist ts) :
      Chronicle ⟨.within, .main, heads.map FunctionHead.signature⟩ ts
        (heads.flatMap FunctionHead.lines ++ [mainLine])
  | finished {heads : List FunctionHead} {ts : List (Located Token)}
      (order : (heads.map FunctionHead.nameToken).Sublist ts) :
      Chronicle ⟨.finished, .main, heads.map FunctionHead.signature⟩ ts (programLines heads)

theorem Chronicle.read {o : Outline} {ts : List (Located Token)} {lines : List LogLine}
    (h : Chronicle o ts lines) (t : Located Token) : Chronicle o (ts ++ [t]) lines := by
  have hread : ts.Sublist (ts ++ [t]) := List.sublist_append_left ts [t]
  cases h with
  | between heading order => exact .between heading (order.trans hread)
  | named heading order => exact .named heading (order.trans hread)
  | function order => exact .function (order.trans hread)
  | main order => exact .main (order.trans hread)
  | finished order => exact .finished (order.trans hread)

theorem chronicle_of_advances {o o' : Outline} {ts : List (Located Token)} {t : Located Token}
    {lines left : List LogLine} (h : Chronicle o ts lines) (hadvances : Advances o t left o') :
    Chronicle o' (ts ++ [t]) (lines ++ left) := by
  cases hadvances with
  | stays =>
    rw [List.append_nil]
    exact h.read t
  | names heading functions f =>
    rw [List.append_nil]
    cases h with
    | between _ order =>
      refine .named heading ?_
      rw [List.map_append]
      exact order.append (List.Sublist.refl _)
  | beginsFunction heading functions f t =>
    cases h.read t with
    | named _ order => exact .function order
  | beginsMain heading functions t =>
    cases h.read t with
    | between _ order => exact .main order
  | completesFunction name ty functions t =>
    cases h.read t with
    | @function heads f _ order =>
      have hchronicle := Chronicle.between .main order
      rw [List.map_append, List.flatMap_append] at hchronicle
      rw [List.append_assoc]
      exact hchronicle
  | completesMain functions t =>
    cases h.read t with
    | main order =>
      rw [List.append_assoc]
      exact .finished order

/-- What has been logged is the beginning of the lines of some program. -/
theorem Chronicle.exists_isPrefix {o : Outline} {ts : List (Located Token)} {lines : List LogLine}
    (h : Chronicle o ts lines) :
    ∃ heads, (heads.map FunctionHead.nameToken).Sublist ts ∧ lines <+: programLines heads := by
  cases h with
  | @between heads _ heading order => exact ⟨heads, order, List.prefix_append _ _⟩
  | @named heads f _ heading order =>
    have hheads := (List.sublist_append_left heads [f]).map FunctionHead.nameToken
    exact ⟨heads, hheads.trans order, List.prefix_append _ _⟩
  | @function heads f _ order =>
    refine ⟨heads ++ [f], order,
      [generatedLine f.name.value, mainLine, generatedMainLine], ?_⟩
    rw [programLines, List.flatMap_append]
    simp [FunctionHead.lines]
  | @main heads _ order =>
    refine ⟨heads, order, [generatedMainLine], ?_⟩
    rw [List.append_assoc]
    rfl
  | @finished heads _ order => exact ⟨heads, order, List.prefix_refl _⟩

theorem Chronicle.exists_eq {o : Outline} {ts : List (Located Token)} {lines : List LogLine}
    (h : Chronicle o ts lines) (hstage : o.stage = .finished) :
    ∃ heads, (heads.map FunctionHead.nameToken).Sublist ts ∧ lines = programLines heads ∧
      o.functions = heads.map FunctionHead.signature := by
  cases h with
  | @finished heads _ order => exact ⟨heads, order, rfl, rfl⟩
  | _ => cases hstage

end Outline

/-! ### What a step leaves on record -/

namespace Builder

theorem heading_of_completes {b : Builder} {h : Heading} (hcompletes : b.completes = some h) :
    b.heading = h := by
  unfold completes at hcompletes
  split at hcompletes
  · cases hcompletes
  · exact Option.some.inj hcompletes

theorem closeBlock_of_not_completes {b : Builder} (h : b.completes = none) :
    b.closeBlock.heading = b.heading ∧ b.closeBlock.program = b.program := by
  simp [closeBlock, h]

theorem closeBlock_of_completes {b : Builder} {h : Heading} (hcompletes : b.completes = some h) :
    b.closeBlock.heading = .main ∧ b.closeBlock.program = b.program.complete b.current h := by
  simp [closeBlock, hcompletes]

end Builder

namespace Reader
open Traced

theorem records_check_ok {α β : Type} (x : Except (Located SemanticError) α) (f : α → β) :
    (check x >>= fun a => ok (f a)).records = [] := by
  cases x <;> rfl

theorem records_openBlock {r : Reader} (brace : Position) (room : r.nesting ≠ maxNesting) :
    (r.openBlock brace).records = [.opening r.scopes.depth r.scopes.nextBlock] := by
  rw [openBlock, if_neg room]
  rfl

theorem records_closeBlock (r : Reader) :
    r.closeBlock.records = r.builder.completes.toList.map .completed ++
      [.closing r.scopes.closeFrame.depth r.scopes.current.block r.scopes.current.names] := by
  rw [closeBlock]
  cases r.builder.completes <;> rfl

theorem records_stepped_name {r : Reader} (ty : Ty) (q : Position) {name : String}
    (fresh : r.scopes.Fresh name) :
    (r.stepped (.functionName ty) ⟨q, .name name⟩).records =
      [.declared (r.scopes.symbol name .function ty)] := by
  show (r.settle (.nameFunction ty ⟨q, name⟩)).records = _
  rw [settle, Scopes.declare_eq, if_pos fresh]
  rfl

theorem declare_of_fresh {r : Reader} {d : Declarator} (e : Effect)
    (fresh : r.scopes.Fresh d.name.value) :
    r.declare d e =
      ⟨[.declared (r.scopes.symbol d.name.value (Scopes.kindOf d.sizes) d.ty)],
        .ok (r.declaring d, e)⟩ := by
  rw [declare, Scopes.declareVariable_eq, if_pos fresh]
  rfl

/-- What a step leaves on record tells what it does to the frames and to the subprograms. -/
structure Traces (r : Reader) (p : Point) (t : Located Token) (records : List Record) (r' : Reader)
    (p' : Point) : Prop where
  frames : r.scopes.Moves ((frameRecords records).map Record.line) r'.scopes
  subprograms : (r.outline p).Advances t ((debugRecords records).map Record.line) (r'.outline p')

section
variable {r r' : Reader} {p p' : Point}

theorem traces_silent (t : Located Token) {records : List Record} (hrecords : records = [])
    (hscopes : r'.scopes = r.scopes) (houtline : r'.outline p' = r.outline p) :
    r.Traces p t records r' p' := by
  rw [hrecords]
  refine ⟨?_, ?_⟩
  · rw [hscopes]
    exact .stays
  · rw [houtline]
    exact .stays _ t

theorem traces_open (t : Located Token) (brace : Position) (hp : p.stage = .within)
    (room : r.nesting ≠ maxNesting) :
    r.Traces p t (r.openBlock brace).records
      ⟨r.nesting + 1, r.scopes.openFrame, r.builder.openBlock⟩ .item := by
  rw [records_openBlock brace room]
  refine ⟨r.scopes.moves_opening, ?_⟩
  rw [outline, hp]
  exact .stays _ t

theorem traces_declare {d : Declarator} (t : Located Token) (hp : p.stage = .within)
    (fresh : r.scopes.Fresh d.name.value) :
    r.Traces (.declarator d) t (r.declare d (.goTo p) >>= fun s => s.1.settle s.2).records
      (r.declaring d) p := by
  rw [declare_of_fresh _ fresh]
  refine ⟨r.scopes.moves_declared _, ?_⟩
  rw [outline, outline, hp]
  exact .stays _ t

theorem signatures_complete (p : Program) (body : Block) (name : String) (ty : Ty) :
    (p.complete body (.function name ty)).signatures = p.signatures ++ [(name, ty)] :=
  List.map_append

theorem traces_close (r : Reader) (t : Located Token) (hinner : r.scopes.inner ≠ []) :
    r.Traces .item t r.closeBlock.records
      ⟨r.nesting - 1, r.scopes.closeFrame, r.builder.closeBlock⟩
      (afterBlock r.builder.completes) := by
  rw [records_closeBlock]
  cases hcompletes : r.builder.completes with
  | none =>
    obtain ⟨hheading, hprogram⟩ := Builder.closeBlock_of_not_completes hcompletes
    refine ⟨Scopes.moves_closing hinner, ?_⟩
    simp only [outline, hheading, hprogram]
    exact .stays _ t
  | some h =>
    obtain ⟨hheading, hprogram⟩ := Builder.closeBlock_of_completes hcompletes
    refine ⟨Scopes.moves_closing hinner, ?_⟩
    simp only [outline, hheading, hprogram, Builder.heading_of_completes hcompletes]
    cases h with
    | function name ty =>
      rw [signatures_complete]
      exact .completesFunction name ty _ t
    | main => exact .completesMain _ t

theorem traces_of_step {t : Located Token} (hstep : Step r p t r' p')
    (hopen : p.place.inBlock = true → r.scopes.inner ≠ []) :
    r.Traces p t (r.stepped p t).records r' p' := by
  cases hstep with
  | topType q ty => cases ty <;> exact traces_silent _ rfl rfl rfl
  | functionName q ty name fresh =>
    rw [records_stepped_name ty q fresh]
    exact ⟨r.scopes.moves_declared _, .names _ _ ⟨⟨q, name⟩, ty⟩⟩
  | functionClose q ty name => exact ⟨.stays, .beginsFunction _ _ ⟨name, ty⟩ _⟩
  | mainClose q => exact ⟨.stays, .beginsMain _ _ _⟩
  | bodyOpen q room => exact traces_open _ q rfl room
  | blockOpen q room => exact traces_open _ q rfl room
  | blockClose q => exact r.traces_close _ (hopen rfl)
  | itemType q ty => cases ty <;> exact traces_silent _ rfl rfl rfl
  | itemName q name v known => exact traces_silent _ (records_check_ok _ _) rfl rfl
  | variableName q ty name fresh => exact traces_silent _ (records_check_ok _ _) rfl rfl
  | comma q d fresh => exact traces_declare _ rfl fresh
  | semicolon q d fresh => exact traces_declare _ rfl fresh
  | size q d size positive => exact traces_silent _ (records_check_ok _ _) rfl rfl
  | operand q a context f g known =>
    cases f with
    | name text => exact traces_silent _ (records_check_ok _ _) rfl rfl
    | _ => exact traces_silent _ rfl rfl rfl
  | mul q a o divide => cases divide <;> exact traces_silent _ rfl rfl rfl
  | add q a o subtract => cases subtract <;> exact traces_silent _ rfl rfl rfl
  | assign q a o fits =>
    refine traces_silent _ ?_ rfl rfl
    show ((check (checkAssignment a.name a.target o.toExpr) >>= _) >>= _).records = []
    cases checkAssignment a.name a.target o.toExpr <;> rfl
  | _ => exact traces_silent _ rfl rfl rfl

end

/-- The invariant of the steps and their records. -/
structure Recorded (r : Reader) (p : Point) (ts : List (Located Token)) (records : List Record) :
    Prop where
  tallied : r.Tallied
  sane : (r.control p).Sane
  frames : OpenWord r.scopes.frames ((frameRecords records).map Record.line)
  subprograms : (r.outline p).Chronicle ts ((debugRecords records).map Record.line)

theorem recorded_new : Reader.new.Recorded .top [] [] :=
  ⟨tallied_new, iff_of_true rfl rfl, .outermost (.nil 1),
    @Outline.Chronicle.between [] [] .main .slnil⟩

theorem recorded_step {r r' : Reader} {p p' : Point} {t : Located Token} {ts : List (Located Token)}
    {records : List Record} (h : r.Recorded p ts records) (hstep : Step r p t r' p') :
    r'.Recorded p' (ts ++ [t]) (records ++ (r.stepped p t).records) := by
  have hopen : p.place.inBlock = true → r.scopes.inner ≠ [] :=
    fun hp => mt h.tallied.inner_eq_nil_iff.mp (open_of_sane h.sane hp)
  obtain ⟨hmoves, hadvances⟩ := traces_of_step hstep hopen
  have hsane := Control.sane_step h.sane (step_control hstep)
  refine ⟨tallied_step h.tallied h.sane hstep, hsane, ?_, ?_⟩
  · rw [frameRecords, List.filter_append, List.map_append]
    exact Scopes.openWord_of_moves h.frames hmoves
  · rw [debugRecords, List.filter_append, List.map_append]
    exact Outline.chronicle_of_advances h.subprograms hadvances

theorem recorded_of_walkedTo {records : List Record} {s : Reader × Point} (h : WalkedTo records s) :
    ∃ ts, ts <+: pulled records ∧ s.1.Recorded s.2 ts (noted records) := by
  obtain ⟨ts, hwalk, hts⟩ := h
  have hrecorded := invariant_of_walk (P := Recorded) recorded_step [] [] recorded_new
    (congrArg Traced.result hwalk)
  rw [hwalk] at hrecorded
  exact ⟨ts, hts, hrecorded⟩

theorem Recorded.inner_eq_nil {r : Reader} {ts : List (Located Token)} {records : List Record}
    (h : r.Recorded .finish ts records) : r.scopes.inner = [] := by
  have hclosed : r.builder.enclosing.length = 0 := h.sane.mpr rfl
  exact h.tallied.inner_eq_nil_iff.mpr (List.length_eq_zero_iff.mp hclosed)

theorem Recorded.frames_noted {r : Reader} {p : Point} {ts : List (Located Token)}
    {records : List Record} (h : r.Recorded p ts (noted records)) :
    OpenWord r.scopes.frames (frameLines (records.map Record.line)) := by
  have hframes := h.frames
  rwa [frameRecords, filter_noted (fun _ => rfl), ← frameRecords, ← frameLines_line] at hframes

theorem Recorded.subprograms_noted {r : Reader} {p : Point} {ts : List (Located Token)}
    {records : List Record} (h : r.Recorded p ts (noted records)) :
    (r.outline p).Chronicle ts (debugLines (records.map Record.line)) := by
  have hsubprograms := h.subprograms
  rwa [debugRecords, filter_noted (fun _ => rfl), ← debugRecords, ← debugLines_line] at hsubprograms

end Reader

/-- A reading that succeeds has come to the end of the main block. -/
theorem exists_recorded (source : String) :
    ∃ r point ts, ts <+: pulled (readProgram source).records ∧
      Reader.Recorded r point ts (noted (readProgram source).records) ∧
      ∀ p, (readProgram source).result = .ok p → point = .finish ∧ r.builder.program = p := by
  obtain ⟨s, hwalked, hok⟩ := (Asks.first : Asks source _ _ _ _).exists_walkedTo_of_run
  obtain ⟨ts, hts, hrecorded⟩ := Reader.recorded_of_walkedTo hwalked
  rw [List.nil_append, ← records_readProgram] at hts hrecorded
  refine ⟨s.1, s.2, ts, hts, hrecorded, ?_⟩
  intro p hp
  obtain ⟨r, hrun, hprogram, -⟩ := exists_reader_of_ok hp
  rw [hok r hrun]
  exact ⟨rfl, hprogram⟩

/-! ### The trace of a run -/

/-- What the log of a run tells that lists a text for a target. -/
structure Accounts (source : String) (target : Target) (run : Traced String) : Prop where
  /-- The tokens are those pulled from the scanner, in order and each with its position. -/
  tokens : tokenLines run.log = ((pullsOf source).filterMap Scan.token?).map tokenLine
  pulls : pullsOf source <+: (Scanner.ofText source).stream.results
  held : ∀ t ∈ (pullsOf source).filterMap Scan.token?, Holds source t
  /-- Closing the frames left open balances the word of the frames, and success leaves none open. -/
  frames : ∃ closings names, Balanced 1 (frameLines run.log ++ closings) names ∧
    (∀ line ∈ closings, ∃ depth block declared, line = closingLine depth block declared) ∧
    ∀ text, run.result = .ok text → closings = []
  /-- Success is logged after all subprograms of the program, in their order. -/
  listed : ∀ text, run.result = .ok text → ∃ p heads, (readProgram source).result = .ok p ∧
    p.signatures = heads.map FunctionHead.signature ∧
    (heads.map FunctionHead.nameToken).Sublist ((pullsOf source).filterMap Scan.token?) ∧
    debugLines run.log = programLines heads ++ [materializingLine target]
  /-- A failure leaves a beginning of such lines, without that of the listing. -/
  failed : ∀ d, run.result = .error d → ∃ heads,
    (heads.map FunctionHead.nameToken).Sublist ((pullsOf source).filterMap Scan.token?) ∧
    debugLines run.log <+: programLines heads

theorem pulled_readProgram (source : String) :
    pulled (readProgram source).records = (pullsOf source).filterMap Scan.token? := by
  rw [records_readProgram]
  exact Reader.pulled_run ..

theorem compile_of_ok {source : String} {p : Program} (h : (readProgram source).result = .ok p)
    (target : Target) :
    compile source target =
      ⟨(readProgram source).records ++ [.listing target], .ok (p.list target)⟩ := by
  rw [compile, Traced.bind_of_ok h]
  rfl

theorem compile_of_error {source : String} {d : Diagnostic}
    (h : (readProgram source).result = .error d) (target : Target) :
    compile source target = ⟨(readProgram source).records, .error d⟩ := by
  rw [compile, Traced.bind_of_error h]

/-- The line of the listing is for debugging, and neither about a token nor about a frame. -/
theorem lines_listing (lines : List LogLine) (target : Target) :
    tokenLines (lines ++ [materializingLine target]) = tokenLines lines ∧
      frameLines (lines ++ [materializingLine target]) = frameLines lines ∧
      debugLines (lines ++ [materializingLine target]) =
        debugLines lines ++ [materializingLine target] := by
  rw [tokenLines, frameLines, debugLines, List.filter_append, List.filter_append,
    List.filter_append]
  exact ⟨List.append_nil _, List.append_nil _, rfl⟩

theorem log_compile_of_ok {source : String} {p : Program}
    (h : (readProgram source).result = .ok p) (target : Target) :
    (compile source target).log = (readProgram source).log ++ [materializingLine target] := by
  rw [compile_of_ok h]
  exact List.map_append

theorem holds_of_pulled {source : String} {t : Located Token}
    (h : t ∈ (pullsOf source).filterMap Scan.token?) : Holds source t := by
  have hpulls : pullsOf source <+: (Scanner.ofText source).stream.results :=
    Reader.pulls_isPrefix ..
  exact holds_of_mem ((hpulls.sublist.filterMap Scan.token?).subset h)

/-- The scanner yields no end of text, which is the token that is quoted in words. -/
theorem line_token {t : Located Token} (h : t.value.WellSpelled) :
    (Record.token t).line = tokenLine t := by
  obtain ⟨p, t⟩ := t
  cases t with
  | endOfText => cases h
  | _ => rfl

theorem tokenLines_readProgram (source : String) :
    tokenLines (readProgram source).log =
      ((pullsOf source).filterMap Scan.token?).map tokenLine := by
  rw [Traced.log, tokenLines_line, pulled_readProgram, List.map_map]
  refine List.map_congr_left ?_
  intro t ht
  exact line_token (holds_of_pulled ht).wellSpelled

/-- Every run accounts for what it has done. -/
theorem accounts_compile (source : String) (target : Target) :
    Accounts source target (compile source target) := by
  obtain ⟨r, point, ts, hts, hrecorded, hok⟩ := exists_recorded source
  rw [pulled_readProgram] at hts
  obtain ⟨closings, names, hbalanced, hclosings, hlength⟩ := hrecorded.frames_noted.exists_closings
  have hsubprograms := hrecorded.subprograms_noted
  have hpulls : pullsOf source <+: (Scanner.ofText source).stream.results :=
    Reader.pulls_isPrefix ..
  cases hresult : (readProgram source).result with
  | error d =>
    obtain ⟨heads, horder, hbegins⟩ := hsubprograms.exists_isPrefix
    rw [compile_of_error hresult]
    refine ⟨tokenLines_readProgram source, hpulls, fun _ => holds_of_pulled,
      ⟨closings, names, hbalanced, hclosings, by simp⟩, by simp, ?_⟩
    exact fun _ _ => ⟨heads, horder.trans hts.sublist, hbegins⟩
  | ok p =>
    obtain ⟨rfl, rfl⟩ := hok p hresult
    obtain ⟨heads, horder, hdebug, hsignatures⟩ := hsubprograms.exists_eq rfl
    have hclosed : closings = [] := by
      rw [Scopes.frames, hrecorded.inner_eq_nil] at hlength
      exact List.length_eq_zero_iff.mp (Nat.succ.inj hlength)
    obtain ⟨htokens, hframes, hlisting⟩ := lines_listing (readProgram source).log target
    have hlog := log_compile_of_ok hresult target
    refine ⟨?_, hpulls, fun _ => holds_of_pulled,
      ⟨closings, names, ?_, hclosings, fun _ _ => hclosed⟩, ?_, ?_⟩
    · rw [hlog, htokens, tokenLines_readProgram]
    · rwa [hlog, hframes]
    · intro text _
      refine ⟨r.builder.program, heads, hresult, hsignatures, horder.trans hts.sublist, ?_⟩
      rw [hlog, hlisting]
      exact congrArg (· ++ [materializingLine target]) hdebug
    · rw [compile_of_ok hresult]
      intro d herror
      cases herror

example : (frameLines (compile
    "int f() \x7b\x7d main() \x7b int a; \x7b double b, c[2]; \x7d a = 1; \x7d" .c).log).map
      LogLine.message =
    ["declared Symbol \x7b name: Identifier(\"f\"), kind: Function, typ: Int, block: 0 \x7d",
      "opening scope 1 (block 0)", "closing scope 1 (block 0): []",
      "opening scope 1 (block 0)",
      "declared Symbol \x7b name: Identifier(\"a\"), kind: Variable, typ: Int, block: 0 \x7d",
      "opening scope 2 (block 1)",
      "declared Symbol \x7b name: Identifier(\"b\"), kind: Variable, typ: Real, block: 1 \x7d",
      "declared Symbol \x7b name: Identifier(\"c\"), kind: Array, typ: Real, block: 1 \x7d",
      "closing scope 2 (block 1): [\"b\", \"c\"]", "closing scope 1 (block 0): [\"a\"]"] := by
  decide +kernel

end BlockLang
