import BlockLang.Proofs.Binding
import Mathlib.Data.List.Forall2
import Mathlib.Data.List.Nodup

/-!
# Histories of scopes

Scopes are reached from new ones by calls in any order, also by calls that are refused or that close
more frames than they open. A history lists the calls made so far, the latest first. It tells which
frames are open and what was declared in each of them, where a frame is known by the number of calls
made before it was opened. `Reflects` says that the frames of the scopes hold just that, and every
answer follows from it.
-/

namespace BlockLang

inductive ScopeCall where
  | openFrame
  | closeFrame
  | declare (name : Located String) (kind : SymbolKind) (ty : Ty)
  | declareVariable (name : Located String) (ty : Ty) (sizes : List String)
  | resolve (name : Located String)
  | lookup (name : String)
  | checkUndeclared (name : Located String)
deriving DecidableEq

inductive ScopeAnswer where
  | opened (block : Nat)
  | closed
  | declared (symbol : Symbol)
  | declaredVariable (d : Declaration)
  | resolved (v : Variable)
  | found (symbol : Option Symbol)
  | undeclared
  | refused (e : Located SemanticError)
deriving DecidableEq

/-- The symbol that a call has declared, if it has declared one. -/
def ScopeAnswer.symbol? : ScopeAnswer → Option Symbol
  | .declared symbol => some symbol
  | .declaredVariable d => some d.symbol
  | _ => none

namespace Scopes

/-- The answer to a call, and the scopes after it. A call that is refused yields no scopes of its
own, so that those before it stay. -/
def call (s : Scopes) : ScopeCall → ScopeAnswer × Scopes
  | .openFrame => (.opened s.nextBlock, s.openFrame)
  | .closeFrame => (.closed, s.closeFrame)
  | .declare name kind ty =>
    match s.declare name kind ty with
    | .ok (symbol, s') => (.declared symbol, s')
    | .error e => (.refused e, s)
  | .declareVariable name ty sizes =>
    match s.declareVariable name ty sizes with
    | .ok (_, d, s') => (.declaredVariable d, s')
    | .error e => (.refused e, s)
  | .resolve name =>
    match s.resolve name with
    | .ok v => (.resolved v, s)
    | .error e => (.refused e, s)
  | .lookup name => (.found (s.lookup name), s)
  | .checkUndeclared name =>
    match s.checkUndeclared name with
    | .ok () => (.undeclared, s)
    | .error e => (.refused e, s)

/-- The scopes that a history leads to. -/
def after : List ScopeCall → Scopes
  | [] => .new
  | c :: before => ((after before).call c).2

def answer (before : List ScopeCall) (c : ScopeCall) : ScopeAnswer := ((after before).call c).1

/-! ### What a history tells -/

/-- The open frames inside the global one, innermost first. -/
def openFrames : List ScopeCall → List Nat
  | [] => []
  | .openFrame :: before => before.length :: openFrames before
  | .closeFrame :: before => (openFrames before).tail
  | _ :: before => openFrames before

/-- All open frames, innermost first; `none` is the global one. -/
def frameIds (history : List ScopeCall) : List (Option Nat) :=
  (openFrames history).map some ++ [none]

def innermost (history : List ScopeCall) : Option Nat := (openFrames history).head?

/-- A call of the history declared the symbol while the frame was the innermost one. -/
def Made (history : List ScopeCall) (frame : Option Nat) (symbol : Symbol) : Prop :=
  ∃ c before, c :: before <:+ history ∧ innermost before = frame ∧
    (answer before c).symbol? = some symbol

def Taken (history : List ScopeCall) (frame : Option Nat) (name : String) : Prop :=
  ∃ symbol, Made history frame symbol ∧ symbol.name = name

/-! ### What a call can do -/

theorem checkUndeclared_eq (s : Scopes) (name : Located String) :
    s.checkUndeclared name = if s.Fresh name.value then .ok () else
      .error ⟨name.position, .redeclared name.value⟩ := by
  unfold checkUndeclared
  by_cases fresh : s.Fresh name.value
  · rw [if_pos fresh, show s.current.find? name.value = none from fresh]
  · obtain ⟨symbol, hsome⟩ := Option.ne_none_iff_exists'.mp fresh
    rw [if_neg fresh, hsome]

theorem declare_eq (s : Scopes) (name : Located String) (kind : SymbolKind) (ty : Ty) :
    s.declare name kind ty = if s.Fresh name.value then
      .ok (s.symbol name.value kind ty, s.insert (s.symbol name.value kind ty)) else
      .error ⟨name.position, .redeclared name.value⟩ := by
  rw [declare, checkUndeclared_eq]
  split <;> rfl

theorem declareVariable_eq (s : Scopes) (name : Located String) (ty : Ty) (sizes : List String) :
    s.declareVariable name ty sizes = if s.Fresh name.value then
      .ok (s.symbol name.value (kindOf sizes) ty, ⟨⟨name.value, s.current.block, ty⟩, sizes⟩,
        s.insert (s.symbol name.value (kindOf sizes) ty)) else
      .error ⟨name.position, .redeclared name.value⟩ := by
  rw [declareVariable, declare_eq]
  split <;> rfl

/-- The call neither opens nor closes a frame. -/
def Stays (c : ScopeCall) : Prop := c ≠ .openFrame ∧ c ≠ .closeFrame

inductive Acts (s : Scopes) : ScopeCall → ScopeAnswer → Scopes → Prop
  | opens : Acts s .openFrame (.opened s.nextBlock) s.openFrame
  | closes : Acts s .closeFrame .closed s.closeFrame
  | declares {c : ScopeCall} {a : ScopeAnswer} {symbol : Symbol} (stays : Stays c)
      (symbol? : a.symbol? = some symbol) (fresh : s.Fresh symbol.name)
      (block : symbol.block = s.current.block) : Acts s c a (s.insert symbol)
  | keeps {c : ScopeCall} {a : ScopeAnswer} (stays : Stays c) (symbol? : a.symbol? = none) :
      Acts s c a s

theorem acts_call (s : Scopes) (c : ScopeCall) : s.Acts c (s.call c).1 (s.call c).2 := by
  cases c with
  | openFrame => exact .opens
  | closeFrame => exact .closes
  | declare name kind ty =>
    simp only [call, declare_eq]
    by_cases fresh : s.Fresh name.value
    · rw [if_pos fresh]
      exact .declares (by simp [Stays]) rfl fresh rfl
    · rw [if_neg fresh]
      exact .keeps (by simp [Stays]) rfl
  | declareVariable name ty sizes =>
    simp only [call, declareVariable_eq]
    by_cases fresh : s.Fresh name.value
    · rw [if_pos fresh]
      exact .declares (by simp [Stays]) rfl fresh rfl
    · rw [if_neg fresh]
      exact .keeps (by simp [Stays]) rfl
  | resolve name =>
    simp only [call]
    cases s.resolve name <;> exact .keeps (by simp [Stays]) rfl
  | lookup name => exact .keeps (by simp [Stays]) rfl
  | checkUndeclared name =>
    simp only [call]
    cases s.checkUndeclared name <;> exact .keeps (by simp [Stays]) rfl

theorem acts_after (c : ScopeCall) (before : List ScopeCall) :
    (after before).Acts c (answer before c) (after (c :: before)) :=
  acts_call (after before) c

/-! ### Frames known by their numbers -/

theorem openFrames_of_stays {c : ScopeCall} (h : Stays c) (before : List ScopeCall) :
    openFrames (c :: before) = openFrames before := by
  cases c with
  | openFrame => exact absurd rfl h.1
  | closeFrame => exact absurd rfl h.2
  | _ => rfl

theorem lt_of_mem_openFrames {history : List ScopeCall} {id : Nat} (h : id ∈ openFrames history) :
    id < history.length := by
  induction history with
  | nil => cases h
  | cons c before ih =>
    rw [List.length_cons]
    cases c with
    | openFrame =>
      rcases List.mem_cons.mp h with rfl | h
      · omega
      · have hlt := ih h
        omega
    | closeFrame =>
      have hlt := ih (List.mem_of_mem_tail h)
      omega
    | _ =>
      have hlt := ih h
      omega

theorem nodup_openFrames (history : List ScopeCall) : (openFrames history).Nodup := by
  induction history with
  | nil => exact List.nodup_nil
  | cons c before ih =>
    cases c with
    | openFrame =>
      refine List.nodup_cons.mpr ⟨fun h => ?_, ih⟩
      exact Nat.lt_irrefl _ (lt_of_mem_openFrames h)
    | closeFrame => exact ih.sublist (List.tail_sublist _)
    | _ => exact ih

theorem made_cons {c : ScopeCall} {before : List ScopeCall} {frame : Option Nat} {symbol : Symbol} :
    Made (c :: before) frame symbol ↔
      Made before frame symbol ∨
        innermost before = frame ∧ (answer before c).symbol? = some symbol := by
  constructor
  · rintro ⟨c', before', hsuffix, hmade⟩
    rcases List.suffix_cons_iff.mp hsuffix with heq | hsuffix
    · cases heq
      exact .inr hmade
    · exact .inl ⟨c', before', hsuffix, hmade⟩
  · rintro (⟨c', before', hsuffix, hmade⟩ | hmade)
    · exact ⟨c', before', hsuffix.trans (List.suffix_cons ..), hmade⟩
    · exact ⟨c, before, List.suffix_refl _, hmade⟩

/-- Nothing is declared in a frame before it is opened. -/
theorem not_made_next (history : List ScopeCall) (symbol : Symbol) :
    ¬Made history (some history.length) symbol := by
  rintro ⟨c, before, hsuffix, hinnermost, -⟩
  have hlt := lt_of_mem_openFrames (List.mem_of_mem_head? hinnermost)
  have hle := hsuffix.length_le
  rw [List.length_cons] at hle
  omega

end Scopes

/-! ### The frames reflect the history -/

/-- The frame holds what the history declares in it. -/
structure Frame.Holds (f : Frame) (history : List ScopeCall) (frame : Option Nat) : Prop where
  made : ∀ symbol, symbol ∈ f.symbols ↔ Scopes.Made history frame symbol
  nodup : f.names.Nodup

namespace Frame.Holds
open Scopes
variable {f : Frame} {history : List ScopeCall} {frame : Option Nat}

theorem find?_eq_some_iff (h : f.Holds history frame) (name : String) (symbol : Symbol) :
    f.find? name = some symbol ↔ Made history frame symbol ∧ symbol.name = name := by
  rw [← h.made]
  constructor
  · intro hfind
    exact ⟨List.mem_of_find?_eq_some hfind, by simpa using List.find?_some hfind⟩
  · rintro ⟨hmem, hname⟩
    cases hfind : f.find? name with
    | none => exact absurd hname (by simpa using List.find?_eq_none.mp hfind symbol hmem)
    | some other =>
      have hother : other.name = name := by simpa using List.find?_some hfind
      have hsame := List.inj_on_of_nodup_map h.nodup (List.mem_of_find?_eq_some hfind) hmem
        (hother.trans hname.symm)
      rw [hsame]

theorem find?_eq_none_iff (h : f.Holds history frame) (name : String) :
    f.find? name = none ↔ ¬Taken history frame name := by
  rw [Option.eq_none_iff_forall_ne_some]
  constructor
  · rintro hnone ⟨symbol, hmade⟩
    exact hnone symbol ((h.find?_eq_some_iff name symbol).mpr hmade)
  · intro hnot symbol hfind
    exact hnot ⟨symbol, (h.find?_eq_some_iff name symbol).mp hfind⟩

/-- A call that declares nothing in the frame leaves it as the history tells. -/
theorem cons (h : f.Holds history frame) {c : ScopeCall}
    (hc : innermost history = frame → (answer history c).symbol? = none) :
    f.Holds (c :: history) frame := by
  refine ⟨fun symbol => ?_, h.nodup⟩
  rw [made_cons, h.made]
  constructor
  · exact .inl
  · rintro (hmade | ⟨hframe, hsymbol⟩)
    · exact hmade
    · rw [hc hframe] at hsymbol
      cases hsymbol

theorem insert (h : f.Holds history (innermost history)) {c : ScopeCall} {symbol : Symbol}
    (hc : (answer history c).symbol? = some symbol) (fresh : f.find? symbol.name = none) :
    (f.insert symbol).Holds (c :: history) (innermost history) := by
  refine ⟨fun other => ?_, ?_⟩
  · rw [made_cons, ← h.made, hc]
    simp [Frame.insert, eq_comm]
  · have habsent : symbol.name ∉ f.names := by
      simpa [Frame.find?, Frame.names] using fresh
    have hnames : (f.insert symbol).names = f.names ++ [symbol.name] := by
      simp [Frame.insert, Frame.names]
    rw [hnames]
    exact h.nodup.append (List.nodup_singleton _) (by simpa using habsent)

end Frame.Holds

namespace Scopes

/-- Frame by frame, the scopes hold what the history declares. -/
structure Reflects (history : List ScopeCall) (s : Scopes) : Prop where
  inner : List.Forall₂ (fun id f => f.Holds history (some id)) (openFrames history) s.inner
  global : s.global.Holds history none

theorem holds_cons {c : ScopeCall} {before : List ScopeCall} {ids : List Nat} {fs : List Frame}
    (h : List.Forall₂ (fun id f => f.Holds before (some id)) ids fs)
    (hc : ∀ id ∈ ids, innermost before = some id → (answer before c).symbol? = none) :
    List.Forall₂ (fun id f => f.Holds (c :: before) (some id)) ids fs :=
  ((List.forall₂_and_left ids fs).mpr ⟨hc, h⟩).imp fun _ _ hf => hf.2.cons hf.1

section Step
variable {c : ScopeCall} {before : List ScopeCall} {s : Scopes}

/-- Unless a call declares something, what was made in each frame stays the same. -/
theorem Reflects.quiet (h : Reflects before s) (hc : (answer before c).symbol? = none) :
    List.Forall₂ (fun id f => f.Holds (c :: before) (some id)) (openFrames before) s.inner ∧
      s.global.Holds (c :: before) none :=
  ⟨holds_cons h.inner fun _ _ _ => hc, h.global.cons fun _ => hc⟩

theorem Reflects.insert (h : Reflects before s) (stays : Stays c) {symbol : Symbol}
    (hc : (answer before c).symbol? = some symbol) (fresh : s.Fresh symbol.name) :
    Reflects (c :: before) (s.insert symbol) := by
  obtain ⟨hinner, hglobal⟩ := h
  have hnodup := nodup_openFrames before
  obtain ⟨inner, global, blocks⟩ := s
  -- The symbol goes to the innermost frame, which is the global one if no other is open.
  cases hopen : openFrames before with
  | nil =>
    have hinnermost : innermost before = none := by rw [innermost, hopen, List.head?_nil]
    rw [hopen, List.forall₂_nil_left_iff] at hinner
    obtain rfl : inner = [] := hinner
    rw [← hinnermost] at hglobal
    have hnew := hglobal.insert hc fresh
    rw [hinnermost] at hnew
    refine ⟨?_, hnew⟩
    rw [openFrames_of_stays stays, hopen]
    exact .nil
  | cons id ids =>
    have hinnermost : innermost before = some id := by rw [innermost, hopen, List.head?_cons]
    rw [hopen] at hinner hnodup
    obtain ⟨f, rest, hf, hrest, hfs⟩ := List.forall₂_cons_left_iff.mp hinner
    obtain rfl : inner = f :: rest := hfs
    rw [← hinnermost] at hf
    have hnew := hf.insert hc fresh
    rw [hinnermost] at hnew
    refine ⟨?_, hglobal.cons fun hnone => ?_⟩
    · rw [openFrames_of_stays stays, hopen]
      refine .cons hnew (holds_cons hrest fun other hother hsome => ?_)
      rw [hinnermost, Option.some.injEq] at hsome
      subst hsome
      exact absurd hother (List.nodup_cons.mp hnodup).1
    · rw [hinnermost] at hnone
      cases hnone

theorem Reflects.step (h : Reflects before (after before)) :
    Reflects (c :: before) (after (c :: before)) := by
  have hacts := acts_after c before
  generalize ha : answer before c = a at hacts
  generalize after (c :: before) = s' at hacts ⊢
  cases hacts with
  | opens =>
    obtain ⟨hframes, hglobal⟩ := h.quiet (c := .openFrame) rfl
    refine ⟨.cons ⟨fun symbol => ?_, List.nodup_nil⟩ hframes, hglobal⟩
    have hnever := not_made_next before symbol
    rw [made_cons, ha]
    simpa [Frame.new, ScopeAnswer.symbol?] using hnever
  | closes =>
    obtain ⟨hframes, hglobal⟩ := h.quiet (c := .closeFrame) rfl
    have htail := List.forall₂_drop 1 hframes
    rw [List.drop_one, List.drop_one] at htail
    exact ⟨htail, hglobal⟩
  | keeps stays symbol? =>
    obtain ⟨hframes, hglobal⟩ := h.quiet (ha ▸ symbol?)
    refine ⟨?_, hglobal⟩
    rwa [openFrames_of_stays stays]
  | declares stays symbol? fresh block => exact h.insert stays (ha ▸ symbol?) fresh

end Step

theorem reflects_after (history : List ScopeCall) : Reflects history (after history) := by
  induction history with
  | nil =>
    refine ⟨.nil, fun symbol => ?_, List.nodup_nil⟩
    simp [after, new, Frame.new, Made]
  | cons c before ih => exact ih.step

/-! ### Answers -/

section Answers
variable (history : List ScopeCall)

theorem holds_current : (after history).current.Holds history (innermost history) := by
  obtain ⟨hinner, hglobal⟩ := reflects_after history
  unfold current innermost
  generalize openFrames history = ids, (after history).inner = inner at hinner ⊢
  cases hinner with
  | nil => exact hglobal
  | cons hf hrest => exact hf

theorem fresh_after_iff (name : String) :
    (after history).Fresh name ↔ ¬Taken history (innermost history) name :=
  (holds_current history).find?_eq_none_iff name

theorem holds_frames :
    List.Forall₂ (fun id f => f.Holds history id) (frameIds history) (after history).frames := by
  obtain ⟨hinner, hglobal⟩ := reflects_after history
  exact List.rel_append (List.forall₂_map_left_iff.mpr hinner) (.cons hglobal .nil)

/-- The symbol was declared under this name in the first of the frames that has one. -/
def Nearest (frames : List (Option Nat)) (name : String) (symbol : Symbol) : Prop :=
  ∃ nearer frame further, frames = nearer ++ frame :: further ∧ Made history frame symbol ∧
    symbol.name = name ∧ ∀ other ∈ nearer, ¬Taken history other name

variable {history}

theorem nearest_cons {frame : Option Nat} {further : List (Option Nat)} {name : String}
    {symbol : Symbol} : Nearest history (frame :: further) name symbol ↔
      (Made history frame symbol ∧ symbol.name = name) ∨
        ¬Taken history frame name ∧ Nearest history further name symbol := by
  constructor
  · rintro ⟨nearer, frame', further', hsplit, hmade, hname, hnot⟩
    cases nearer with
    | nil =>
      cases hsplit
      exact .inl ⟨hmade, hname⟩
    | cons first nearer =>
      cases hsplit
      obtain ⟨hfirst, hnot⟩ := List.forall_mem_cons.mp hnot
      exact .inr ⟨hfirst, nearer, frame', further', rfl, hmade, hname, hnot⟩
  · rintro (⟨hmade, hname⟩ | ⟨hfirst, nearer, frame', further', rfl, hmade, hname, hnot⟩)
    · exact ⟨[], frame, further, rfl, hmade, hname, by simp⟩
    · exact ⟨frame :: nearer, frame', further', rfl, hmade, hname,
        List.forall_mem_cons.mpr ⟨hfirst, hnot⟩⟩

theorem findSome?_eq_some_iff {ids : List (Option Nat)} {fs : List Frame}
    (h : List.Forall₂ (fun id f => f.Holds history id) ids fs) (name : String) (symbol : Symbol) :
    fs.findSome? (fun f => f.find? name) = some symbol ↔ Nearest history ids name symbol := by
  induction h with
  | nil => simp [Nearest]
  | @cons id f ids fs hf hrest ih =>
    rw [nearest_cons, ← hf.find?_eq_some_iff, ← hf.find?_eq_none_iff, List.findSome?_cons, ← ih]
    cases f.find? name <;> simp

theorem findSome?_eq_none_iff {ids : List (Option Nat)} {fs : List Frame}
    (h : List.Forall₂ (fun id f => f.Holds history id) ids fs) (name : String) :
    fs.findSome? (fun f => f.find? name) = none ↔ ∀ id ∈ ids, ¬Taken history id name := by
  induction h with
  | nil => simp
  | @cons id f ids fs hf hrest ih =>
    rw [List.forall_mem_cons, ← hf.find?_eq_none_iff, List.findSome?_cons, ← ih]
    cases f.find? name <;> simp

end Answers

/-! ### Frames that are opened and closed again -/

/-- The frame that is opened right after the history stays open throughout the segment, which
closes all that it opens. -/
structure Enclosed (history segment : List ScopeCall) : Prop where
  above : ∀ part, part <:+ segment →
    (after history).depth < (after (part ++ .openFrame :: history)).depth
  matched : (after (segment ++ .openFrame :: history)).depth = (after history).depth + 1

theorem exists_nearer {history segment : List ScopeCall} (h : ∀ part, part <:+ segment →
      (after history).depth < (after (part ++ .openFrame :: history)).depth) :
    ∃ f nearer,
      (after (segment ++ .openFrame :: history)).inner = f :: nearer ++ (after history).inner ∧
      (after (segment ++ .openFrame :: history)).global = (after history).global := by
  induction segment with
  | nil => exact ⟨_, [], rfl, rfl⟩
  | cons c segment ih =>
    obtain ⟨f, nearer, hinner, hglobal⟩ := ih fun part hpart =>
      h part (hpart.trans (List.suffix_cons ..))
    have hdepth := h (c :: segment) (List.suffix_refl _)
    have hacts := acts_after c (segment ++ .openFrame :: history)
    rw [List.cons_append] at hdepth ⊢
    generalize after (segment ++ .openFrame :: history) = s at hinner hglobal hacts
    generalize answer (segment ++ .openFrame :: history) c = a at hacts
    generalize after (c :: (segment ++ .openFrame :: history)) = s' at hdepth hacts ⊢
    cases hacts with
    | opens => exact ⟨_, f :: nearer, congrArg (List.cons _) hinner, hglobal⟩
    | keeps stays symbol? => exact ⟨f, nearer, hinner, hglobal⟩
    | closes =>
      cases nearer with
      | nil =>
        have hlength := congrArg (fun frames => frames.tail.length) hinner
        simp only [depth, closeFrame, List.singleton_append, List.tail_cons] at hdepth hlength
        omega
      | cons g nearer => exact ⟨g, nearer, congrArg List.tail hinner, hglobal⟩
    | @declares _ _ symbol stays symbol? fresh block =>
      obtain ⟨inner, global, blocks⟩ := s
      obtain rfl : inner = f :: nearer ++ (after history).inner := hinner
      exact ⟨f.insert symbol, nearer, rfl, hglobal⟩

theorem Enclosed.frames_eq {history segment : List ScopeCall} (h : Enclosed history segment) :
    (after (.closeFrame :: segment ++ .openFrame :: history)).frames = (after history).frames := by
  obtain ⟨f, nearer, hinner, hglobal⟩ := exists_nearer h.above
  have hmatched := h.matched
  have hempty : nearer = [] := by
    rw [← List.length_eq_zero_iff]
    have hlength := congrArg List.length hinner
    simp only [depth, List.cons_append, List.length_cons, List.length_append] at hmatched hlength
    omega
  subst hempty
  show (after (segment ++ .openFrame :: history)).closeFrame.frames = _
  rw [frames, closeFrame, hinner, hglobal]
  rfl

/-! ### Scopes are a stack of frames -/

/-- The answers after a history are those of a stack of frames that is searched from the innermost
frame outwards. -/
structure Implements (history : List ScopeCall) : Prop where
  depth : 1 ≤ (after history).depth ∧ (after history).depth = (frameIds history).length
  /-- A name is declared once in a frame, whatever it was declared as. -/
  redeclared : ∀ name kind ty sizes, Taken history (innermost history) name.value →
    answer history (.declare name kind ty) = .refused ⟨name.position, .redeclared name.value⟩ ∧
    answer history (.declareVariable name ty sizes) =
      .refused ⟨name.position, .redeclared name.value⟩ ∧
    answer history (.checkUndeclared name) = .refused ⟨name.position, .redeclared name.value⟩
  fresh : ∀ name kind ty sizes, ¬Taken history (innermost history) name.value →
    answer history (.declare name kind ty) =
      .declared ⟨name.value, kind, ty, (after history).current.block⟩ ∧
    answer history (.declareVariable name ty sizes) =
      .declaredVariable ⟨⟨name.value, (after history).current.block, ty⟩, sizes⟩ ∧
    answer history (.checkUndeclared name) = .undeclared
  /-- No later call can tell that a call was refused. -/
  refused : ∀ c e, answer history c = .refused e →
    ∀ later, after (later ++ c :: history) = after (later ++ history)
  found : ∀ name symbol, answer history (.lookup name) = .found (some symbol) ↔
    Nearest history (frameIds history) name symbol
  absent : ∀ name, answer history (.lookup name) = .found none ↔
    ∀ frame ∈ frameIds history, ¬Taken history frame name
  resolved : ∀ name v, answer history (.resolve name) = .resolved v ↔
    ∃ symbol, answer history (.lookup name.value) = .found (some symbol) ∧
      symbol.kind = .scalar ∧ v = ⟨name.value, symbol.block, symbol.ty⟩
  undeclared : ∀ name,
    answer history (.resolve name) = .refused ⟨name.position, .undeclared name.value⟩ ↔
      answer history (.lookup name.value) = .found none
  notAVariable : ∀ name,
    answer history (.resolve name) = .refused ⟨name.position, .notAVariable name.value⟩ ↔
      ∃ symbol, answer history (.lookup name.value) = .found (some symbol) ∧
        symbol.kind ≠ .scalar
  /-- A frame that is opened and closed again leaves the frames around it as they were. -/
  restored : ∀ segment, Enclosed history segment →
    (after (.closeFrame :: segment ++ .openFrame :: history)).frames = (after history).frames ∧
    ∀ name, answer (.closeFrame :: segment ++ .openFrame :: history) (.lookup name) =
      answer history (.lookup name)

theorem after_of_refused {c : ScopeCall} {history : List ScopeCall} {e : Located SemanticError}
    (h : answer history c = .refused e) (later : List ScopeCall) :
    after (later ++ c :: history) = after (later ++ history) := by
  induction later with
  | nil =>
    have hacts := acts_after c history
    rw [h] at hacts
    generalize hs : after (c :: history) = s at hacts
    cases hacts with
    | declares stays symbol? fresh block => cases symbol?
    | keeps stays symbol? => exact hs
  | cons next later ih =>
    show ((after (later ++ c :: history)).call next).2 = ((after (later ++ history)).call next).2
    rw [ih]

theorem implements_after (history : List ScopeCall) : Implements history where
  depth := by
    have hlength := (reflects_after history).inner.length_eq
    simp only [Scopes.depth, frameIds, List.length_append, List.length_map, List.length_singleton]
    omega
  redeclared := by
    intro name kind ty sizes hdeclared
    have hnot : ¬(after history).Fresh name.value := by
      rw [fresh_after_iff]
      exact not_not_intro hdeclared
    simp only [answer, call, declare_eq, declareVariable_eq, checkUndeclared_eq, if_neg hnot,
      and_self]
  fresh := by
    intro name kind ty sizes hdeclared
    have hfresh := (fresh_after_iff history name.value).mpr hdeclared
    simp only [answer, call, declare_eq, declareVariable_eq, checkUndeclared_eq, if_pos hfresh,
      and_self, symbol]
  refused := fun c e h => after_of_refused h
  found := by
    intro name symbol
    rw [← findSome?_eq_some_iff (holds_frames history)]
    simp [answer, call, lookup]
  absent := by
    intro name
    rw [← findSome?_eq_none_iff (holds_frames history)]
    simp [answer, call, lookup]
  resolved := by
    intro name v
    simp only [answer, call, resolve]
    rcases (after history).lookup name.value with _ | ⟨found, _ | _ | _, ty, block⟩ <;>
      simp [eq_comm]
  undeclared := by
    intro name
    simp only [answer, call, resolve]
    rcases (after history).lookup name.value with _ | ⟨found, _ | _ | _, ty, block⟩ <;> simp
  notAVariable := by
    intro name
    simp only [answer, call, resolve]
    rcases (after history).lookup name.value with _ | ⟨found, _ | _ | _, ty, block⟩ <;> simp
  restored := by
    intro segment h
    refine ⟨h.frames_eq, fun name => ?_⟩
    simp only [answer, call, lookup, h.frames_eq]

example : answer [.closeFrame, .declare ⟨⟨3, 1⟩, "a"⟩ .array .real, .openFrame,
    .declare ⟨⟨1, 1⟩, "a"⟩ .scalar .int] (.lookup "a") = .found (some ⟨"a", .scalar, .int, 0⟩) := by
  decide +kernel

end Scopes

end BlockLang
