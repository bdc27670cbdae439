import BlockLang.Trace

/-!
# Brackets in a trace

The lines logged for frames opened and closed and for names declared form a bracket word. `Balanced`
is the grammar of the words in which every frame that opens closes again. The word of a run that
goes on is described by the frames that it has left open (`OpenWord`): between any two openings
that stand unmatched lies a balanced word, and it declares the names of the frame that it fills.
Every operation on the frames carries this on (`openWord_of_moves`), so that closing what is open
completes the word (`OpenWord.exists_closings`).
-/

namespace BlockLang

/-! ### Lines about frames -/

def openingLine (depth block : Nat) : LogLine :=
  ⟨.trace, "traductor::semantic",
    "opening scope " ++ toString depth ++ " (block " ++ toString block ++ ")"⟩

def closingLine (depth block : Nat) (names : List String) : LogLine :=
  ⟨.trace, "traductor::semantic",
    "closing scope " ++ toString depth ++ " (block " ++ toString block ++ "): " ++
      ("[" ++ ", ".intercalate (names.map (fun name => "\"" ++ name ++ "\"")) ++ "]")⟩

def declaredLine (symbol : Symbol) : LogLine :=
  ⟨.trace, "traductor::semantic",
    "declared Symbol \x7b name: Identifier(\"" ++ symbol.name ++ "\"), kind: " ++
      symbol.kind.recordName ++ ", typ: " ++ symbol.ty.recordName ++ ", block: " ++
      toString symbol.block ++ " \x7d"⟩

theorem line_opening (depth block : Nat) :
    (Record.opening depth block).line = openingLine depth block := rfl

theorem line_closing (depth block : Nat) (names : List String) :
    (Record.closing depth block names).line = closingLine depth block names := rfl

theorem line_declared (symbol : Symbol) :
    (Record.declared symbol).line = declaredLine symbol := rfl

/-! ### Bracket words -/

/-- `Balanced depth word names`: with `depth` frames open around it, the word closes all that it
opens, and it declares these names outside the frames that it opens. -/
inductive Balanced : Nat → List LogLine → List String → Prop
  | nil (depth : Nat) : Balanced depth [] []
  | declared (depth : Nat) (symbol : Symbol) : Balanced depth [declaredLine symbol] [symbol.name]
  | pair {depth : Nat} {word : List LogLine} {names : List String} (block : Nat)
      (inside : Balanced (depth + 1) word names) :
      Balanced depth (openingLine depth block :: (word ++ [closingLine depth block names])) []
  | append {depth : Nat} {word word' : List LogLine} {names names' : List String}
      (first : Balanced depth word names) (second : Balanced depth word' names') :
      Balanced depth (word ++ word') (names ++ names')

/-- The word has left these frames open, the innermost first. The last one is the global frame,
which has no opening. -/
inductive OpenWord : List Frame → List LogLine → Prop
  | outermost {f : Frame} {word : List LogLine} (filled : Balanced 1 word f.names) :
      OpenWord [f] word
  | inside {f : Frame} {frames : List Frame} {before word : List LogLine}
      (around : OpenWord frames before) (filled : Balanced (frames.length + 1) word f.names) :
      OpenWord (f :: frames) (before ++ openingLine frames.length f.block :: word)

namespace OpenWord
variable {f : Frame} {frames : List Frame} {word : List LogLine}

/-- What a balanced word declares goes into the innermost frame. -/
theorem append {f' : Frame} {word' : List LogLine} {names : List String}
    (h : OpenWord (f :: frames) word) (hword : Balanced (frames.length + 1) word' names)
    (hblock : f'.block = f.block) (hnames : f'.names = f.names ++ names) :
    OpenWord (f' :: frames) (word ++ word') := by
  cases h with
  | outermost filled =>
    refine .outermost ?_
    rw [hnames]
    exact filled.append hword
  | @inside _ _ before word around filled =>
    rw [List.append_assoc, List.cons_append, ← hblock]
    refine .inside around ?_
    rw [hnames]
    exact filled.append hword

theorem declare (h : OpenWord (f :: frames) word) (symbol : Symbol) :
    OpenWord (f.insert symbol :: frames) (word ++ [declaredLine symbol]) :=
  h.append (.declared _ symbol) rfl List.map_append

/-- A frame that closes makes a balanced word of what it opened. -/
theorem close {g : Frame} (h : OpenWord (f :: g :: frames) word) :
    OpenWord (g :: frames) (word ++ [closingLine (g :: frames).length f.block f.names]) := by
  cases h with
  | @inside _ _ before word around filled =>
    have hpair := Balanced.pair f.block filled
    rw [List.append_assoc]
    exact around.append hpair rfl (List.append_nil _).symm

/-- Closing the open frames, the innermost first, completes the word. -/
theorem exists_closings (h : OpenWord frames word) :
    ∃ closings names, Balanced 1 (word ++ closings) names ∧
      (∀ line ∈ closings, ∃ depth block declared, line = closingLine depth block declared) ∧
      closings.length + 1 = frames.length := by
  induction frames generalizing word with
  | nil => cases h
  | cons f frames ih =>
    cases frames with
    | nil =>
      cases h with
      | outermost filled =>
        refine ⟨[], f.names, ?_, by simp, rfl⟩
        rwa [List.append_nil]
      | inside around filled => cases around
    | cons g frames =>
      obtain ⟨closings, names, hbalanced, hclosings, hlength⟩ := ih h.close
      refine ⟨closingLine (g :: frames).length f.block f.names :: closings, names, ?_, ?_, ?_⟩
      · rwa [List.append_assoc] at hbalanced
      · exact List.forall_mem_cons.mpr ⟨⟨_, _, _, rfl⟩, hclosings⟩
      · simp only [List.length_cons] at hlength ⊢
        omega

end OpenWord

namespace Scopes

/-- All that happens to the frames, with the lines that are logged for it. -/
inductive Moves (s : Scopes) : List LogLine → Scopes → Prop
  | stays : Moves s [] s
  | opens : Moves s [openingLine s.depth s.nextBlock] s.openFrame
  | declares (symbol : Symbol) : Moves s [declaredLine symbol] (s.insert symbol)
  | closes (inner : s.inner ≠ []) :
      Moves s [closingLine s.closeFrame.depth s.current.block s.current.names] s.closeFrame

theorem moves_opening (s : Scopes) :
    s.Moves [(Record.opening s.depth s.nextBlock).line] s.openFrame := by
  rw [line_opening]
  exact .opens

theorem moves_declared (s : Scopes) (symbol : Symbol) :
    s.Moves [(Record.declared symbol).line] (s.insert symbol) := by
  rw [line_declared]
  exact .declares symbol

theorem moves_closing {s : Scopes} (h : s.inner ≠ []) :
    s.Moves [(Record.closing s.closeFrame.depth s.current.block s.current.names).line]
      s.closeFrame := by
  rw [line_closing]
  exact .closes h

theorem length_frames (s : Scopes) : s.frames.length = s.depth := by
  rw [frames, List.length_append, depth, List.length_singleton]

theorem openWord_of_moves {s s' : Scopes} {word lines : List LogLine} (h : OpenWord s.frames word)
    (hmoves : s.Moves lines s') : OpenWord s'.frames (word ++ lines) := by
  cases hmoves with
  | stays => rwa [List.append_nil]
  | opens =>
    rw [← s.length_frames]
    exact .inside h (.nil _)
  | declares symbol =>
    obtain ⟨inner, global, blocks⟩ := s
    cases inner with
    | nil => exact h.declare symbol
    | cons f frames => exact h.declare symbol
  | closes inner =>
    obtain ⟨inner', global, blocks⟩ := s
    rw [← length_frames]
    -- The global frame is never closed, so that there is a frame around the one that closes.
    match inner', inner with
    | [f], _ => exact h.close
    | f :: g :: frames, _ => exact h.close

end Scopes

end BlockLang
