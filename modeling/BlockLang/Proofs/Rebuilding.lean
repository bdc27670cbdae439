import BlockLang.Proofs.Acceptance

/-!
# Rebuilding a program from its events

A program unfolds into the events that describe it, in the order of the text. A builder that
receives them ends with the program, and on the way it holds the functions whose bodies are closed.
The events of the items of a block add these items to the innermost block, whatever it holds and
however many blocks are open around it, which is what the induction over blocks carries.
-/

namespace BlockLang

inductive BuilderEvent where
  | start (h : Heading)
  | openBlock
  | closeBlock
  | declare (d : Declaration)
  | assign (target : Variable) (value : Expr)
deriving DecidableEq

/-! ### Events of a program -/

def Block.events : Block → List BuilderEvent
  | .empty => []
  | .declare d rest => .declare d :: rest.events
  | .assign target value rest => .assign target value :: rest.events
  | .nest inner rest => .openBlock :: (inner.events ++ .closeBlock :: rest.events)

/-- The events of a subprogram up to the end of its body. -/
def Heading.events (h : Heading) (body : Block) : List BuilderEvent :=
  .start h :: .openBlock :: body.events

def Function.events (f : Function) : List BuilderEvent :=
  Heading.events (.function f.name f.returns) f.body ++ [.closeBlock]

def Program.events (p : Program) : List BuilderEvent :=
  p.functions.flatMap Function.events ++ (Heading.main.events p.main ++ [.closeBlock])

/-- How many bodies the events close, where `depth` blocks are open before them. -/
def bodiesClosed (depth : Nat) : List BuilderEvent → Nat
  | [] => 0
  | .openBlock :: es => bodiesClosed (depth + 1) es
  | .closeBlock :: es => (if depth ≤ 1 then 1 else 0) + bodiesClosed (depth - 1) es
  | _ :: es => bodiesClosed depth es

theorem bodiesClosed_le_of_isPrefix {es fs : List BuilderEvent} (h : es <+: fs) (depth : Nat) :
    bodiesClosed depth es ≤ bodiesClosed depth fs := by
  induction es generalizing fs depth with
  | nil => exact Nat.zero_le _
  | cons e es ih =>
    obtain ⟨rest, rfl⟩ := h
    have hrest : es <+: es ++ rest := List.prefix_append es rest
    cases e with
    | openBlock => exact ih hrest (depth + 1)
    | closeBlock => exact Nat.add_le_add_left (ih hrest (depth - 1)) _
    | _ => exact ih hrest depth

/-- The events of a block that is inside another one close no body. -/
theorem bodiesClosed_block (b : Block) (depth : Nat) (es : List BuilderEvent) :
    bodiesClosed (depth + 1) (b.events ++ es) = bodiesClosed (depth + 1) es := by
  induction b generalizing depth es with
  | empty => rfl
  | declare d rest ih => exact ih depth es
  | assign target value rest ih => exact ih depth es
  | nest inner rest ihInner ih =>
    rw [Block.events, List.cons_append, List.append_assoc, List.cons_append]
    show bodiesClosed (depth + 1 + 1) (inner.events ++ .closeBlock :: (rest.events ++ es)) = _
    rw [ihInner, bodiesClosed, if_neg (by omega), Nat.zero_add]
    exact ih depth es

theorem bodiesClosed_heading (h : Heading) (body : Block) (es : List BuilderEvent) :
    bodiesClosed 0 (h.events body ++ es) = bodiesClosed 1 es :=
  bodiesClosed_block body 0 es

namespace Builder

def receive (b : Builder) : BuilderEvent → Builder
  | .start h => b.start h
  | .openBlock => b.openBlock
  | .closeBlock => b.closeBlock
  | .declare d => b.declare d
  | .assign target value => b.assign target value

def run (b : Builder) (es : List BuilderEvent) : Builder := es.foldl receive b

@[simp] theorem run_nil (b : Builder) : b.run [] = b := rfl

@[simp] theorem run_cons (b : Builder) (e : BuilderEvent) (es : List BuilderEvent) :
    b.run (e :: es) = (b.receive e).run es := rfl

theorem run_append (b : Builder) (es fs : List BuilderEvent) :
    b.run (es ++ fs) = (b.run es).run fs := List.foldl_append

/-! ### Whole subprograms -/

theorem add_add (b : Builder) (items more : Block) :
    (b.add items).add more = b.add (items ++ more) := by
  simp [add, Block.append_assoc]

theorem run_block (items : Block) {b : Builder} (h : b.enclosing ≠ []) :
    b.run items.events = b.add items := by
  induction items generalizing b with
  | empty => simp [Block.events, add]
  | declare d rest ih =>
    have hrest : (b.declare d).run rest.events = (b.declare d).add rest := ih h
    rw [Block.events, run_cons]
    exact hrest.trans (add_add b (.declare d .empty) rest)
  | assign target value rest ih =>
    have hrest : (b.assign target value).run rest.events = (b.assign target value).add rest := ih h
    rw [Block.events, run_cons]
    exact hrest.trans (add_add b (.assign target value .empty) rest)
  | nest inner rest ihInner ih =>
    -- The inner block is built by a builder with one more block open.
    have hinner : b.openBlock.run inner.events = b.openBlock.add inner :=
      ihInner (List.cons_ne_nil _ _)
    have hrest : (b.add (.nest inner .empty)).run rest.events =
        (b.add (.nest inner .empty)).add rest := ih h
    rw [Block.events, run_cons, run_append]
    show ((b.openBlock.run inner.events).closeBlock).run rest.events = _
    rw [hinner, closeBlock_nest b inner h]
    exact hrest.trans (add_add b (.nest inner .empty) rest)

/-- A builder between two subprograms, before the main block. -/
def between (functions : List Function) : Builder := ⟨⟨functions, .empty⟩, .main, .empty, []⟩

theorem run_heading (functions : List Function) (h : Heading) (body : Block) :
    (between functions).run (h.events body ++ [.closeBlock]) =
      ⟨Program.complete ⟨functions, .empty⟩ body h, .main, .empty, []⟩ := by
  have hbody : ((between functions).start h).openBlock.run body.events =
      ((between functions).start h).openBlock.add body := run_block body (List.cons_ne_nil _ _)
  rw [run_append, Heading.events, run_cons, run_cons]
  show (((between functions).start h).openBlock.run body.events).closeBlock = _
  rw [hbody]
  rfl

theorem run_function (functions : List Function) (f : Function) :
    (between functions).run f.events = between (functions ++ [f]) :=
  run_heading functions (.function f.name f.returns) f.body

theorem run_functions (functions fs : List Function) :
    (between functions).run (fs.flatMap Function.events) = between (functions ++ fs) := by
  induction fs generalizing functions with
  | nil => simp
  | cons f fs ih =>
    rw [List.flatMap_cons, run_append, run_function, ih, List.append_assoc]
    rfl

/-! ### Parts of subprograms -/

theorem program_run_of_bodiesClosed {es : List BuilderEvent} {b : Builder}
    (h : bodiesClosed b.enclosing.length es = 0) : (b.run es).program = b.program := by
  induction es generalizing b with
  | nil => rfl
  | cons e es ih =>
    cases e with
    | closeBlock =>
      obtain ⟨program, heading, current, enclosing⟩ := b
      match enclosing with
      | [] => simp [bodiesClosed] at h
      | [outer] => simp [bodiesClosed] at h
      | outer :: outermost :: rest =>
        have hes : bodiesClosed (rest.length + 1) es = 0 := by simpa [bodiesClosed] using h
        exact ih hes
    | _ => exact ih h

section Part
variable {h : Heading} {body : Block} {es rest : List BuilderEvent}

/-- A point among the events is inside the first body or after it. -/
theorem isPrefix_cases (hes : es <+: (h.events body ++ [.closeBlock]) ++ rest) :
    es <+: h.events body ∨
      ∃ later, es = (h.events body ++ [.closeBlock]) ++ later ∧ later <+: rest := by
  rcases prefix_append_cases hes with hbody | hlater
  · rcases List.prefix_concat_iff.mp hbody with rfl | hbody
    · exact .inr ⟨[], (List.append_nil _).symm, List.nil_prefix⟩
    · exact .inl hbody
  · exact .inr hlater

theorem bodiesClosed_of_isPrefix (hes : es <+: h.events body) : bodiesClosed 0 es = 0 := by
  have hle := bodiesClosed_le_of_isPrefix hes 0
  have hbody : bodiesClosed 0 (h.events body) = 0 := by
    simpa [bodiesClosed] using bodiesClosed_heading h body []
  omega

theorem bodiesClosed_body (later : List BuilderEvent) :
    bodiesClosed 0 ((h.events body ++ [.closeBlock]) ++ later) = bodiesClosed 0 later + 1 := by
  rw [List.append_assoc, bodiesClosed_heading, List.singleton_append, bodiesClosed,
    if_pos (Nat.le_refl 1), Nat.add_comm]

theorem program_run_inside (functions : List Function) (hes : es <+: h.events body) :
    ((between functions).run es).program = ⟨functions, .empty⟩ := by
  have hclosed : bodiesClosed (between functions).enclosing.length es = 0 :=
    bodiesClosed_of_isPrefix hes
  exact program_run_of_bodiesClosed hclosed

end Part

/-- The program after a part of the events, where those of some functions are past. -/
theorem program_run (fs : List Function) (main : Block) (functions : List Function)
    {es : List BuilderEvent}
    (hes : es <+: fs.flatMap Function.events ++ (Heading.main.events main ++ [.closeBlock])) :
    ((between functions).run es).program = ⟨functions ++ fs.take (bodiesClosed 0 es),
      if bodiesClosed 0 es = fs.length + 1 then main else .empty⟩ := by
  induction fs generalizing functions es with
  | nil =>
    rw [List.flatMap_nil, List.nil_append, ← List.append_nil (Heading.main.events main ++ _)] at hes
    rcases isPrefix_cases hes with hbody | ⟨later, rfl, hlater⟩
    · rw [program_run_inside functions hbody, bodiesClosed_of_isPrefix hbody]
      simp
    · obtain rfl := List.prefix_nil.mp hlater
      rw [bodiesClosed_body, List.append_nil, run_heading]
      simp [bodiesClosed, Program.complete]
  | cons f fs ih =>
    rw [List.flatMap_cons, List.append_assoc] at hes
    rcases isPrefix_cases hes with hbody | ⟨later, rfl, hlater⟩
    · rw [program_run_inside functions hbody, bodiesClosed_of_isPrefix hbody]
      simp
    · have hfirst := run_function functions f
      rw [Function.events] at hfirst
      rw [bodiesClosed_body, run_append, hfirst, ih (functions ++ [f]) hlater]
      simp

theorem rebuilds_program (p : Program) :
    empty.run p.events = ⟨p, .main, .empty, []⟩ ∧
      ∀ n, (empty.run (p.events.take n)).program =
        ⟨p.functions.take (bodiesClosed 0 (p.events.take n)),
          if bodiesClosed 0 (p.events.take n) = p.functions.length + 1 then p.main else .empty⟩ := by
  constructor
  · show (between []).run p.events = _
    rw [Program.events, run_append, run_functions, List.nil_append, run_heading]
    rfl
  · intro n
    exact program_run p.functions p.main [] (List.take_prefix n p.events)

end Builder

end BlockLang
