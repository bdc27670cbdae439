import BlockLang.Program

/-! # Building a program from events

A builder receives the parts of a program in the order of the text: the heading
of a subprogram, the opening and closing of its blocks, declarations and
assignments. Closing the outermost open block completes the subprogram. Any
sequence of events is admitted, also one that closes more blocks than it opens. -/

namespace BlockLang

/-- The subprogram whose body is being built. -/
inductive Heading where
  | function (name : String) (returns : Ty)
  | main
deriving DecidableEq, Repr

/-- Add a subprogram with its body. A second main block replaces the first. -/
def Program.complete (p : Program) (body : Block) : Heading → Program
  | .function name returns => { p with functions := p.functions ++ [⟨name, returns, body⟩] }
  | .main => { p with main := body }

/-- A program under construction: what is complete, the subprogram that comes
next, the items of the innermost open block, and those of the blocks around it,
innermost first. -/
structure Builder where
  program : Program
  heading : Heading
  current : Block
  enclosing : List Block
deriving DecidableEq, Repr

namespace Builder

def empty : Builder := ⟨.empty, .main, .empty, []⟩

/-- The body of this subprogram comes next. -/
def start (b : Builder) (h : Heading) : Builder := { b with heading := h }

def openBlock (b : Builder) : Builder :=
  { b with current := .empty, enclosing := b.current :: b.enclosing }

/-- The subprogram that closing a block would complete, if the block is not
inside another one. -/
def completes (b : Builder) : Option Heading :=
  match b.enclosing with
  | _ :: _ :: _ => none
  | _ => some b.heading

/-- Close the innermost block: it becomes an item of the block around it or
completes its subprogram. -/
def closeBlock (b : Builder) : Builder :=
  let outer := b.enclosing.headD .empty
  match b.completes with
  | none => { b with current := outer ++ .nest b.current .empty, enclosing := b.enclosing.tail }
  | some h => ⟨b.program.complete b.current h, .main, outer, []⟩

def declare (b : Builder) (d : Declaration) : Builder :=
  { b with current := b.current ++ .declare d .empty }

def assign (b : Builder) (target : Variable) (value : Expr) : Builder :=
  { b with current := b.current ++ .assign target value .empty }

/-! ### Closing a block that was opened -/

theorem closeBlock_nested (b : Builder) (outer outermost : Block) (rest : List Block)
    (h : b.enclosing = outer :: outermost :: rest) :
    b.closeBlock = { b with
      current := outer ++ .nest b.current .empty, enclosing := outermost :: rest } := by
  simp [closeBlock, completes, h]

theorem closeBlock_outermost (b : Builder) (outer : Block) (h : b.enclosing = [outer]) :
    b.closeBlock = ⟨b.program.complete b.current b.heading, .main, outer, []⟩ := by
  simp [closeBlock, completes, h]

end Builder

end BlockLang
