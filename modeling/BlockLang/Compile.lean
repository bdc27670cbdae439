import BlockLang.C.Listing
import BlockLang.Pascal.Listing
import BlockLang.Reading

/-! # From a text to a listing

A text is read as a program and the program listed for a target. Nothing is
listed unless the whole text is accepted. -/

namespace BlockLang

def Program.list (p : Program) : Target → String
  | .pascal => (Pascal.Listing.ofProgram p).text
  | .c => (C.Listing.ofProgram p).text

/-- The listing of the program that a text spells. -/
def compile (source : String) (target : Target) : Traced String := do
  let p ← readProgram source
  Traced.emit (.listing target)
  return p.list target

end BlockLang
