/-! # Target languages -/

namespace BlockLang

/-- The languages in which a program can be listed. -/
inductive Target where
  | pascal
  | c
deriving DecidableEq, Repr

namespace Target

/-- Pascal, unless another target is asked for. -/
instance : Inhabited Target := ⟨.pascal⟩

def name : Target → String
  | .pascal => "pascal"
  | .c => "c"

def ofName? (name : String) : Option Target :=
  if name = "pascal" then some .pascal
  else if name = "c" then some .c
  else none

@[simp] theorem ofName?_name (t : Target) : ofName? t.name = some t := by
  cases t <;> decide

end Target

end BlockLang
