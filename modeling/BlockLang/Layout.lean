/-! # Layout of listings -/

namespace BlockLang

/-- The margin of a line, two spaces for each level. -/
def margin (depth : Nat) : String := String.ofList (List.replicate (2 * depth) ' ')

end BlockLang
