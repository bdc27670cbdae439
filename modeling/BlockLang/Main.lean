import BlockLang.CommandLine.Run

/-! # The command

Files are read from and written to the disk; everything else is decided by
`BlockLang.CommandLine`. -/

namespace BlockLang.CommandLine

/-- The number of an error of the system, which may be given with its sign
reversed. -/
def errorNumber (code : UInt32) : Nat :=
  if code.toNat < UInt32.size / 2 then code.toNat else UInt32.size - code.toNat

def accessError (e : IO.Error) : AccessError :=
  match e with
  | .noFileOrDirectory _ _ _ => .noSuchFile
  | .inappropriateType _ code _ =>
    if errorNumber code = 20 then .notADirectory
    else if errorNumber code = 21 then .isADirectory
    else .other (toString e)
  | _ => .other (toString e)

def disk : FileAccess IO where
  read path := do
    try return .ok (← IO.FS.readBinFile path)
    catch e => return .error (accessError e)
  write path contents := do
    try
      IO.FS.writeBinFile path contents
      return .ok ()
    catch e => return .error (accessError e)

def holdsText (pattern : List Char) : List Char → Bool
  | [] => pattern = []
  | c :: rest => pattern.isPrefixOf (c :: rest) || holdsText pattern rest

end BlockLang.CommandLine

open BlockLang CommandLine in
def main (arguments : List String) : IO UInt32 := do
  let env : Environment := ⟨← IO.getEnv "RUST_LOG"⟩
  let logger := directiveLogger (fun pattern text => holdsText pattern.toList text.toList)
  let outcome ← command CommandLine.parse logger env disk arguments
  (← IO.getStderr).putStr outcome.stderr
  (← IO.getStdout).putStr outcome.stdout
  (← IO.getStdout).flush
  return outcome.status.toUInt32
