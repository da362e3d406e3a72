import GraphRules.Command.Basic

/-! The command line on the files of a machine. -/

namespace GraphRules.Command

def fileError : IO.Error → FileError
  | .noFileOrDirectory _ _ _ => .missing
  | e => .other (toString e)

def carryOut : Plan α → IO α
  | .done a => pure a
  | .read path next => do
    match ← (IO.FS.readFile path).toBaseIO with
    | .ok text => carryOut (next (.ok text))
    | .error e => carryOut (next (.error (fileError e)))
  | .write path text next => do
    match ← (IO.FS.writeFile path text).toBaseIO with
    | .ok () => carryOut (next none)
    | .error e => carryOut (next (some (fileError e)))
  | .print text next => do
    (← IO.getStdout).putStr text
    carryOut next
  | .warn text next => do
    (← IO.getStderr).putStr text
    carryOut next

/-- Whether colours are wanted: the environment says so, or the output is a terminal. -/
def wantsColor : IO Bool := do
  match ← IO.getEnv "CLICOLOR_FORCE" with
  | some v => if v ≠ "0" then return true
  | none => pure ()
  if (← IO.getEnv "NO_COLOR").isSome then return false
  if (← IO.getEnv "CLICOLOR") = some "0" then return false
  (← IO.getStdout).isTty

end GraphRules.Command

open GraphRules.Command in
def main (args : List String) : IO UInt32 := do
  let code ← carryOut (plan (← wantsColor) args)
  pure code.toUInt32
