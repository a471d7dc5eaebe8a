import RankedKeys.CommandLine.Answer

/-!
# The program

Connects the command line to the machine: real files, the random numbers of the system, and the
two outputs.
-/

namespace RankedKeys

/-- The fault that the system reports. -/
def faultOf : IO.Error → FileFault
  | .noFileOrDirectory .. => .notFound
  | .noSuchThing .. => .notFound
  | .inappropriateType _ code _ => if code = 20 then .notDirectory else .isDirectory
  | .invalidArgument _ code details =>
    if code = 36 then .nameTooLong else .other s!"{details} (os error {code})"
  | e => .other (toString e)

/-- Whether a path can be given to the system. -/
def isPath (path : String) : Bool :=
  !path.toList.contains '\x00'

instance : Machine IO where
  readFile path := do
    try
      if isPath path then
        let content ← IO.FS.readBinFile path
        pure (.ok content.toList)
      else pure (.error .nulInName)
    catch e => pure (.error (faultOf e))
  writeFile path bytes := do
    try
      if isPath path then
        IO.FS.writeBinFile path ⟨bytes.toArray⟩
        pure (.ok ())
      else pure (.error .nulInName)
    catch e => pure (.error (faultOf e))
  randomBytes count := do
    let bytes ← IO.getRandomBytes (USize.ofNat count)
    pure bytes.toList

end RankedKeys

open RankedKeys RankedKeys.CommandLine in
/-- Answers the command line. -/
def main (words : List String) : IO UInt32 := do
  let settings ← environmentNames.mapM fun name => do pure (name, ← IO.getEnv name)
  let environment := fun name => (settings.lookup name).join
  let answered : Answer ← answer environment words
  (← IO.getStdout).putStr answered.output
  (← IO.getStderr).putStr answered.errors
  pure answered.exitCode.toUInt32
