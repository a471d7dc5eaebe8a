import RankedKeys.Files
import RankedKeys.Recovery.ConfigJson

/-!
# Recovery configurations in files

## Main definitions

* `RecoveryConfig.load`, `RecoveryConfig.save`
-/

namespace RankedKeys.RecoveryConfig

variable {m : Type → Type} [Monad m] [Machine m]

/-- The error of a file that cannot be read or written. -/
def fileError (path : String) (fault : FileFault) : Error :=
  .invalidConfig s!"{path}: {fault.message}"

/-- Reads a configuration from the bytes of a file. -/
def ofFile (path : String) (content : Except FileFault Bytes) : Except Error RecoveryConfig :=
  match content with
  | .error fault => .error (fileError path fault)
  | .ok bytes =>
    match bytes.toText? with
    | none => .error (fileError path .notText)
    | some text => parse text

/-- Reads a configuration from a file. -/
def load (path : String) : m (Except Error RecoveryConfig) := do
  pure (ofFile path (← Machine.readFile path))

/-- Writes a configuration to a file. -/
def save (config : RecoveryConfig) (path : String) : m (Except Error Unit) := do
  match ← Machine.writeFile path (Bytes.ofText config.print) with
  | .error fault => pure (.error (fileError path fault))
  | .ok () => pure (.ok ())

end RankedKeys.RecoveryConfig
