import RankedKeys.Proofs.Files
import RankedKeys.Proofs.Recovery.ConfigJson
import RankedKeys.Recovery.ConfigFile

/-!
# Configurations are read back from their text and from files

The text that is saved is laid out JSON, which is read as the value that it was written from, and
this value is read as the configuration. A file holds the bytes of the text.

## Main results

* `RecoveryConfig.parse_print`: a configuration is read back from its text
* `RecoveryConfig.save_eq`: what is saved is the text
* `RecoveryConfig.save_load`: a configuration is read back from the file that it is saved in
* `RecoveryConfig.parse_of_save`: all of this for one configuration
-/

namespace RankedKeys.RecoveryConfig

/-- **A configuration** is read back from its text. -/
theorem parse_print (config : RecoveryConfig) : parse config.print = .ok config := by
  rw [parse, print, Json.read?_pretty config.written_toJson, Option.bind_some, ofJson?_toJson]

/-- A configuration is read back from the bytes that it is written as. -/
theorem ofFile_print (config : RecoveryConfig) (path : String) :
    ofFile path (.ok (Bytes.ofText config.print)) = .ok config := by
  rw [ofFile, Bytes.toText?_ofText]
  exact config.parse_print

section Machines

variable {m : Type → Type} [Monad m] [Machine m]

/-- What is saved is the text, and a fault of the machine is worded with the path. -/
theorem save_eq (config : RecoveryConfig) (path : String) :
    config.save (m := m) path =
      (do let written ← Machine.writeFile path (Bytes.ofText config.print)
          pure (written.mapError (fileError path))) := by
  refine bind_congr fun written => ?_
  rcases written with fault | ⟨⟩ <;> rfl

/-- **A configuration** is read back from the file that it is saved in, whatever is done with it
then. -/
theorem save_load [LawfulMonad m] {path : String} (keeps : Machine.Keeps m path)
    (config : RecoveryConfig) {α : Type}
    (next : Except Error Unit → Except Error RecoveryConfig → m α) :
    (do let saved ← config.save path
        let loaded ← load path
        next saved loaded) =
      (do let _ ← Machine.writeFile path (Bytes.ofText config.print)
          next (.ok ()) (.ok config)) := by
  have hkeeps := congrArg (fun program => do
    let (written, content) ← program
    next (written.mapError (fileError path)) (ofFile path content))
    (keeps (Bytes.ofText config.print))
  simp only [bind_assoc, pure_bind, ofFile_print] at hkeeps
  rw [save_eq]
  simp only [load, bind_assoc, pure_bind]
  exact hkeeps

end Machines

/-- **Saving is undone by reading**: on every machine, saving a configuration writes the bytes of
one text to the path. This text is the laid out form of a JSON value, and whatever the strings, the
numbers and the peers are, it is read as the same configuration: by itself, from its bytes as the
content of a file, and from the path of a machine that keeps files. -/
theorem parse_of_save (config : RecoveryConfig) : ∃ text : String,
    (∀ (m : Type → Type) [Monad m] [Machine m] (path : String), config.save (m := m) path =
      (do let written ← Machine.writeFile path (Bytes.ofText text)
          pure (written.mapError (fileError path)))) ∧
    Json.read? text = some config.toJson ∧ text = config.toJson.pretty ∧
    parse text = .ok config ∧
    (∀ path, ofFile path (.ok (Bytes.ofText text)) = .ok config) ∧
    (∀ (m : Type → Type) [Monad m] [LawfulMonad m] [Machine m] (path : String),
      Machine.Keeps m path →
        (do let saved ← config.save (m := m) path
            let loaded ← load path
            pure (saved, loaded)) =
          (do let _ ← Machine.writeFile path (Bytes.ofText text)
              pure (.ok (), .ok config))) := by
  refine ⟨config.print, fun m _ _ path => config.save_eq path, ?_, rfl, config.parse_print,
    config.ofFile_print, fun m _ _ _ path keeps => ?_⟩
  · exact Json.read?_pretty config.written_toJson
  · exact save_load keeps config fun saved loaded => pure (saved, loaded)

end RankedKeys.RecoveryConfig
