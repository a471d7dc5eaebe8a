import RankedKeys.Basic
import RankedKeys.CommandLine.Options
import RankedKeys.Text.Decimal

/-!
# Commands

The two commands: recovering a key from a file, and generating a key among local parties.

## Main definitions

* `Command`: a command with its settings
* `rootOptions`, `recoverOptions`, `generateOptions`: the options
* `Command.parse`: the command that a command line and the environment ask for
-/

namespace RankedKeys.CommandLine

/-- The settings of a key generation. -/
structure Generation where
  parties : UInt64
  threshold : UInt64
  /-- The ranks of the parties; none if all are zero. -/
  ranks : List UInt32
  /-- How long a session may take. Local sessions do not wait for anything. -/
  timeoutSeconds : UInt64
  refresh : Bool
  /-- Where to write a configuration for the shares. -/
  out : Option String
  deriving DecidableEq

/-- A command with its settings. -/
inductive Command where
  | recover (json : Bool) (config : String)
  | generate (json : Bool) (settings : Generation)
  deriving DecidableEq

/-- Reads a number without a minus sign, below a bound. -/
def unsigned? (bound : Nat) (value : String) : Option Nat :=
  let digits := match value.toList with
    | '+' :: digits => digits
    | digits => digits
  if digits ≠ [] ∧ digits.all Text.isDigit then
    let n := Text.digitsValue digits
    if n < bound then some n else none
  else none

/-- Reads a number of 64 bits. -/
def word64? (value : String) : Option UInt64 :=
  (unsigned? UInt64.size value).map UInt64.ofNat

/-- Reads a number of 32 bits; zero may have a minus sign. -/
def word32? (value : String) : Option UInt32 :=
  match value.toList with
  | '-' :: digits =>
    if digits ≠ [] ∧ digits.all Text.isDigit ∧ Text.digitsValue digits = 0 then some 0 else none
  | _ => (unsigned? UInt32.size value).map UInt32.ofNat

/-- Reads numbers with commas between them. -/
def word32s? (value : String) : Option (List UInt32) :=
  (value.toList.splitOn ',').mapM fun part => word32? (String.ofList part)

/-- Whether results are printed as JSON. -/
def jsonOption : OptionSpec where
  long := "json"
  purpose := "Print results as JSON"
  admits value := value == "true" || value == "false"
  environment := some "TSS_JSON"

/-- Where the configuration of a recovery is. -/
def configOption : OptionSpec where
  long := "config"
  short := some 'c'
  purpose := "Path to the recovery config (JSON)"
  takesValue := true
  admits := (· ≠ "")
  environment := some "TSS_RECOVERY_CONFIG"

/-- The number of parties. -/
def partiesOption : OptionSpec where
  long := "parties"
  short := some 'n'
  purpose := "Number of parties"
  takesValue := true
  admits value := (word64? value).isSome
  fallback := some (toString defaultParties)

/-- The threshold. -/
def thresholdOption : OptionSpec where
  long := "threshold"
  short := some 't'
  purpose := "Threshold (t-of-n)"
  takesValue := true
  admits value := (word64? value).isSome
  fallback := some (toString defaultThreshold)

/-- The ranks of the parties. -/
def ranksOption : OptionSpec where
  long := "ranks"
  short := some 'r'
  purpose := "Rank of each party (comma-separated, defaults to all zero)"
  takesValue := true
  repeatable := true
  admits value := (word32s? value).isSome

/-- How long a session may take. -/
def timeoutOption : OptionSpec where
  long := "timeout-secs"
  purpose := "Abort the session after this many seconds"
  takesValue := true
  admits value := (word64? value).isSome
  environment := some "TSS_TIMEOUT_SECS"
  fallback := some "30"

/-- Whether the shares are refreshed. -/
def refreshOption : OptionSpec where
  long := "refresh"
  purpose := "Refresh the shares once after keygen"

/-- Where to write a configuration for the shares. -/
def outOption : OptionSpec where
  long := "out"
  short := some 'o'
  purpose := "Write a recovery config for the generated shares"
  takesValue := true
  admits := (· ≠ "")

/-- The options in front of a command. -/
def rootOptions : List OptionSpec := [jsonOption]

/-- The options of a recovery. -/
def recoverOptions : List OptionSpec := [configOption, jsonOption]

/-- The options of a key generation. -/
def generateOptions : List OptionSpec :=
  [jsonOption, partiesOption, thresholdOption, ranksOption, timeoutOption, refreshOption, outOption]

/-- The command with a given name. -/
def Scope.ofName? : String → Option Scope
  | "recover" => some .recover
  | "dkg" => some .generate
  | "help" => some .help
  | _ => none

/-- The words of a command that admits nothing but options. -/
def optionsOnly (specs : List OptionSpec) (scope : Scope) (environment : String → Option String)
    (words : List String) : Except Stop Words := do
  let words ← Words.parse specs scope [] words
  if words.command.isSome then throw .usage
  words.fill environment specs

/-- The number given to an option, or the one that stands in for it. -/
def Words.number (words : Words) (spec : OptionSpec) : UInt64 :=
  (((words.values spec.long).head?.or spec.fallback).bind word64?).getD 0

/-- A command from the words after its name. -/
def Command.ofWords (environment : String → Option String) (json : Bool) (scope : Scope)
    (words : List String) : Except Stop Command := do
  match scope with
  | .tool => throw .usage
  | .recover =>
    let words ← optionsOnly recoverOptions scope environment words
    let json := json || !(words.values "json").isEmpty
    match words.values "config" with
    | config :: _ => pure (.recover json config)
    | [] => throw .usage
  | .generate =>
    let words ← optionsOnly generateOptions scope environment words
    let json := json || !(words.values "json").isEmpty
    pure (.generate json
      { parties := words.number partiesOption
        threshold := words.number thresholdOption
        ranks := (words.values "ranks").flatMap fun value => (word32s? value).getD []
        timeoutSeconds := words.number timeoutOption
        refresh := !(words.values "refresh").isEmpty
        out := (words.values "out").head? })
  | .help =>
    match words with
    | [] => throw (.help .tool)
    | [name] =>
      match Scope.ofName? name with
      | some scope => throw (.help scope)
      | none => throw .usage
    | _ => throw .usage

/-- The command that a command line and the environment ask for. -/
def Command.parse (environment : String → Option String) (words : List String) :
    Except Stop Command := do
  let root ← Words.parse rootOptions .tool [] words
  match root.command with
  | none => throw .usage
  | some (name, words) =>
    match Scope.ofName? name with
    | none => throw .usage
    | some scope =>
      let filled := root.fill environment rootOptions
      let json := match filled with
        | .ok root => !(root.values "json").isEmpty
        | .error _ => false
      let command ← Command.ofWords environment json scope words
      let _ ← filled
      pure command

end RankedKeys.CommandLine
