import RankedKeys.CommandLine.Help
import RankedKeys.CommandLine.Report

/-!
# Answering a command line

## Main definitions

* `Answer`: the exit code and what goes to the two outputs
* `answer`: the answer to a command line
-/

namespace RankedKeys.CommandLine

/-- The exit code and what goes to the two outputs. -/
structure Answer where
  exitCode : UInt8
  output : String
  errors : String
  deriving DecidableEq

/-- The environment variables that are looked at. -/
def environmentNames : List String :=
  [plainVariable, emphasisVariable] ++ generateOptions.filterMap (·.environment) ++
    recoverOptions.filterMap (·.environment)

/-- The answer to a report. -/
def Report.toAnswer (r : Report) : Answer :=
  match r.failure with
  | [] => ⟨0, r.output, ""⟩
  | reasons => ⟨1, r.output, failureText reasons⟩

/-- The answer to words that run nothing. -/
def Stop.toAnswer (environment : String → Option String) : Stop → Answer
  | .usage => ⟨2, "", Text.plain s!"Usage: {Scope.tool.usage}\n"⟩
  | .version => ⟨0, s!"{toolName} {RankedKeys.version}\n", ""⟩
  | .help scope =>
    let page := scope.page environment
    ⟨0, if wantsEmphasis environment then page else Text.plain page, ""⟩

/-- The answer to a command line. -/
def answer {m : Type → Type} [Monad m] [Machine m] (environment : String → Option String)
    (words : List String) : m Answer := do
  match Command.parse environment words with
  | .error stop => pure (stop.toAnswer environment)
  | .ok command => pure (← command.run).toAnswer

end RankedKeys.CommandLine
