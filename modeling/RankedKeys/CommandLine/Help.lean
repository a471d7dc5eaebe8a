import RankedKeys.CommandLine.Command
import RankedKeys.Text.ControlSequence

/-!
# Help

The page of a command: what it is for, how it is called, and its options, one after the other, with
their descriptions beside them. Names and headings are emphasised by control sequences, which the
plain form of a page does not have.

## Main definitions

* `Row`: an entry of a list, with its description
* `OptionSpec.row`: the entry of an option, with its variable and its fallback in brackets
* `Scope.page`: the page of a command
* `wantsEmphasis`: whether the environment asks for emphasis
-/

namespace RankedKeys.CommandLine

/-- The name of the tool. -/
def toolName : String := "tss-party"

/-- A name to be typed as it stands: bold. -/
def literal (name : String) : String := s!"\x1b[1m{name}\x1b[0m"

/-- The heading of a part of a page: bold and underlined. -/
def heading (name : String) : String := s!"\x1b[1m\x1b[4m{name}:\x1b[0m"

/-- The variable that forbids emphasis. -/
def plainVariable : String := "NO_COLOR"

/-- The variable that asks for emphasis. -/
def emphasisVariable : String := "CLICOLOR_FORCE"

/-- Whether the environment asks for emphasis, and does not forbid it. Any value but the empty one
counts. -/
def wantsEmphasis (environment : String → Option String) : Bool :=
  let given (name : String) : Bool := (environment name).any (· ≠ "")
  given emphasisVariable && !given plainVariable

/-- An entry of a list, with its description. -/
structure Row where
  entry : String
  description : String
  deriving DecidableEq

namespace Row

/-- The width of an entry. -/
def width (row : Row) : Nat :=
  (Text.plain row.entry).length

/-- The width of the widest entry. -/
def widest (rows : List Row) : Nat :=
  rows.foldl (fun widest row => max widest row.width) 0

/-- Blanks. -/
def blanks (count : Nat) : String :=
  String.ofList (List.replicate count ' ')

/-- A description whose lines all begin at the same column. -/
def indented (column : Nat) (description : String) : String :=
  String.intercalate ("\n" ++ blanks column)
    ((description.toList.splitOn '\n').map String.ofList)

/-- A line of a list whose widest entry has a given width, and further lines if the description has
several. -/
def line (widest : Nat) (row : Row) : String :=
  "  " ++ row.entry ++ blanks (widest - row.width) ++ "  " ++
    indented (widest + 4) row.description

/-- The lines of a list. -/
def lines (rows : List Row) : List String :=
  rows.map (line (widest rows))

end Row

namespace OptionSpec

/-- What stands for the value of an option. -/
def valueName (spec : OptionSpec) : String :=
  String.ofList (spec.long.toList.map fun c => if c = '-' then '_' else c.toUpper)

/-- An option with what stands for its value. -/
def usage (spec : OptionSpec) : String :=
  literal s!"--{spec.long}" ++ if spec.takesValue then s!" <{spec.valueName}>" else ""

/-- The entry of an option, with its variable and its fallback in brackets. -/
def row (spec : OptionSpec) (environment : String → Option String) : Row :=
  let letter := match spec.short with
    | some letter => literal s!"-{letter}" ++ ", "
    | none => "    "
  let stated? := spec.environment.map fun name =>
    let value := (environment name).getD ""
    s!"[env: {name}={value}]"
  let fallback? := spec.fallback.map fun value => s!"[default: {value}]"
  ⟨letter ++ spec.usage,
    String.intercalate " " (spec.purpose :: stated?.toList ++ fallback?.toList)⟩

end OptionSpec

namespace Scope

/-- What a command is for. -/
def purpose : Scope → String
  | tool => "Ranked threshold key generation and recovery"
  | recover => "Recover a private key from a share file"
  | generate => "Run a local DKG among in-process parties"
  | help => "Print this message or the help of the given subcommand(s)"

/-- The words that call a command. -/
def usage : Scope → String
  | tool => literal toolName ++ " [OPTIONS] <COMMAND>"
  | recover => literal s!"{toolName} recover" ++ s!" [OPTIONS] {configOption.usage}"
  | generate => literal s!"{toolName} dkg" ++ " [OPTIONS]"
  | help => literal s!"{toolName} help" ++ " [COMMAND]..."

/-- The commands. -/
def commandRows : List Row :=
  [⟨literal "recover", recover.purpose⟩, ⟨literal "dkg", generate.purpose⟩,
   ⟨literal "help", help.purpose⟩]

/-- The entry of the request for help. -/
def helpRow : Row := ⟨literal "-h" ++ ", " ++ literal "--help", "Print help"⟩

/-- The entry of the request for the version. -/
def versionRow : Row := ⟨literal "-V" ++ ", " ++ literal "--version", "Print version"⟩

/-- The lists of a page, with their headings. -/
def lists (environment : String → Option String) : Scope → List (String × List Row)
  | tool =>
    [("Commands", commandRows),
     ("Options", rootOptions.map (·.row environment) ++ [helpRow, versionRow])]
  | recover => [("Options", recoverOptions.map (·.row environment) ++ [helpRow])]
  | generate => [("Options", generateOptions.map (·.row environment) ++ [helpRow])]
  | help => [("Arguments", [⟨"[COMMAND]...", "Print help for the subcommand(s)"⟩])]

/-- The page of a command, with emphasis. -/
def page (environment : String → Option String) (scope : Scope) : String :=
  let parts := (scope.lists environment).flatMap fun (name, rows) =>
    "" :: heading name :: Row.lines rows
  String.join
    (([scope.purpose, "", heading "Usage" ++ " " ++ scope.usage] ++ parts).map (· ++ "\n"))

end Scope

end RankedKeys.CommandLine
