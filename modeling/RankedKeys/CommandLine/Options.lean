/-!
# Command lines

A command line is a list of words. Words that begin with a dash name options; an option takes no
value, or one value, which follows in the same word or in the next. Any other word names a command,
and the words after it belong to the command. An option that is not on the command line may take
its value from an environment variable.

## Main definitions

* `OptionSpec`: an option
* `Scope`: the command that words belong to
* `Stop`: why nothing is run: the words are not understood, or they ask for help or the version
* `Words`: what the words in front of a command say
* `Words.parse`: takes words apart
-/

namespace RankedKeys.CommandLine

/-- An option. -/
structure OptionSpec where
  /-- The name after two dashes. -/
  long : String
  /-- The letter after one dash. -/
  short : Option Char := none
  /-- What it does, in one line. -/
  purpose : String
  /-- Whether it takes a value. -/
  takesValue : Bool := false
  /-- Whether it may be given several times. -/
  repeatable : Bool := false
  /-- The values it admits. -/
  admits : String → Bool := fun _ => true
  /-- The environment variable that stands in for it. -/
  environment : Option String := none
  /-- The value that stands in for it when nothing else does. -/
  fallback : Option String := none

/-- The command that words belong to. -/
inductive Scope where
  /-- None: the words stand in front of the command. -/
  | tool
  | recover
  | generate
  | help
  deriving DecidableEq

/-- Why nothing is run. -/
inductive Stop where
  | usage
  | version
  | help (scope : Scope)
  deriving DecidableEq

/-- What the words of one command say. -/
structure Words where
  /-- The options, with their values, in order. -/
  given : List (String × String)
  /-- The word that is no option, and the words after it. -/
  command : Option (String × List String)

namespace Words

/-- Notes an option. Only a repeatable one may be given twice. -/
def note (spec : OptionSpec) (value : String) (given : List (String × String)) :
    Except Stop (List (String × String)) :=
  if !spec.repeatable && given.any (·.1 == spec.long) then .error .usage
  else if spec.takesValue && !spec.admits value then .error .usage
  else .ok (given ++ [(spec.long, value)])

/-- Whether a word can be the value of the option before it. -/
def isValue (word : String) : Bool :=
  match word.toList with
  | '-' :: _ :: _ => false
  | _ => true

/-- What a word that names an option asks for. -/
inductive Request where
  /-- The option has no value, or brings it along. -/
  | complete (spec : OptionSpec) (value : String)
  /-- The value of the option is the next word. -/
  | awaits (spec : OptionSpec)

/-- The request of a word after two dashes. -/
def long (specs : List OptionSpec) (scope : Scope) (body : List Char) : Except Stop Request :=
  let name := String.ofList (body.takeWhile (· ≠ '='))
  let value? := match body.dropWhile (· ≠ '=') with
    | [] => none
    | _ :: value => some (String.ofList value)
  match specs.find? (·.long == name) with
  | some spec =>
    match spec.takesValue, value? with
    | true, some value => .ok (.complete spec value)
    | true, none => .ok (.awaits spec)
    | false, none => .ok (.complete spec "")
    | false, some _ => .error .usage
  | none =>
    if value?.isSome then .error .usage
    else if name = "help" then .error (.help scope)
    else if name = "version" ∧ scope = .tool then .error .version
    else .error .usage

/-- The request of a word after one dash. -/
def short (specs : List OptionSpec) (scope : Scope) (letter : Char) (body : List Char) :
    Except Stop Request :=
  match specs.find? (·.short == some letter) with
  | some spec =>
    match body with
    | [] => if spec.takesValue then .ok (.awaits spec) else .ok (.complete spec "")
    | '=' :: value =>
      if spec.takesValue then .ok (.complete spec (String.ofList value)) else .error .usage
    | value => if spec.takesValue then .ok (.complete spec (String.ofList value)) else .error .usage
  | none =>
    if letter = 'h' then .error (.help scope)
    else if letter = 'V' ∧ scope = .tool then .error .version
    else .error .usage

/-- Takes words apart, up to the first one that is no option. -/
def parse (specs : List OptionSpec) (scope : Scope) (given : List (String × String)) :
    List String → Except Stop Words
  | [] => .ok ⟨given, none⟩
  | word :: rest =>
    let request? : Except Stop (Option Request) := match word.toList with
      | ['-', '-'] => if rest.isEmpty then .ok none else .error .usage
      | '-' :: '-' :: body => (long specs scope body).map some
      | '-' :: letter :: body => (short specs scope letter body).map some
      | _ => .ok none
    match request? with
    | .error stop => .error stop
    | .ok none => if word = "--" then .ok ⟨given, none⟩ else .ok ⟨given, some (word, rest)⟩
    | .ok (some (.complete spec value)) =>
      match note spec value given with
      | .error stop => .error stop
      | .ok given => parse specs scope given rest
    | .ok (some (.awaits spec)) =>
      match rest with
      | [] => .error .usage
      | value :: rest =>
        if isValue value then
          match note spec value given with
          | .error stop => .error stop
          | .ok given => parse specs scope given rest
        else .error .usage

/-- The values given to an option. -/
def values (words : Words) (long : String) : List String :=
  (words.given.filter (·.1 == long)).map (·.2)

/-- Fills in the options that are not given from the environment. -/
def fill (words : Words) (environment : String → Option String) :
    List OptionSpec → Except Stop Words
  | [] => .ok words
  | spec :: specs =>
    match spec.environment.bind environment with
    | none => fill words environment specs
    | some value =>
      if words.given.any (·.1 == spec.long) then fill words environment specs
      else if !spec.admits value then .error .usage
      else if !spec.takesValue && value == "false" then fill words environment specs
      else fill { words with given := words.given ++ [(spec.long, value)] } environment specs

end Words

end RankedKeys.CommandLine
