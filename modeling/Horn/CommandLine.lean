import Horn.Stress

/-!
# The command line

Two commands: `sizes` prints how many bytes the term types take, and `stress` makes a stress run
and prints its report. Arguments are read from left to right, and the first request for help or
the version, or the first error, ends the reading.

- `Request.parse`: what the arguments ask for.
- `CommandLine.execute`: the exit code and the output.
-/

namespace Horn.CommandLine

/-- What help is asked on. -/
inductive Topic where
  | program | sizes | stress | help
  deriving DecidableEq, Repr, Inhabited

/-- What the arguments ask for. -/
inductive Request where
  | help (topic : Topic)
  | version
  | sizes
  | stress (config : Stress.Config)
  deriving DecidableEq, Repr, Inhabited

/-- Why the arguments make no sense. -/
inductive UsageError where
  | missingCommand
  | unknownCommand (name : String)
  | unexpectedArgument (arg : String)
  | missingValue (option : String)
  | invalidValue (option value : String)
  | repeated (option : String)
  deriving DecidableEq, Repr, Inhabited

/-- The text of a usage error. -/
def UsageError.message : UsageError → String
  | missingCommand => "a command is required: sizes, stress or help"
  | unknownCommand name => "unrecognized command " ++ name
  | unexpectedArgument arg => "unexpected argument " ++ arg
  | missingValue option => "a value is required for " ++ option
  | invalidValue option value => "invalid value " ++ value ++ " for " ++ option
  | repeated option => option ++ " cannot be used more than once"

/-! ## Arguments -/

/-- A decimal number below `2 ^ 64`, with or without a plus sign. -/
def number? (text : String) : Option UInt64 :=
  let digits :=
    match text.toList with
    | '+' :: rest => rest
    | all => all
  if digits.isEmpty || !digits.all Char.isDigit then none
  else
    let n := digits.foldl (fun n c => 10 * n + (c.toNat - '0'.toNat)) 0
    if n < 2 ^ 64 then some (UInt64.ofNat n) else none

/-- The options of `stress` that take a value. -/
inductive Setting where
  | seed | pairs | depth | vars
  deriving DecidableEq, Repr, Inhabited

namespace Setting

def all : List Setting := [seed, pairs, depth, vars]

/-- The long name. -/
def name : Setting → String
  | seed => "seed"
  | pairs => "pairs"
  | depth => "depth"
  | vars => "vars"

/-- The short name, the first letter of the long one. -/
def letter (s : Setting) : Char := s.name.front

/-- The configuration with this value. -/
def assign (s : Setting) (value : UInt64) (config : Stress.Config) : Stress.Config :=
  match s with
  | seed => { config with seed := value }
  | pairs => { config with pairs := value.toNat }
  | depth => { config with depth := value.toNat }
  | vars => { config with vars := value.toNat }

end Setting

/-- What a single argument says. -/
inductive Argument where
  | help
  | version
  /-- Only operands follow. -/
  | separator
  | occursCheck
  | setting (s : Setting) (value : Option String)
  /-- Something that is no option. -/
  | operand
  | unknown
  deriving DecidableEq, Repr, Inhabited

/-- An argument without its dashes: a long option with its name and the value behind an equals
sign, a group of short options, a lone pair of dashes, or an operand. -/
inductive Shape where
  | long (name : String) (value : Option String)
  | short (letter : Char) (rest : String)
  | separator
  | operand
  deriving DecidableEq, Repr, Inhabited

/-- The shape of an argument. -/
def shape (arg : String) : Shape :=
  match arg.toList with
  | ['-', '-'] => .separator
  | '-' :: '-' :: text =>
    let name := String.ofList (text.takeWhile (· ≠ '='))
    match text.dropWhile (· ≠ '=') with
    | [] => .long name none
    | _ :: value => .long name (some (String.ofList value))
  | '-' :: c :: rest => .short c (String.ofList rest)
  | _ => .operand

/-- The value in a group of short options: what follows the letter, an equals sign left out. -/
def attached (rest : String) : Option String :=
  match rest.toList with
  | [] => none
  | '=' :: value => some (String.ofList value)
  | value => some (String.ofList value)

/-- Reads an argument in front of a command. -/
def readGlobal (arg : String) : Argument :=
  match shape arg with
  | .long "help" none => .help
  | .long "version" none => .version
  | .short 'h' _ => .help
  | .short 'V' _ => .version
  | .separator => .separator
  | .operand => .operand
  | _ => .unknown

/-- Reads an argument of a command that has the given settings. -/
def readLocal (settings : List Setting) (hasOccursCheck : Bool) (arg : String) : Argument :=
  match shape arg with
  | .long "help" none => .help
  | .short 'h' _ => .help
  | .separator => .separator
  | .operand => .operand
  | .long name value =>
    match settings.find? (·.name == name) with
    | some s => .setting s value
    | none => if hasOccursCheck && name == "occurs-check" && value.isNone then .occursCheck
      else .unknown
  | .short c rest =>
    match settings.find? (·.letter == c) with
    | some s => .setting s (attached rest)
    | none => .unknown

/-- No operands are allowed after a lone pair of dashes. -/
def nothingLeft (result : Request) : List String → Except UsageError Request
  | [] => .ok result
  | arg :: _ => .error (.unexpectedArgument arg)

/-- Reads the arguments of `sizes`. -/
def parseSizes : List String → Except UsageError Request
  | [] => .ok .sizes
  | arg :: rest =>
    match readLocal [] false arg with
    | .help => .ok (.help .sizes)
    | .separator => nothingLeft .sizes rest
    | _ => .error (.unexpectedArgument arg)

/-- What has been read of the arguments of `stress`. -/
structure StressArguments where
  config : Stress.Config := {}
  given : List Setting := []

namespace StressArguments

/-- Takes in a setting, which must not have been given before. -/
def set (a : StressArguments) (s : Setting) (value : String) :
    Except UsageError StressArguments :=
  if a.given.contains s then .error (.repeated s.name)
  else
    match number? value with
    | none => .error (.invalidValue s.name value)
    | some n => .ok { config := s.assign n a.config, given := s :: a.given }

end StressArguments

/-- Reads the arguments of `stress`. -/
def parseStress (a : StressArguments) : List String → Except UsageError Request
  | [] => .ok (.stress a.config)
  | arg :: rest =>
    match readLocal Setting.all true arg with
    | .help => .ok (.help .stress)
    | .separator => nothingLeft (.stress a.config) rest
    | .occursCheck =>
      if a.config.occursCheck then .error (.repeated "occurs-check")
      else parseStress { a with config := { a.config with occursCheck := true } } rest
    | .setting s (some value) =>
      match a.set s value with
      | .ok a => parseStress a rest
      | .error e => .error e
    | .setting s none =>
      match rest with
      | [] => .error (.missingValue s.name)
      | value :: rest =>
        match a.set s value with
        | .ok a => parseStress a rest
        | .error e => .error e
    | _ => .error (.unexpectedArgument arg)

/-- Reads what help is asked on. -/
def parseHelp : List String → Except UsageError Request
  | [] => .ok (.help .program)
  | ["sizes"] => .ok (.help .sizes)
  | ["stress"] => .ok (.help .stress)
  | ["help"] => .ok (.help .help)
  | name :: _ => .error (.unknownCommand name)

/-- What the arguments ask for. -/
def Request.parse : List String → Except UsageError Request
  | [] => .error .missingCommand
  | arg :: rest =>
    match readGlobal arg with
    | .help => .ok (.help .program)
    | .version => .ok .version
    | .separator =>
      match rest with
      | [] => .error .missingCommand
      | operand :: _ => .error (.unexpectedArgument operand)
    | .operand =>
      match arg with
      | "sizes" => parseSizes rest
      | "stress" => parseStress {} rest
      | "help" => parseHelp rest
      | _ => .error (.unknownCommand arg)
    | _ => .error (.unexpectedArgument arg)

/-! ## Output -/

/-- The texts of help, without the line end of the last line. -/
def Topic.text : Topic → String
  | program =>
    "Command-line tools for exercising the logic-terms unification engine\n\n" ++
    "Usage: logic-terms <COMMAND>\n\n" ++
    "Commands:\n" ++
    "  sizes   Prints sizes\n" ++
    "  stress  Checks engine properties on random term pairs\n" ++
    "  help    Print this message or the help of the given subcommand(s)\n\n" ++
    "Options:\n" ++
    "  -h, --help     Print help\n" ++
    "  -V, --version  Print version"
  | sizes =>
    "Prints sizes\n\n" ++
    "Usage: logic-terms sizes\n\n" ++
    "Options:\n" ++
    "  -h, --help  Print help"
  | stress =>
    "Checks engine properties on random term pairs\n\n" ++
    "Usage: logic-terms stress [OPTIONS]\n\n" ++
    "Options:\n" ++
    "  -s, --seed <SEED>    Random seed [default: 0]\n" ++
    "  -p, --pairs <PAIRS>  Number of term pairs [default: 1000]\n" ++
    "  -d, --depth <DEPTH>  Maximum term depth [default: 4]\n" ++
    "  -v, --vars <VARS>    Number of distinct variables [default: 4]\n" ++
    "      --occurs-check   Unify with occurs check\n" ++
    "  -h, --help           Print help"
  | help =>
    "Print this message or the help of the given subcommand(s)\n\n" ++
    "Usage: logic-terms help [COMMAND]...\n\n" ++
    "Arguments:\n" ++
    "  [COMMAND]...  Print help for the subcommand(s)"

/-- The name and version. -/
def versionText : String := "logic-terms-cli 0.1.0"

/-- The term types and how many bytes a value of each takes. -/
def typeSizes : List (String × Nat) :=
  [("Term", 16), ("Option<Term>", 16), ("Var", 8), ("Atom", 8), ("Compound", 8)]

/-- What a command leaves behind: the exit code, the output, and a complaint. -/
structure Outcome where
  code : UInt32
  output : String
  complaint : String := ""
  deriving DecidableEq, Repr, Inhabited

/-- How many steps a loop of a stress run may take: more than a machine gets to. -/
def stepLimit : Nat := 10 ^ 18

/-- The outcome of a stress run: it fails if properties are violated. -/
def stressOutcome (config : Stress.Config) : Outcome :=
  match Stress.run stepLimit config with
  | .error f => { code := 101, output := "", complaint := f.message }
  | .ok (.error e) => { code := 1, output := "", complaint := e.message }
  | .ok (.ok (report, _)) =>
    let output := report.text ++ "\n"
    if report.violations = 0 then { code := 0, output }
    else
      { code := 1, output,
        complaint := (Stress.Failure.violated report.violations report.pairs).message }

/-- Does what is asked for. -/
def Request.execute : Request → Outcome
  | help topic => { code := 0, output := topic.text ++ "\n" }
  | version => { code := 0, output := versionText ++ "\n" }
  | sizes =>
    { code := 0
      output := String.join <| typeSizes.map fun (name, bytes) =>
        "Size of " ++ name ++ ": " ++ toString bytes ++ "\n" }
  | stress config => stressOutcome config

/-- Reads the arguments and does what they ask for. -/
def execute (args : List String) : Outcome :=
  match Request.parse args with
  | .ok request => request.execute
  | .error e => { code := 2, output := "", complaint := e.message }

end Horn.CommandLine
