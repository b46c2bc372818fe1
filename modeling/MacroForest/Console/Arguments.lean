/-
**Arguments of the command line.**

Arguments are options, which begin with a dash, and operands.  The first operand names the command;
some options can stand before the command and behind it.  The first fault ends the reading, unless
the version or help was asked for before it.

Main definitions:

* `MacroForest.Request` — what is asked for;
* `MacroForest.Refusal` — why nothing is done;
* `MacroForest.Request.ofArguments` — **the request of some arguments**.
-/

import MacroForest.Settings.Basic

set_option relaxedAutoImplicit false
set_option autoImplicit false

namespace MacroForest

/-! ### Requests -/

/-- The options of an expansion. -/
structure ExpandOptions where
  /-- A file of settings. -/
  config : Option String := none
  /-- The budget of each input. -/
  maxExpansions : Option Nat := none
  /-- The milliseconds each input may take. -/
  timeoutMs : Option Nat := none
  /-- Work on several inputs at once. -/
  parallel : Bool := false
  /-- The number of workers. -/
  workers : Option Nat := none
  /-- Further namespaces to open. -/
  opened : List String := []
  /-- Show the changes. -/
  diff : Bool := false

/-- What is to be done. -/
inductive Command where
  | expand (paths : List String) (options : ExpandOptions)
  | parse (paths : List String)
  | listMacros

/-- A request: what is to be done, and how it is shown. -/
structure Request where
  /-- What is to be done. -/
  command : Command
  /-- How much is told. -/
  verbosity : Nat
  /-- Whether colours are unwanted. -/
  noColour : Bool

/-- The reason why nothing is done. -/
inductive Refusal where
  /-- The version was asked for. -/
  | version
  /-- Help was asked for. -/
  | help
  /-- The arguments make no sense. -/
  | usage

/-! ### Options -/

/-- The options. -/
inductive OptionName where
  | verbose
  | noColour
  | version
  | help
  | config
  | maxExpansions
  | timeoutMs
  | parallel
  | workers
  | opened
  | diff
deriving DecidableEq

/-- The levels of a command line: before the command, and behind each of the commands. -/
inductive CommandLevel where
  | top
  | expand
  | parse
  | listMacros
deriving DecidableEq

namespace OptionName

/-- The long name of an option. -/
def long : OptionName → String
  | .verbose => "verbose"
  | .noColour => "no-color"
  | .version => "version"
  | .help => "help"
  | .config => "config"
  | .maxExpansions => "max-expansions"
  | .timeoutMs => "timeout-ms"
  | .parallel => "parallel"
  | .workers => "workers"
  | .opened => "open"
  | .diff => "diff"

/-- The option of a letter. -/
def ofLetter? : Char → Option OptionName
  | 'v' => some .verbose
  | 'V' => some .version
  | 'h' => some .help
  | _ => none

/-- Whether an option comes with a value. -/
def takesValue : OptionName → Bool
  | .config | .maxExpansions | .timeoutMs | .workers | .opened => true
  | _ => false

/-- The options that can stand at a level. -/
def allowed : CommandLevel → List OptionName
  | .top => [.verbose, .noColour, .help, .version]
  | .expand =>
    [.verbose, .noColour, .help, .config, .maxExpansions, .timeoutMs, .parallel, .workers, .opened,
      .diff]
  | _ => [.verbose, .noColour, .help]

end OptionName

/-- The command of a name. -/
def CommandLevel.ofName? : String → Option CommandLevel
  | "expand" => some .expand
  | "parse" => some .parse
  | "list-macros" => some .listMacros
  | _ => none

/-! ### Values -/

/-- The number of digits behind an optional plus sign. -/
def digitsOf? (cs : List Char) : Option Nat :=
  if cs.isEmpty || !cs.all Char.isDigit then none
  else some (cs.foldl (fun n c => 10 * n + (c.toNat - '0'.toNat)) 0)

/-- A number up to a bound, with an optional plus sign. -/
def natural? (bound : Nat) (text : String) : Option Nat :=
  let digits := match text.toList with
    | '+' :: cs => cs
    | cs => cs
  (digitsOf? digits).filter (· ≤ bound)

/-- A number up to a bound that is read as an integer first, so that minus zero is zero. -/
def integer? (bound : Nat) (text : String) : Option Nat :=
  match text.toList with
  | '-' :: cs => (digitsOf? cs).filter (· = 0)
  | _ => natural? bound text

/-! ### Reading -/

/-- What has been read at one level. -/
structure Reading where
  /-- The options given. -/
  given : List OptionName := []
  /-- How often more was to be told. -/
  verbosity : Nat := 0
  /-- The operands, last first. -/
  operands : List String := []
  /-- The options of an expansion. -/
  options : ExpandOptions := {}

namespace Reading

/-- Reads the value of an option. -/
def setValue (r : Reading) (name : OptionName) (value : String) : Except Refusal Reading :=
  let number (n : Option Nat) (f : Nat → ExpandOptions) : Except Refusal Reading :=
    match n with
    | some n => .ok { r with options := f n }
    | none => .error .usage
  match name with
  | .config =>
    if value.isEmpty then .error .usage
    else .ok { r with options := { r.options with config := some value } }
  | .maxExpansions =>
    number (integer? (UInt32.size - 1) value) fun n => { r.options with maxExpansions := some n }
  | .timeoutMs =>
    number (natural? (UInt64.size - 1) value) fun n => { r.options with timeoutMs := some n }
  | .workers => number (natural? (UInt64.size - 1) value) fun n => { r.options with workers := some n }
  | .opened => .ok { r with options := { r.options with opened := r.options.opened ++ [value] } }
  | _ => .error .usage

/-- Reads an option without a value. -/
def setFlag (r : Reading) (name : OptionName) : Except Refusal Reading :=
  match name with
  | .version => .error .version
  | .help => .error .help
  | .verbose => .ok { r with verbosity := r.verbosity + 1 }
  | .parallel => .ok { r with options := { r.options with parallel := true } }
  | .diff => .ok { r with options := { r.options with diff := true } }
  | .noColour => .ok r
  | _ => .error .usage

/-- Notes that an option was given.  Few options can be given twice. -/
def note (r : Reading) (name : OptionName) : Except Refusal Reading :=
  if name ≠ .verbose ∧ name ≠ .opened ∧ name ∈ r.given then .error .usage
  else .ok { r with given := name :: r.given }

/-- Reads an option without a value, once noted. -/
def flag (r : Reading) (name : OptionName) : Except Refusal Reading := do
  (← r.note name).setFlag name

/-- Reads an option with its value, once noted. -/
def valued (r : Reading) (name : OptionName) (value : String) : Except Refusal Reading := do
  (← r.note name).setValue name value

/-- Reads the letters behind a single dash. -/
def letters (level : CommandLevel) : List Char → Reading → Except Refusal Reading
  | [], r => .ok r
  | c :: cs, r =>
    match OptionName.ofLetter? c with
    | some name =>
      if name ∈ OptionName.allowed level then do letters level cs (← r.flag name) else .error .usage
    | none => .error .usage

/-- Adds an operand, which must not be empty. -/
def operand (r : Reading) (text : String) : Except Refusal Reading :=
  if text.isEmpty then .error .usage else .ok { r with operands := text :: r.operands }

end Reading

/-- An argument by its form. -/
inductive Argument where
  /-- What follows are operands. -/
  | operandsFollow
  /-- A long option, with its value if one is attached. -/
  | long (name : String) (value : Option String)
  | letters (letters : List Char)
  | operand (text : String)

/-- The form of an argument. -/
def Argument.of (text : String) : Argument :=
  match text.toList with
  | ['-', '-'] => .operandsFollow
  | '-' :: '-' :: cs =>
    let name := String.ofList (cs.takeWhile (· != '='))
    match cs.dropWhile (· != '=') with
    | _ :: value => .long name (some (String.ofList value))
    | [] => .long name none
  | '-' :: c :: cs => .letters (c :: cs)
  | _ => .operand text

/-- The long option of a name at a level. -/
def OptionName.find? (level : CommandLevel) (name : String) : Option OptionName :=
  (allowed level).find? (·.long == name)

/-- Reads the arguments behind a command. -/
def readArguments (level : CommandLevel) : List String → Reading → Except Refusal Reading
  | [], r => .ok r
  | text :: rest, r =>
    match Argument.of text with
    | .operandsFollow => rest.foldlM Reading.operand r
    | .operand text => do readArguments level rest (← r.operand text)
    | .letters cs => do readArguments level rest (← r.letters level cs)
    | .long name attached =>
      match OptionName.find? level name with
      | none => .error .usage
      | some option =>
        if option.takesValue then
          match attached with
          | some value => do readArguments level rest (← r.valued option value)
          | none =>
            match rest with
            | [] => .error .usage
            | value :: more =>
              match Argument.of value with
              | .operand value => do readArguments level more (← r.valued option value)
              | _ => .error .usage
        else
          match attached with
          | some _ => .error .usage
          | none => do readArguments level rest (← r.flag option)

/-- The request for help on commands. -/
def readHelp : List String → Refusal
  | [] => .help
  | [name] => if (CommandLevel.ofName? name).isSome || name == "help" then .help else .usage
  | _ => .usage

/-- The command of what has been read behind its name. -/
def commandOf (level : CommandLevel) (r : Reading) : Except Refusal Command :=
  let paths := r.operands.reverse
  match level with
  | .expand => if paths.isEmpty then .error .usage else .ok (.expand paths r.options)
  | .parse => if paths.isEmpty then .error .usage else .ok (.parse paths)
  | .listMacros => if paths.isEmpty then .ok .listMacros else .error .usage
  | .top => .error .usage

namespace Request

/-- The paths that a request is about. -/
def paths (r : Request) : List String :=
  match r.command with
  | .expand paths options => options.config.toList ++ paths
  | .parse paths => paths
  | .listMacros => []

/-- The request of a command, given what was read before its name and behind it.  What is said
behind the name about the wanted amount of telling wins. -/
def ofReadings (level : CommandLevel) (top inner : Reading) : Except Refusal Request := do
  let command ← commandOf level inner
  return { command,
           verbosity := if inner.verbosity = 0 then top.verbosity else inner.verbosity,
           noColour := decide (.noColour ∈ top.given) || decide (.noColour ∈ inner.given) }

/-- Reads the arguments before the command, and then those behind it. -/
def read : List String → Reading → Except Refusal Request
  | [], _ => .error .usage
  | text :: rest, top =>
    match Argument.of text with
    | .operand name =>
      if name == "help" then .error (readHelp rest)
      else
        match CommandLevel.ofName? name with
        | some level => do ofReadings level top (← readArguments level rest {})
        | none => .error .usage
    | .letters cs => do read rest (← top.letters .top cs)
    | .long name none =>
      match OptionName.find? .top name with
      | some option => do read rest (← top.flag option)
      | none => .error .usage
    | _ => .error .usage

/-- The request of some arguments. -/
def ofArguments (arguments : List String) : Except Refusal Request := read arguments {}

end Request

end MacroForest
