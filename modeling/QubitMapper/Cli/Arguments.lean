import QubitMapper.Decimal.Reader

/-!
# Command line arguments

A command line names a command and sets its options. It is read from left to right, and reading
stops at the first thing that cannot be right and at the first request for help: of two faults the
left one counts.

A short option takes its value from the rest of the same argument, with or without an equals sign,
or else from the next argument; a long one from behind an equals sign or from the next argument.
What begins with a dash is never such a next argument, unless it is a dash alone.
-/

namespace QubitMapper.Cli

/-- What a command does. -/
inductive Command where
  | map (input : String) (output device config : Option String)
  | device (spec : String) (qubits : Option Nat)
  | version
  deriving DecidableEq, Repr

/-- The names of the commands. -/
inductive CommandName where
  | map
  | device
  | version
  deriving DecidableEq, Repr

/-- The command with a name. -/
def CommandName.ofText? : String → Option CommandName
  | "map" => some .map
  | "device" => some .device
  | "version" => some .version
  | _ => none

/-- The options. -/
inductive Flag where
  | input
  | output
  | device
  | config
  | qubits
  | verbose
  | help
  | release
  deriving DecidableEq, Repr

namespace Flag

/-- The letter of an option. -/
def letter : Flag → Char
  | input => 'i'
  | output => 'o'
  | device => 'd'
  | config => 'c'
  | qubits => 'n'
  | verbose => 'v'
  | help => 'h'
  | release => 'V'

/-- The word of an option. -/
def word : Flag → String
  | input => "input"
  | output => "output"
  | device => "device"
  | config => "config"
  | qubits => "qubits"
  | verbose => "verbose"
  | help => "help"
  | release => "version"

/-- Whether an option has a value. -/
def takesValue : Flag → Bool
  | verbose => false
  | help => false
  | release => false
  | _ => true

/-- The options that stand in front of a command. -/
def general : List Flag := [verbose, help, release]

/-- The options of a command. -/
def ofCommand : CommandName → List Flag
  | .map => [input, output, device, config, verbose, help]
  | .device => [device, qubits, verbose, help]
  | .version => [verbose, help]

end Flag

/-- What is wrong with a command line. -/
inductive UsageError where
  | noCommand
  | unknownCommand (text : String)
  | unknownOption (text : String)
  | unexpected (text : String)
  | valueMissing (flag : Flag)
  | valueUnwanted (flag : Flag)
  | repeated (flag : Flag)
  | notACount (text : String)
  | optionMissing (flag : Flag)
  deriving DecidableEq, Repr

/-- The wording of an error. -/
def UsageError.message : UsageError → String
  | noCommand => "a command is required"
  | unknownCommand text => s!"unrecognized command '{text}'"
  | unknownOption text => s!"unexpected option '{text}'"
  | unexpected text => s!"unexpected argument '{text}'"
  | valueMissing flag => s!"a value is required for '--{flag.word}'"
  | valueUnwanted flag => s!"'--{flag.word}' takes no value"
  | repeated flag => s!"'--{flag.word}' cannot be used multiple times"
  | notACount text => s!"'{text}' is not a number of qubits"
  | optionMissing flag => s!"'--{flag.word}' is required"

/-- Why the reading of a command line stops early. -/
inductive Stop where
  | usage (error : UsageError)
  /-- A request for help. -/
  | help
  /-- A request for the number of this release. -/
  | release
  deriving DecidableEq, Repr

/-- The values of options. -/
structure Settings where
  input : Option String := none
  output : Option String := none
  device : Option String := none
  config : Option String := none
  qubits : Option Nat := none
  deriving DecidableEq, Repr

namespace Settings

/-- A value that is set at most once. -/
def fill {α : Type} (flag : Flag) (old : Option α) (value : α) : Except Stop (Option α) :=
  if old.isSome then .error (.usage (.repeated flag)) else .ok (some value)

/-- A number of qubits: an integer that 32 bits without a sign can hold. -/
def readCount (text : String) : Except Stop Nat :=
  match Decimal.readSigned text.toList with
  | some n =>
      if 0 ≤ n ∧ n < Text.limit32 then .ok n.toNat else .error (.usage (.notACount text))
  | none => .error (.usage (.notACount text))

/-- An option with its value taken into account. -/
def set (s : Settings) (flag : Flag) (value : String) : Except Stop Settings := do
  match flag with
  | .input => return { s with input := ← fill flag s.input value }
  | .output => return { s with output := ← fill flag s.output value }
  | .device => return { s with device := ← fill flag s.device value }
  | .config => return { s with config := ← fill flag s.config value }
  | .qubits => return { s with qubits := ← fill flag s.qubits (← readCount value) }
  | .verbose => return s
  | .help => throw .help
  | .release => throw .release

/-! ## One argument -/

/-- The short options behind a dash, and the one that waits for its value. -/
def readLetters (allowed : List Flag) (s : Settings) :
    List Char → Except Stop (Settings × Option Flag)
  | [] => .ok (s, none)
  | c :: rest =>
      match allowed.find? (·.letter == c) with
      | none => .error (.usage (.unknownOption (String.ofList ['-', c])))
      | some flag =>
          if !flag.takesValue then do readLetters allowed (← s.set flag "") rest
          else
            match rest with
            | [] => .ok (s, some flag)
            | '=' :: value => return (← s.set flag (String.ofList value), none)
            | value => return (← s.set flag (String.ofList value), none)

/-- The long option behind two dashes, if it waits for its value. -/
def readWord (allowed : List Flag) (s : Settings) (cs : List Char) :
    Except Stop (Settings × Option Flag) :=
  let word := String.ofList (cs.takeWhile (· != '='))
  match allowed.find? (·.word == word), cs.dropWhile (· != '=') with
  | none, _ => .error (.usage (.unknownOption ("--" ++ word)))
  | some flag, [] =>
      if flag.takesValue then .ok (s, some flag) else return (← s.set flag "", none)
  | some flag, _ :: value =>
      if flag.takesValue then return (← s.set flag (String.ofList value), none)
      else .error (.usage (.valueUnwanted flag))

/-- The options in an argument that begins with a dash. -/
def readDashed (allowed : List Flag) (s : Settings) :
    List Char → Except Stop (Settings × Option Flag)
  | '-' :: '-' :: word => readWord allowed s word
  | cs => readLetters allowed s (cs.drop 1)

/-- Whether an argument holds options. -/
def isDashed (arg : String) : Bool := arg.startsWith "-" && arg != "-"

/-! ## All arguments -/

/-- The options behind a command, given the option that waits for its value. Two dashes end them,
and nothing may follow. -/
def read (allowed : List Flag) :
    Settings → Option Flag → List String → Except Stop Settings
  | s, none, [] => .ok s
  | _, some flag, [] => .error (.usage (.valueMissing flag))
  | s, some flag, arg :: rest =>
      if isDashed arg then .error (.usage (.valueMissing flag))
      else do read allowed (← s.set flag arg) none rest
  | s, none, arg :: rest =>
      if !isDashed arg then .error (.usage (.unexpected arg))
      else if arg = "--" then
        match rest with
        | [] => .ok s
        | next :: _ => .error (.usage (.unexpected next))
      else do
        let (s, waiting) ← readDashed allowed s arg.toList
        read allowed s waiting rest

/-- An option that must be there. -/
def required {α : Type} (flag : Flag) : Option α → Except Stop α
  | some value => .ok value
  | none => .error (.usage (.optionMissing flag))

/-- The command with these options. -/
def command (s : Settings) : CommandName → Except Stop Command
  | .map => return .map (← required .input s.input) s.output s.device s.config
  | .device => return .device (← required .device s.device) s.qubits
  | .version => return .version

end Settings

/-- Help asked for by a command of its own, which may name another command. -/
def readHelp : List String → Stop
  | [] => .help
  | [name] =>
      if name = "help" ∨ (CommandName.ofText? name).isSome then .help
      else .usage (.unknownCommand name)
  | _ :: name :: _ => .usage (.unknownCommand name)

/-- The command that a command line asks for. -/
def readCommand : List String → Except Stop Command
  | [] => .error (.usage .noCommand)
  | arg :: rest =>
      if arg = "--" then .error (.usage .noCommand)
      else if Settings.isDashed arg then do
        let _ ← Settings.readDashed Flag.general {} arg.toList
        readCommand rest
      else if arg = "help" then .error (readHelp rest)
      else
        match CommandName.ofText? arg with
        | none => .error (.usage (.unknownCommand arg))
        | some name => do (← Settings.read (Flag.ofCommand name) {} none rest).command name

end QubitMapper.Cli
