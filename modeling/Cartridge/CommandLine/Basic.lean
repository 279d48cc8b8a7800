import Cartridge.Options

/-!
# Arguments of the command line

Arguments are read from left to right, and the first one that is wrong or that asks for help or for
the version decides. A setting takes its value from the same argument (`--name=value`, `-nvalue`) or
from the next one, which must not look like a flag. After `--` every argument is positional.
-/

namespace Cartridge

/-- Why the arguments are not read to the end. -/
inductive CommandLine.Stop where
  /-- The arguments are wrong. -/
  | usage
  | version
  | help
deriving DecidableEq, Repr, Inhabited

/-- A flag without a value. -/
inductive CommandLine.Switch where
  | print
  | disableOptimizations
  | listRules
  | inlineAll
  | timestamp
deriving DecidableEq, Repr, Inhabited

/-- A flag with a value. -/
inductive CommandLine.Setting where
  | reference
  | config
  | output
  | disableRule
  | commentary
  | assembler
  | editor
  | emulator
deriving DecidableEq, Repr, Inhabited

/-- The arguments of the command line. -/
structure CommandLine where
  /-- The path of the user program. -/
  input : Option String := none
  /-- The flags that are set. -/
  switches : List CommandLine.Switch := []
  /-- The values of settings in order. -/
  settings : List (CommandLine.Setting × String) := []
deriving DecidableEq, Repr, Inhabited

namespace CommandLine

/-- The switches by name. -/
def switchNames : List (String × Switch) :=
  [("print", .print), ("disable-optimizations", .disableOptimizations), ("list-rules", .listRules),
   ("inline-all", .inlineAll), ("timestamp", .timestamp)]

/-- The settings by name. -/
def settingNames : List (String × Setting) :=
  [("reference", .reference), ("config", .config), ("output", .output),
   ("disable-rule", .disableRule), ("annotations", .commentary), ("assembler", .assembler),
   ("editor", .editor), ("emulator", .emulator)]

/-- The settings by letter. -/
def settingLetters : List (Char × Setting) := [('r', .reference), ('o', .output)]

namespace Setting

/-- Whether a setting may be given more than once. -/
def mayRepeat : Setting → Bool
  | .reference | .disableRule => true
  | _ => false

/-- Whether a setting takes a value. -/
def accepts (value : String) : Setting → Bool
  | .disableRule => true
  | .commentary => (Commentary.ofName? value).isSome
  | _ => value ≠ ""

end Setting

variable (c : CommandLine)

/-- The values of a setting. -/
def values (s : Setting) : List String := (c.settings.filter (·.1 == s)).map (·.2)

/-- The value of a setting. -/
def value? (s : Setting) : Option String := (c.values s).head?

/-- Whether a switch is set. -/
def isOn (s : Switch) : Bool := c.switches.contains s

/-! ### One argument -/

/-- Sets a switch, once at most. -/
def turnOn (s : Switch) : Except Stop CommandLine :=
  if c.isOn s then .error .usage else .ok { c with switches := c.switches ++ [s] }

/-- Gives a value to a setting. -/
def give (s : Setting) (value : String) : Except Stop CommandLine :=
  if s.accepts value && (s.mayRepeat || (c.value? s).isNone)
  then .ok { c with settings := c.settings ++ [(s, value)] } else .error .usage

/-- Takes a positional argument, of which there is one. -/
def position (argument : String) : Except Stop CommandLine :=
  if argument ≠ "" && c.input.isNone then .ok { c with input := some argument } else .error .usage

/-- What an argument says. -/
inductive Word where
  | wrong
  | stop (reason : Stop)
  | switch (s : Switch)
  | setting (s : Setting) (value : Option String)
  | positional (argument : String)
  /-- All that follows is positional. -/
  | endOfFlags
deriving DecidableEq, Repr

/-- The name of a long flag and its value. -/
def splitValue (flag : List Char) : String × Option String :=
  let name := String.ofList (flag.takeWhile (· != '='))
  match flag.dropWhile (· != '=') with
  | [] => (name, none)
  | _ :: value => (name, some (String.ofList value))

/-- A flag with a long name. -/
def longFlag (flag : List Char) : Word :=
  match splitValue flag with
  | ("version", none) => .stop .version
  | ("help", none) => .stop .help
  | (name, value) =>
    match settingNames.lookup name, switchNames.lookup name, value with
    | some s, _, value => .setting s value
    | none, some s, none => .switch s
    | _, _, _ => .wrong

/-- A flag with a letter; what follows the letter is its value. -/
def shortFlag (letter : Char) (rest : List Char) : Word :=
  match letter, settingLetters.lookup letter, rest with
  | 'V', _, _ => .stop .version
  | 'h', _, _ => .stop .help
  | _, some s, [] => .setting s none
  | _, some s, '=' :: value => .setting s (some (String.ofList value))
  | _, some s, value => .setting s (some (String.ofList value))
  | _, none, _ => .wrong

/-- What an argument says by itself. -/
def word (argument : String) : Word :=
  match argument.toList with
  | ['-', '-'] => .endOfFlags
  | '-' :: '-' :: flag => longFlag flag
  | '-' :: letter :: rest => shortFlag letter rest
  | _ => .positional argument

/-! ### All arguments -/

/-- Reads the arguments after those that `c` holds. -/
def read (c : CommandLine) : List String → Except Stop CommandLine
  | [] => .ok c
  | argument :: rest =>
    match word argument with
    | .wrong => .error .usage
    | .stop reason => .error reason
    | .endOfFlags => rest.foldlM position c
    | .positional argument =>
      match c.position argument with
      | .ok c => read c rest
      | .error e => .error e
    | .switch s =>
      match c.turnOn s with
      | .ok c => read c rest
      | .error e => .error e
    | .setting s (some value) =>
      match c.give s value with
      | .ok c => read c rest
      | .error e => .error e
    | .setting s none =>
      match rest with
      | [] => .error .usage
      | next :: rest =>
        match word next with
        | .positional value =>
          match c.give s value with
          | .ok c => read c rest
          | .error e => .error e
        | _ => .error .usage

/-- Reads all arguments; the user program has to be among them. -/
def parse (arguments : List String) : Except Stop CommandLine :=
  match read {} arguments with
  | .ok c => if c.input.isSome then .ok c else .error .usage
  | .error e => .error e

end CommandLine

end Cartridge
