import CodeFix.Cli.Location
import CodeFix.Cli.Output
import CodeFix.Settings.Store

/-!
# Arguments

The command line is a path of command names, each followed by options; the last command may take a
location. Some options may stand behind any command of the path. If one of these is given more than
once, but behind different commands, the last one counts.

Reading goes from left to right. The first thing that is wrong ends it, and so does an option that
asks for help or for the version; which of the two comes first decides how the program exits. Values
are checked as they come.
-/

namespace CodeFix

/-! ## Commands and options -/

/-- A command as it is named on the command line. -/
inductive CommandName where
  | program
  | fixes
  | fixesList
  | fixesApply
  | rules
  | config
  | configInit
  | configShow
  | configPath
deriving DecidableEq, Repr

inductive OptionName where
  | root
  | format
  | verbose
  | help
  | version
  | rule
  | index
  | execute
  | global
  | force
deriving DecidableEq, Repr

namespace OptionName

/-- The name behind two dashes. -/
def long : OptionName → String
  | root => "root"
  | format => "format"
  | verbose => "verbose"
  | help => "help"
  | version => "version"
  | rule => "rule"
  | index => "index"
  | execute => "execute"
  | global => "global"
  | force => "force"

/-- The letter behind one dash. -/
def short? : OptionName → Option Char
  | verbose => some 'v'
  | help => some 'h'
  | version => some 'V'
  | force => some 'f'
  | _ => none

def takesValue : OptionName → Bool
  | root | format | rule | index => true
  | _ => false

def maxIndex : Nat := maxWord

/-- The option can have the value. -/
def admits (o : OptionName) (value : String) : Bool :=
  match o with
  | root => !value.isEmpty
  | format => (OutputFormat.ofName? value).isSome
  | index => (readCount? maxIndex value).isSome
  | _ => true

end OptionName

namespace CommandName

/-- The commands that may follow, by their names. -/
def subcommands : CommandName → List (String × CommandName)
  | program => [("fixes", fixes), ("rules", rules), ("config", config)]
  | fixes => [("list", fixesList), ("apply", fixesApply)]
  | config => [("init", configInit), ("show", configShow), ("path", configPath)]
  | _ => []

/-- The options that may stand behind every command. -/
def commonOptions : List OptionName := [.root, .format, .verbose, .help, .version]

/-- The options of the command itself. -/
def ownOptions : CommandName → List OptionName
  | fixesList => [.rule]
  | fixesApply => [.index, .rule, .execute]
  | configInit => [.global, .force]
  | configShow => [.global]
  | configPath => [.global]
  | _ => []

def options (c : CommandName) : List OptionName := commonOptions ++ c.ownOptions

def takesLocation : CommandName → Bool
  | fixesList | fixesApply => true
  | _ => false

def long? (c : CommandName) (name : String) : Option OptionName :=
  c.options.find? fun o ↦ o.long == name

/-- The option with a letter. -/
def short? (c : CommandName) (letter : Char) : Option OptionName :=
  c.options.find? fun o ↦ o.short? == some letter

end CommandName

/-- Why no command is run. -/
inductive ArgumentStop where
  /-- Help or the version is shown. -/
  | information
  /-- The arguments are wrong. -/
  | misuse
deriving DecidableEq, Repr

def ArgumentStop.exitCode : ArgumentStop → Nat
  | information => 0
  | misuse => 2

/-! ## Reading -/

/-- What was given for one command. -/
structure Given where
  command : CommandName
  values : List (OptionName × String) := []
  location : Option Location := none

/-- What the next argument can be. -/
inductive Expectation where
  | anything
  /-- The value of an option. -/
  | value (o : OptionName)
  /-- Not an option any more. -/
  | noOption

namespace Given

/-- Takes an option, which may be given only once behind a command. -/
def take (g : Given) (o : OptionName) (value : String) : Except ArgumentStop Given :=
  if o = .help || o = .version then .error .information
  else if (g.values.lookup o).isSome || !o.admits value then .error .misuse
  else .ok { g with values := g.values ++ [(o, value)] }

/-- Takes options by their letters, none of which comes with a value. -/
def takeLetters (g : Given) : List Char → Except ArgumentStop Given
  | [] => .ok g
  | letter :: letters =>
    match g.command.short? letter with
    | some o => do
      let g ← g.take o ""
      g.takeLetters letters
    | none => .error .misuse

/-- Takes a location. -/
def takeLocation (g : Given) (arg : String) : Except ArgumentStop Given :=
  if !g.command.takesLocation || g.location.isSome then .error .misuse
  else
    match Location.parse arg with
    | .ok l => .ok { g with location := some l }
    | .error _ => .error .misuse

/-- Takes an option by its long name, perhaps with a value behind an equals sign. -/
def takeLong (g : Given) (cs : List Char) : Except ArgumentStop (Given × Expectation) :=
  let name := String.ofList (cs.takeWhile (· != '='))
  let attached? := (cs.dropWhile (· != '=')).tail?
  match g.command.long? name, attached? with
  | none, _ => .error .misuse
  | some o, some attached =>
    if o.takesValue then do
      let g ← g.take o (String.ofList attached)
      return (g, .anything)
    else .error .misuse
  | some o, none =>
    if o.takesValue then .ok (g, .value o)
    else do
      let g ← g.take o ""
      return (g, .anything)

end Given

/-- The path of commands that help is asked for. -/
def helpPath (c : CommandName) : List String → ArgumentStop
  | [] => .information
  | arg :: rest =>
    match c.subcommands.lookup arg with
    | some c' => helpPath c' rest
    | none =>
      if arg == "help" && !c.subcommands.isEmpty && rest.isEmpty then .information else .misuse

/-- Reads arguments. The commands that were left come nearest one first, and so does the result. -/
def readArguments (left : List Given) (g : Given) (expected : Expectation) :
    List String → Except ArgumentStop (List Given)
  | [] =>
    match expected with
    | .value _ => .error .misuse
    | _ => if g.command.subcommands.isEmpty then .ok (g :: left) else .error .misuse
  | arg :: rest =>
    match expected with
    | .value o =>
      if arg.toList.head? == some '-' && arg != "-" then .error .misuse
      else do
        let g ← g.take o arg
        readArguments left g .anything rest
    | .noOption => do
      let g ← g.takeLocation arg
      readArguments left g .noOption rest
    | .anything =>
      match g.command.subcommands.lookup arg with
      | some c => readArguments (g :: left) { command := c } .anything rest
      | none =>
        if arg == "help" && !g.command.subcommands.isEmpty then .error (helpPath g.command rest)
        else
          match arg.toList with
          | ['-', '-'] => readArguments left g .noOption rest
          | '-' :: '-' :: cs => do
            let (g, expected) ← g.takeLong cs
            readArguments left g expected rest
          | '-' :: c :: cs => do
            let g ← g.takeLetters (c :: cs)
            readArguments left g .anything rest
          | _ => do
            let g ← g.takeLocation arg
            readArguments left g .anything rest

/-! ## Invocations -/

/-- A command with everything it needs. -/
inductive Command where
  | listFixes (location : Location) (rule : String)
  | applyFix (location : Location) (index : Nat) (rule : String) (execute : Bool)
  | listRules
  | initSettings (level : SettingsLevel) (force : Bool)
  | showSettings (globalOnly : Bool)
  | settingsPath (level : SettingsLevel)
deriving DecidableEq, Repr

/-- A command and the options that are common to all. -/
structure Invocation where
  root : Option PathName
  format : Option OutputFormat
  command : Command
deriving DecidableEq, Repr

/-- The variable that names the root of the project. -/
def rootVariable : String := "FIXFORGE_ROOT"

namespace Invocation

/-- The value of a common option: the one behind the last command that has it. -/
def common? (given : List Given) (o : OptionName) : Option String :=
  given.findSome? fun g ↦ g.values.lookup o

/-- The variable for the root is consulted wherever the option is missing, and then has to have a
value that the option can have. -/
def variableIsUsable (env : Environment) (given : List Given) : Bool :=
  match env rootVariable with
  | none => true
  | some value =>
    OptionName.root.admits value || given.all fun g ↦ (g.values.lookup .root).isSome

/-- The command of the last name. -/
def command? (g : Given) (ruleId : String) : Option Command :=
  let has (o : OptionName) := (g.values.lookup o).isSome
  let level : SettingsLevel := if has .global then .global else .project
  let rule := (g.values.lookup .rule).getD ruleId
  match g.command with
  | .fixesList => g.location.map fun l ↦ .listFixes l rule
  | .fixesApply => do
    let l ← g.location
    let index ← readCount? OptionName.maxIndex (← g.values.lookup .index)
    return .applyFix l index rule (has .execute)
  | .rules => some .listRules
  | .configInit => some (.initSettings level (has .force))
  | .configShow => some (.showSettings (has .global))
  | .configPath => some (.settingsPath level)
  | _ => none

/-- Reads an invocation from the arguments behind the program's name; `ruleId` is the rule that is
meant if none is named. -/
def ofArguments (env : Environment) (ruleId : String) (args : List String) :
    Except ArgumentStop Invocation := do
  let given ← readArguments [] { command := .program } .anything args
  if !variableIsUsable env given then throw .misuse
  let command ← match given.head?.bind fun g ↦ command? g ruleId with
    | some c => pure c
    | none => throw .misuse
  return {
    root := (common? given .root).or (env rootVariable) |>.map PathName.mk
    format := (common? given .format).bind OutputFormat.ofName?
    command := command }

end Invocation

end CodeFix
