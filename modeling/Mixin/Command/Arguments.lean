import Mixin.Command.Job

/-!
# Command-line arguments

The program has the commands `check`, `build` and `tools`, and `tools` has commands of its own. Each
command that does something takes the path of a program. Named arguments are flags or take a value,
which may follow behind `=`, directly behind the letter, or as the next argument.
`Request.ofArguments` reads all arguments from left to right and checks in the end that nothing is
missing or repeated.
-/

namespace Mixin

/-- The commands: the program itself and those below it. -/
inductive Command where
  | top
  | check
  | build
  | tools
  | tokens
  | ast
  deriving DecidableEq, Repr, Inhabited

inductive NamedArgument where
  | noPrelude
  | verbose
  | help
  | version
  | output
  | runtime
  deriving DecidableEq, Repr, Inhabited

namespace NamedArgument

def long : NamedArgument → String
  | noPrelude => "no-prelude"
  | verbose => "verbose"
  | help => "help"
  | version => "version"
  | output => "output"
  | runtime => "runtime"

def short? : NamedArgument → Option Char
  | verbose => some 'v'
  | help => some 'h'
  | version => some 'V'
  | output => some 'o'
  | noPrelude | runtime => none

def takesValue : NamedArgument → Bool
  | output | runtime => true
  | noPrelude | verbose | help | version => false

end NamedArgument

namespace Command

def name : Command → String
  | top => "sable"
  | check => "check"
  | build => "build"
  | tools => "tools"
  | tokens => "tokens"
  | ast => "ast"

def subcommands : Command → List Command
  | top => [check, build, tools]
  | tools => [tokens, ast]
  | check | build | tokens | ast => []

def subcommand? (c : Command) (word : String) : Option Command :=
  c.subcommands.find? fun sub => sub.name == word

def named : Command → List NamedArgument
  | build => [.noPrelude, .verbose, .help, .version, .output, .runtime]
  | top | check | tools | tokens | ast => [.noPrelude, .verbose, .help, .version]

/-- The version of a command; only the program itself has one. -/
def version : Command → String
  | top => "0.1.0"
  | check | build | tools | tokens | ast => ""

def usage : Command → String
  | top => "Compiler front-end for the Sable language\n\n    sable <check|build|tools>\n"
  | check => "Checks the program for errors without generating code\n\n    sable check <PROGRAM>\n"
  | build =>
    "Compiles the program into an assembly listing\n\n" ++
      "    sable build [-o <output>] [--runtime <runtime>] <PROGRAM>\n"
  | tools =>
    "Various language-level tools most useful for Sable devs\n\n    sable tools <tokens|ast>\n"
  | tokens => "Displays the tokens produced by the lexer\n\n    sable tools tokens <PROGRAM>\n"
  | ast => "Displays the AST obtained from the parser\n\n    sable tools ast <PROGRAM>\n"

end Command

/-- Why arguments make no sense. -/
inductive UsageError where
  | unknownArgument (text : String)
  | unknownCommand (name : String)
  | missingCommand (below : Command)
  | missingProgram
  | missingValue (argument : NamedArgument)
  | repeated (argument : NamedArgument)
  deriving DecidableEq, Repr, Inhabited

def UsageError.message : UsageError → String
  | unknownArgument text =>
    "error: Found argument '" ++ text ++ "' which wasn't expected, or isn't valid in this context"
  | unknownCommand name => "error: The subcommand '" ++ name ++ "' wasn't recognized"
  | missingCommand below => below.usage
  | missingProgram => "error: The following required arguments were not provided:\n    <PROGRAM>"
  | missingValue argument =>
    "error: The argument '--" ++ argument.long ++ "' requires a value but none was supplied"
  | repeated argument =>
    "error: The argument '--" ++ argument.long ++
      "' was provided more than once, but cannot be used multiple times"

inductive Request where
  | perform (job : Job)
  /-- Show the name and the version of the last of the commands that were called. -/
  | version (path : List Command)
  | help (command : Command)
  | refuse (e : UsageError)
  deriving Inhabited

/-- What was given to one command. -/
structure Arguments where
  command : Command
  /-- The named arguments, as often as they were given. -/
  given : List NamedArgument := []
  values : List (NamedArgument × String) := []
  program : Option String := none
  /-- The named argument whose value is to come next. -/
  awaiting : Option NamedArgument := none
  /-- After `--` there are no names any more. -/
  onlyPrograms : Bool := false
  deriving Inhabited

namespace Arguments

def note (a : Arguments) (argument : NamedArgument) : Arguments :=
  { a with given := a.given ++ [argument], awaiting := none }

def assign (a : Arguments) (argument : NamedArgument) (value : List Char) : Arguments :=
  { a with values := a.values ++ [(argument, String.ofList value)], awaiting := none }

/-- Notes a named argument with the value behind it, if there is one. Equals signs before the value
are no part of it. -/
def noteWithValue (a : Arguments) (argument : NamedArgument) : Option (List Char) → Arguments
  | some value => (a.note argument).assign argument (value.dropWhile (· == '='))
  | none => { a.note argument with awaiting := some argument }

/-- Reads letters behind one dash. A letter that takes a value takes all that follows it. -/
def readShort (path : List Command) (a : Arguments) : List Char → Except Request Arguments
  | [] => .ok a
  | c :: rest =>
    match a.command.named.find? fun n => n.short? == some c with
    | some .help => .error (.help a.command)
    | some .version => .error (.version path)
    | some argument =>
      if argument.takesValue then
        .ok (a.noteWithValue argument (if rest.isEmpty then none else some rest))
      else readShort path (a.note argument) rest
    | none => .error (.refuse (.unknownArgument (String.ofList ['-', c])))

/-- Reads a name behind dashes. A flag does not look at a value that is given to it. -/
def readLong (path : List Command) (a : Arguments) (text : List Char) :
    Except Request Arguments :=
  let body := text.dropWhile (· == '-')
  let name := body.takeWhile (· != '=')
  match a.command.named.find? fun n => n.long.toList == name with
  | some .help => .error (.help a.command)
  | some .version => .error (.version path)
  | some argument =>
    if argument.takesValue then
      .ok (a.noteWithValue argument (body.dropWhile (· != '=')).tail?)
    else .ok (a.note argument)
  | none => .error (.refuse (.unknownArgument (String.ofList text)))

/-- Reads the path of a program. Only one is taken, and only by a command without further
commands. -/
def readProgram (a : Arguments) (text : String) : Except Request Arguments :=
  if a.command.subcommands.isEmpty && a.program.isNone then .ok { a with program := some text }
  else .error (.refuse (.unknownArgument text))

/-- Reads one argument that calls no command. One dash alone is an ordinary text. -/
def read (path : List Command) (a : Arguments) (text : String) : Except Request Arguments :=
  if a.onlyPrograms then a.readProgram text
  else
    match text.toList with
    | ['-', '-'] => .ok { a with onlyPrograms := true }
    | '-' :: '-' :: rest => a.readLong path ('-' :: '-' :: rest)
    | '-' :: c :: rest => a.readShort path (c :: rest)
    | value =>
      match a.awaiting with
      | some argument => .ok (a.assign argument value)
      | none => a.readProgram text

/-- The first thing that is missing or repeated. -/
def fault? (a : Arguments) : Option UsageError :=
  match a.given.find? fun n => 1 < a.given.count n with
  | some argument => some (.repeated argument)
  | none =>
    match a.given.find? fun n => n.takesValue && !a.values.any (·.1 == n) with
    | some argument => some (.missingValue argument)
    | none =>
      if a.command.subcommands.isEmpty && a.program.isNone then some .missingProgram else none

def value? (a : Arguments) (argument : NamedArgument) : Option String :=
  a.values.lookup argument

end Arguments

/-- What a request for help is about: the commands it names, one below the other. -/
def Command.helpFor (c : Command) : List String → Request
  | [] => .help c
  | word :: rest =>
    match c.subcommand? word with
    | some sub => sub.helpFor rest
    | none => .refuse (.unknownCommand word)

def Arguments.callsHelp (a : Arguments) (text : String) : Bool :=
  !a.onlyPrograms && !a.command.subcommands.isEmpty && text == "help"

def Arguments.calls? (a : Arguments) (text : String) : Option Command :=
  if a.onlyPrograms then none else a.command.subcommand? text

/-- Reads arguments. `outer` is what was given to the commands called before, the last one first.
The result begins with the last command called. -/
def Arguments.readAll (outer : List Arguments) (a : Arguments) :
    List String → Except Request (List Arguments)
  | [] =>
    if a.command.subcommands.isEmpty then .ok (a :: outer)
    else .error (.refuse (.missingCommand a.command))
  | text :: rest =>
    if a.callsHelp text then
      .error (match rest with
        | ["help"] => .help a.command
        | _ => a.command.helpFor rest)
    else
      match a.calls? text with
      | some sub => Arguments.readAll (a :: outer) { command := sub } rest
      | none =>
        match a.read ((a :: outer).reverse.map (·.command)) text with
        | .ok after => Arguments.readAll outer after rest
        | .error request => .error request

def Arguments.target (a : Arguments) : Target :=
  match a.command with
  | .build =>
    .build (a.value? .output) ((a.value? .runtime).getD ({} : BuildOptions).runtimeLibrary)
  | .tokens => .tokens
  | .ast => .tree
  | .top | .check | .tools => .check

/-- What the arguments ask for. The flags may be given to any of the commands called. -/
def Request.ofArguments (arguments : List String) : Request :=
  match Arguments.readAll [] { command := .top } arguments with
  | .error request => request
  | .ok [] => .refuse .missingProgram
  | .ok (leaf :: outer) =>
    match (leaf :: outer).findSome? Arguments.fault?, leaf.program with
    | some e, _ => .refuse e
    | none, none => .refuse .missingProgram
    | none, some program =>
      let isGiven (flag : NamedArgument) : Bool := (leaf :: outer).any (·.given.contains flag)
      .perform
        { source := program, target := leaf.target, noPrelude := isGiven .noPrelude
          verbose := isGiven .verbose }

end Mixin
