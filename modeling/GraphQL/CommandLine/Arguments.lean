/-!
The command line as it is written: subcommands, flags that may stand before and
after the subcommand, and one option with a value.

A value is only looked at once the next argument of its command is taken up, so
that an unknown argument behind a bad value is the one that is reported.
-/

namespace GraphQL.CommandLine

inductive Format
  | pretty
  | json
  deriving DecidableEq, Repr

def Format.ofWord? : String → Option Format
  | "pretty" => some .pretty
  | "json" => some .json
  | _ => none

inductive Command
  | check (files : List String) (warnings legacyFragmentVariables strict : Bool)
  | normalize (file : String)
  | parse (file : String) (format : Format) (legacyFragmentVariables : Bool)
  | version
  deriving DecidableEq, Repr

structure Invocation where
  verbose : Bool
  quiet : Bool
  command : Command
  deriving DecidableEq, Repr

/-- Why the arguments name no command to run. The first two ask for a text that
is not an error. -/
inductive Refusal
  | displayHelp
  | displayVersion
  | displayHelpOnMissingArgumentOrSubcommand
  | missingSubcommand
  | invalidSubcommand
  | unknownArgument
  | missingRequiredArgument
  | invalidValue
  | tooManyValues
  | argumentConflict
  deriving DecidableEq, Repr

def Refusal.exitCode : Refusal → Nat
  | displayHelp | displayVersion => 0
  | _ => 2

/-! ### Words -/

/-- What an argument looks like before it is known what it means. -/
inductive Word
  /-- Two dashes alone: everything after them is a value. -/
  | escape
  | long (name : String) (given : Option String)
  | short (letters : List Char)
  | value (text : String)
  deriving DecidableEq, Repr

/-- The text before the first equals sign, and the text after it if there is
one. -/
def splitEquals : List Char → List Char × Option (List Char)
  | [] => ([], none)
  | '=' :: cs => ([], some cs)
  | c :: cs =>
      let (name, given) := splitEquals cs
      (c :: name, given)

def Word.ofArgument (argument : String) : Word :=
  match argument.toList with
  | ['-', '-'] => .escape
  | '-' :: '-' :: cs =>
      let (name, given) := splitEquals cs
      .long (String.ofList name) (given.map String.ofList)
  | ['-'] => .value argument
  | '-' :: cs => .short cs
  | _ => .value argument

/-! ### Commands -/

inductive Flag
  | help
  | version
  | verbose
  | quiet
  | noFragmentWarnings
  | legacyFragmentVariables
  | strict
  deriving DecidableEq, Repr

def Flag.long : Flag → String
  | help => "help"
  | version => "version"
  | verbose => "verbose"
  | quiet => "quiet"
  | noFragmentWarnings => "no-fragment-warnings"
  | legacyFragmentVariables => "legacy-fragment-variables"
  | strict => "strict"

def Flag.short? : Flag → Option Char
  | help => some 'h'
  | version => some 'V'
  | verbose => some 'v'
  | quiet => some 'q'
  | _ => none

/-- What a command takes. -/
structure Usage where
  flags : List Flag
  /-- Whether there is a format to choose. -/
  hasFormat : Bool := false
  /-- How many files there may be; no limit if there is none. -/
  files : Option Nat := some 0

inductive Subcommand
  | check
  | normalize
  | parse
  | version
  deriving DecidableEq, Repr

def Subcommand.ofWord? : String → Option Subcommand
  | "check" => some .check
  | "normalize" => some .normalize
  | "parse" => some .parse
  | "version" => some .version
  | _ => none

/-- The flags that every command takes. -/
def everywhere : List Flag := [.help, .verbose, .quiet]

def Subcommand.usage : Subcommand → Usage
  | check =>
      { flags := everywhere ++ [.noFragmentWarnings, .legacyFragmentVariables, .strict]
        files := none }
  | normalize => { flags := everywhere, files := some 1 }
  | parse =>
      { flags := everywhere ++ [.legacyFragmentVariables], hasFormat := true, files := some 1 }
  | version => { flags := everywhere }

/-- What may stand in front of the subcommand. -/
def rootUsage : Usage := { flags := .version :: everywhere }

/-! ### Reading -/

/-- Values that have not been looked at yet. -/
inductive Pending
  | nothing
  | format (value : Option String)
  | files (values : List String)
  deriving DecidableEq, Repr

/-- What has been read of a command. -/
structure State where
  flags : List Flag := []
  format : Option Format := none
  files : List String := []
  pending : Pending := .nothing
  /-- How many files there are, those not looked at included. -/
  fileCount : Nat := 0
  deriving DecidableEq, Repr

namespace State

/-- Looks at the values that are pending. -/
def settle (s : State) : Except Refusal State :=
  match s.pending with
  | .nothing => .ok s
  | .format none => .error .invalidValue
  | .format (some v) =>
      if s.format.isSome then .error .argumentConflict
      else
        match Format.ofWord? v with
        | some f => .ok { s with format := some f, pending := .nothing }
        | none => .error .invalidValue
  | .files vs =>
      if vs.contains "" then .error .invalidValue
      else .ok { s with files := s.files ++ vs, pending := .nothing }

/-- Takes a flag. Help and version end the reading; no flag may be repeated. -/
def takeFlag (s : State) (flag : Flag) : Except Refusal State := do
  let s ← s.settle
  match flag with
  | .help => throw .displayHelp
  | .version => throw .displayVersion
  | flag =>
      if s.flags.contains flag then throw .argumentConflict
      else return { s with flags := s.flags ++ [flag] }

/-- Takes the flags of a cluster of letters, in order. -/
def takeShort (g : Usage) (s : State) : List Char → Except Refusal State
  | [] => .ok s
  | c :: cs =>
      match g.flags.find? (·.short? == some c) with
      | some flag => do takeShort g (← s.takeFlag flag) cs
      | none => .error .unknownArgument

/-- Takes a long flag or option. -/
def takeLong (g : Usage) (s : State) (name : String) (given : Option String) :
    Except Refusal State := do
  if g.hasFormat && name == "format" then
    let s ← s.settle
    let s := { s with pending := .format given }
    if given.isSome then s.settle else return s
  else
    match g.flags.find? (·.long == name), given with
    | none, _ => throw .unknownArgument
    | some _, some _ => throw .tooManyValues
    | some flag, none => s.takeFlag flag

/-- Takes a file, if one more may stand here. -/
def takeFile (g : Usage) (s : State) (file : String) : Except Refusal State :=
  if g.files.any (s.fileCount ≥ ·) then .error .unknownArgument
  else
    match s.pending with
    | .files vs => .ok { s with pending := .files (vs ++ [file]), fileCount := s.fileCount + 1 }
    | _ => do
        let s ← s.settle
        return { s with pending := .files [file], fileCount := s.fileCount + 1 }

/-- Is the value of an option still to come? -/
def awaitsValue (s : State) : Bool := s.pending == .format none

end State

/-- Reads the arguments of a subcommand. After an escape every argument is a
file. -/
def readSubcommand (g : Usage) (escaped : Bool) (s : State) :
    List String → Except Refusal State
  | [] => s.settle
  | argument :: rest => do
      if escaped then readSubcommand g true (← s.takeFile g argument) rest
      else
        match Word.ofArgument argument with
        | .escape => readSubcommand g true s rest
        | .long name given => readSubcommand g false (← s.takeLong g name given) rest
        | .short letters => readSubcommand g false (← s.takeShort g letters) rest
        | .value text =>
            if s.awaitsValue then
              readSubcommand g false { s with pending := .format (some text) } rest
            else readSubcommand g false (← s.takeFile g text) rest

/-- The command that has been read, once all that it needs is there. -/
def Subcommand.build (c : Subcommand) (s : State) : Except Refusal Command :=
  let legacy := s.flags.contains .legacyFragmentVariables
  match c, s.files with
  | version, _ => .ok .version
  | _, [] => .error .missingRequiredArgument
  | check, files =>
      .ok (.check files (!s.flags.contains .noFragmentWarnings) legacy (s.flags.contains .strict))
  | normalize, file :: _ => .ok (.normalize file)
  | parse, file :: _ => .ok (.parse file (s.format.getD .pretty) legacy)

/-- The help for a path of subcommands, which has to exist. -/
def helpFor : List String → Refusal
  | [] => .displayHelp
  | [word] => if word == "help" || (Subcommand.ofWord? word).isSome then .displayHelp
      else .invalidSubcommand
  | _ => .invalidSubcommand

/-- Reads what stands in front of the subcommand, and then the subcommand. -/
def readRoot (s : State) : List String → Except Refusal Invocation
  | [] => .error (if s.flags.isEmpty then .displayHelpOnMissingArgumentOrSubcommand
      else .missingSubcommand)
  | argument :: rest => do
      match Subcommand.ofWord? argument with
      | some c =>
          let inner ← readSubcommand c.usage false {} rest
          let command ← c.build inner
          let flags := s.flags ++ inner.flags
          return ⟨flags.contains .verbose, flags.contains .quiet, command⟩
      | none =>
          if argument == "help" then throw (helpFor rest)
          else
            match Word.ofArgument argument with
            | .long name given => readRoot (← s.takeLong rootUsage name given) rest
            | .short letters => readRoot (← s.takeShort rootUsage letters) rest
            | .value _ => throw .invalidSubcommand
            | .escape =>
                match rest with
                | [] => throw (if s.flags.isEmpty then .displayHelpOnMissingArgumentOrSubcommand
                    else .missingSubcommand)
                | word :: _ =>
                    throw (if word == "help" || (Subcommand.ofWord? word).isSome
                      then .unknownArgument else .invalidSubcommand)

/-- Reads the arguments of the program. -/
def Invocation.ofArguments (arguments : List String) : Except Refusal Invocation :=
  readRoot {} arguments

end GraphQL.CommandLine
