import GraphQL.CommandLine.Run

/-!
The program: reads the files that a command names, runs it, and writes what it
leaves.
-/

namespace GraphQL.CommandLine

/-- The files that a command reads. -/
def Command.files : Command → List String
  | .check files .. => files
  | .normalize file | .parse file .. => [file]
  | .version => []

/-- Reads a file as text. -/
def readTextFile (file : String) : IO (Except FileError String) := do
  try
    let bytes ← IO.FS.readBinFile file
    match String.fromUTF8? bytes with
    | some text => return .ok text
    | none => return .error .notUnicode
  catch
    | .noFileOrDirectory .. => return .error .notFound
    | e => return .error (.other (toString e))

/-- What is written instead of running a command. -/
def Refusal.text : Refusal → String
  | displayHelp | displayHelpOnMissingArgumentOrSubcommand =>
      "Usage: gqltag [--verbose] [--quiet] (check|normalize|parse|version|help)\n"
  | displayVersion => versionLine
  | missingSubcommand => "error: a subcommand is required\n"
  | invalidSubcommand => "error: unrecognized subcommand\n"
  | unknownArgument => "error: unexpected argument\n"
  | missingRequiredArgument => "error: a required argument was not provided\n"
  | invalidValue => "error: invalid value\n"
  | tooManyValues => "error: a value was given to a flag that takes none\n"
  | argumentConflict => "error: an argument was used more than once\n"

/-- How a syntax error is shown. -/
def syntaxErrorText (file : String) (e : ParseError) : String :=
  let place := (e.position.map fun p => ":" ++ p.display).getD ""
  "Error " ++ file ++ place ++ ": " ++ e.message ++ "\n"

end GraphQL.CommandLine

open GraphQL.CommandLine in
def main (arguments : List String) : IO UInt32 := do
  let out ← IO.getStdout
  let err ← IO.getStderr
  match Invocation.ofArguments arguments with
  | .error refusal =>
      (if refusal.exitCode == 0 then out else err).putStr refusal.text
      return refusal.exitCode.toUInt32
  | .ok invocation =>
      let texts ← invocation.command.files.mapM fun file => do
        return (file, ← readTextFile file)
      let read : Files := fun file => (texts.lookup file).getD (.error .notFound)
      match invocation.run read with
      | .error interruption =>
          out.putStr interruption.stdout
          err.putStr ("Error: " ++ interruption.error.message ++ "\n")
          return 1
      | .ok outcome =>
          for (file, e) in outcome.syntaxErrors do
            err.putStr (syntaxErrorText file e)
          err.putStr outcome.stderr
          out.putStr outcome.stdout
          return outcome.exitCode.toUInt32
