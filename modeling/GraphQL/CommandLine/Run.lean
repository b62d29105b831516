import GraphQL.Check
import GraphQL.CommandLine.Arguments
import GraphQL.Document.Outline

/-!
Running a command. Files are read through a function, so that a run is a
function of the invocation and of what the files hold.
-/

namespace GraphQL.CommandLine

/-- Why a file could not be read. -/
inductive FileError
  | notFound
  | notUnicode
  | other (message : String)
  deriving DecidableEq, Repr

def FileError.message : FileError → String
  | notFound => "No such file or directory (os error 2)"
  | notUnicode => "stream did not contain valid UTF-8"
  | other message => message

/-- What a run leaves. Syntax errors are kept apart from the other messages,
each with the file it was found in. -/
structure Outcome where
  exitCode : Nat
  stdout : String := ""
  stderr : String := ""
  syntaxErrors : List (String × ParseError) := []

/-- A run that stopped because a file could not be read. -/
structure Interruption where
  error : FileError
  stdout : String := ""

abbrev Files := String → Except FileError String

/-! ### Check -/

/-- Reads files in order, and writes what is told while reading them. -/
def readFiles (read : Files) (verbose : Bool) (told : String) :
    List String → Except Interruption (List (String × String) × String)
  | [] => .ok ([], told)
  | file :: files =>
      let told := if verbose then told ++ "Checking " ++ file ++ "\n" else told
      match read file with
      | .error e => .error ⟨e, told⟩
      | .ok source => do
          let (sources, told) ← readFiles read verbose told files
          return ((file, source) :: sources, told)

/-- The lines that report a conflict. -/
def conflictLines (strict verbose : Bool) (file : String) (c : FragmentConflict) : String :=
  let label := if strict then "Error" else "Warning"
  let bodies :=
    if verbose then
      String.join (c.previous.map fun body => "  previous: " ++ body ++ "\n") ++
        "  new: " ++ c.body ++ "\n"
    else ""
  label ++ " " ++ file ++ ": " ++ c.display ++ "\n" ++ bodies

def runCheck (read : Files) (verbose quiet : Bool) (files : List String)
    (options : CacheOptions) (strict : Bool) : Except Interruption Outcome := do
  let (sources, told) ← readFiles read verbose "" files
  let (report, _) := checkSources options sources
  let code := report.exitCode strict
  let success :=
    if code == 0 && !quiet then
      "Success: " ++ toString report.checked ++ " file(s) checked\n"
    else ""
  return {
    exitCode := code
    stdout := told ++ success
    stderr := String.join (report.conflicts.map fun (file, c) =>
      conflictLines strict verbose file c)
    syntaxErrors := report.parseErrors }

/-! ### The other commands -/

def readFile (read : Files) (file : String) : Except Interruption String :=
  (read file).mapError fun e => { error := e }

/-- The text of a document in a format. The indented form shows its definitions
only. -/
def renderDocument (format : Format) (d : Document) : String :=
  match format with
  | .pretty => (Outline.listOf Definition.outline d.definitions).pretty 0
  | .json => d.outline.toJson.pretty 0

def runParse (read : Files) (file : String) (format : Format) (legacyFragmentVariables : Bool) :
    Except Interruption Outcome := do
  let source ← readFile read file
  let cache := Cache.empty { legacyFragmentVariables }
  match (cache.parseDocument source).outcome with
  | .ok d => return { exitCode := 0, stdout := renderDocument format d.document ++ "\n" }
  | .error e => return { exitCode := 1, syntaxErrors := [(file, e)] }

/-- The line that names the program and its version. -/
def versionLine : String := "gqltag 0.1.0\n"

def Invocation.run (read : Files) (i : Invocation) : Except Interruption Outcome :=
  match i.command with
  | .check files warnings legacyFragmentVariables strict =>
      runCheck read i.verbose i.quiet files
        { warnOnFragmentConflicts := warnings, legacyFragmentVariables } strict
  | .normalize file => do
      return { exitCode := 0, stdout := Key.ofSource (← readFile read file) ++ "\n" }
  | .parse file format legacyFragmentVariables =>
      runParse read file format legacyFragmentVariables
  | .version => .ok { exitCode := 0, stdout := versionLine }

end GraphQL.CommandLine
