import GraphQL.Fragments
import GraphQL.Diagnostic
import GraphQL.Json

/-!
Events: what a cache and a check tell about their work, each with a level, a
message and further members.
-/

namespace GraphQL

inductive Level
  | trace
  | debug
  | warn
  deriving DecidableEq, Repr

def Level.word : Level → String
  | trace => "TRACE"
  | debug => "DEBUG"
  | warn => "WARN"

inductive Event
  /-- A source was answered from the cache. -/
  | hit (keyLength : Nat)
  /-- A source had to be parsed. -/
  | miss (keyLength : Nat) (legacyFragmentVariables : Bool)
  /-- A cache was emptied; the counts are those before. -/
  | reset (documents fragmentNames : Nat)
  | conflict (conflict : FragmentConflict)
  | checked (file : String) (definitions : Nat)
  | failed (file error : String)
  | finished (documents fragmentNames conflicts : Nat)
  deriving DecidableEq, Repr

/-- A conflict as a warning. -/
def FragmentConflict.diagnostic (c : FragmentConflict) : Diagnostic :=
  .warning .fragmentConflict
    (c.display ++ "; fragment names must be unique across the application")

namespace Event

def level : Event → Level
  | hit _ => .trace
  | conflict _ => .warn
  | _ => .debug

def message : Event → String
  | hit _ => "document cache hit"
  | miss .. => "document cache miss"
  | reset .. => "document cache reset"
  | conflict c => c.diagnostic.title
  | checked .. => "checked"
  | failed .. => "parse failed"
  | finished .. => "check finished"

/-- What an event says beyond its message. -/
def members : Event → List (String × Json)
  | hit keyLength => [("key_len", .number keyLength)]
  | miss keyLength legacy =>
      [("key_len", .number keyLength), ("legacy_fragment_variables", .bool legacy)]
  | reset documents fragmentNames =>
      [("documents", .number documents), ("fragment_names", .number fragmentNames)]
  | conflict c => [("code", .string c.diagnostic.code.word), ("fragment", .string c.name)]
  | checked file definitions =>
      [("file", .string file), ("definitions", .number definitions)]
  | failed file error => [("file", .string file), ("error", .string error)]
  | finished documents fragmentNames conflicts =>
      [("documents", .number documents), ("fragment_names", .number fragmentNames),
        ("conflicts", .number conflicts)]

end Event
end GraphQL
