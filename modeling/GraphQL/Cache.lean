import GraphQL.Event
import GraphQL.Parse
import GraphQL.Template

/-!
The cache of documents. Sources with the same key share one document, which is
parsed when the key is first seen and kept without spans until the next reset.
Every fragment that is parsed is registered under its name, and a name that
comes to have a second body is reported.

Each operation answers with the cache it leaves. Reports are not acted on here:
an answer lists them, and whoever called decides what becomes of them.
-/

namespace GraphQL

structure CacheOptions where
  warnOnFragmentConflicts : Bool := true
  legacyFragmentVariables : Bool := false
  deriving DecidableEq, Repr

/-- Counts since the cache was made or last reset. -/
structure CacheStats where
  /-- Sources answered from the cache. -/
  hits : Nat
  /-- Sources that were parsed, successfully or not. -/
  misses : Nat
  /-- Conflicts met, reported or not. -/
  conflicts : Nat
  documents : Nat
  fragmentNames : Nat
  deriving DecidableEq, Repr

/-- A document as a cache hands it out. No two documents of one cache have the
same serial number, not even across a reset. -/
structure SharedDocument where
  serial : Nat
  document : Document

structure Cache where
  options : CacheOptions := {}
  /-- The documents under their keys. No key occurs twice. -/
  documents : List (String × SharedDocument) := []
  fragments : FragmentRegistry := .empty
  hits : Nat := 0
  misses : Nat := 0
  conflicts : Nat := 0
  /-- The serial number of the next document. -/
  nextSerial : Nat := 0

/-- What a parsing operation leaves: its outcome, what it told on the way, and
the conflicts to be reported. -/
structure Answer (ε : Type) where
  cache : Cache
  outcome : Except ε SharedDocument
  events : List Event
  reports : List FragmentConflict

/-- Why a template gave no document. -/
inductive AssemblyError
  | template (error : TemplateError)
  | parse (error : ParseError)
  deriving DecidableEq, Repr

namespace Cache

def empty (options : CacheOptions) : Cache := { options }

def stats (c : Cache) : CacheStats :=
  { hits := c.hits
    misses := c.misses
    conflicts := c.conflicts
    documents := c.documents.length
    fragmentNames := c.fragments.size }

/-- The document under a key. -/
def lookup (c : Cache) (key : String) : Option SharedDocument :=
  c.documents.lookup key

/-- Is there a document for a source? -/
def contains (c : Cache) (source : String) : Bool :=
  (c.lookup (Key.ofSource source)).isSome

def size (c : Cache) : Nat := c.documents.length

def isEmpty (c : Cache) : Bool := c.documents.isEmpty

/-! ### Parsing -/

/-- The error for a fragment without a place in the source. -/
def unplacedFragment (source name : String) : ParseError :=
  { code := .invalidSource
    title := "fragment `" ++ name ++ "` has no source location"
    position := none
    source := source
    label := none }

/-- The document that is handed out for what registering its fragments left. -/
def share (c : Cache) (d : Document) (a : Enrollment) : SharedDocument :=
  ⟨c.nextSerial, { d with definitions := a.kept }.strip⟩

/-- Keeps a document under a key that is new. -/
def insert (c : Cache) (key : String) (d : SharedDocument) (a : Enrollment) : Cache :=
  { c with
    documents := (key, d) :: c.documents
    fragments := a.registry
    conflicts := c.conflicts + a.conflicts.length
    nextSerial := c.nextSerial + 1 }

/-- Parses a source and registers its fragments. -/
def enrollSource (c : Cache) (source : String) :
    Except ParseError (SharedDocument × Enrollment) := do
  let d ← GraphQL.parseDocument ⟨c.options.legacyFragmentVariables⟩ source
  match registerFragments c.fragments source d with
  | .error name => throw (unplacedFragment source name)
  | .ok a => return (c.share d a, a)

/-- The document for a source, parsed if its key is new. A source that is no
document leaves nothing but a miss. -/
def parseDocument (c : Cache) (source : String) : Answer ParseError :=
  let key := Key.ofSource source
  match c.lookup key with
  | some d => ⟨{ c with hits := c.hits + 1 }, .ok d, [.hit key.utf8ByteSize], []⟩
  | none =>
      let missed := { c with misses := c.misses + 1 }
      let events := [Event.miss key.utf8ByteSize c.options.legacyFragmentVariables]
      match missed.enrollSource source with
      | .error e => ⟨missed, .error e, events, []⟩
      | .ok (d, a) =>
          ⟨missed.insert key d a, .ok d, events,
            if c.options.warnOnFragmentConflicts then a.conflicts else []⟩

/-- The document for the text of a template. -/
def parseTemplate (c : Cache) (literals : List String) (values : List Splice) :
    Answer AssemblyError :=
  match assemble literals values with
  | .error e => ⟨c, .error (.template e), [], []⟩
  | .ok source =>
      let a := c.parseDocument source
      ⟨a.cache, a.outcome.mapError .parse, a.events, a.reports⟩

/-! ### Settings -/

/-- Forgets documents, fragments and counts. The options stay. -/
def reset (c : Cache) : Cache :=
  { options := c.options, nextSerial := c.nextSerial }

/-- What a reset tells. -/
def resetEvent (c : Cache) : Event :=
  .reset c.documents.length c.fragments.size

def setFragmentWarnings (c : Cache) (on : Bool) : Cache :=
  { c with options := { c.options with warnOnFragmentConflicts := on } }

/-- Only sources parsed from now on are affected. -/
def setLegacyFragmentVariables (c : Cache) (on : Bool) : Cache :=
  { c with options := { c.options with legacyFragmentVariables := on } }

/-- The options and counts on one line. -/
def display (c : Cache) : String :=
  let s := c.stats
  "DocumentCache \x7b options: CacheOptions \x7b warn_on_fragment_conflicts: " ++
    toString c.options.warnOnFragmentConflicts ++ ", allow_legacy_fragment_variables: " ++
    toString c.options.legacyFragmentVariables ++ " \x7d, stats: CacheStats \x7b hits: " ++
    toString s.hits ++ ", misses: " ++ toString s.misses ++ ", conflicts: " ++
    toString s.conflicts ++ ", documents: " ++ toString s.documents ++ ", fragment_names: " ++
    toString s.fragmentNames ++ " \x7d, .. \x7d"

end Cache
end GraphQL
