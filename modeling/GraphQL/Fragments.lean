import GraphQL.Document
import GraphQL.FragmentRegistry
import GraphQL.Key

/-!
Fragments of a document on their way into a registry. Every fragment is
registered under its name with the key of its own text as its body. A fragment
whose body occurred earlier in the document is then dropped from it.
-/

namespace GraphQL

/-- A body registered under a name that had other bodies. -/
structure FragmentConflict where
  name : String
  body : String
  /-- The bodies that the name had before, in order. -/
  previous : List String
  deriving DecidableEq, Repr

namespace FragmentConflict

def display (c : FragmentConflict) : String :=
  "fragment `" ++ c.name ++ "` is defined with " ++ toString (c.previous.length + 1) ++
    " different bodies across the application"

end FragmentConflict

/-- A fragment with the body it is registered with. -/
structure Fingerprint where
  name : String
  body : String
  deriving DecidableEq, Repr

/-- The fingerprint of a fragment is taken from the source under its span. -/
def FragmentDefinition.fingerprint? (source : String) (f : FragmentDefinition) :
    Option Fingerprint := do
  let text ← (← f.span).slice? source
  return ⟨f.name.value, Key.ofSource text⟩

/-- A definition, with its fingerprint if it is a fragment. -/
structure Candidate where
  definition : Definition
  fingerprint : Option Fingerprint

/-- Takes the fingerprints of a document, or names the first fragment that has
none. -/
def candidates (source : String) : List Definition → Except String (List Candidate)
  | [] => .ok []
  | .fragment f :: ds =>
      match f.fingerprint? source with
      | none => .error f.name.value
      | some p => (candidates source ds).map (⟨.fragment f, some p⟩ :: ·)
  | d :: ds => (candidates source ds).map (⟨d, none⟩ :: ·)

/-- What registering a document leaves: the registry, the definitions kept and
the conflicts met, both in the order of the document. -/
structure Enrollment where
  registry : FragmentRegistry
  kept : List Definition
  conflicts : List FragmentConflict

/-- The conflict met when a fingerprint is registered, if there is one. The other bodies
are looked up when its own is registered already. -/
def FragmentRegistry.conflict? (r : FragmentRegistry) (p : Fingerprint) :
    Option FragmentConflict :=
  match r.classify p.name p.body with
  | .conflict =>
      let registered := r.register p.name p.body
      some ⟨p.name, p.body, (registered.bodies p.name).filter (· != p.body)⟩
  | _ => none

/-- Registers definitions in order. `seen` holds the bodies that occurred before
them in the document. -/
def enroll (registry : FragmentRegistry) (seen : List String) : List Candidate → Enrollment
  | [] => ⟨registry, [], []⟩
  | ⟨d, none⟩ :: cs =>
      let later := enroll registry seen cs
      { later with kept := d :: later.kept }
  | ⟨d, some p⟩ :: cs =>
      let later := enroll (registry.register p.name p.body) (p.body :: seen) cs
      { later with
        kept := if seen.contains p.body then later.kept else d :: later.kept
        conflicts := (registry.conflict? p).toList ++ later.conflicts }

/-- Registers the fragments of a document that was read from a source. -/
def registerFragments (registry : FragmentRegistry) (source : String) (d : Document) :
    Except String Enrollment :=
  (candidates source d.definitions).map (enroll registry [])

end GraphQL
