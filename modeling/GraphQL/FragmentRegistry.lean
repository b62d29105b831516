/-!
The registry of fragment names. Under each name it keeps the distinct bodies
registered, in the order in which they came; bodies are compared as texts.
-/

namespace GraphQL

/-- What registering a body under a name came to. -/
inductive Registration
  /-- The first body under the name. -/
  | new
  /-- A body that the name has already. -/
  | known
  /-- Another body under a name that has one. -/
  | conflict
  deriving DecidableEq, Repr

/-- Names with their bodies. No name occurs twice, and none is without a body. -/
structure FragmentRegistry where
  entries : List (String × List String) := []
  deriving DecidableEq, Repr

namespace FragmentRegistry

def empty : FragmentRegistry := ⟨[]⟩

/-- The bodies under a name, the first one first. -/
def bodies (r : FragmentRegistry) (name : String) : List String :=
  (r.entries.lookup name).getD []

def contains (r : FragmentRegistry) (name : String) : Bool :=
  (r.entries.lookup name).isSome

/-- How many names there are. -/
def size (r : FragmentRegistry) : Nat := r.entries.length

def isEmpty (r : FragmentRegistry) : Bool := r.entries.isEmpty

/-- What registering a body would come to. -/
def classify (r : FragmentRegistry) (name body : String) : Registration :=
  match r.entries.lookup name with
  | none => .new
  | some bodies => if bodies.contains body then .known else .conflict

/-- Adds a body under a name that has an entry. -/
def extend (name body : String) : List (String × List String) → List (String × List String)
  | [] => []
  | (n, bodies) :: rest =>
      if n = name then (n, bodies ++ [body]) :: rest else (n, bodies) :: extend name body rest

/-- Puts a body under a name, unless it is there. -/
def register (r : FragmentRegistry) (name body : String) : FragmentRegistry :=
  match r.classify name body with
  | .new => ⟨r.entries ++ [(name, [body])]⟩
  | .known => r
  | .conflict => ⟨extend name body r.entries⟩

end FragmentRegistry
end GraphQL
