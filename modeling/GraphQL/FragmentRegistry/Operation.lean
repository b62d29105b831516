import GraphQL.Fragments

/-!
Operations on a registry as data. A registry is a value: clones of it can be kept, and gone
back to any number of times. The operations make sense of whatever can be registered in, so a
history can also be told of the log alone, which is the list of what was registered.
-/

namespace GraphQL.FragmentRegistry

/-- What can be done to a registry. Clones are kept under numbers. -/
inductive Operation
  | register (p : Fingerprint)
  | clear
  /-- Keeps a clone of the registry, in place of the one kept under the number. -/
  | save (slot : Nat)
  /-- Goes on with a clone of the registry that is kept under the number. -/
  | restore (slot : Nat)
  deriving DecidableEq, Repr

/-- What is registered in at present, and the clones of it that are kept. -/
structure Session (α : Type) where
  current : α
  kept : Nat → α

namespace Session

variable {α : Type} (empty : α) (register : α → Fingerprint → α)

/-- At the start all clones that are kept are empty, too. -/
def start : Session α := ⟨empty, fun _ => empty⟩

def step (s : Session α) : Operation → Session α
  | .register p => { s with current := register s.current p }
  | .clear => { s with current := empty }
  | .save slot => { s with kept := fun n => if n = slot then s.current else s.kept n }
  | .restore slot => { s with current := s.kept slot }

/-- The session after a history. -/
def run (history : List Operation) : Session α :=
  history.foldl (step empty register) (start empty)

end Session

/-- The registry after a history that starts from an empty one. -/
def ofHistory (history : List Operation) : FragmentRegistry :=
  (Session.run .empty (fun r p => r.register p.name p.body) history).current

/-- What has been registered since the registry was cleared last, where a clone goes on with
what had been registered when it was kept. -/
def logOf (history : List Operation) : List Fingerprint :=
  (Session.run [] (fun log p => log ++ [p]) history).current

end GraphQL.FragmentRegistry
