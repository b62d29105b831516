import GraphQL.Cache

/-!
Operations on a cache as data, so that a history of a cache is a list.
-/

namespace GraphQL

/-- What can be done to a cache. -/
inductive Operation
  | parse (source : String)
  | template (literals : List String) (values : List Splice)
  | reset
  | setFragmentWarnings (on : Bool)
  | setLegacyFragmentVariables (on : Bool)

/-- What an operation leaves. Only those that parse have an outcome. -/
structure Step where
  cache : Cache
  outcome : Option (Except AssemblyError SharedDocument) := none
  events : List Event := []
  reports : List FragmentConflict := []

namespace Answer

def toStep (a : Answer AssemblyError) : Step :=
  { cache := a.cache, outcome := some a.outcome, events := a.events, reports := a.reports }

end Answer

namespace Cache

def apply (c : Cache) : Operation → Step
  | .parse source =>
      let a := c.parseDocument source
      Answer.toStep ⟨a.cache, a.outcome.mapError .parse, a.events, a.reports⟩
  | .template literals values => (c.parseTemplate literals values).toStep
  | .reset => { cache := c.reset, events := [c.resetEvent] }
  | .setFragmentWarnings on => { cache := c.setFragmentWarnings on }
  | .setLegacyFragmentVariables on => { cache := c.setLegacyFragmentVariables on }

/-- The cache after a history. -/
def run (c : Cache) (history : List Operation) : Cache :=
  history.foldl (fun c op => (c.apply op).cache) c

@[simp] theorem run_nil (c : Cache) : c.run [] = c := rfl

@[simp] theorem run_cons (c : Cache) (op : Operation) (history : List Operation) :
    c.run (op :: history) = (c.apply op).cache.run history := rfl

@[simp] theorem run_append (c : Cache) (first second : List Operation) :
    c.run (first ++ second) = (c.run first).run second := by
  simp [run]

end Cache
end GraphQL
