import GraphQL.Cache

/-!
Checking sources: all of them go through one cache, in order, and what is wrong
with each is noted under its name.
-/

namespace GraphQL

structure CheckReport where
  checked : Nat := 0
  parseErrors : List (String × ParseError) := []
  /-- The conflicts that were reported, each with the source that caused it. -/
  conflicts : List (String × FragmentConflict) := []
  /-- How many conflicts there were, reported or not. -/
  detected : Nat := 0

/-- A check fails on a source that is no document, and under `strict` on any
conflict. -/
def CheckReport.exitCode (r : CheckReport) (strict : Bool) : Nat :=
  if !r.parseErrors.isEmpty || (strict && r.detected > 0) then 1 else 0

/-- A check that has come so far. -/
structure CheckState where
  cache : Cache
  report : CheckReport := {}
  events : List Event := []

namespace CheckState

/-- Checks one more source. -/
def step (s : CheckState) (name source : String) : CheckState :=
  let a := s.cache.parseDocument source
  let (event, errors) : Event × List (String × ParseError) :=
    match a.outcome with
    | .ok d => (.checked name d.document.definitions.length, [])
    | .error e => (.failed name e.message, [(name, e)])
  { cache := a.cache
    report :=
      { s.report with
        checked := s.report.checked + 1
        parseErrors := s.report.parseErrors ++ errors
        conflicts := s.report.conflicts ++ a.reports.map (name, ·) }
    events := s.events ++ a.events ++ [event] }

/-- Closes a check. -/
def finish (s : CheckState) : CheckReport × List Event :=
  let t := s.cache.stats
  ({ s.report with detected := t.conflicts },
    s.events ++ [.finished t.documents t.fragmentNames t.conflicts])

end CheckState

/-- Checks named sources in order, and tells what it does. -/
def checkSources (options : CacheOptions) (sources : List (String × String)) :
    CheckReport × List Event :=
  let start : CheckState := { cache := .empty options }
  (sources.foldl (fun s (name, source) => s.step name source) start).finish

end GraphQL
