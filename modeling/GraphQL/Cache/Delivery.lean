import GraphQL.Cache.Operation

/-!
What becomes of the conflicts that a cache reports. They can be told as events,
collected, or answered by parsing a text through the same cache, which may
report conflicts in its turn.

An answering text that reports conflicts is in the cache from then on, so that
parsing it again reports none. Reports are therefore at most two deep, and the
depth of `answer` is a bound that no run goes beyond.
-/

namespace GraphQL

/-- A conflict that was delivered. Where a text was parsed in answer to it, the
counts before that and whether it was a document are noted. -/
structure Notice where
  conflict : FragmentConflict
  answered : Option (CacheStats × Bool)
  deriving DecidableEq, Repr

/-- What delivering reports leaves. -/
structure Delivery where
  cache : Cache
  events : List Event
  notices : List Notice

inductive Handler
  /-- Reports become events. -/
  | log
  /-- Reports are collected. -/
  | collect
  /-- Reports are collected after a text has been parsed in answer to each. -/
  | parse (text : String)
  deriving DecidableEq, Repr

namespace Handler

/-- Parses a text in answer to each of some reports. What that reports is
delivered first, to a depth. -/
def answer (text : String) : Nat → Cache → List FragmentConflict → Delivery
  | 0, c, _ => ⟨c, [], []⟩
  | depth + 1, c, reports =>
      reports.foldl
        (fun d report =>
          let before := d.cache.stats
          let a := d.cache.parseDocument text
          let inner := answer text depth a.cache a.reports
          ⟨inner.cache, d.events ++ a.events ++ inner.events,
            d.notices ++ inner.notices ++ [⟨report, some (before, a.outcome.isOk)⟩]⟩)
        ⟨c, [], []⟩

/-- Delivers the reports of an operation. -/
def deliver (h : Handler) (c : Cache) (reports : List FragmentConflict) : Delivery :=
  match h with
  | log => ⟨c, reports.map .conflict, []⟩
  | collect => ⟨c, [], reports.map (⟨·, none⟩)⟩
  | parse text => answer text 2 c reports

/-- Does an operation and delivers what it reports. What the operation tells comes
before what the delivery tells. -/
def perform (h : Handler) (c : Cache) (op : Operation) : Step × List Notice :=
  let step := c.apply op
  let delivery := h.deliver step.cache step.reports
  ({ step with cache := delivery.cache, events := step.events ++ delivery.events },
    delivery.notices)

end Handler
end GraphQL
