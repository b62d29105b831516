import GraphQL.Proofs.Cache.Changes
import GraphQL.Proofs.Fragments.Conflicts

/-!
What becomes known of conflicts. An operation meets the same conflicts whether warnings
are on or off; they are told while warnings are on, and nothing but that depends on
warnings. The conflicts that were met since a reset are those that the bodies under
each name tell of.
-/

namespace GraphQL

/-- The conflict that an event tells of. -/
def Event.conflict? : Event → Option FragmentConflict
  | conflict k => some k
  | _ => none

def Operation.setsFragmentWarnings : Operation → Bool
  | setFragmentWarnings _ => true
  | _ => false

/-- The operations of a history that do not turn warnings on or off. -/
def withoutWarnings (history : List Operation) : List Operation :=
  history.filter fun op => !op.setsFragmentWarnings

namespace Cache

variable {c : Cache}

/-- The conflicts that parsing a text meets, reported or not. -/
def conflictsOf (c : Cache) (text : String) : List FragmentConflict :=
  match c.lookup (Key.ofSource text), c.missed.enrollSource text with
  | none, .ok (_, a) => a.conflicts
  | _, _ => []

/-- The conflicts that an operation meets. -/
def detected (c : Cache) (op : Operation) : List FragmentConflict :=
  op.text?.elim [] c.conflictsOf

theorem conflictsOf_of_hit {text : String} {d : SharedDocument}
    (h : c.lookup (Key.ofSource text) = some d) : c.conflictsOf text = [] := by
  rw [conflictsOf, h]

theorem conflictsOf_of_error {text : String} {e : ParseError}
    (h : c.missed.enrollSource text = .error e) : c.conflictsOf text = [] := by
  rw [conflictsOf, h]
  cases c.lookup (Key.ofSource text) <;> rfl

theorem conflictsOf_of_ok {text : String} {d : SharedDocument} {a : Enrollment}
    (h : c.lookup (Key.ofSource text) = none) (ha : c.missed.enrollSource text = .ok (d, a)) :
    c.conflictsOf text = a.conflicts := by
  rw [conflictsOf, h, ha]

/-- An operation that is no reset meets no conflict and leaves the registry as it is, or it
registers a text. -/
theorem detected_cases (c : Cache) {op : Operation} (hop : op ≠ .reset) :
    (c.detected op = [] ∧ (c.apply op).reports = [] ∧
      (c.apply op).cache.fragments = c.fragments ∧
      (c.apply op).cache.conflicts = c.conflicts) ∨
    ∃ text d a, c.missed.enrollSource text = .ok (d, a) ∧ c.detected op = a.conflicts ∧
      (c.apply op).reports = (if c.options.warnOnFragmentConflicts then a.conflicts else []) ∧
      (c.apply op).cache.fragments = a.registry ∧
      (c.apply op).cache.conflicts = c.conflicts + a.conflicts.length := by
  cases htext : op.text? with
  | some text =>
      rw [apply_of_text htext, detected, htext, Option.elim_some]
      rcases c.parseDocument_cases text with ⟨d, hfound, heq⟩ | ⟨e, -, ha, heq⟩ |
        ⟨d, a, habsent, ha, heq⟩
      · rw [heq]
        exact .inl ⟨conflictsOf_of_hit hfound, rfl, rfl, rfl⟩
      · rw [heq]
        exact .inl ⟨conflictsOf_of_error ha, rfl, rfl, rfl⟩
      · rw [heq]
        exact .inr ⟨text, d, a, ha, conflictsOf_of_ok habsent ha, rfl, rfl, rfl⟩
  | none =>
      obtain ⟨options, hcache, hreports, -⟩ := apply_of_no_text htext hop c
      rw [detected, htext, Option.elim_none, hcache]
      exact .inl ⟨rfl, hreports, rfl, rfl⟩

theorem reports_apply (c : Cache) (op : Operation) :
    (c.apply op).reports = if c.options.warnOnFragmentConflicts then c.detected op else [] := by
  by_cases hop : op = .reset
  · subst hop
    exact (ite_self _).symm
  · rcases c.detected_cases hop with ⟨hnone, hreports, -⟩ | ⟨text, d, a, -, hmet, hreports, -⟩
    · rw [hreports, hnone, ite_self]
    · rw [hreports, hmet]

theorem reports_parseDocument (c : Cache) (text : String) :
    (c.parseDocument text).reports =
      if c.options.warnOnFragmentConflicts then c.conflictsOf text else [] :=
  c.reports_apply (.parse text)

/-- Every conflict that is met is counted. -/
theorem conflicts_parseDocument (c : Cache) (text : String) :
    (c.parseDocument text).cache.conflicts = c.conflicts + (c.conflictsOf text).length := by
  rcases c.parseDocument_cases text with ⟨d, hfound, heq⟩ | ⟨e, -, ha, heq⟩ |
    ⟨d, a, habsent, ha, heq⟩
  · rw [heq, conflictsOf_of_hit hfound]
    rfl
  · rw [heq, conflictsOf_of_error ha]
    rfl
  · rw [heq, conflictsOf_of_ok habsent ha]
    rfl

/-- An operation itself tells of no conflict. -/
theorem events_parseDocument (c : Cache) (text : String) :
    (c.parseDocument text).events.filterMap Event.conflict? = [] := by
  rcases c.parseDocument_cases text with ⟨d, -, heq⟩ | ⟨e, -, -, heq⟩ | ⟨d, a, -, -, heq⟩
  · rw [heq]
    rfl
  · rw [heq]
    rfl
  · rw [heq]
    rfl

theorem events_apply (c : Cache) (op : Operation) :
    (c.apply op).events.filterMap Event.conflict? = [] := by
  cases op with
  | parse source => exact c.events_parseDocument source
  | template literals values =>
      simp only [apply, parseTemplate]
      cases assemble literals values with
      | error e => rfl
      | ok text => exact c.events_parseDocument text
  | _ => rfl

/-- Some conflicts are all that were met since the last reset. -/
structure Tells (c : Cache) (ks : List FragmentConflict) : Prop where
  registry : c.fragments.WellFormed
  conflicts : ∀ name, ks.filter (·.name = name) = c.fragments.conflicts name
  count : c.conflicts = ks.length

namespace Tells

variable {ks : List FragmentConflict}

theorem reset (c : Cache) : c.reset.Tells [] :=
  ⟨.empty, fun _ => rfl, rfl⟩

theorem apply (h : c.Tells ks) {op : Operation} (hop : op ≠ .reset) :
    (c.apply op).cache.Tells (ks ++ c.detected op) := by
  rcases c.detected_cases hop with ⟨hnone, -, hfragments, hcount⟩ |
    ⟨text, d, a, henrolled, hmet, -, hfragments, hcount⟩
  · rw [hnone, List.append_nil]
    refine ⟨?_, ?_, hcount.trans h.count⟩
    · rw [hfragments]
      exact h.registry
    · rw [hfragments]
      exact h.conflicts
  · obtain ⟨-, rfl, -⟩ := of_enrollSource henrolled
    refine ⟨?_, fun name => ?_, ?_⟩
    · rw [hfragments]
      exact Enrollment.wellFormed h.registry _ _
    · rw [hfragments, hmet, List.filter_append, h.conflicts]
      exact (Enrollment.conflicts_registry h.registry _ _ name).symm
    · rw [hcount, hmet, List.length_append, h.count]

end Tells

/-! ### Turning warnings on or off -/

theorem parseDocument_setFragmentWarnings (c : Cache) (on : Bool) (text : String) :
    (c.setFragmentWarnings on).parseDocument text =
      { c.parseDocument text with
        cache := (c.parseDocument text).cache.setFragmentWarnings on
        reports := if on then c.conflictsOf text else [] } := by
  rcases c.parseDocument_cases text with ⟨d, hfound, heq⟩ | ⟨e, habsent, ha, heq⟩ |
    ⟨d, a, habsent, ha, heq⟩
  · rw [heq, conflictsOf_of_hit hfound, ite_self,
      parseDocument_of_hit (c := c.setFragmentWarnings on) hfound]
    rfl
  · rw [heq, conflictsOf_of_error ha, ite_self,
      parseDocument_of_error (c := c.setFragmentWarnings on) habsent ha]
    rfl
  · rw [heq, conflictsOf_of_ok habsent ha,
      parseDocument_of_ok (c := c.setFragmentWarnings on) habsent ha]
    rfl

/-- What an operation leaves but for its reports does not depend on warnings, unless it
turns them on or off. -/
theorem apply_setFragmentWarnings (c : Cache) (on : Bool) {op : Operation}
    (hop : op.setsFragmentWarnings = false) :
    ((c.setFragmentWarnings on).apply op).cache = (c.apply op).cache.setFragmentWarnings on ∧
      ((c.setFragmentWarnings on).apply op).outcome = (c.apply op).outcome := by
  cases op with
  | parse source =>
      simp only [apply, parseDocument_setFragmentWarnings, Answer.toStep, and_self]
  | template literals values =>
      simp only [apply, parseTemplate]
      cases assemble literals values with
      | error e => exact ⟨rfl, rfl⟩
      | ok text => simp only [parseDocument_setFragmentWarnings, Answer.toStep, and_self]
  | reset => exact ⟨rfl, rfl⟩
  | setFragmentWarnings on => cases hop
  | setLegacyFragmentVariables on => exact ⟨rfl, rfl⟩

end Cache

/-! ### Histories -/

namespace Handler

/-- The operations of a history, each with the cache that it meets. -/
def stages (h : Handler) (c : Cache) : List Operation → List (Cache × Operation)
  | [] => []
  | op :: history => (c, op) :: h.stages (h.perform c op).1.cache history

theorem stages_append (h : Handler) (c : Cache) (first second : List Operation) :
    h.stages c (first ++ second) = h.stages c first ++ h.stages (h.run c first) second := by
  induction first generalizing c with
  | nil => rfl
  | cons op first ih => exact congrArg ((c, op) :: ·) (ih _)

/-- What the operations of a history that parse came to, in order. -/
def outcomes (h : Handler) (c : Cache) (history : List Operation) :
    List (Except AssemblyError SharedDocument) :=
  (h.stages c history).filterMap fun s => (h.perform s.1 s.2).1.outcome

theorem outcomes_cons (h : Handler) (c : Cache) (op : Operation) (history : List Operation) :
    h.outcomes c (op :: history) =
      (c.apply op).outcome.toList ++ h.outcomes (h.perform c op).1.cache history := by
  have houtcome : (h.perform c op).1.outcome = (c.apply op).outcome := rfl
  rw [outcomes, stages, List.filterMap_cons, houtcome]
  cases (c.apply op).outcome <;> rfl

/-- The conflicts with which a handler is called during an operation. They are told as
events, or noted. -/
def delivered (h : Handler) (c : Cache) (op : Operation) : List FragmentConflict :=
  let (step, notices) := h.perform c op
  step.events.filterMap Event.conflict? ++ notices.map Notice.conflict

section
variable {h : Handler} (hh : ∀ text, h ≠ .parse text)
include hh

theorem delivered_eq (c : Cache) (op : Operation) :
    h.delivered c op =
      if c.options.warnOnFragmentConflicts then c.detected op else [] := by
  rw [← c.reports_apply op]
  cases h with
  | log =>
      have htold : ((c.apply op).reports.map Event.conflict).filterMap Event.conflict? =
          (c.apply op).reports := by
        rw [List.filterMap_map]
        exact List.filterMap_some
      simp only [delivered, perform, deliver, List.filterMap_append, c.events_apply, htold,
        List.map_nil, List.append_nil, List.nil_append]
  | collect =>
      have hnoted : ((c.apply op).reports.map fun k => (⟨k, none⟩ : Notice)).map
          Notice.conflict = (c.apply op).reports := by
        rw [List.map_map]
        exact List.map_id _
      simp only [delivered, perform, deliver, List.append_nil, c.events_apply, hnoted,
        List.nil_append]
  | parse text => exact absurd rfl (hh text)

/-- The conflicts met in a history that has no reset are told by the bodies. -/
theorem tells_run {c : Cache} {ks : List FragmentConflict} (hc : c.Tells ks)
    {history : List Operation} (hreset : .reset ∉ history) :
    (h.run c history).Tells
      (ks ++ (h.stages c history).flatMap fun s => s.1.detected s.2) := by
  induction history generalizing c ks with
  | nil => simpa [stages] using hc
  | cons op history ih =>
      rw [List.mem_cons, not_or] at hreset
      have hstep := hc.apply (Ne.symm hreset.1)
      rw [← cache_perform hh] at hstep
      have hlater := ih hstep hreset.2
      rwa [List.append_assoc] at hlater

/-- Without the operations that turn warnings on or off, a history comes to the same. -/
theorem run_withoutWarnings (c : Cache) (on : Bool) (history : List Operation) :
    (h.run c history).setFragmentWarnings on =
        collect.run (c.setFragmentWarnings on) (withoutWarnings history) ∧
      h.outcomes c history =
        collect.outcomes (c.setFragmentWarnings on) (withoutWarnings history) := by
  induction history generalizing c with
  | nil => exact ⟨rfl, rfl⟩
  | cons op history ih =>
      have hlater := ih (c.apply op).cache
      rw [run_cons, outcomes_cons, cache_perform hh, hlater.1, hlater.2]
      cases hop : op.setsFragmentWarnings with
      | true =>
          have hskip : withoutWarnings (op :: history) = withoutWarnings history := by
            simp [withoutWarnings, hop]
          cases op with
          | setFragmentWarnings on =>
              rw [hskip]
              exact ⟨rfl, rfl⟩
          | _ => cases hop
      | false =>
          have hkeep : withoutWarnings (op :: history) = op :: withoutWarnings history := by
            simp [withoutWarnings, hop]
          obtain ⟨hcache, houtcome⟩ := c.apply_setFragmentWarnings on hop
          rw [hkeep, run_cons, outcomes_cons, cache_perform (h := collect) nofun, hcache]
          exact ⟨rfl, congrArg (·.toList ++ _) houtcome.symm⟩

end

end Handler

/-- After a reset, or in a cache that is new, and until the next reset: of the conflicts
met under one name, each has one more body before it than the one in front, and its own
body is none of them. The handler is called with each of them that is met while warnings
are on. Turning warnings on or off, or another handler, makes no difference to what is
answered, nor to the cache. -/
theorem conflicts_of_run (h : Handler) (hh : ∀ text, h ≠ .parse text) (c : Cache)
    (history : List Operation) (hreset : .reset ∉ history) :
    let start := c.reset
    let stages := h.stages start history
    let ks := stages.flatMap fun s => s.1.detected s.2
    (∀ name i k, (ks.filter (·.name = name))[i]? = some k →
      k.previous.length = i + 1 ∧ k.body ∉ k.previous ∧
        ∀ k', (ks.filter (·.name = name))[i + 1]? = some k' →
          k'.previous = k.previous ++ [k.body]) ∧
    (ks.map fun k => (k.name, k.body)).Nodup ∧
    (h.run start history).stats.conflicts = ks.length ∧
    (∀ s ∈ stages, h.delivered s.1 s.2 =
      if s.1.options.warnOnFragmentConflicts then s.1.detected s.2 else []) ∧
    ∀ (on : Bool) (h' : Handler) (history' : List Operation), (∀ text, h' ≠ .parse text) →
      withoutWarnings history' = withoutWarnings history →
      let start' := (c.setFragmentWarnings on).reset
      h'.outcomes start' history' = h.outcomes start history ∧
        (h'.run start' history').setFragmentWarnings on =
          (h.run start history).setFragmentWarnings on := by
  intro start stages ks
  have htells : (h.run start history).Tells ks := h.tells_run hh (.reset c) hreset
  refine ⟨fun name i k hk => ?_, ?_, htells.count, fun s _ => h.delivered_eq hh s.1 s.2,
    fun on h' history' hh' hsame => ?_⟩
  · rw [htells.conflicts] at hk ⊢
    exact htells.registry.previous_conflicts hk
  · refine nodup_of_nodup_filter fun name => ?_
    rw [htells.conflicts]
    exact htells.registry.nodup_conflicts name
  · intro start'
    obtain ⟨hrun, houtcomes⟩ := h.run_withoutWarnings hh start on history
    obtain ⟨hrun', houtcomes'⟩ := h'.run_withoutWarnings hh' start' on history'
    rw [hrun, houtcomes, hrun', houtcomes', hsame]
    exact ⟨rfl, rfl⟩

/-- Two of the three conflicts are met in one text, while warnings are off. -/
theorem conflicts_of_run_example :
    let history := [.parse "fragment F on T \x7b a \x7d", .setFragmentWarnings false,
      .parse "fragment F on T \x7b b \x7d fragment F on T \x7b c \x7d",
      .setFragmentWarnings true, .parse "fragment F on T \x7b,a \x7d",
      .template ["fragment F on T \x7b", "\x7d"] [.text "d"]]
    let start := (Cache.empty {}).reset
    let ks := (Handler.collect.stages start history).flatMap fun s => s.1.detected s.2
    (∀ text, Handler.collect ≠ .parse text) ∧ .reset ∉ history ∧
      (ks.map fun k => k.previous.length) = [1, 2, 3] ∧
      (∀ k k', (ks.filter (·.name = "F"))[1]? = some k →
        (ks.filter (·.name = "F"))[2]? = some k' → k'.previous = k.previous ++ [k.body]) ∧
      (Handler.collect.run start history).stats.conflicts = 3 ∧
      (Handler.log.run start (withoutWarnings history)).setFragmentWarnings true =
        (Handler.collect.run start history).setFragmentWarnings true := by
  intro history start ks
  have hh : ∀ text, Handler.collect ≠ .parse text := nofun
  have hreset : .reset ∉ history := by simp [history]
  obtain ⟨hprevious, -, hcount, -, hwarnings⟩ :=
    conflicts_of_run .collect hh (Cache.empty {}) history hreset
  have hlengths : (ks.map fun k => k.previous.length) = [1, 2, 3] := by decide +kernel
  have hthree : ks.length = 3 := by
    simpa using congrArg List.length hlengths
  refine ⟨hh, hreset, hlengths, fun k k' hk hk' => ?_, hcount.trans hthree, ?_⟩
  · exact (hprevious "F" 1 k hk).2.2 k' hk'
  · exact (hwarnings true .log (withoutWarnings history) nofun rfl).2

end GraphQL
