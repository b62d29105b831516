import GraphQL.Proofs.Cache.Changes
import GraphQL.Proofs.Fragments.Counts

/-!
What the counts of a cache tell. Every text that is parsed is a hit or a miss, every
miss is a document or an error, and every conflict is a body that is not the first
under its name. Documents and errors come with the parsing, conflicts and names with
the registering after it, and a reset takes all of them back at once.
-/

namespace GraphQL

/-- The error of a text that is no document. -/
def Step.error? (s : Step) : Option ParseError :=
  match s.outcome with
  | some (.error (.parse e)) => some e
  | _ => none

/-- The errors met since the last reset, after one more operation. -/
def Operation.liveErrors (live : List ParseError) (op : Operation) (s : Step) : List ParseError :=
  match op with
  | reset => []
  | _ => s.error?.toList ++ live

/-- The errors met since the last reset of a history. Of them, `live` were met before
the history. -/
def Handler.liveErrors (h : Handler) (c : Cache) (live : List ParseError) :
    List Operation → List ParseError
  | [] => live
  | op :: history =>
      let step := (h.perform c op).1
      h.liveErrors step.cache (op.liveErrors live step) history

namespace Cache

variable {c : Cache} {calls errors : Nat}

/-- The counts are right for that many texts and errors since the last reset. -/
structure Accounted (calls errors : Nat) (c : Cache) : Prop where
  calls_eq : c.hits + c.misses = calls
  misses_eq : c.misses = c.documents.length + errors
  registry : c.fragments.WellFormed
  conflicts_eq : c.conflicts = c.fragments.surplus

namespace Accounted

theorem of_nothing (hhits : c.hits = 0) (hmisses : c.misses = 0) (hconflicts : c.conflicts = 0)
    (hdocuments : c.documents = []) (hfragments : c.fragments = .empty) : Accounted 0 0 c := by
  refine ⟨?_, ?_, ?_, ?_⟩
  · rw [hhits, hmisses]
  · rw [hmisses, hdocuments]
    rfl
  · rw [hfragments]
    exact .empty
  · rw [hconflicts, hfragments]
    rfl

/-- A miss that is put in is one more document, with the conflicts of its fragments. -/
theorem insert (h : c.Accounted calls errors) {text key : String} {d : SharedDocument}
    {a : Enrollment} (ha : c.missed.enrollSource text = .ok (d, a)) :
    (c.missed.insert key d a).Accounted (calls + 1) errors := by
  obtain ⟨-, rfl, -⟩ := of_enrollSource ha
  have hcalls := h.calls_eq
  have hmisses := h.misses_eq
  refine ⟨?_, ?_, Enrollment.wellFormed h.registry _ _, ?_⟩
  · show c.hits + (c.misses + 1) = calls + 1
    omega
  · show c.misses + 1 = ((key, d) :: c.documents).length + errors
    rw [List.length_cons]
    omega
  · refine Eq.trans ?_ (Enrollment.surplus_registry h.registry _ _).symm
    exact congrArg (· + _) h.conflicts_eq

/-- Parsing a text is one more call, and one more error if it is no document. -/
theorem parseDocument (h : c.Accounted calls errors) (text : String) :
    (c.parseDocument text).cache.Accounted (calls + 1)
      (errors + if (c.parseDocument text).outcome.isOk then 0 else 1) := by
  have hcalls := h.calls_eq
  have hmisses := h.misses_eq
  rcases c.parseDocument_cases text with ⟨d, -, heq⟩ | ⟨e, -, -, heq⟩ | ⟨d, a, -, ha, heq⟩
  · rw [heq]
    refine ⟨?_, hmisses, h.registry, h.conflicts_eq⟩
    show c.hits + 1 + c.misses = calls + 1
    omega
  · rw [heq]
    refine ⟨?_, ?_, h.registry, h.conflicts_eq⟩
    · show c.hits + (c.misses + 1) = calls + 1
      omega
    · show c.misses + 1 = c.documents.length + (errors + 1)
      omega
  · rw [heq]
    exact h.insert ha

/-- Every operation counts what it does. -/
theorem apply {texts : List String} {live : List ParseError}
    (h : c.Accounted texts.length live.length) (op : Operation) :
    (c.apply op).cache.Accounted (op.liveTexts texts).length
      (op.liveErrors live (c.apply op)).length := by
  cases htext : op.text? with
  | some text =>
      have hop : op ≠ .reset := by
        rintro rfl
        cases htext
      have hparse := h.parseDocument text
      have htexts : (op.liveTexts texts).length = texts.length + 1 := by
        simp [Operation.liveTexts, htext]
      have herrors : (op.liveErrors live (c.apply op)).length =
          live.length + if (c.parseDocument text).outcome.isOk then 0 else 1 := by
        rw [apply_of_text htext]
        cases (c.parseDocument text).outcome with
        | error e =>
            simp [Operation.liveErrors, Step.error?, Except.mapError, Except.isOk, Except.toBool]
        | ok d =>
            simp [Operation.liveErrors, Step.error?, Except.mapError, Except.isOk, Except.toBool]
      rw [htexts, herrors, apply_of_text htext]
      exact hparse
  | none =>
      by_cases hop : op = .reset
      · subst hop
        exact of_nothing rfl rfl rfl rfl rfl
      · -- Nothing is parsed, so that there is no new text and no error of one.
        obtain ⟨options, hcache, -, houtcome⟩ := apply_of_no_text htext hop c
        have herror : (c.apply op).error? = none := by
          cases hstep : (c.apply op).outcome with
          | none => rw [Step.error?, hstep]
          | some o =>
              obtain ⟨e, rfl⟩ := houtcome o hstep
              rw [Step.error?, hstep]
        have htexts : op.liveTexts texts = texts := by simp [Operation.liveTexts, htext]
        have herrors : op.liveErrors live (c.apply op) = live := by
          simp [Operation.liveErrors, herror]
        rw [htexts, herrors, hcache]
        exact ⟨h.calls_eq, h.misses_eq, h.registry, h.conflicts_eq⟩

theorem run {h : Handler} (hh : ∀ text, h ≠ .parse text) {texts : List String}
    {live : List ParseError} (hc : c.Accounted texts.length live.length)
    (history : List Operation) :
    (h.run c history).Accounted (history.foldl Operation.liveTexts texts).length
      (h.liveErrors c live history).length := by
  induction history generalizing c texts live with
  | nil => exact hc
  | cons op history ih =>
      have hstep : (h.perform c op).1.cache.Accounted (op.liveTexts texts).length
          (op.liveErrors live (h.perform c op).1).length := by
        rw [Handler.cache_perform hh]
        exact hc.apply op
      exact ih hstep

end Accounted
end Cache

/-- After every history in which nothing is parsed in answer to reports, counting from
the last reset: hits and misses are the texts parsed, misses are documents and errors,
the names counted are those that have bodies, and the conflicts counted are the
distinct bodies of each name but one. -/
theorem run_accounted (h : Handler) (hh : ∀ text, h ≠ .parse text) (options : CacheOptions)
    (history : List Operation) :
    let c := h.run (Cache.empty options) history
    c.stats.hits + c.stats.misses = (liveTexts history).length ∧
      c.stats.misses =
        c.stats.documents + (h.liveErrors (Cache.empty options) [] history).length ∧
      ∃ names : Finset String, (∀ name, name ∈ names ↔ c.fragments.bodies name ≠ []) ∧
        c.stats.fragmentNames = names.card ∧
        c.stats.conflicts = ∑ name ∈ names, ((c.fragments.bodies name).toFinset.card - 1) := by
  intro c
  have hempty : (Cache.empty options).Accounted ([] : List String).length
      ([] : List ParseError).length := .of_nothing rfl rfl rfl rfl rfl
  have hc : c.Accounted (liveTexts history).length
      (h.liveErrors (Cache.empty options) [] history).length := hempty.run hh history
  refine ⟨hc.calls_eq, hc.misses_eq, _, fun name => hc.registry.mem_names_iff, ?_, ?_⟩
  · exact hc.registry.card_names.symm
  · exact hc.conflicts_eq.trans hc.registry.surplus_eq_sum

/-- There is a text that is no document, and a name with two bodies. -/
theorem run_accounted_example :
    let history := [.parse "\x7b z \x7d", .reset, .parse "fragment F on T \x7b a \x7d",
      .parse "\x7b a", .template ["fragment F on T \x7b b", "\x7d"] [.text "c"],
      .parse "fragment F on T \x7b,a \x7d"]
    let c := Handler.collect.run (Cache.empty {}) history
    (∀ text, Handler.collect ≠ .parse text) ∧ c.stats.hits + c.stats.misses = 4 ∧
      c.stats.misses = c.stats.documents + 1 ∧ c.fragments.bodies "F" ≠ [] ∧
      c.stats.conflicts = 1 := by
  intro history c
  have hh : ∀ text, Handler.collect ≠ .parse text := nofun
  obtain ⟨hcalls, hmisses, -⟩ := run_accounted .collect hh {} history
  have htexts : (liveTexts history).length = 4 := by decide +kernel
  have herrors : (Handler.collect.liveErrors (Cache.empty {}) [] history).length = 1 := by
    decide +kernel
  rw [htexts] at hcalls
  rw [herrors] at hmisses
  exact ⟨hh, hcalls, hmisses, by decide +kernel, by decide +kernel⟩

end GraphQL
