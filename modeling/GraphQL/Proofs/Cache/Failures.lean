import GraphQL.Proofs.Cache.Changes
import GraphQL.Proofs.Template.Failures

/-!
What a failed call leaves. A text that is no document has been parsed in vain: there is
one more miss, and that is all, however many fragments stood in front of the fault. A
template without a text has not been parsed at all. Nothing that is done later can
tell that the call was made, but for the number of misses.
-/

namespace GraphQL

namespace Cache

variable {c : Cache}

/-- What an operation leaves that parses a text in vain: one more miss, and the error. -/
def failed (c : Cache) (text : String) (e : ParseError) : Step :=
  { cache := c.missed
    outcome := some (.error (.parse e))
    events := [.miss (Key.ofSource text).utf8ByteSize c.options.legacyFragmentVariables]
    reports := [] }

theorem apply_of_rejected {op : Operation} {text : String} (htext : op.text? = some text)
    (habsent : c.lookup (Key.ofSource text) = none) {e : ParseError}
    (he : syntaxError? c.options.legacyFragmentVariables text = some e) :
    c.apply op = c.failed text e := by
  have henroll : c.missed.enrollSource text = .error e := by
    have hmissed : syntaxError? c.missed.options.legacyFragmentVariables text = some e := he
    rw [enrollSource_eq, hmissed]
  rw [apply_of_text htext, parseDocument_of_error habsent henroll]
  rfl

theorem apply_of_unassembled {literals : List String} {values : List Splice}
    {e : TemplateError} (h : assemble literals values = .error e) :
    c.apply (.template literals values) =
      { cache := c, outcome := some (.error (.template e)) } := by
  simp only [apply, parseTemplate, h, Answer.toStep]

/-! ### One more miss -/

/-- A miss is seen in the number of misses alone. -/
theorem parseDocument_missed (c : Cache) (text : String) :
    c.missed.parseDocument text =
      { c.parseDocument text with cache := (c.parseDocument text).cache.missed } := by
  rcases c.parseDocument_cases text with ⟨d, hfound, heq⟩ | ⟨e, habsent, ha, heq⟩ |
    ⟨d, a, habsent, ha, heq⟩
  · rw [heq, parseDocument_of_hit (c := c.missed) hfound]
    rfl
  · rw [heq, parseDocument_of_error (c := c.missed) habsent ha]
    rfl
  · rw [heq, parseDocument_of_ok (c := c.missed) habsent ha]
    rfl

theorem apply_missed (c : Cache) {op : Operation} (hop : op ≠ .reset) :
    c.missed.apply op = { c.apply op with cache := (c.apply op).cache.missed } := by
  cases op with
  | parse source => simp only [apply, parseDocument_missed, Answer.toStep]
  | template literals values =>
      simp only [apply, parseTemplate]
      cases assemble literals values with
      | error e => rfl
      | ok text => simp only [parseDocument_missed, Answer.toStep]
  | reset => exact absurd rfl hop
  | setFragmentWarnings on => rfl
  | setLegacyFragmentVariables on => rfl

end Cache

namespace Handler

theorem cache_answer_missed (text : String) (depth : Nat) (c : Cache)
    (reports : List FragmentConflict) :
    (answer text depth c.missed reports).cache = (answer text depth c reports).cache.missed := by
  induction depth generalizing c reports with
  | zero => rfl
  | succ depth ih =>
      -- The two deliveries stay one miss apart from report to report.
      refine List.foldl_rel (r := fun d d' => Delivery.cache d = (Delivery.cache d').missed)
        rfl fun report _ d d' hd => ?_
      simp only [hd, Cache.parseDocument_missed, ih]

theorem cache_deliver_missed (h : Handler) (c : Cache) (reports : List FragmentConflict) :
    (h.deliver c.missed reports).cache = (h.deliver c reports).cache.missed := by
  cases h with
  | parse text => exact cache_answer_missed text 2 c reports
  | _ => rfl

theorem perform_missed (h : Handler) (c : Cache) (op : Operation) :
    (op ≠ .reset → (h.perform c.missed op).1.cache = (h.perform c op).1.cache.missed) ∧
      (h.perform c.missed op).1.outcome = (h.perform c op).1.outcome ∧
      (h.perform c.missed op).1.reports = (h.perform c op).1.reports := by
  by_cases hop : op = .reset
  · subst hop
    exact ⟨fun hne => absurd rfl hne, rfl, rfl⟩
  · simp only [perform, c.apply_missed hop, cache_deliver_missed, implies_true, and_self]

/-- A miss before a history is one more after it, until a reset forgets it. -/
theorem run_missed (h : Handler) (c : Cache) (history : List Operation) :
    (.reset ∉ history → h.run c.missed history = (h.run c history).missed) ∧
      (.reset ∈ history → h.run c.missed history = h.run c history) := by
  induction history generalizing c with
  | nil => exact ⟨fun _ => rfl, nofun⟩
  | cons op history ih =>
      rw [run_cons, run_cons, List.mem_cons]
      by_cases hop : op = .reset
      · subst hop
        exact ⟨fun hreset => absurd (.inl rfl) hreset, fun _ => rfl⟩
      · rw [(h.perform_missed c op).1 hop]
        have hne : .reset ≠ op := Ne.symm hop
        simpa only [hne, false_or] using ih (h.perform c op).1.cache

end Handler

/-- Parsing a text in vain leaves a cache as it was but for one more miss, and nobody is
told of the fragments in front of the fault; a template without a text leaves all of
it. Nor does that miss show in what comes later, but as a miss. -/
theorem perform_failed (h : Handler) (c : Cache) :
    (∀ op text, op.text? = some text → c.lookup (Key.ofSource text) = none →
      (parse ⟨c.options.legacyFragmentVariables⟩ text).diagnostics ≠ ⟨[]⟩ →
      ∃ e, GraphQL.parseDocument ⟨c.options.legacyFragmentVariables⟩ text = .error e ∧
        h.perform c op = (c.failed text e, [])) ∧
    (∀ history op,
      (.reset ∉ history → h.run c.missed history = (h.run c history).missed) ∧
      (.reset ∈ history → h.run c.missed history = h.run c history) ∧
      (h.perform (h.run c.missed history) op).1.outcome =
        (h.perform (h.run c history) op).1.outcome ∧
      (h.perform (h.run c.missed history) op).1.reports =
        (h.perform (h.run c history) op).1.reports) ∧
    ∀ literals values,
      ((∃ e, assemble literals values = .error e) ↔
        literals.length ≠ values.length + 1 ∨ ∃ d, .document d ∈ values ∧ d.source? = none) ∧
      ∀ e, assemble literals values = .error e →
        h.perform c (.template literals values) =
          ({ cache := c, outcome := some (.error (.template e)) }, []) := by
  refine ⟨fun op text htext habsent hrejected => ?_, fun history op => ?_,
    fun literals values => ⟨exists_assemble_eq_error_iff, fun e he => ?_⟩⟩
  · obtain ⟨e, he⟩ := Option.ne_none_iff_exists'.1 (mt syntaxError?_eq_none_iff.1 hrejected)
    have hstep := Cache.apply_of_rejected htext habsent he
    refine ⟨e, ?_, ?_⟩
    · rw [parseDocument_eq, he]
    · simp [Handler.perform, hstep, Cache.failed]
  · obtain ⟨hkept, hforgotten⟩ := h.run_missed c history
    refine ⟨hkept, hforgotten, ?_⟩
    by_cases hreset : .reset ∈ history
    · rw [hforgotten hreset]
      exact ⟨rfl, rfl⟩
    · rw [hkept hreset]
      exact (h.perform_missed _ op).2
  · simp [Handler.perform, Cache.apply_of_unassembled he]

/-- There are two bodies for a fragment in front of the fault, where the cache has a
third, and they would be conflicts. -/
theorem perform_failed_example :
    let source := "fragment F on T \x7b a \x7d fragment F on T \x7b b \x7d \x7b"
    let c := Handler.collect.run (Cache.empty {}) [.parse "fragment F on T \x7b c \x7d"]
    (parse {} source).document.definitions.length = 2 ∧
      (parse {} source).diagnostics ≠ ⟨[]⟩ ∧ c.lookup (Key.ofSource source) = none ∧
      (∃ e, Handler.collect.perform c (.parse source) = (c.failed source e, [])) ∧
      Handler.collect.perform c (.template ["\x7b a \x7d"] [.text "b"]) =
        ({ cache := c, outcome := some (.error (.template (.arity 1 1))) }, []) := by
  intro source c
  have hrejected : (parse {} source).diagnostics ≠ ⟨[]⟩ := by decide +kernel
  have habsent : c.lookup (Key.ofSource source) = none := by
    have hisNone : (c.lookup (Key.ofSource source)).isNone = true := by decide +kernel
    exact Option.isNone_iff_eq_none.1 hisNone
  obtain ⟨hparse, -, htemplate⟩ := perform_failed .collect c
  have hsetting : c.options.legacyFragmentVariables = false := by decide +kernel
  rw [hsetting] at hparse
  obtain ⟨e, -, hfailed⟩ := hparse (.parse source) source rfl habsent hrejected
  exact ⟨by decide +kernel, hrejected, habsent, ⟨e, hfailed⟩, (htemplate _ _).2 _ (by decide)⟩

end GraphQL
