import Mathlib.Algebra.Order.BigOperators.Group.Finset
import GraphQL.Check
import GraphQL.Proofs.Cache.Accounts
import GraphQL.Proofs.Cache.Warnings

/-!
What a check finds. All sources go through one cache, which is asked in order and keeps
what it has seen; yet the verdict is that of the sources as a collection. Where no two
different ones have the same key, a source is found at fault if it is no document, and
a fragment name as often as it has bodies besides the first.
-/

namespace GraphQL

/-- The fingerprints of the fragments in a text. There are none if it is no document. -/
def fingerprintsOf (legacy : Bool) (text : String) : List Fingerprint :=
  (GraphQL.parseDocument ⟨legacy⟩ text).toOption.elim [] fun d =>
    d.definitions.filterMap (·.fingerprint? text)

theorem fingerprintsOf_of_accepted {legacy : Bool} {text : String}
    (h : syntaxError? legacy text = none) :
    fingerprintsOf legacy text =
      (parse ⟨legacy⟩ text).document.definitions.filterMap (·.fingerprint? text) := by
  rw [fingerprintsOf, parseDocument_eq_ok (syntaxError?_eq_none_iff.1 h)]
  rfl

theorem fingerprintsOf_of_rejected {legacy : Bool} {text : String} {e : ParseError}
    (h : syntaxError? legacy text = some e) : fingerprintsOf legacy text = [] := by
  rw [fingerprintsOf, parseDocument_eq, h]
  rfl

/-! ### One text -/

namespace Cache

variable {c : Cache} {legacy : Bool} {texts : List String} {text : String}

theorem options_parseDocument (c : Cache) (text : String) :
    (c.parseDocument text).cache.options = c.options := by
  rcases c.parseDocument_cases text with ⟨d, -, heq⟩ | ⟨e, -, -, heq⟩ | ⟨d, a, -, -, heq⟩
  · rw [heq]
  · rw [heq]
    rfl
  · rw [heq]
    rfl

/-- What is put in for a text: it is a document, its fragments are registered, and the
conflicts are bodies among theirs that were not there. -/
theorem fingerprintsOf_of_enrollSource {d : SharedDocument} {a : Enrollment}
    (h : c.enrollSource text = .ok (d, a)) :
    let fingerprints := fingerprintsOf c.options.legacyFragmentVariables text
    syntaxError? c.options.legacyFragmentVariables text = none ∧
      (∀ name body, body ∈ a.registry.bodies name ↔
        body ∈ c.fragments.bodies name ∨ ⟨name, body⟩ ∈ fingerprints) ∧
      (c.fragments.WellFormed → ∀ k ∈ a.conflicts,
        k.body ∉ c.fragments.bodies k.name ∧ ⟨k.name, k.body⟩ ∈ fingerprints) := by
  intro fingerprints
  obtain ⟨hread, rfl, -⟩ := of_enrollSource h
  have haccepted := syntaxError?_eq_none_iff.2 hread
  have hmem : ∀ p, p ∈ fingerprints ↔ ∃ e, ⟨e, some p⟩ ∈
      (GraphQL.parse ⟨c.options.legacyFragmentVariables⟩ text).document.definitions.map
        fun e => (⟨e, e.fingerprint? text⟩ : Candidate) := by
    intro p
    simp [fingerprints, fingerprintsOf_of_accepted haccepted]
  refine ⟨haccepted, fun name body => ?_, fun hregistry k hk => ?_⟩
  · rw [Enrollment.mem_bodies_iff, hmem]
  · rw [hmem]
    exact Enrollment.of_mem_conflicts hregistry hk

/-- Where no other text has its key, a text that is found is a document and was parsed. -/
theorem Faithful.of_lookup (h : c.Faithful legacy texts)
    (htexts : ∀ t ∈ texts, Key.ofSource t = Key.ofSource text → t = text) {d : SharedDocument}
    (hd : c.lookup (Key.ofSource text) = some d) :
    text ∈ texts ∧ syntaxError? legacy text = none := by
  obtain ⟨t, ht, hkey, hfresh⟩ := h.documents _ _ hd
  obtain rfl := htexts t ht hkey
  refine ⟨ht, syntaxError?_eq_none_iff.2 ?_⟩
  by_contra hrejected
  obtain ⟨e, he⟩ := freshDefinitions_eq_error hrejected
  rw [he] at hfresh
  cases hfresh

/-- Asking a cache for a text finds what the text has on its own, as far as it is new. -/
theorem Faithful.finds (h : c.Faithful legacy texts) (hregistry : c.fragments.WellFormed)
    (htexts : ∀ t ∈ texts, Key.ofSource t = Key.ofSource text → t = text)
    (hknown : text ∈ texts → ∀ p ∈ fingerprintsOf legacy text, p.body ∈ c.fragments.bodies p.name) :
    let a := c.parseDocument text
    errorOf? a.outcome = syntaxError? legacy text ∧
      (∀ name body, body ∈ a.cache.fragments.bodies name ↔
        body ∈ c.fragments.bodies name ∨ ⟨name, body⟩ ∈ fingerprintsOf legacy text) ∧
      ∀ k ∈ a.reports, k.body ∉ c.fragments.bodies k.name ∧
        ⟨k.name, k.body⟩ ∈ fingerprintsOf legacy text := by
  intro a
  have hlegacy := h.legacy_eq
  rcases c.parseDocument_cases text with ⟨d, hd, heq⟩ | ⟨e, -, he, heq⟩ | ⟨d, b, -, hb, heq⟩
  · -- The text was parsed before, so that all its fragments are there.
    obtain ⟨hmem, haccepted⟩ := h.of_lookup htexts hd
    simp only [a, heq]
    refine ⟨haccepted.symm, fun name body => (or_iff_left_of_imp ?_).symm, nofun⟩
    exact hknown hmem ⟨name, body⟩
  · have hrejected := syntaxError?_of_enrollSource he
    rw [show c.missed.options.legacyFragmentVariables = legacy from hlegacy] at hrejected
    simp only [a, heq]
    refine ⟨hrejected.symm, fun name body => ?_, nofun⟩
    simp [fingerprintsOf_of_rejected hrejected, missed]
  · obtain ⟨haccepted, hbodies, hconflicts⟩ := fingerprintsOf_of_enrollSource hb
    rw [show c.missed.options.legacyFragmentVariables = legacy from hlegacy]
      at haccepted hbodies hconflicts
    simp only [a, heq]
    refine ⟨haccepted.symm, hbodies, fun k hk => hconflicts hregistry k ?_⟩
    split at hk
    · exact hk
    · cases hk

end Cache

/-! ### One source -/

/-- What a check knows after some sources, each with its name. -/
structure CheckState.Covers (options : CacheOptions) (sources : List (String × String))
    (s : CheckState) : Prop where
  warnings : s.cache.options.warnOnFragmentConflicts = options.warnOnFragmentConflicts
  faithful : s.cache.Faithful options.legacyFragmentVariables (sources.map Prod.snd)
  accounted : ∃ errors, s.cache.Accounted sources.length errors
  bodies : ∀ name body, body ∈ s.cache.fragments.bodies name ↔
    ⟨name, body⟩ ∈ sources.flatMap fun x => fingerprintsOf options.legacyFragmentVariables x.2
  checked : s.report.checked = sources.length
  parseErrors : s.report.parseErrors = sources.filterMap fun x =>
    (syntaxError? options.legacyFragmentVariables x.2).map (x.1, ·)
  reported : s.report.conflicts.length =
    if options.warnOnFragmentConflicts then s.cache.conflicts else 0
  tagged : ∀ x ∈ s.report.conflicts, (sources.find? fun y =>
    (fingerprintsOf options.legacyFragmentVariables y.2).contains ⟨x.2.name, x.2.body⟩).map
      Prod.fst = some x.1

namespace CheckState

variable {s : CheckState} {options : CacheOptions} {sources : List (String × String)}

theorem cache_step (s : CheckState) (name source : String) :
    (s.step name source).cache = (s.cache.parseDocument source).cache := rfl

theorem report_step (s : CheckState) (name source : String) :
    (s.step name source).report =
      { s.report with
        checked := s.report.checked + 1
        parseErrors := s.report.parseErrors ++
          ((errorOf? (s.cache.parseDocument source).outcome).map (name, ·)).toList
        conflicts := s.report.conflicts ++
          (s.cache.parseDocument source).reports.map (name, ·) } := by
  unfold step
  generalize s.cache.parseDocument source = a
  obtain ⟨cache, outcome, events, reports⟩ := a
  cases outcome <;> rfl

theorem Covers.start (options : CacheOptions) :
    Covers options [] { cache := .empty options } :=
  { warnings := rfl
    faithful := .empty options
    accounted := ⟨0, .of_nothing rfl rfl rfl rfl rfl⟩
    bodies := fun name body => by
      simp [Cache.empty, FragmentRegistry.bodies, FragmentRegistry.empty]
    checked := rfl
    parseErrors := rfl
    reported := (ite_self 0).symm
    tagged := nofun }

/-- A body that is new is in none of the sources. -/
theorem Covers.find?_eq_none (h : s.Covers options sources) {p : Fingerprint}
    (hnew : p.body ∉ s.cache.fragments.bodies p.name) :
    (sources.find? fun x =>
      (fingerprintsOf options.legacyFragmentVariables x.2).contains p) = none := by
  rw [List.find?_eq_none]
  intro x hx hcontains
  refine hnew ((h.bodies p.name p.body).2 (List.mem_flatMap.2 ⟨x, hx, ?_⟩))
  exact List.contains_iff_mem.1 hcontains

section
variable (h : s.Covers options sources) {source : String}
  (hkeys : ∀ x ∈ sources, Key.ofSource x.2 = Key.ofSource source → x.2 = source)
include h hkeys

theorem Covers.finds :
    let a := s.cache.parseDocument source
    let fingerprints := fingerprintsOf options.legacyFragmentVariables source
    errorOf? a.outcome = syntaxError? options.legacyFragmentVariables source ∧
      (∀ name body, body ∈ a.cache.fragments.bodies name ↔
        body ∈ s.cache.fragments.bodies name ∨ ⟨name, body⟩ ∈ fingerprints) ∧
      ∀ k ∈ a.reports, k.body ∉ s.cache.fragments.bodies k.name ∧
        ⟨k.name, k.body⟩ ∈ fingerprints := by
  obtain ⟨errors, haccounted⟩ := h.accounted
  refine h.faithful.finds haccounted.registry ?_ fun hmem p hp => ?_
  · simpa using fun t name hx => hkeys (name, t) hx
  · obtain ⟨x, hx, rfl⟩ := List.mem_map.1 hmem
    exact (h.bodies p.name p.body).2 (List.mem_flatMap.2 ⟨x, hx, hp⟩)

/-- One more source is one more in the list, if no other text in it has its key. -/
theorem Covers.step (name : String) :
    (s.step name source).Covers options (sources ++ [(name, source)]) := by
  obtain ⟨errors, haccounted⟩ := h.accounted
  obtain ⟨herror, hbodies, hreports⟩ := h.finds hkeys
  refine
    { warnings := ?_
      faithful := ?_
      accounted := ⟨errors + if (s.cache.parseDocument source).outcome.isOk then 0 else 1, ?_⟩
      bodies := fun n body => ?_
      checked := ?_
      parseErrors := ?_
      reported := ?_
      tagged := fun x hx => ?_ }
  · rw [cache_step, Cache.options_parseDocument, h.warnings]
  · rw [cache_step, List.map_append]
    refine (h.faithful.parseDocument source).mono fun t ht => ?_
    simpa [or_comm] using ht
  · rw [cache_step, List.length_append]
    exact haccounted.parseDocument source
  · rw [cache_step, hbodies, h.bodies, List.flatMap_append, List.mem_append]
    simp
  · rw [report_step, List.length_append, ← h.checked]
    rfl
  · rw [report_step, List.filterMap_append, ← h.parseErrors, herror]
    cases herror : syntaxError? options.legacyFragmentVariables source <;> simp [herror]
  · rw [report_step, cache_step, Cache.conflicts_parseDocument, Cache.reports_parseDocument,
      h.warnings, List.length_append, List.length_map, h.reported]
    split <;> rfl
  · -- What was reported before keeps its source; what is reported now is in no earlier one.
    rw [report_step] at hx
    rw [List.find?_append]
    rcases List.mem_append.1 hx with hx | hx
    · obtain ⟨y, hy, hname⟩ := Option.map_eq_some_iff.1 (h.tagged x hx)
      rw [hy, ← hname]
      rfl
    · obtain ⟨k, hk, rfl⟩ := List.mem_map.1 hx
      obtain ⟨hnew, hmem⟩ := hreports k hk
      rw [h.find?_eq_none (p := ⟨k.name, k.body⟩) hnew, List.find?_singleton,
        if_pos (List.contains_iff_mem.2 hmem)]
      rfl

end

/-- Where no two different sources have the same key, a check comes to know all of them. -/
theorem Covers.run (h : s.Covers options sources) {later : List (String × String)}
    (hkeys : ∀ x ∈ sources ++ later, ∀ y ∈ sources ++ later,
      Key.ofSource x.2 = Key.ofSource y.2 → x.2 = y.2) :
    (later.foldl (fun s (name, source) => s.step name source) s).Covers options
      (sources ++ later) := by
  induction later generalizing s sources with
  | nil => simpa using h
  | cons x later ih =>
      have hstep : (s.step x.1 x.2).Covers options (sources ++ [x]) := by
        refine h.step (fun y hy => hkeys y ?_ x ?_) x.1
        · exact List.mem_append_left _ hy
        · simp
      rw [List.append_cons] at hkeys ⊢
      exact ih hstep hkeys

theorem Covers.conflicts_eq (h : s.Covers options sources) :
    let found := (sources.flatMap fun x =>
      fingerprintsOf options.legacyFragmentVariables x.2).toFinset
    s.cache.conflicts =
      ∑ name ∈ found.image Fingerprint.name, ((found.filter (·.name = name)).card - 1) := by
  intro found
  obtain ⟨errors, haccounted⟩ := h.accounted
  rw [haccounted.conflicts_eq]
  refine haccounted.registry.surplus_eq_sum_fingerprints fun p => ?_
  rw [h.bodies, List.mem_toFinset]

end CheckState

/-! ### The verdict -/

/-- There are no bodies besides the first if and only if no name has two. -/
theorem sum_card_eq_zero_iff (found : Finset Fingerprint) :
    ∑ name ∈ found.image Fingerprint.name, ((found.filter (·.name = name)).card - 1) = 0 ↔
      ∀ p ∈ found, ∀ q ∈ found, p.name = q.name → p = q := by
  rw [Finset.sum_eq_zero_iff, Finset.forall_mem_image]
  simp only [Nat.sub_eq_zero_iff_le, Finset.card_le_one, Finset.mem_filter]
  constructor
  · intro h p hp q hq hname
    exact h hp p ⟨hp, rfl⟩ q ⟨hq, hname.symm⟩
  · rintro h r - p ⟨hp, hname⟩ q ⟨hq, hname'⟩
    exact h p hp q hq (hname.trans hname'.symm)

theorem CheckReport.exitCode_eq_zero_iff (r : CheckReport) (strict : Bool) :
    r.exitCode strict = 0 ↔ r.parseErrors = [] ∧ (strict = true → r.detected = 0) := by
  unfold exitCode
  cases strict <;> cases hempty : r.parseErrors <;> simp

theorem CheckReport.exitCode_congr {r r' : CheckReport}
    (herrors : r'.parseErrors.Perm r.parseErrors) (hdetected : r'.detected = r.detected)
    (strict : Bool) : r'.exitCode strict = r.exitCode strict := by
  rw [exitCode, exitCode, herrors.isEmpty_eq, hdetected]

/-- What a check reports, if no two different sources have the same key. -/
theorem report_checkSources (options : CacheOptions) (sources : List (String × String))
    (hkeys : ∀ x ∈ sources, ∀ y ∈ sources, Key.ofSource x.2 = Key.ofSource y.2 → x.2 = y.2) :
    let fingerprints := fingerprintsOf options.legacyFragmentVariables
    let found := (sources.flatMap fun x => fingerprints x.2).toFinset
    let report := (checkSources options sources).1
    report.checked = sources.length ∧
      report.parseErrors = sources.filterMap (fun x =>
        (syntaxError? options.legacyFragmentVariables x.2).map (x.1, ·)) ∧
      report.detected =
        ∑ name ∈ found.image Fingerprint.name, ((found.filter (·.name = name)).card - 1) ∧
      report.conflicts.length =
        (if options.warnOnFragmentConflicts then report.detected else 0) ∧
      ∀ x ∈ report.conflicts, (sources.find? fun y =>
        (fingerprints y.2).contains ⟨x.2.name, x.2.body⟩).map Prod.fst = some x.1 := by
  have h := (CheckState.Covers.start options).run hkeys
  exact ⟨h.checked, h.parseErrors, h.conflicts_eq, h.reported, h.tagged⟩

/-- In another order the sources come to the same. -/
theorem checkSources_perm (options : CacheOptions) {sources sources' : List (String × String)}
    (hperm : sources'.Perm sources)
    (hkeys : ∀ x ∈ sources, ∀ y ∈ sources, Key.ofSource x.2 = Key.ofSource y.2 → x.2 = y.2) :
    let report := (checkSources options sources).1
    let report' := (checkSources options sources').1
    report'.checked = report.checked ∧ report'.detected = report.detected ∧
      ∀ strict, report'.exitCode strict = report.exitCode strict := by
  intro report report'
  obtain ⟨hchecked, hparseErrors, hdetected, -, -⟩ := report_checkSources options sources hkeys
  obtain ⟨hchecked', hparseErrors', hdetected', -, -⟩ :=
    report_checkSources options sources' fun x hx y hy =>
      hkeys x (hperm.subset hx) y (hperm.subset hy)
  have hsame : report'.detected = report.detected := by
    rw [hdetected', hdetected, List.toFinset_eq_of_perm _ _ (hperm.flatMap_right _)]
  refine ⟨?_, hsame, CheckReport.exitCode_congr ?_ hsame⟩
  · rw [hchecked', hchecked, hperm.length_eq]
  · rw [hparseErrors', hparseErrors]
    exact hperm.filterMap _

/-- Let no two different sources have the same key. Then the errors of a check are those of
the sources on their own, and it detects as many conflicts as the fragment names have
fingerprints besides the first. It is passed if all sources are documents, and strictly
if no name has two fingerprints besides; none of this depends on the order of the
sources. A conflict is reported with the first source that has its fingerprint. -/
theorem checkSources_verdict (options : CacheOptions) (sources : List (String × String))
    (hkeys : ∀ x ∈ sources, ∀ y ∈ sources, Key.ofSource x.2 = Key.ofSource y.2 → x.2 = y.2) :
    let error? := syntaxError? options.legacyFragmentVariables
    let fingerprints := fingerprintsOf options.legacyFragmentVariables
    let found := (sources.flatMap fun x => fingerprints x.2).toFinset
    let report := (checkSources options sources).1
    report.checked = sources.length ∧
      report.parseErrors = sources.filterMap (fun x => (error? x.2).map (x.1, ·)) ∧
      report.detected =
        ∑ name ∈ found.image Fingerprint.name, ((found.filter (·.name = name)).card - 1) ∧
      (report.exitCode false = 0 ↔ ∀ x ∈ sources, error? x.2 = none) ∧
      (report.exitCode true = 0 ↔ (∀ x ∈ sources, error? x.2 = none) ∧
        ∀ p ∈ found, ∀ q ∈ found, p.name = q.name → p = q) ∧
      (∀ sources', sources'.Perm sources →
        let report' := (checkSources options sources').1
        report'.checked = report.checked ∧ report'.detected = report.detected ∧
          ∀ strict, report'.exitCode strict = report.exitCode strict) ∧
      (options.warnOnFragmentConflicts = true → report.conflicts.length = report.detected ∧
        ∀ x ∈ report.conflicts, (sources.find? fun y =>
          (fingerprints y.2).contains ⟨x.2.name, x.2.body⟩).map Prod.fst = some x.1) ∧
      (options.warnOnFragmentConflicts = false → report.conflicts = []) := by
  intro error? fingerprints found report
  obtain ⟨hchecked, hparseErrors, hdetected, hreported, htagged⟩ :=
    report_checkSources options sources hkeys
  have haccepted : report.parseErrors = [] ↔ ∀ x ∈ sources, error? x.2 = none := by
    rw [hparseErrors]
    simp [error?]
  refine ⟨hchecked, hparseErrors, hdetected, ?_, ?_,
    fun sources' hperm => checkSources_perm options hperm hkeys, fun hon => ?_, fun hoff => ?_⟩
  · rw [CheckReport.exitCode_eq_zero_iff, haccepted]
    simp
  · rw [CheckReport.exitCode_eq_zero_iff, haccepted, hdetected, sum_card_eq_zero_iff]
    simp only [forall_const]
    rfl
  · rw [hon, if_pos rfl] at hreported
    exact ⟨hreported, htagged⟩
  · rw [hoff, if_neg Bool.false_ne_true] at hreported
    exact List.length_eq_zero_iff.1 hreported

/-- A file may be given twice. In reverse order there are as many conflicts, in other files. -/
theorem checkSources_verdict_example :
    let sources := [("a", "fragment F on T \x7b a \x7d"), ("b", "\x7b"),
      ("c", "fragment F on T \x7b b \x7d fragment G on T \x7b a \x7d"),
      ("d", "fragment F on T \x7b a \x7d"), ("e", "fragment G on T \x7b b \x7d")]
    let report := (checkSources {} sources).1
    let reversed := (checkSources {} sources.reverse).1
    (∀ x ∈ sources, ∀ y ∈ sources, Key.ofSource x.2 = Key.ofSource y.2 → x.2 = y.2) ∧
      report.checked = 5 ∧ report.detected = 2 ∧ reversed.detected = 2 ∧
      report.conflicts.map Prod.fst = ["c", "e"] ∧ reversed.conflicts.map Prod.fst = ["c", "c"] ∧
      ∀ strict, reversed.exitCode strict = report.exitCode strict := by
  intro sources report reversed
  have hkeys : ∀ x ∈ sources, ∀ y ∈ sources, Key.ofSource x.2 = Key.ofSource y.2 → x.2 = y.2 := by
    decide +kernel
  obtain ⟨hchecked, -, -, -, -, hperm, hreported, -⟩ := checkSources_verdict {} sources hkeys
  obtain ⟨-, hdetected, hexit⟩ := hperm _ sources.reverse_perm
  have hnames : report.conflicts.map Prod.fst = ["c", "e"] := by decide +kernel
  have htwo : report.detected = 2 :=
    calc report.detected
      _ = report.conflicts.length := (hreported rfl).1.symm
      _ = (report.conflicts.map Prod.fst).length := (List.length_map _).symm
      _ = 2 := congrArg List.length hnames
  exact ⟨hkeys, hchecked, htwo, hdetected.trans htwo, hnames, by decide +kernel, hexit⟩

end GraphQL
