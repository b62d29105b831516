import GraphQL.Cache.Delivery
import GraphQL.Proofs.Cache.Transparency

/-!
What a cache goes through. An operation puts in one document under a key that has
none, or leaves the documents and fragments as they are, unless it is a reset that
throws all of them away. Answering reports adds only such operations, so what these
changes keep holds after every history, whoever the reports are delivered to.
-/

namespace GraphQL

namespace Cache

variable {c c' : Cache}

/-- A change that an operation makes to what a cache holds, if it is no reset. -/
inductive Change (c : Cache) : Cache → Prop
  | keep {c' : Cache} (documents : c'.documents = c.documents)
      (fragments : c'.fragments = c.fragments) (nextSerial : c'.nextSerial = c.nextSerial) :
      Change c c'
  | insert {text : String} {d : SharedDocument} {a : Enrollment}
      (absent : c.lookup (Key.ofSource text) = none)
      (enrolled : c.missed.enrollSource text = .ok (d, a)) :
      Change c (c.missed.insert (Key.ofSource text) d a)

theorem mem_of_lookup {key : String} {d : SharedDocument} (h : c.lookup key = some d) :
    (key, d) ∈ c.documents := by
  obtain ⟨front, back, hdocuments, -⟩ := List.lookup_eq_some_iff.1 h
  rw [hdocuments]
  exact List.mem_append_right front List.mem_cons_self

theorem change_parseDocument (c : Cache) (text : String) :
    c.Change (c.parseDocument text).cache := by
  rcases c.parseDocument_cases text with ⟨d, -, heq⟩ | ⟨e, -, -, heq⟩ | ⟨d, a, habsent, ha, heq⟩
  · rw [heq]
    exact .keep rfl rfl rfl
  · rw [heq]
    exact .keep rfl rfl rfl
  · rw [heq]
    exact .insert habsent ha

theorem change_apply (c : Cache) {op : Operation} (hop : op ≠ .reset) :
    c.Change (c.apply op).cache := by
  cases op with
  | parse source => exact c.change_parseDocument source
  | template literals values =>
      simp only [apply, Answer.toStep, parseTemplate]
      cases assemble literals values with
      | error e => exact .keep rfl rfl rfl
      | ok source => exact c.change_parseDocument source
  | reset => exact absurd rfl hop
  | setFragmentWarnings on => exact .keep rfl rfl rfl
  | setLegacyFragmentVariables on => exact .keep rfl rfl rfl

/-- What is under a key stays there. -/
theorem Change.lookup {key : String} {d : SharedDocument} (h : c.Change c')
    (hd : c.lookup key = some d) : c'.lookup key = some d := by
  cases h with
  | keep documents => rwa [Cache.lookup, documents]
  | @insert text e a absent enrolled =>
      have hne : key ≠ Key.ofSource text := by
        rintro rfl
        rw [absent] at hd
        cases hd
      show List.lookup key ((Key.ofSource text, e) :: c.documents) = some d
      rw [List.lookup_cons, beq_false_of_ne hne]
      exact hd

/-- A text is refused for its own error alone; otherwise its fragments are registered. -/
theorem enrollSource_eq (c : Cache) (text : String) :
    c.enrollSource text =
      match syntaxError? c.options.legacyFragmentVariables text with
      | some e => .error e
      | none =>
          let d := (GraphQL.parse ⟨c.options.legacyFragmentVariables⟩ text).document
          let a := enroll c.fragments [] (d.definitions.map fun e => ⟨e, e.fingerprint? text⟩)
          .ok (c.share d a, a) := by
  rw [enrollSource, parseDocument_eq]
  cases syntaxError? c.options.legacyFragmentVariables text with
  | some e => rfl
  | none =>
      simp only [bind, Except.bind, registerFragments_of_parse]
      rfl

/-- What is put in: the text was read, its fragments were registered, and what is kept
of its definitions is shared. -/
theorem of_enrollSource {text : String} {d : SharedDocument} {a : Enrollment}
    (h : c.enrollSource text = .ok (d, a)) :
    let r := GraphQL.parse ⟨c.options.legacyFragmentVariables⟩ text
    r.diagnostics = ⟨[]⟩ ∧
      a = enroll c.fragments [] (r.document.definitions.map fun e => ⟨e, e.fingerprint? text⟩) ∧
      d = c.share r.document a := by
  rw [enrollSource_eq] at h
  cases herror : syntaxError? c.options.legacyFragmentVariables text with
  | some e =>
      rw [herror] at h
      cases h
  | none =>
      rw [herror] at h
      cases h
      exact ⟨syntaxError?_eq_none_iff.1 herror, rfl, rfl⟩

/-- A text is refused for its own error. -/
theorem syntaxError?_of_enrollSource {text : String} {e : ParseError}
    (h : c.enrollSource text = .error e) :
    syntaxError? c.options.legacyFragmentVariables text = some e := by
  rw [enrollSource_eq] at h
  cases herror : syntaxError? c.options.legacyFragmentVariables text with
  | some e' =>
      rw [herror] at h
      cases h
      rfl
  | none =>
      rw [herror] at h
      cases h

/-! ### Asking for a text -/

/-- Where an outcome is good there is a document. -/
theorem exists_document {o : Option (Except AssemblyError SharedDocument)}
    (h : o.any Except.isOk = true) : ∃ d, o = some (.ok d) := by
  obtain _ | e | d := o
  · cases h
  · cases h
  · exact ⟨d, rfl⟩

/-- Whichever operation gives the text, it is parsed in the same way. -/
theorem apply_of_text {op : Operation} {text : String} (h : op.text? = some text) (c : Cache) :
    c.apply op =
      { cache := (c.parseDocument text).cache
        outcome := some ((c.parseDocument text).outcome.mapError .parse)
        events := (c.parseDocument text).events
        reports := (c.parseDocument text).reports } := by
  cases op with
  | parse source =>
      cases h
      rfl
  | template literals values =>
      simp only [apply, parseTemplate]
      cases hassemble : assemble literals values with
      | error e => simp [Operation.text?, hassemble, Except.toOption] at h
      | ok source =>
          have hsource : source = text := by
            simpa [Operation.text?, hassemble, Except.toOption] using h
          rw [hsource]
          rfl
  | _ => cases h

/-- An operation without a text changes the options at most, unless it is a reset. If it has
an outcome, that is the error of a template. -/
theorem apply_of_no_text {op : Operation} (h : op.text? = none) (hop : op ≠ .reset) (c : Cache) :
    ∃ options, (c.apply op).cache = { c with options := options } ∧ (c.apply op).reports = [] ∧
      ∀ o, (c.apply op).outcome = some o → ∃ e, o = .error (.template e) := by
  cases op with
  | parse source => cases h
  | template literals values =>
      cases hassemble : assemble literals values with
      | error e =>
          rw [apply, parseTemplate, hassemble]
          exact ⟨c.options, rfl, rfl, fun o ho => ⟨e, (Option.some.inj ho).symm⟩⟩
      | ok source => simp [Operation.text?, hassemble, Except.toOption] at h
  | reset => exact absurd rfl hop
  | setFragmentWarnings on => exact ⟨_, rfl, rfl, nofun⟩
  | setLegacyFragmentVariables on => exact ⟨_, rfl, rfl, nofun⟩

/-- What an operation leaves that finds a document under a key: one more hit, and
nothing else. -/
def found (c : Cache) (key : String) (d : SharedDocument) : Step :=
  { cache := { c with hits := c.hits + 1 }
    outcome := some (.ok d)
    events := [.hit key.utf8ByteSize]
    reports := [] }

theorem apply_of_hit {op : Operation} {text : String} {d : SharedDocument}
    (htext : op.text? = some text) (hd : c.lookup (Key.ofSource text) = some d) :
    c.apply op = c.found (Key.ofSource text) d := by
  rw [apply_of_text htext, parseDocument_of_hit hd]
  rfl

/-- A document is handed out from where it is put. -/
theorem lookup_of_outcome {op : Operation} {text : String} {d : SharedDocument}
    (htext : op.text? = some text) (hd : (c.apply op).outcome = some (.ok d)) :
    (c.apply op).cache.lookup (Key.ofSource text) = some d := by
  rw [apply_of_text htext] at hd ⊢
  rcases c.parseDocument_cases text with ⟨e, hfound, heq⟩ | ⟨e, -, -, heq⟩ | ⟨e, a, -, -, heq⟩
  · rw [heq] at hd ⊢
    cases hd
    exact hfound
  · rw [heq] at hd
    cases hd
  · rw [heq] at hd ⊢
    cases hd
    show List.lookup (Key.ofSource text) ((Key.ofSource text, d) :: c.documents) = some d
    rw [List.lookup_cons, beq_self_eq_true]

end Cache

/-! ### Histories with delivered reports -/

namespace Handler

/-- The cache after a history in which all reports were delivered. -/
def run (h : Handler) (c : Cache) (history : List Operation) : Cache :=
  history.foldl (fun c op => (h.perform c op).1.cache) c

@[simp] theorem run_nil (h : Handler) (c : Cache) : h.run c [] = c := rfl

@[simp] theorem run_cons (h : Handler) (c : Cache) (op : Operation) (history : List Operation) :
    h.run c (op :: history) = h.run (h.perform c op).1.cache history := rfl

@[simp] theorem run_append (h : Handler) (c : Cache) (first second : List Operation) :
    h.run c (first ++ second) = h.run (h.run c first) second := by
  simp [run]

section
variable {P : Cache → Prop} (hchange : ∀ {c c' : Cache}, c.Change c' → P c → P c')
include hchange

theorem answer_induction (text : String) (depth : Nat) {c : Cache} (hc : P c)
    (reports : List FragmentConflict) : P (answer text depth c reports).cache := by
  induction depth generalizing c reports with
  | zero => exact hc
  | succ depth ih =>
      refine List.foldlRecOn (motive := fun d : Delivery => P d.cache) reports _ hc
        fun d hd _ _ => ?_
      exact ih (hchange (d.cache.change_parseDocument text) hd) _

theorem deliver_induction (h : Handler) {c : Cache} (hc : P c)
    (reports : List FragmentConflict) : P (h.deliver c reports).cache := by
  cases h with
  | parse text => exact answer_induction hchange text 2 hc reports
  | _ => exact hc

/-- What holds at first, and is kept by every change and by every reset, holds after a
history. -/
theorem run_induction (h : Handler) {history : List Operation}
    (hreset : .reset ∈ history → ∀ {c : Cache}, P c → P c.reset) {c : Cache} (hc : P c) :
    P (h.run c history) := by
  refine List.foldlRecOn history _ hc fun c hc op hop => ?_
  refine deliver_induction hchange h ?_ _
  cases hkind : op with
  | reset => exact hreset (hkind ▸ hop) hc
  | _ => exact hchange (c.change_apply nofun) hc

end

@[simp] theorem deliver_nil (h : Handler) (c : Cache) : h.deliver c [] = ⟨c, [], []⟩ := by
  cases h <;> rfl

/-- Where nothing is parsed in answer to reports, the cache is what the operation leaves. -/
theorem cache_perform {h : Handler} (hh : ∀ text, h ≠ .parse text) (c : Cache) (op : Operation) :
    (h.perform c op).1.cache = (c.apply op).cache := by
  cases h with
  | parse text => exact absurd rfl (hh text)
  | _ => rfl

/-- A document that is found leaves nothing to deliver. -/
theorem perform_of_hit (h : Handler) {c : Cache} {op : Operation} {text : String}
    {d : SharedDocument} (htext : op.text? = some text)
    (hd : c.lookup (Key.ofSource text) = some d) :
    h.perform c op = (c.found (Key.ofSource text) d, []) := by
  simp [perform, Cache.apply_of_hit htext hd, Cache.found]

/-- The document was handed out for a text, and there was no reset since. -/
def HasReturned (h : Handler) (c : Cache) (history : List Operation) (text : String)
    (d : SharedDocument) : Prop :=
  ∃ before op after, history = before ++ op :: after ∧ op.text? = some text ∧
    (h.perform (h.run c before) op).1.outcome = some (.ok d) ∧ .reset ∉ after

/-- It is still there. -/
theorem lookup_of_hasReturned {h : Handler} {c : Cache} {history : List Operation}
    {text : String} {d : SharedDocument} (hd : h.HasReturned c history text d) :
    (h.run c history).lookup (Key.ofSource text) = some d := by
  obtain ⟨before, op, after, rfl, htext, houtcome, hreset⟩ := hd
  rw [run_append, run_cons]
  have hput : ((h.run c before).apply op).cache.lookup (Key.ofSource text) = some d :=
    Cache.lookup_of_outcome htext houtcome
  refine run_induction (P := (·.lookup _ = some d)) Cache.Change.lookup h ?_ ?_
  · exact fun hmem => absurd hmem hreset
  · exact deliver_induction (P := (·.lookup _ = some d)) Cache.Change.lookup h hput _

end Handler
end GraphQL
