import Mathlib.Logic.Function.Basic
import GraphQL.Proofs.Cache.Changes
import GraphQL.Proofs.Document.Clearing
import GraphQL.Proofs.Fragments.Kept

/-!
What a cache holds. Every document is what is kept of a text with its key, and every
body is that of a fragment in one of these texts, whichever reading, forgetting and
change of settings led there. So a document can be spliced into a template in place
of its text, and is found again.
-/

namespace GraphQL

namespace SharedDocument

/-- The document is what is kept of a text that was read with a setting. -/
structure Represents (d : SharedDocument) (legacy : Bool) (text : String) : Prop where
  source : d.document.source? = some text
  read : (parse ⟨legacy⟩ text).diagnostics = ⟨[]⟩
  definitions : d.document.definitions =
    ((parse ⟨legacy⟩ text).document.definitions.eraseDupsBy (Definition.sameBody text)).map
      Definition.strip
  spans : ∀ s ∈ d.document.spans, s = none

/-- The text of the document has a fragment with a name and a body, kept or not. -/
def Defines (d : SharedDocument) (legacy : Bool) (p : Fingerprint) : Prop :=
  ∃ text, d.document.source? = some text ∧
    ∃ e ∈ (parse ⟨legacy⟩ text).document.definitions, e.fingerprint? text = some p

end SharedDocument

namespace Cache

variable {c c' : Cache}

/-- The documents and the bodies are those of some texts, each read with the setting
of its key. -/
structure Represented (legacy : String → Bool) (c : Cache) : Prop where
  keys : (c.documents.map Prod.fst).Nodup
  documents : ∀ key d, (key, d) ∈ c.documents →
    ∃ text, Key.ofSource text = key ∧ d.Represents (legacy key) text
  bodies : ∀ name body, body ∈ c.fragments.bodies name ↔
    ∃ key d, (key, d) ∈ c.documents ∧ d.Defines (legacy key) ⟨name, body⟩

theorem represents_of_enrollSource {text : String} {d : SharedDocument} {a : Enrollment}
    (h : c.enrollSource text = .ok (d, a)) :
    d.Represents c.options.legacyFragmentVariables text := by
  obtain ⟨hread, rfl, rfl⟩ := of_enrollSource h
  refine ⟨?_, hread, ?_, fun s => Document.eq_none_of_mem_spans_strip⟩
  · exact Document.source?_mapSpans _ _
  · show (Enrollment.kept _).map Definition.strip = _
    rw [Enrollment.kept_eq_eraseDupsBy]
    simp

/-- Registering adds the bodies of the text, and no others. -/
theorem mem_bodies_of_enrollSource {text : String} {d : SharedDocument} {a : Enrollment}
    (h : c.enrollSource text = .ok (d, a)) (name body : String) :
    body ∈ a.registry.bodies name ↔ body ∈ c.fragments.bodies name ∨
      d.Defines c.options.legacyFragmentVariables ⟨name, body⟩ := by
  obtain ⟨-, ha, -⟩ := of_enrollSource h
  have hsource := (represents_of_enrollSource h).source
  rw [ha, Enrollment.mem_bodies_iff]
  simp [SharedDocument.Defines, hsource]

namespace Represented

theorem of_nil (legacy : String → Bool) (hdocuments : c.documents = [])
    (hfragments : c.fragments = .empty) : c.Represented legacy := by
  refine ⟨?_, ?_, fun name body => ?_⟩
  · simp [hdocuments]
  · simp [hdocuments]
  · simp [hdocuments, hfragments, FragmentRegistry.bodies, FragmentRegistry.empty]

/-- What is put in is represented with the setting of its time. -/
theorem insert {legacy : String → Bool} {text : String} {d : SharedDocument} {a : Enrollment}
    (hc : c.Represented legacy) (absent : c.lookup (Key.ofSource text) = none)
    (enrolled : c.missed.enrollSource text = .ok (d, a)) :
    (c.missed.insert (Key.ofSource text) d a).Represented
      (Function.update legacy (Key.ofSource text) c.options.legacyFragmentVariables) := by
  have hnew : ∀ key e, (key, e) ∈ c.documents → key ≠ Key.ofSource text := by
    intro key e hmem heq
    simpa [heq] using List.lookup_eq_none_iff.1 absent _ hmem
  refine ⟨?_, fun key e hmem => ?_, fun name body => ?_⟩
  · refine List.nodup_cons.2 ⟨fun hmem => ?_, hc.keys⟩
    obtain ⟨x, hx, heq⟩ := List.mem_map.1 hmem
    exact hnew x.1 x.2 hx heq
  · rcases List.mem_cons.1 hmem with heq | hmem
    · cases heq
      rw [Function.update_self]
      exact ⟨text, rfl, represents_of_enrollSource enrolled⟩
    · rw [Function.update_of_ne (hnew key e hmem)]
      exact hc.documents key e hmem
  · refine (mem_bodies_of_enrollSource enrolled name body).trans ?_
    constructor
    · rintro (hold | hdefines)
      · obtain ⟨key, e, hmem, hdefines⟩ := (hc.bodies name body).1 hold
        refine ⟨key, e, List.mem_cons_of_mem _ hmem, ?_⟩
        rwa [Function.update_of_ne (hnew key e hmem)]
      · refine ⟨_, d, List.mem_cons_self, ?_⟩
        rwa [Function.update_self]
    · rintro ⟨key, e, hmem, hdefines⟩
      rcases List.mem_cons.1 hmem with heq | hmem
      · cases heq
        rw [Function.update_self] at hdefines
        exact .inr hdefines
      · rw [Function.update_of_ne (hnew key e hmem)] at hdefines
        exact .inl ((hc.bodies name body).2 ⟨key, e, hmem, hdefines⟩)

theorem change {legacy : String → Bool} (h : c.Change c') (hc : c.Represented legacy) :
    ∃ legacy', c'.Represented legacy' := by
  cases h with
  | keep documents fragments _ =>
      refine ⟨legacy, ?_, ?_, ?_⟩
      · rw [documents]
        exact hc.keys
      · rw [documents]
        exact hc.documents
      · rw [documents, fragments]
        exact hc.bodies
  | insert absent enrolled => exact ⟨_, hc.insert absent enrolled⟩

theorem run (h : Handler) (options : CacheOptions) (history : List Operation) :
    ∃ legacy, (h.run (Cache.empty options) history).Represented legacy := by
  refine Handler.run_induction (P := fun c => ∃ legacy, c.Represented legacy) ?_ h ?_ ?_
  · rintro c c' hchange ⟨legacy, hc⟩
    exact hc.change hchange
  · rintro - c -
    exact ⟨fun _ => false, of_nil _ rfl rfl⟩
  · exact ⟨fun _ => false, of_nil _ rfl rfl⟩

end Represented
end Cache

/-- A document alone in a template gives the text that it was read from. -/
theorem text?_splice {d : Document} {text : String} (h : d.source? = some text) :
    (Operation.template ["", ""] [.document d]).text? = some text := by
  simp [Operation.text?, assemble, interleave, Splice.text?, h, Except.map, Except.toOption]

/-- After every history, each document in the cache is what is kept of a text with its
key, and the bodies are those of the fragments in these texts. Hence a document that
was handed out since the last reset is found again when it is spliced back. -/
theorem run_represented (h : Handler) (options : CacheOptions) (history : List Operation) :
    let c := h.run (Cache.empty options) history
    (∃ legacy, c.Represented legacy) ∧
      ∀ s d, h.HasReturned (Cache.empty options) history s d →
        h.perform c (.template ["", ""] [.document d.document]) =
          (c.found (Key.ofSource s) d, []) := by
  intro c
  obtain ⟨legacy, hc⟩ : ∃ legacy, c.Represented legacy := Cache.Represented.run h options history
  refine ⟨⟨legacy, hc⟩, fun s d hd => ?_⟩
  have hlookup : c.lookup (Key.ofSource s) = some d := Handler.lookup_of_hasReturned hd
  obtain ⟨text, hkey, hrepresents⟩ := hc.documents _ d (Cache.mem_of_lookup hlookup)
  rw [← hkey] at hlookup ⊢
  exact Handler.perform_of_hit h (text?_splice hrepresents.source) hlookup

/-- The document is put in after a reset, with variables on its fragment, and holds
the fragment twice. -/
theorem run_represented_example :
    let source := "fragment F($a: Int) on T \x7b a \x7d fragment F($a: Int) on T \x7b,a \x7d"
    let history := [.parse "\x7b a \x7d", .setLegacyFragmentVariables true, .reset, .parse source,
      .setLegacyFragmentVariables false, .parse "fragment F on T \x7b b \x7d"]
    let c := Handler.collect.run (Cache.empty {}) history
    ∃ d, Handler.collect.HasReturned (Cache.empty {}) history source d ∧
      Handler.collect.perform c (.template ["", ""] [.document d.document]) =
        (c.found (Key.ofSource source) d, []) := by
  intro source history c
  let before : List Operation :=
    [.parse "\x7b a \x7d", .setLegacyFragmentVariables true, .reset]
  obtain ⟨d, hd⟩ : ∃ d, (Handler.collect.perform (Handler.collect.run (Cache.empty {}) before)
      (.parse source)).1.outcome = some (.ok d) := Cache.exists_document (by decide +kernel)
  have hreturned : Handler.collect.HasReturned (Cache.empty {}) history source d :=
    ⟨before, .parse source, _, rfl, rfl, hd, by simp⟩
  obtain ⟨-, hsplice⟩ := run_represented .collect {} history
  exact ⟨d, hreturned, hsplice source d hreturned⟩

end GraphQL
