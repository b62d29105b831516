import GraphQL.Proofs.Cache.Entries
import GraphQL.Proofs.Cache.Transparency
import GraphQL.Proofs.Grammar.Formatting
import GraphQL.Proofs.Key.Concatenation

/-!
Documents in templates. A document brings the text that it was first read from, which
need not be the text it was last asked for with. Both have the same key, but they may
differ at their ends, where they meet the literals of the template. What the template
gives is what the text brought in gives between the literals, and it is what the other
text gives wherever gaps keep the ends apart from the literals.
-/

namespace GraphQL

open Key

/-- What an error says. -/
def AssemblyError.message : AssemblyError → String
  | template e => e.message
  | parse e => e.message

/-- The definitions that were answered, or what is said instead. -/
def Answer.verdict {ε : Type} (message : ε → String) (a : Answer ε) :
    Except String (List Definition) :=
  a.definitions.mapError message

/-- Where an outcome is good there is a document. -/
theorem Answer.exists_document {ε : Type} {a : Answer ε} (h : a.outcome.isOk = true) :
    ∃ d, a.outcome = .ok d := by
  cases houtcome : a.outcome with
  | error e =>
      rw [houtcome] at h
      cases h
  | ok d => exact ⟨d, rfl⟩

/-! ### Texts with one key -/

/-- Of texts with the same lexemes, the same is said. -/
theorem message_eq_of_lexemes_eq {legacy : Bool} {s t : String} (h : lexemes s = lexemes t)
    (hread : (parse ⟨legacy⟩ s).diagnostics ≠ ⟨[]⟩) :
    ∃ e e', freshDefinitions legacy s = .error e ∧ freshDefinitions legacy t = .error e' ∧
      e.message = e'.message := by
  have herror : ∀ {u : String} {d : Diagnostic}, (parse ⟨legacy⟩ u).diagnostics = ⟨[d]⟩ →
      d.isError = true → freshDefinitions legacy u = .error (.ofDiagnostic d u) := by
    intro u d hu hd
    have hparse : GraphQL.parseDocument ⟨legacy⟩ u = .error (.ofDiagnostic d u) := by
      unfold GraphQL.parseDocument
      simp [ParseResult.toExcept, hu, DiagnosticBag.firstError?,
        DiagnosticBag.errors, hd]
    rw [freshDefinitions, hparse]
    rfl
  rcases diagnostics_parse_saysSame h ⟨legacy⟩ with ⟨hs, -⟩ | ⟨d, e, hd, he, hisError, hsame⟩
  · exact absurd hs hread
  · refine ⟨_, _, herror hd hisError, herror he ?_, ?_⟩
    · rw [Diagnostic.isError, ← hsame.severity]
      exact hisError
    · exact congrArg ("Syntax Error: " ++ ·) hsame.title

/-- Bare texts with one key give the same, definitions or message. -/
theorem freshVerdict_eq (legacy : Bool) {s t : String} (hs : Bare s) (ht : Bare t)
    (hkey : ofSource s = ofSource t) :
    (freshDefinitions legacy s).mapError ParseError.message =
      (freshDefinitions legacy t).mapError ParseError.message := by
  have hlexemes := hs.lexemes_eq ht hkey
  by_cases hread : (parse ⟨legacy⟩ s).diagnostics = ⟨[]⟩
  · have hstrings : SameStrings s t := congrArg Lexeme.stringTexts hlexemes
    have heq := freshDefinitions_eq hs.regular ht.regular hkey hstrings legacy
    obtain ⟨ds, hds⟩ : ∃ ds, freshDefinitions legacy s = .ok ds := ⟨_, freshDefinitions_eq_ok hread⟩
    rw [hds] at heq ⊢
    cases hdt : freshDefinitions legacy t with
    | error e =>
        rw [hdt] at heq
        cases heq
    | ok ds' =>
        rw [hdt] at heq
        rw [show ds = ds' from Option.some.inj heq]
  · obtain ⟨e, e', he, he', hmessage⟩ := message_eq_of_lexemes_eq hlexemes hread
    rw [he, he']
    exact congrArg Except.error hmessage

namespace Cache

variable {c : Cache} {texts : List String}

/-- Where only bare texts are known, it makes no difference which of them were parsed. -/
theorem Faithful.verdict {legacy : Bool} (h : Faithful legacy texts c)
    (htexts : ∀ t ∈ texts, Bare t) {s : String} (hs : Bare s) :
    (c.parseDocument s).verdict ParseError.message =
      (freshDefinitions legacy s).mapError ParseError.message := by
  rcases h.definitions s with hmiss | ⟨t, ht, hkey, ds, hds, hdt⟩
  · rw [Answer.verdict, hmiss]
  · rw [Answer.verdict, hds, ← hdt]
    exact freshVerdict_eq legacy (htexts t ht) hs hkey

/-! ### The texts that documents bring -/

/-- Every document in a cache brings one of some texts, which has its key. -/
def Retaining (texts : List String) (c : Cache) : Prop :=
  ∀ key d, c.lookup key = some d →
    ∃ t ∈ texts, ofSource t = key ∧ d.document.source? = some t

namespace Retaining

theorem empty (options : CacheOptions) : Retaining [] (Cache.empty options) := by
  intro key d hd
  cases hd

theorem mono (h : Retaining texts c) (text : String) : Retaining (text :: texts) c := by
  intro key d hd
  obtain ⟨t, ht, hkey, hsource⟩ := h key d hd
  exact ⟨t, List.mem_cons_of_mem _ ht, hkey, hsource⟩

theorem parseDocument (h : Retaining texts c) (text : String) :
    Retaining (text :: texts) (c.parseDocument text).cache := by
  rcases c.parseDocument_cases text with ⟨d, -, heq⟩ | ⟨e, -, -, heq⟩ | ⟨d, a, -, ha, heq⟩
  · rw [heq]
    exact h.mono text
  · rw [heq]
    exact h.mono text
  · rw [heq]
    intro key d' hd
    change List.lookup key ((ofSource text, d) :: c.documents) = some d' at hd
    rw [List.lookup_cons] at hd
    cases hkey : key == ofSource text with
    | true =>
        rw [hkey] at hd
        cases hd
        exact ⟨text, List.mem_cons_self, (eq_of_beq hkey).symm,
          (represents_of_enrollSource ha).source⟩
    | false =>
        rw [hkey] at hd
        exact h.mono text key d' hd

theorem apply (h : Retaining texts c) (op : Operation) :
    Retaining (op.liveTexts texts) (c.apply op).cache := by
  cases op with
  | parse source => exact h.parseDocument source
  | template literals values =>
      simp only [Cache.apply, parseTemplate, Operation.liveTexts, Operation.text?]
      cases assemble literals values with
      | error e => exact h
      | ok text => exact h.parseDocument text
  | reset =>
      intro key d hd
      cases hd
  | setFragmentWarnings on => exact h
  | setLegacyFragmentVariables on => exact h

theorem run (h : Retaining texts c) (history : List Operation) :
    Retaining (history.foldl Operation.liveTexts texts) (c.run history) := by
  induction history generalizing texts c with
  | nil => exact h
  | cons op history ih => exact ih (h.apply op)

end Retaining

/-- A document between two literals is parsed as the text that it brings. -/
theorem verdict_splice (c : Cache) {d : Document} {t : String} (h : d.source? = some t)
    (p q : String) :
    (c.parseTemplate [p, q] [.document d]).verdict AssemblyError.message =
      (c.parseDocument (p ++ t ++ q)).verdict ParseError.message := by
  have hassemble : assemble [p, q] [.document d] = .ok (p ++ t ++ q) := by
    simp [assemble, interleave, Splice.text?, h, Except.map, String.append_assoc]
  rw [parseTemplate, hassemble]
  simp only [Answer.verdict, Answer.definitions]
  cases (c.parseDocument (p ++ t ++ q)).outcome with
  | error e => rfl
  | ok d => rfl

end Cache

/-- Let all texts be bare. A document between two literals gives what a text between
them gives in an empty cache, definitions or message; this text is the one that the
document was asked for with, or one of its key that was parsed since the last reset.
It may be exchanged for the text that was asked for with if that does not change the
key between the literals, as where there are gaps between the texts. -/
theorem parseTemplate_composes (options : CacheOptions) (history : List Operation)
    (hlegacy : ∀ on, .setLegacyFragmentVariables on ∈ history →
      on = options.legacyFragmentVariables)
    (hlive : ∀ t ∈ liveTexts history, Bare t) (s p q : String) (hs : Bare s) (hp : Bare p)
    (hq : Bare q) (d : SharedDocument) :
    let c := (Cache.empty options).run history
    let composed := ((c.parseDocument s).cache.parseTemplate [p, q]
      [.document d.document]).verdict AssemblyError.message
    let fresh := fun text =>
      ((Cache.empty c.options).parseDocument text).verdict ParseError.message
    (c.parseDocument s).outcome = .ok d →
      ∃ t, (t = s ∨ t ∈ liveTexts history) ∧ ofSource t = ofSource s ∧
        d.document.source? = some t ∧ composed = fresh (p ++ t ++ q) ∧
        (ofSource (p ++ t ++ q) = ofSource (p ++ s ++ q) → composed = fresh (p ++ s ++ q)) ∧
        (EndsInGap p.toList → GapBetween t.toList q.toList → GapBetween s.toList q.toList →
          composed = fresh (p ++ s ++ q)) := by
  intro c composed fresh hd
  have hfaithful : Cache.Faithful options.legacyFragmentVariables (liveTexts history) c :=
    (Cache.Faithful.empty options).run history hlegacy
  have hretaining : Cache.Retaining (liveTexts history) c :=
    (Cache.Retaining.empty options).run history
  -- The document is under the key of the text now, wherever it came from.
  have houtcome : (c.apply (.parse s)).outcome = some (.ok d) := by
    rw [Cache.apply_of_text rfl, hd]
    rfl
  have hlookup : (c.parseDocument s).cache.lookup (ofSource s) = some d :=
    Cache.lookup_of_outcome rfl houtcome
  obtain ⟨t, ht, hkey, hsource⟩ := hretaining.parseDocument s _ _ hlookup
  have hbare : ∀ u ∈ s :: liveTexts history, Bare u := List.forall_mem_cons.2 ⟨hs, hlive⟩
  have hfresh : ∀ u, fresh u =
      (freshDefinitions options.legacyFragmentVariables u).mapError ParseError.message := by
    intro u
    show ((Cache.empty c.options).parseDocument u).definitions.mapError _ = _
    rw [Cache.definitions_empty, hfaithful.legacy_eq]
  have hcomposed : composed = fresh (p ++ t ++ q) := by
    rw [hfresh]
    refine (Cache.verdict_splice _ hsource p q).trans ?_
    exact (hfaithful.parseDocument s).verdict hbare ((hp.append (hbare t ht)).append hq)
  have hexchange : ofSource (p ++ t ++ q) = ofSource (p ++ s ++ q) →
      composed = fresh (p ++ s ++ q) := by
    intro heq
    rw [hcomposed, hfresh, hfresh]
    exact freshVerdict_eq _ ((hp.append (hbare t ht)).append hq) ((hp.append hs).append hq) heq
  refine ⟨t, List.mem_cons.1 ht, hkey, hsource, hcomposed, hexchange, fun hgap htq hsq => ?_⟩
  exact hexchange (ofSource_exchange hgap htq hsq hp.quote_not_mem (hbare t ht).quote_not_mem
    hs.quote_not_mem hkey)

/-- A line end keeps the literal out of the comment that the document brings. -/
theorem parseTemplate_composes_example :
    let history := [.parse "\x7b a \x7d # b", .parse "\x7b c \x7d"]
    let c := (Cache.empty {}).run history
    (∀ on, .setLegacyFragmentVariables on ∈ history → on = false) ∧
      (∀ t ∈ liveTexts history, Bare t) ∧ Bare "\x7b,a \x7d" ∧ Bare "" ∧ Bare "\n\x7b d \x7d" ∧
      ∃ d, (c.parseDocument "\x7b,a \x7d").outcome = .ok d ∧
        ((c.parseDocument "\x7b,a \x7d").cache.parseTemplate ["", "\n\x7b d \x7d"]
            [.document d.document]).verdict AssemblyError.message =
          ((Cache.empty c.options).parseDocument ("" ++ "\x7b,a \x7d" ++ "\n\x7b d \x7d")).verdict
            ParseError.message := by
  intro history c
  have hlegacy : ∀ on, .setLegacyFragmentVariables on ∈ history → on = false := by
    intro on hon
    simp [history] at hon
  have hlive : ∀ t ∈ liveTexts history, Bare t := by decide +kernel
  have hs : Bare "\x7b,a \x7d" := by decide +kernel
  have hp : Bare "" := by decide +kernel
  have hq : Bare "\n\x7b d \x7d" := by decide +kernel
  obtain ⟨d, hd⟩ := Answer.exists_document (a := c.parseDocument "\x7b,a \x7d") (by decide +kernel)
  obtain ⟨t, -, -, -, -, -, hgaps⟩ :=
    parseTemplate_composes {} history hlegacy hlive _ _ _ hs hp hq d hd
  have hstarts : Lexer.StartsLine "\n\x7b d \x7d".toList := by
    rintro e ⟨⟩
    rfl
  have hgap : ∀ x, GapBetween x "\n\x7b d \x7d".toList := fun x =>
    ⟨fun e he => .inl (by cases he; rfl), fun _ => hstarts⟩
  exact ⟨hlegacy, hlive, hs, hp, hq, d, hd, hgaps ⟨nofun, rfl⟩ (hgap _) (hgap _)⟩

/-- A document brings a comment that it was not asked for with, and the comment takes
the literal behind it. -/
theorem parseTemplate_not_composing :
    let c := (Cache.empty {}).run [.parse "\x7b a \x7d # b"]
    Bare "\x7b a \x7d # b" ∧ Bare "\x7b a \x7d" ∧ Bare "" ∧ Bare "\x7b c \x7d" ∧
      ∃ d, (c.parseDocument "\x7b a \x7d").outcome = .ok d ∧
        ((c.parseDocument "\x7b a \x7d").cache.parseTemplate ["", "\x7b c \x7d"]
            [.document d.document]).verdict AssemblyError.message ≠
          ((Cache.empty c.options).parseDocument ("" ++ "\x7b a \x7d" ++ "\x7b c \x7d")).verdict
            ParseError.message := by
  intro c
  obtain ⟨d, hd⟩ := Answer.exists_document (a := c.parseDocument "\x7b a \x7d") (by decide +kernel)
  refine ⟨by decide +kernel, by decide +kernel, by decide +kernel, by decide +kernel, d, hd, ?_⟩
  have hone : (c.parseDocument "\x7b a \x7d").outcome.toOption.map (fun d =>
      (((c.parseDocument "\x7b a \x7d").cache.parseTemplate ["", "\x7b c \x7d"]
        [.document d.document]).verdict AssemblyError.message).toOption.map List.length) =
      some (some 1) := by decide +kernel
  have htwo : (((Cache.empty c.options).parseDocument
      ("" ++ "\x7b a \x7d" ++ "\x7b c \x7d")).verdict ParseError.message).toOption.map
        List.length = some 2 := by decide +kernel
  intro heq
  rw [hd] at hone
  rw [← heq] at htwo
  exact absurd ((Option.some.inj hone).symm.trans htwo) (by decide)

end GraphQL
