import GraphQL.Cache
import GraphQL.Proofs.Document.Spans
import GraphQL.Proofs.Fragments.Fingerprints
import GraphQL.Proofs.Key.Definitions

/-!
What a text gives in a cache that knows nothing. It does not depend on which
fragments have been registered, and regular texts with one key give definitions
that are alike.
-/

namespace GraphQL

/-- The definitions that an operation answered with, or its error. -/
def Answer.definitions {ε : Type} (a : Answer ε) : Except ε (List Definition) :=
  a.outcome.map (·.document.definitions)

/-- The definitions of a text without duplicates and spans, or its error. -/
def freshDefinitions (legacy : Bool) (text : String) : Except ParseError (List Definition) := do
  let d ← GraphQL.parseDocument ⟨legacy⟩ text
  match registerFragments .empty text d with
  | .error name => throw (Cache.unplacedFragment text name)
  | .ok a => return a.kept.map Definition.strip

/-- The registry makes no difference to the definitions. -/
theorem enrollSource_definitions (c : Cache) (text : String) :
    (c.enrollSource text).map (·.1.document.definitions) =
      freshDefinitions c.options.legacyFragmentVariables text := by
  unfold Cache.enrollSource freshDefinitions registerFragments
  cases GraphQL.parseDocument ⟨c.options.legacyFragmentVariables⟩ text with
  | error e => rfl
  | ok d =>
      cases hcs : candidates text d.definitions with
      | error name =>
          simp only [bind, Except.bind, hcs]
          rfl
      | ok cs =>
          simp only [bind, Except.bind, hcs]
          show Except.ok ((enroll c.fragments [] cs).kept.map Definition.strip) = _
          rw [Enrollment.kept_eq c.fragments .empty]
          rfl

namespace Cache

variable {c : Cache} {text : String}

/-- A cache that has noted that a text is not in it. -/
def missed (c : Cache) : Cache := { c with misses := c.misses + 1 }

theorem parseDocument_of_hit {d : SharedDocument} (h : c.lookup (Key.ofSource text) = some d) :
    c.parseDocument text =
      ⟨{ c with hits := c.hits + 1 }, .ok d, [.hit (Key.ofSource text).utf8ByteSize], []⟩ := by
  simp only [parseDocument, h]

theorem parseDocument_of_error (h : c.lookup (Key.ofSource text) = none) {e : ParseError}
    (he : c.missed.enrollSource text = .error e) :
    c.parseDocument text = ⟨c.missed, .error e,
      [.miss (Key.ofSource text).utf8ByteSize c.options.legacyFragmentVariables], []⟩ := by
  rw [missed] at he
  simp only [parseDocument, h, he, missed]

theorem parseDocument_of_ok (h : c.lookup (Key.ofSource text) = none) {d : SharedDocument}
    {a : Enrollment} (ha : c.missed.enrollSource text = .ok (d, a)) :
    c.parseDocument text = ⟨c.missed.insert (Key.ofSource text) d a, .ok d,
      [.miss (Key.ofSource text).utf8ByteSize c.options.legacyFragmentVariables],
      if c.options.warnOnFragmentConflicts then a.conflicts else []⟩ := by
  rw [missed] at ha
  simp only [parseDocument, h, ha, missed]

/-- A text is found, or refused, or put in. -/
theorem parseDocument_cases (c : Cache) (text : String) :
    (∃ d, c.lookup (Key.ofSource text) = some d ∧ c.parseDocument text =
      ⟨{ c with hits := c.hits + 1 }, .ok d, [.hit (Key.ofSource text).utf8ByteSize], []⟩) ∨
    (∃ e, c.lookup (Key.ofSource text) = none ∧ c.missed.enrollSource text = .error e ∧
      c.parseDocument text = ⟨c.missed, .error e,
        [.miss (Key.ofSource text).utf8ByteSize c.options.legacyFragmentVariables], []⟩) ∨
    ∃ d a, c.lookup (Key.ofSource text) = none ∧ c.missed.enrollSource text = .ok (d, a) ∧
      c.parseDocument text = ⟨c.missed.insert (Key.ofSource text) d a, .ok d,
        [.miss (Key.ofSource text).utf8ByteSize c.options.legacyFragmentVariables],
        if c.options.warnOnFragmentConflicts then a.conflicts else []⟩ := by
  cases hlookup : c.lookup (Key.ofSource text) with
  | some d => exact .inl ⟨d, rfl, parseDocument_of_hit hlookup⟩
  | none =>
      right
      cases ha : c.missed.enrollSource text with
      | error e => exact .inl ⟨e, rfl, rfl, parseDocument_of_error hlookup ha⟩
      | ok r => exact .inr ⟨r.1, r.2, rfl, rfl, parseDocument_of_ok hlookup ha⟩

theorem definitions_of_hit {d : SharedDocument} (h : c.lookup (Key.ofSource text) = some d) :
    (c.parseDocument text).definitions = .ok d.document.definitions := by
  rw [parseDocument_of_hit h]
  rfl

/-- A text whose key is new is parsed. -/
theorem definitions_of_miss (h : c.lookup (Key.ofSource text) = none) :
    (c.parseDocument text).definitions =
      freshDefinitions c.options.legacyFragmentVariables text := by
  have hfresh := enrollSource_definitions c.missed text
  cases ha : c.missed.enrollSource text with
  | error e =>
      rw [ha] at hfresh
      rw [parseDocument_of_error h ha]
      exact hfresh
  | ok r =>
      rw [ha] at hfresh
      rw [parseDocument_of_ok h ha]
      exact hfresh

/-- An empty cache gives what the text gives on its own. -/
theorem definitions_empty (options : CacheOptions) (text : String) :
    ((empty options).parseDocument text).definitions =
      freshDefinitions options.legacyFragmentVariables text :=
  definitions_of_miss rfl

end Cache

/-! ### Texts that are documents -/

theorem parseDocument_eq_ok {options : ParseOptions} {text : String}
    (h : (parse options text).diagnostics = ⟨[]⟩) :
    GraphQL.parseDocument options text = .ok (parse options text).document := by
  unfold GraphQL.parseDocument ParseResult.toExcept
  rw [h]
  rfl

theorem parseDocument_eq_error {options : ParseOptions} {text : String}
    (h : (parse options text).diagnostics ≠ ⟨[]⟩) :
    ∃ e, GraphQL.parseDocument options text = .error e := by
  rw [diagnostics_parse] at h
  unfold GraphQL.parseDocument ParseResult.toExcept
  rw [diagnostics_parse]
  cases herror : (Grammar.read options.legacyFragmentVariables (lexemes text)).error? with
  | none =>
      rw [herror] at h
      exact absurd rfl h
  | some e => exact ⟨_, rfl⟩

/-- The error of an outcome that is not good. -/
def errorOf? {ε α : Type} : Except ε α → Option ε
  | .error e => some e
  | .ok _ => none

/-- Why a text is no document, if it is none. -/
def syntaxError? (legacy : Bool) (text : String) : Option ParseError :=
  errorOf? (GraphQL.parseDocument ⟨legacy⟩ text)

theorem syntaxError?_eq_none_iff {legacy : Bool} {text : String} :
    syntaxError? legacy text = none ↔ (parse ⟨legacy⟩ text).diagnostics = ⟨[]⟩ := by
  unfold syntaxError?
  constructor
  · intro hnone
    by_contra hrejected
    obtain ⟨e, he⟩ := parseDocument_eq_error hrejected
    rw [he] at hnone
    cases hnone
  · intro haccepted
    rw [parseDocument_eq_ok haccepted]
    rfl

theorem parseDocument_eq {legacy : Bool} {text : String} :
    GraphQL.parseDocument ⟨legacy⟩ text =
      match syntaxError? legacy text with
      | some e => .error e
      | none => .ok (parse ⟨legacy⟩ text).document := by
  by_cases haccepted : (parse ⟨legacy⟩ text).diagnostics = ⟨[]⟩
  · rw [syntaxError?_eq_none_iff.2 haccepted, parseDocument_eq_ok haccepted]
  · obtain ⟨e, he⟩ := parseDocument_eq_error haccepted
    rw [syntaxError?, he]
    rfl

/-- The definitions of a text that is read without a diagnostic. -/
theorem freshDefinitions_eq_ok {legacy : Bool} {text : String}
    (h : (parse ⟨legacy⟩ text).diagnostics = ⟨[]⟩) :
    freshDefinitions legacy text =
      .ok ((enroll .empty [] ((parse ⟨legacy⟩ text).document.definitions.map
        fun d => ⟨d, d.fingerprint? text⟩)).kept.map Definition.strip) := by
  unfold freshDefinitions
  rw [parseDocument_eq_ok h]
  show (match registerFragments .empty text (parse ⟨legacy⟩ text).document with
    | .error name => throw (Cache.unplacedFragment text name)
    | .ok a => pure (a.kept.map Definition.strip)) = _
  rw [registerFragments_of_parse]
  rfl

theorem freshDefinitions_eq_error {legacy : Bool} {text : String}
    (h : (parse ⟨legacy⟩ text).diagnostics ≠ ⟨[]⟩) :
    ∃ e, freshDefinitions legacy text = .error e := by
  obtain ⟨e, he⟩ := parseDocument_eq_error h
  unfold freshDefinitions
  rw [he]
  exact ⟨e, rfl⟩

/-- A text that gives definitions is regular if its block strings are. -/
theorem regular_of_freshDefinitions {legacy : Bool} {text : String} {ds : List Definition}
    (h : freshDefinitions legacy text = .ok ds) (hblock : Key.BlockRegular text) :
    Key.Regular text := by
  have hread : (parse ⟨legacy⟩ text).diagnostics = ⟨[]⟩ := by
    by_contra hread
    obtain ⟨e, he⟩ := freshDefinitions_eq_error hread
    rw [he] at h
    cases h
  exact Key.regular_of_parse hread hblock

/-! ### Texts with one key -/

theorem forall₂_of_map_eq {α β : Type} {f : α → β} {xs ys : List α} (h : xs.map f = ys.map f) :
    List.Forall₂ (fun x y => f x = f y) xs ys := by
  have hmap : List.Forall₂ (· = ·) (xs.map f) (ys.map f) := by
    rw [h]
    exact List.forall₂_same.2 fun _ _ => rfl
  rwa [List.forall₂_map_left_iff, List.forall₂_map_right_iff] at hmap

section
variable {s t : String} (hs : Key.Regular s) (ht : Key.Regular t)
  (hkey : Key.ofSource s = Key.ofSource t)
include hs ht hkey

/-- Fragments at the same site have the same body. -/
theorem map_body_fingerprint?_eq {legacy : Bool} {ds es : List Definition}
    (hds : Grammar.Placed legacy 0 ds (lexemes s)) (hes : Grammar.Placed legacy 0 es (lexemes t))
    {d e : Definition} (hd : d ∈ ds) (he : e ∈ es) (hsite : d.site = e.site) :
    ((d.mapSpans (Option.map (placeSpan (tokenize s).toArray))).fingerprint? s).map
        Fingerprint.body =
      ((e.mapSpans (Option.map (placeSpan (tokenize t).toArray))).fingerprint? t).map
        Fingerprint.body := by
  obtain ⟨hspan, hfragment⟩ := Prod.mk.inj hsite
  cases d with
  | fragment f =>
      cases e with
      | fragment g =>
          obtain ⟨front, body, brace, back, hf⟩ := fragmentPieces_of_placed hds hd
          obtain ⟨front', body', brace', back', hg⟩ := fragmentPieces_of_placed hes he
          show (FragmentDefinition.fingerprint? s (f.mapSpans _)).map _ =
            (FragmentDefinition.fingerprint? t (g.mapSpans _)).map _
          rw [FragmentDefinition.fingerprint?_eq, FragmentDefinition.fingerprint?_eq, hf.text?_eq,
            hg.text?_eq]
          simp only [Option.map_some, Key.ofSource, String.toList_ofList,
            hf.ofText_eq hg hspan hs ht hkey]
      | _ => cases hfragment
  | _ =>
      cases e with
      | fragment g => cases hfragment
      | _ => rfl

/-- What is kept of two texts is related as all their definitions are. -/
theorem kept_forall₂_of_parse {options : ParseOptions}
    (hreads : (parse options s).diagnostics = ⟨[]⟩)
    (hreadt : (parse options t).diagnostics = ⟨[]⟩) {R : Definition → Definition → Prop}
    (h : List.Forall₂ R (parse options s).document.definitions
      (parse options t).document.definitions) :
    List.Forall₂ R
      (enroll .empty [] ((parse options s).document.definitions.map
        fun d => ⟨d, d.fingerprint? s⟩)).kept
      (enroll .empty [] ((parse options t).document.definitions.map
        fun d => ⟨d, d.fingerprint? t⟩)).kept := by
  have hplaced := (placed_of_parse hreads).2
  have hplaced' := (placed_of_parse hreadt).2
  have hsites := List.forall₂_iff_zip.1 (forall₂_of_map_eq
    (map_site_eq hs ht hkey options.legacyFragmentVariables))
  refine Enrollment.kept_forall₂ _ _ _ ?_
  rw [List.forall₂_map_left_iff, List.forall₂_map_right_iff]
  refine h.mp (fun _ _ hr hbody => ⟨hr, hbody⟩) ?_
  rw [definitions_parse, definitions_parse, List.forall₂_map_left_iff,
    List.forall₂_map_right_iff]
  refine List.forall₂_iff_zip.2 ⟨hsites.1, fun hmem => ?_⟩
  obtain ⟨hd, he⟩ := List.of_mem_zip hmem
  exact map_body_fingerprint?_eq hs ht hkey hplaced hplaced' hd he (hsites.2 hmem)

/-- Of two texts, both give definitions or none does; the definitions are related as
those that were read. -/
theorem freshDefinitions_rel (legacy : Bool) {R : Definition → Definition → Prop}
    (h : (parse ⟨legacy⟩ s).diagnostics = ⟨[]⟩ → (parse ⟨legacy⟩ t).diagnostics = ⟨[]⟩ →
      List.Forall₂ (fun d e => R d.strip e.strip) (parse ⟨legacy⟩ s).document.definitions
        (parse ⟨legacy⟩ t).document.definitions) :
    Option.Rel (List.Forall₂ R) (freshDefinitions legacy s).toOption
      (freshDefinitions legacy t).toOption := by
  have hdiagnostics := diagnostics_parse_iff hs ht hkey ⟨legacy⟩
  by_cases hreads : (parse ⟨legacy⟩ s).diagnostics = ⟨[]⟩
  · have hreadt := hdiagnostics.1 hreads
    rw [freshDefinitions_eq_ok hreads, freshDefinitions_eq_ok hreadt]
    refine .some ?_
    rw [List.forall₂_map_left_iff, List.forall₂_map_right_iff]
    exact kept_forall₂_of_parse hs ht hkey hreads hreadt (h hreads hreadt)
  · obtain ⟨e, he⟩ := freshDefinitions_eq_error hreads
    obtain ⟨e', he'⟩ := freshDefinitions_eq_error fun hreadt => hreads (hdiagnostics.2 hreadt)
    rw [he, he']
    exact .none

/-- Regular texts with one key give definitions that are alike, or none of them gives
any. -/
theorem freshDefinitions_alike (legacy : Bool) :
    Option.Rel (List.Forall₂ Definition.Alike) (freshDefinitions legacy s).toOption
      (freshDefinitions legacy t).toOption :=
  freshDefinitions_rel hs ht hkey legacy fun hreads hreadt =>
    (alike_of_parse hs ht hkey hreads hreadt).imp fun _ _ h => h.mapSpans _ _

/-- Where the same is written in strings, they give the same definitions. -/
theorem freshDefinitions_eq (hstrings : Key.SameStrings s t) (legacy : Bool) :
    (freshDefinitions legacy s).toOption = (freshDefinitions legacy t).toOption := by
  -- Both texts are read as the same tree; only the spans put into it differ.
  have hrel := freshDefinitions_rel (R := (· = ·)) hs ht hkey legacy fun _ _ => by
    rw [definitions_parse, definitions_parse, Key.lexemes_eq hs ht hkey hstrings,
      List.forall₂_map_left_iff, List.forall₂_map_right_iff]
    exact List.forall₂_same.2 fun d _ => (d.strip_mapSpans _).trans (d.strip_mapSpans _).symm
  rw [List.forall₂_eq_eq_eq] at hrel
  generalize (freshDefinitions legacy s).toOption = o, (freshDefinitions legacy t).toOption = o'
    at hrel ⊢
  cases hrel with
  | some h => exact congrArg some h
  | none => rfl

end

end GraphQL
