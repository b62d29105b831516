import GraphQL.Cache.Operation
import GraphQL.Proofs.Cache.Fresh

/-!
What a cache answers. However it was used, what it gives for a text is what that
text, or another one with the same key that was parsed since the last reset, gives
on its own. Among regular texts that makes no difference but for separators in
strings.
-/

namespace GraphQL

/-! ### The texts that a cache may know -/

/-- The text that an operation has parsed. -/
def Operation.text? : Operation → Option String
  | parse source => some source
  | template literals values => (assemble literals values).toOption
  | _ => none

/-- The texts parsed since the last reset, after one more operation. -/
def Operation.liveTexts (live : List String) (op : Operation) : List String :=
  match op with
  | reset => []
  | op => op.text?.toList ++ live

/-- The texts parsed since the last reset of a history. -/
def liveTexts (history : List Operation) : List String :=
  history.foldl Operation.liveTexts []

namespace Cache

/-- Every document in a cache is that of some text of a list, under its key. -/
structure Faithful (legacy : Bool) (texts : List String) (c : Cache) : Prop where
  legacy_eq : c.options.legacyFragmentVariables = legacy
  documents : ∀ key d, c.lookup key = some d →
    ∃ t ∈ texts, Key.ofSource t = key ∧ freshDefinitions legacy t = .ok d.document.definitions

namespace Faithful

variable {legacy : Bool} {texts : List String} {c : Cache}

theorem empty (options : CacheOptions) :
    Faithful options.legacyFragmentVariables [] (Cache.empty options) :=
  ⟨rfl, fun _ _ h => nomatch h⟩

theorem mono (h : Faithful legacy texts c) {texts' : List String}
    (ht : ∀ t ∈ texts, t ∈ texts') : Faithful legacy texts' c := by
  refine ⟨h.legacy_eq, fun key d hd => ?_⟩
  obtain ⟨t, hmem, hkey, hfresh⟩ := h.documents key d hd
  exact ⟨t, ht t hmem, hkey, hfresh⟩

/-- Only a document that is inserted is new to a cache. -/
theorem parseDocument (h : Faithful legacy texts c) (text : String) :
    Faithful legacy (text :: texts) (c.parseDocument text).cache := by
  have hmono := h.mono fun t ht => List.mem_cons_of_mem text ht
  rcases c.parseDocument_cases text with ⟨d, -, heq⟩ | ⟨e, -, -, heq⟩ | ⟨d, a, -, ha, heq⟩
  · rw [heq]
    exact ⟨hmono.legacy_eq, hmono.documents⟩
  · rw [heq]
    exact ⟨hmono.legacy_eq, hmono.documents⟩
  · have hfresh := enrollSource_definitions c.missed text
    rw [ha, show c.missed.options.legacyFragmentVariables = legacy from h.legacy_eq] at hfresh
    rw [heq]
    -- Under its own key there is the new document now, under any other what was there.
    refine ⟨h.legacy_eq, fun key d' hd' => ?_⟩
    change List.lookup key ((Key.ofSource text, d) :: c.documents) = some d' at hd'
    rw [List.lookup_cons] at hd'
    cases hkey : key == Key.ofSource text with
    | true =>
        rw [hkey] at hd'
        cases hd'
        exact ⟨text, List.mem_cons_self, (eq_of_beq hkey).symm, hfresh.symm⟩
    | false =>
        rw [hkey] at hd'
        exact hmono.documents key d' hd'

theorem parseTemplate (h : Faithful legacy texts c) (literals : List String)
    (values : List Splice) :
    Faithful legacy ((assemble literals values).toOption.toList ++ texts)
      (c.parseTemplate literals values).cache := by
  unfold Cache.parseTemplate
  cases assemble literals values with
  | error e => exact h
  | ok text => exact h.parseDocument text

/-- Every operation that leaves the setting as it is keeps a cache faithful. -/
theorem apply (h : Faithful legacy texts c) {op : Operation}
    (hop : ∀ on, op = .setLegacyFragmentVariables on → on = legacy) :
    Faithful legacy (op.liveTexts texts) (c.apply op).cache := by
  cases op with
  | parse source => exact h.parseDocument source
  | template literals values => exact h.parseTemplate literals values
  | reset => exact ⟨h.legacy_eq, fun _ _ hd => nomatch hd⟩
  | setFragmentWarnings on => exact ⟨h.legacy_eq, h.documents⟩
  | setLegacyFragmentVariables on => exact ⟨hop on rfl, h.documents⟩

theorem run (h : Faithful legacy texts c) (history : List Operation)
    (hhistory : ∀ on, .setLegacyFragmentVariables on ∈ history → on = legacy) :
    Faithful legacy (history.foldl Operation.liveTexts texts) (c.run history) := by
  induction history generalizing texts c with
  | nil => exact h
  | cons op history ih =>
      refine ih (h.apply fun on hon => ?_) fun on hon => ?_
      · exact hhistory on (hon ▸ List.mem_cons_self)
      · exact hhistory on (List.mem_cons_of_mem _ hon)

/-- What a faithful cache answers. -/
theorem definitions (h : Faithful legacy texts c) (s : String) :
    (c.parseDocument s).definitions = freshDefinitions legacy s ∨
      ∃ t ∈ texts, Key.ofSource t = Key.ofSource s ∧
        ∃ ds, (c.parseDocument s).definitions = .ok ds ∧ freshDefinitions legacy t = .ok ds := by
  cases hlookup : c.lookup (Key.ofSource s) with
  | none =>
      left
      rw [definitions_of_miss hlookup, h.legacy_eq]
  | some d =>
      right
      obtain ⟨t, ht, hkey, hfresh⟩ := h.documents _ _ hlookup
      exact ⟨t, ht, hkey, _, definitions_of_hit hlookup, hfresh⟩

section
variable (h : Faithful legacy texts c) {s : String} (hs : Key.Regular s)
  (htexts : ∀ t ∈ texts, Key.ofSource t = Key.ofSource s → Key.BlockRegular t)
include h hs htexts

/-- Among regular texts the definitions are alike, whichever of them was parsed. -/
theorem definitions_alike :
    Option.Rel (List.Forall₂ Definition.Alike) (c.parseDocument s).definitions.toOption
      (freshDefinitions legacy s).toOption := by
  rcases h.definitions s with hmiss | ⟨t, ht, hkey, ds, hds, hdt⟩
  · rw [hmiss]
    exact freshDefinitions_alike hs hs rfl legacy
  · have hregular := regular_of_freshDefinitions hdt (htexts t ht hkey)
    have halike := freshDefinitions_alike hregular hs hkey legacy
    rw [hdt] at halike
    rw [hds]
    exact halike

/-- Among regular texts no error is hidden, and none is made up. -/
theorem error_iff (e : ParseError) :
    (c.parseDocument s).definitions = .error e ↔ freshDefinitions legacy s = .error e := by
  have halike := h.definitions_alike hs htexts
  rcases h.definitions s with hmiss | ⟨t, -, -, ds, hds, -⟩
  · rw [hmiss]
  · -- A text that is found gives no error, nor does the text it is taken for.
    rw [hds] at halike ⊢
    refine ⟨nofun, fun he => ?_⟩
    rw [he] at halike
    cases halike

/-- Where the same is written in strings, it makes no difference which text was
parsed. -/
theorem definitions_eq
    (hstrings : ∀ t ∈ texts, Key.ofSource t = Key.ofSource s → Key.SameStrings t s) :
    (c.parseDocument s).definitions = freshDefinitions legacy s := by
  rcases h.definitions s with hmiss | ⟨t, ht, hkey, ds, hds, hdt⟩
  · exact hmiss
  · have hregular := regular_of_freshDefinitions hdt (htexts t ht hkey)
    have heq := freshDefinitions_eq hregular hs hkey (hstrings t ht hkey) legacy
    rw [hdt] at heq
    rw [hds]
    cases hfresh : freshDefinitions legacy s with
    | error e =>
        rw [hfresh] at heq
        cases heq
    | ok ds' =>
        rw [hfresh] at heq
        exact congrArg Except.ok (Option.some.inj heq)

end

end Faithful
end Cache

/-- What a cache gives for a text is what the text gives in an empty cache, or what
a text of the same key that was parsed since the last reset gives there. If the text
is regular, and so are the block strings of all those, it fails as it would in an
empty cache, or gives definitions that are alike, and the same where the same is
written in strings. Of two regular texts with one key, too, both fail or they give
such definitions. -/
theorem parseDocument_transparent (options : CacheOptions) (history : List Operation)
    (hlegacy : ∀ on, .setLegacyFragmentVariables on ∈ history →
      on = options.legacyFragmentVariables) (s : String) :
    let c := (Cache.empty options).run history
    let fresh := fun t => ((Cache.empty c.options).parseDocument t).definitions
    (∃ t, (t = s ∨ t ∈ liveTexts history) ∧ Key.ofSource t = Key.ofSource s ∧
      (c.parseDocument s).definitions = fresh t) ∧
    (Key.Regular s →
      (∀ t ∈ liveTexts history, Key.ofSource t = Key.ofSource s → Key.BlockRegular t) →
      (∀ e, (c.parseDocument s).definitions = .error e ↔ fresh s = .error e) ∧
        Option.Rel (List.Forall₂ Definition.Alike) (c.parseDocument s).definitions.toOption
          (fresh s).toOption ∧
        ((∀ t ∈ liveTexts history, Key.ofSource t = Key.ofSource s → Key.SameStrings t s) →
          (c.parseDocument s).definitions = fresh s)) ∧
    (∀ t, Key.ofSource t = Key.ofSource s → Key.Regular t → Key.Regular s →
      (lexemes t).map Lexeme.squeezed = (lexemes s).map Lexeme.squeezed ∧
        Option.Rel (List.Forall₂ Definition.Alike) (fresh t).toOption (fresh s).toOption ∧
        (Key.SameStrings t s → (fresh t).toOption = (fresh s).toOption)) := by
  intro c fresh
  have hfaithful : Cache.Faithful options.legacyFragmentVariables (liveTexts history) c :=
    (Cache.Faithful.empty options).run history hlegacy
  have hfresh : ∀ t, fresh t = freshDefinitions options.legacyFragmentVariables t := fun t => by
    rw [← hfaithful.legacy_eq]
    exact Cache.definitions_empty c.options t
  refine ⟨?_, fun hs hlive => ?_, fun t hkey ht hs => ?_⟩
  · rcases hfaithful.definitions s with hmiss | ⟨t, ht, hkey, ds, hds, hdt⟩
    · exact ⟨s, .inl rfl, rfl, by rw [hmiss, hfresh]⟩
    · exact ⟨t, .inr ht, hkey, by rw [hds, hfresh, hdt]⟩
  · rw [hfresh]
    exact ⟨hfaithful.error_iff hs hlive, hfaithful.definitions_alike hs hlive,
      hfaithful.definitions_eq hs hlive⟩
  · rw [hfresh, hfresh]
    exact ⟨Key.map_squeezed_eq ht hs hkey, freshDefinitions_alike ht hs hkey _,
      fun hstrings => freshDefinitions_eq ht hs hkey hstrings _⟩

theorem parseDocument_transparent_example :
    let history := [.parse "\x7b a \x7d", .setFragmentWarnings false]
    let c := (Cache.empty {}).run history
    (∀ on, .setLegacyFragmentVariables on ∈ history → on = false) ∧
      (c.parseDocument "\x7ba,\x7d").definitions =
        ((Cache.empty c.options).parseDocument "\x7ba,\x7d").definitions := by
  intro history c
  have hlegacy : ∀ on, .setLegacyFragmentVariables on ∈ history → on = false := by
    intro on hon
    simp [history] at hon
  obtain ⟨-, htransparent, -⟩ := parseDocument_transparent {} history hlegacy "\x7ba,\x7d"
  obtain ⟨-, -, heq⟩ := htransparent (by decide +kernel) (by decide +kernel)
  exact ⟨hlegacy, heq (by decide +kernel)⟩

/-- A cache gives a document whose strings have other spaces than those asked for. -/
theorem parseDocument_not_transparent :
    let c := (Cache.empty {}).run [.parse "\x7b a(b: \"x  y\") \x7d"]
    (c.parseDocument "\x7b a(b: \"x y\") \x7d").definitions ≠
      ((Cache.empty c.options).parseDocument "\x7b a(b: \"x y\") \x7d").definitions := by
  intro c h
  have hdiffer : (c.parseDocument "\x7b a(b: \"x y\") \x7d").definitions.toOption ≠
      ((Cache.empty c.options).parseDocument "\x7b a(b: \"x y\") \x7d").definitions.toOption := by
    decide +kernel
  exact hdiffer (congrArg _ h)

end GraphQL
