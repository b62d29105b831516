import GraphQL.Document.Equality
import GraphQL.Proofs.Fragments.Locations
import GraphQL.Proofs.Key.Strings

/-!
What fingerprints tell apart. Regular fragments with the same fingerprint are equal
up to spans and separators in strings. So a fragment that is dropped duplicates one
that is kept, and two that differ do not stand under one name without a conflict
that tells so.
-/

namespace GraphQL

open Grammar

namespace FragmentDefinition

/-- The block strings of a fragment are regular. -/
def Regular (source : String) (f : FragmentDefinition) : Prop :=
  ∃ text, f.text? source = some text ∧ Key.BlockRegular text

/-- The texts of two fragments, each in its own source, are in a relation. -/
def TextsRelate (R : String → String → Prop) (source₁ : String) (f₁ : FragmentDefinition)
    (source₂ : String) (f₂ : FragmentDefinition) : Prop :=
  ∃ text₁ text₂, f₁.text? source₁ = some text₁ ∧ f₂.text? source₂ = some text₂ ∧ R text₁ text₂

/-- One fragment duplicates another: in their sources they have the same lexemes but for
separators in strings, and they are equal up to spans where the same is written in their
strings. -/
structure Duplicates (source₁ : String) (f₁ : FragmentDefinition) (source₂ : String)
    (f₂ : FragmentDefinition) : Prop where
  lexemes : f₁.TextsRelate Key.SameLexemes source₁ source₂ f₂
  strip_eq : f₁.TextsRelate Key.SameStrings source₁ source₂ f₂ →
    (Definition.fragment f₁).strip = (Definition.fragment f₂).strip

/-- A fragment has no other text than the one under its span. -/
theorem textsRelate_iff {R : String → String → Prop} {source₁ source₂ text₁ text₂ : String}
    {f₁ f₂ : FragmentDefinition} (h₁ : f₁.text? source₁ = some text₁)
    (h₂ : f₂.text? source₂ = some text₂) :
    f₁.TextsRelate R source₁ source₂ f₂ ↔ R text₁ text₂ := by
  constructor
  · rintro ⟨own₁, own₂, hown₁, hown₂, hR⟩
    cases h₁.symm.trans hown₁
    cases h₂.symm.trans hown₂
    exact hR
  · exact fun hR => ⟨text₁, text₂, h₁, h₂, hR⟩

end FragmentDefinition

/-! ### Fingerprints of fragments that were read -/

theorem name_of_fingerprint? {source : String} {f : FragmentDefinition} {p : Fingerprint}
    (h : f.fingerprint? source = some p) : p.name = f.name.value := by
  rw [f.fingerprint?_eq] at h
  obtain ⟨text, -, rfl⟩ := Option.map_eq_some_iff.1 h
  rfl

/-- A fragment is kept, or one with the same body is. -/
theorem kept_of_fragment (r : FragmentRegistry) {source : String} {ds : List Definition}
    {f : FragmentDefinition} (hf : .fragment f ∈ ds) {p : Fingerprint}
    (hp : f.fingerprint? source = some p) :
    ∃ g, .fragment g ∈ ds ∧ ∃ q, g.fingerprint? source = some q ∧ q.body = p.body ∧
      .fragment g ∈ (enroll r [] (ds.map fun d => ⟨d, d.fingerprint? source⟩)).kept := by
  have hmem : ⟨.fragment f, some p⟩ ∈
      ds.map fun d => (⟨d, d.fingerprint? source⟩ : Candidate) := by
    refine List.mem_map.2 ⟨_, hf, ?_⟩
    rw [Definition.fingerprint?, hp]
  obtain ⟨e, q, he, hbody, hkept⟩ := Enrollment.kept_of_mem (r := r) hmem List.not_mem_nil
  obtain ⟨d, hd, heq⟩ := List.mem_map.1 he
  cases d with
  | fragment g =>
      obtain ⟨rfl, hq⟩ := Candidate.mk.inj heq
      exact ⟨g, hd, q, hq, hbody, hkept⟩
  | _ => cases heq

/-- The body of a fingerprint is the key of a text that spells the fragment. -/
theorem text_of_fingerprint? {options : ParseOptions} {source : String}
    (h : (parse options source).diagnostics = ⟨[]⟩) {f : FragmentDefinition}
    (hf : .fragment f ∈ (parse options source).document.definitions) {p : Fingerprint}
    (hp : f.fingerprint? source = some p) :
    ∃ text, f.text? source = some text ∧ p.body = Key.ofSource text ∧
      (f.Regular source → Key.Regular text) ∧
      SpellsValid Definition.slots (Definition.Valid true) (.fragment f) (lexemes text) := by
  obtain ⟨text, htext, hproper, hspells, hvalid⟩ := text_of_parse h hf
  rw [f.fingerprint?_eq, htext] at hp
  cases hp
  -- Whether variables are allowed makes no difference to how the lexemes are read.
  refine ⟨text, htext, rfl, ?_, hspells, hvalid.allow⟩
  rintro ⟨own, hown, hblock⟩ l hl
  rw [htext] at hown
  cases hown
  exact Key.regular_of_proper hl (hproper l hl) (hblock l hl)

/-- Regular fragments with the same fingerprint are duplicates. -/
theorem duplicates_of_body_eq {options₁ options₂ : ParseOptions} {source₁ source₂ : String}
    (h₁ : (parse options₁ source₁).diagnostics = ⟨[]⟩)
    (h₂ : (parse options₂ source₂).diagnostics = ⟨[]⟩) {f₁ f₂ : FragmentDefinition}
    (hf₁ : .fragment f₁ ∈ (parse options₁ source₁).document.definitions)
    (hf₂ : .fragment f₂ ∈ (parse options₂ source₂).document.definitions) {p₁ p₂ : Fingerprint}
    (hp₁ : f₁.fingerprint? source₁ = some p₁) (hp₂ : f₂.fingerprint? source₂ = some p₂)
    (hregular₁ : f₁.Regular source₁) (hregular₂ : f₂.Regular source₂)
    (hbody : p₁.body = p₂.body) : f₁.Duplicates source₁ source₂ f₂ := by
  obtain ⟨text₁, htext₁, hbody₁, htexts₁, hspells₁⟩ := text_of_fingerprint? h₁ hf₁ hp₁
  obtain ⟨text₂, htext₂, hbody₂, htexts₂, hspells₂⟩ := text_of_fingerprint? h₂ hf₂ hp₂
  have hr₁ := htexts₁ hregular₁
  have hr₂ := htexts₂ hregular₂
  rw [hbody₁, hbody₂] at hbody
  have hlexemes : Key.SameLexemes text₁ text₂ := Key.map_squeezed_eq hr₁ hr₂ hbody
  refine ⟨(FragmentDefinition.textsRelate_iff htext₁ htext₂).2 hlexemes, fun hrelate => ?_⟩
  have hstrings := (FragmentDefinition.textsRelate_iff htext₁ htext₂).1 hrelate
  rw [Key.lexemes_eq hr₁ hr₂ hbody hstrings] at hspells₁
  exact strip_eq_of_spells hspells₁.2 hspells₂.2 hspells₁.1 hspells₂.1

/-! ### Runs -/

/-- A registry in which documents that were read have been registered, the latest
first, and the conflicts that were met. -/
inductive Registers :
    List (ParseOptions × String) → FragmentRegistry → List FragmentConflict → Prop
  | empty : Registers [] .empty []
  | register {sources : List (ParseOptions × String)} {r : FragmentRegistry}
      {ks : List FragmentConflict} {options : ParseOptions} {source : String} {a : Enrollment} :
      Registers sources r ks → (parse options source).diagnostics = ⟨[]⟩ →
      registerFragments r source (parse options source).document = .ok a →
      Registers ((options, source) :: sources) a.registry (ks ++ a.conflicts)

namespace Registers

variable {sources : List (ParseOptions × String)} {r : FragmentRegistry}
  {ks : List FragmentConflict}

/-- Every fragment is in the registry. -/
theorem mem_bodies (h : Registers sources r ks) {options : ParseOptions} {source : String}
    (hs : (options, source) ∈ sources) {f : FragmentDefinition}
    (hf : .fragment f ∈ (parse options source).document.definitions) {p : Fingerprint}
    (hp : f.fingerprint? source = some p) : p.body ∈ r.bodies p.name := by
  induction h with
  | empty => cases hs
  | register hrun hread hregister ih =>
      rw [registerFragments_of_parse] at hregister
      cases hregister
      rw [Enrollment.mem_bodies_iff]
      rcases List.mem_cons.1 hs with heq | hs
      · cases heq
        refine .inr ⟨.fragment f, List.mem_map.2 ⟨_, hf, ?_⟩⟩
        rw [Definition.fingerprint?, hp]
      · exact .inl (ih hs)

/-- Of two bodies under one name, one has been reported with the other. -/
theorem reported (h : Registers sources r ks) {name b b' : String} (hne : b ≠ b')
    (hb : b ∈ r.bodies name) (hb' : b' ∈ r.bodies name) :
    ∃ k ∈ ks, k.name = name ∧ (k.body = b ∧ b' ∈ k.previous ∨ k.body = b' ∧ b ∈ k.previous) := by
  induction h with
  | empty => cases hb
  | register hrun hread hregister ih =>
      rw [registerFragments_of_parse] at hregister
      cases hregister
      rcases Enrollment.reports_of_mem hne hb hb' with ⟨hold, hold'⟩ | ⟨k, hk, hreport⟩
      · obtain ⟨k, hk, hreport⟩ := ih hold hold'
        exact ⟨k, List.mem_append_left _ hk, hreport⟩
      · exact ⟨k, List.mem_append_right _ hk, hreport⟩

end Registers

/-- Regular fragments with the same fingerprint are duplicates; a fragment that is
dropped leaves one with the same fingerprint, and so a duplicate; and of fragments of one
name, in whichever documents of a run, both bodies are registered. Where the bodies differ,
as they do if the fragments are no duplicates, one of them is met as a conflict with the
other. -/
theorem fingerprints_sound (options₁ options₂ : ParseOptions) (source₁ source₂ : String)
    (h₁ : (parse options₁ source₁).diagnostics = ⟨[]⟩)
    (h₂ : (parse options₂ source₂).diagnostics = ⟨[]⟩) (f₁ f₂ : FragmentDefinition)
    (hf₁ : .fragment f₁ ∈ (parse options₁ source₁).document.definitions)
    (hf₂ : .fragment f₂ ∈ (parse options₂ source₂).document.definitions) :
    ∃ p₁ p₂, f₁.fingerprint? source₁ = some p₁ ∧ f₂.fingerprint? source₂ = some p₂ ∧
      (f₁.Regular source₁ → f₂.Regular source₂ → p₁.body = p₂.body →
        f₁.Duplicates source₁ source₂ f₂) ∧
      (∀ r, ∃ a, registerFragments r source₁ (parse options₁ source₁).document = .ok a ∧
        ∃ f, .fragment f ∈ a.kept ∧
          (∃ p, f.fingerprint? source₁ = some p ∧ p.body = p₁.body) ∧
          (f₁.Regular source₁ → f.Regular source₁ → f₁.Duplicates source₁ source₁ f)) ∧
      (∀ sources r ks, Registers sources r ks → (options₁, source₁) ∈ sources →
        (options₂, source₂) ∈ sources → f₁.name.value = f₂.name.value →
        p₁.body ∈ r.bodies f₁.name.value ∧ p₂.body ∈ r.bodies f₁.name.value ∧
          (f₁.Regular source₁ → f₂.Regular source₂ → ¬f₁.Duplicates source₁ source₂ f₂ →
            p₁.body ≠ p₂.body) ∧
          (p₁.body ≠ p₂.body → ∃ k ∈ ks, k.name = f₁.name.value ∧
            (k.body = p₁.body ∧ p₂.body ∈ k.previous ∨
              k.body = p₂.body ∧ p₁.body ∈ k.previous))) := by
  obtain ⟨p₁, hp₁⟩ := fingerprint?_of_parse hf₁
  obtain ⟨p₂, hp₂⟩ := fingerprint?_of_parse hf₂
  have hname₁ := name_of_fingerprint? hp₁
  have hname₂ := name_of_fingerprint? hp₂
  have hsound := duplicates_of_body_eq h₁ h₂ hf₁ hf₂ hp₁ hp₂
  refine ⟨p₁, p₂, hp₁, hp₂, hsound,
    fun r => ⟨_, registerFragments_of_parse options₁ source₁ r, ?_⟩, ?_⟩
  · obtain ⟨f, hf, p, hp, hbody, hkept⟩ := kept_of_fragment r hf₁ hp₁
    exact ⟨f, hkept, ⟨p, hp, hbody⟩, fun hregular₁ hregular =>
      duplicates_of_body_eq h₁ h₁ hf₁ hf hp₁ hp hregular₁ hregular hbody.symm⟩
  · intro sources r ks hrun hs₁ hs₂ hname
    have hmem₁ := hrun.mem_bodies hs₁ hf₁ hp₁
    have hmem₂ := hrun.mem_bodies hs₂ hf₂ hp₂
    rw [hname₁] at hmem₁
    rw [hname₂, ← hname] at hmem₂
    refine ⟨hmem₁, hmem₂, fun hregular₁ hregular₂ hdiffer hbody => ?_,
      fun hne => hrun.reported hne hmem₁ hmem₂⟩
    exact hdiffer (hsound hregular₁ hregular₂ hbody)

/-- The second source has other separators than the first one, but not in the string. In the
third one the string has a line end in the place of a space, and its indentation around. -/
theorem fingerprints_sound_example :
    let source := fun text close => "fragment F on T \x7b a(b: \"\"\"" ++ text ++ "\"\"\")" ++ close
    let f := fun value (n m : Nat) => (⟨⟨"F", some ⟨9, 10⟩⟩, none, ⟨"T", some ⟨14, 15⟩⟩, [],
      ⟨[.field ⟨none, ⟨"a", some ⟨18, 19⟩⟩,
        [⟨⟨"b", some ⟨20, 21⟩⟩, .string ⟨value, true, some ⟨23, n⟩⟩, some ⟨20, n⟩⟩],
        [], none, some ⟨18, n + 1⟩⟩], some ⟨16, m⟩⟩, some ⟨0, m⟩⟩ : FragmentDefinition)
    let source₁ := source "x y" " \x7d"
    let source₂ := source "x y" ",\n\x7d"
    let source₃ := source "\n  x\n  y" " \x7d"
    let f₁ := f "x y" 32 35
    let f₂ := f "x y" 32 36
    let f₃ := f "x\ny" 37 40
    f₁.fingerprint? source₁ = f₂.fingerprint? source₂ ∧ f₁.Duplicates source₁ source₂ f₂ ∧
      (Definition.fragment f₁).strip = (Definition.fragment f₂).strip ∧
      (∃ a, registerFragments .empty source₁ (parse {} source₁).document = .ok a ∧
        ∃ f, .fragment f ∈ a.kept) ∧
      ∃ r ks, Registers [({}, source₃), ({}, source₁)] r ks ∧
        ∃ p₁ p₃, f₁.fingerprint? source₁ = some p₁ ∧ f₃.fingerprint? source₃ = some p₃ ∧
          p₁.body ≠ p₃.body ∧ p₁.body ∈ r.bodies "F" ∧ p₃.body ∈ r.bodies "F" ∧
          ∃ k ∈ ks, k.name = "F" ∧ (k.body = p₁.body ∧ p₃.body ∈ k.previous ∨
            k.body = p₃.body ∧ p₁.body ∈ k.previous) := by
  intro source f source₁ source₂ source₃ f₁ f₂ f₃
  obtain ⟨hread₁, hf₁⟩ : (parse {} source₁).diagnostics = ⟨[]⟩ ∧
      .fragment f₁ ∈ (parse {} source₁).document.definitions := by
    decide +kernel
  obtain ⟨hread₂, hf₂⟩ : (parse {} source₂).diagnostics = ⟨[]⟩ ∧
      .fragment f₂ ∈ (parse {} source₂).document.definitions := by
    decide +kernel
  obtain ⟨hread₃, hf₃⟩ : (parse {} source₃).diagnostics = ⟨[]⟩ ∧
      .fragment f₃ ∈ (parse {} source₃).document.definitions := by
    decide +kernel
  have htext₁ : f₁.text? source₁ = some source₁ := by decide +kernel
  have htext₂ : f₂.text? source₂ = some source₂ := by decide +kernel
  have htext₃ : f₃.text? source₃ = some source₃ := by decide +kernel
  have hregular₁ : f₁.Regular source₁ := ⟨source₁, htext₁, by decide +kernel⟩
  have hregular₂ : f₂.Regular source₂ := ⟨source₂, htext₂, by decide +kernel⟩
  have hregular₃ : f₃.Regular source₃ := ⟨source₃, htext₃, by decide +kernel⟩
  obtain ⟨p₁, p₂, hp₁, hp₂, hsound, hkept, -⟩ :=
    fingerprints_sound {} {} source₁ source₂ hread₁ hread₂ f₁ f₂ hf₁ hf₂
  obtain ⟨q₁, p₃, hq₁, hp₃, -, -, hruns⟩ :=
    fingerprints_sound {} {} source₁ source₃ hread₁ hread₃ f₁ f₃ hf₁ hf₃
  have hsame : f₁.fingerprint? source₁ = f₂.fingerprint? source₂ := by decide +kernel
  have hbody : p₁ = p₂ := Option.some.inj (hp₁.symm.trans (hsame.trans hp₂))
  have hduplicates := hsound hregular₁ hregular₂ (congrArg Fingerprint.body hbody)
  have hstrings : f₁.TextsRelate Key.SameStrings source₁ source₂ f₂ :=
    (FragmentDefinition.textsRelate_iff htext₁ htext₂).2 (by decide +kernel)
  have hlexemes : ¬Key.SameLexemes source₁ source₃ := by decide +kernel
  have hdiffer : ¬f₁.Duplicates source₁ source₃ f₃ := fun hduplicates =>
    hlexemes ((FragmentDefinition.textsRelate_iff htext₁ htext₃).1 hduplicates.lexemes)
  obtain ⟨a, hregister, g, hg, -⟩ := hkept .empty
  have hrun := Registers.register (.register .empty hread₁ hregister) hread₃
    (registerFragments_of_parse {} source₃ a.registry)
  obtain ⟨hmem₁, hmem₃, hne, hconflict⟩ := hruns _ _ _ hrun (by simp) (by simp) rfl
  have hbodies := hne hregular₁ hregular₃ hdiffer
  exact ⟨hsame, hduplicates, hduplicates.strip_eq hstrings,
    ⟨a, hregister, g, hg⟩, _, _, hrun, q₁, p₃, hq₁, hp₃, hbodies, hmem₁, hmem₃,
    hconflict hbodies⟩

/-- A fingerprint does not show how many spaces stand together in a string. -/
theorem fingerprints_not_sound :
    let source := fun value => "fragment F on T \x7b a(b: \"" ++ value ++ "\") \x7d"
    let f := fun value (n : Nat) => (⟨⟨"F", some ⟨9, 10⟩⟩, none, ⟨"T", some ⟨14, 15⟩⟩, [],
      ⟨[.field ⟨none, ⟨"a", some ⟨18, 19⟩⟩,
        [⟨⟨"b", some ⟨20, 21⟩⟩, .string ⟨value, false, some ⟨23, n⟩⟩, some ⟨20, n⟩⟩],
        [], none, some ⟨18, n + 1⟩⟩], some ⟨16, n + 3⟩⟩, some ⟨0, n + 3⟩⟩ : FragmentDefinition)
    (parse {} (source "x y")).diagnostics = ⟨[]⟩ ∧ (parse {} (source "x  y")).diagnostics = ⟨[]⟩ ∧
      .fragment (f "x y" 28) ∈ (parse {} (source "x y")).document.definitions ∧
      .fragment (f "x  y" 29) ∈ (parse {} (source "x  y")).document.definitions ∧
      (f "x y" 28).fingerprint? (source "x y") = (f "x  y" 29).fingerprint? (source "x  y") ∧
      (Definition.fragment (f "x y" 28)).strip ≠ (Definition.fragment (f "x  y" 29)).strip := by
  decide +kernel

end GraphQL
