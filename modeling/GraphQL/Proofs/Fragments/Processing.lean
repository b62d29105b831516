import GraphQL.Proofs.Fragments.Conflicts
import GraphQL.Proofs.Fragments.Fingerprints
import GraphQL.Proofs.Fragments.Kept
import GraphQL.Proofs.Key.Fronts

/-!
What registering a document leaves, told without its loop. Each definition is compared with
those in front of it, and each fingerprint is met by the registry that those in front of it
leave. Bodies alone decide which fragments are dropped, and no name is lost by that: a text
starts with the name of its fragment, and so does its key.
-/

namespace GraphQL

open Grammar

section
variable {α : Type}

/-- Each item of a list with those in front of it, where some stand before the list. -/
def withFront (front : List α) : List α → List (List α × α)
  | [] => []
  | x :: xs => (front, x) :: withFront (front ++ [x]) xs

theorem eraseDups_concat [DecidableEq α] (xs : List α) (x : α) :
    (xs ++ [x]).eraseDups = if x ∈ xs then xs.eraseDups else xs.eraseDups ++ [x] := by
  rw [List.eraseDups_append]
  by_cases h : x ∈ xs <;> simp [h, List.removeAll, List.eraseDups_cons]

end

/-! ### The registry after some fingerprints -/

namespace FragmentRegistry

variable {r : FragmentRegistry}

/-- Registers fingerprints in order. -/
def registerAll (r : FragmentRegistry) (ps : List Fingerprint) : FragmentRegistry :=
  ps.foldl (fun r p => r.register p.name p.body) r

/-- The bodies that fingerprints bring which were not under their name before. -/
def newBodies (r : FragmentRegistry) (ps : List Fingerprint) (name : String) : List String :=
  ((ps.filter (·.name = name)).map Fingerprint.body).filter (· ∉ r.bodies name)

/-- The bodies under a name after some fingerprints: those before, and behind them the new
ones as they first come. -/
def bodiesAfter (r : FragmentRegistry) (ps : List Fingerprint) (name : String) : List String :=
  r.bodies name ++ (r.newBodies ps name).eraseDups

theorem registerAll_concat (r : FragmentRegistry) (ps : List Fingerprint) (p : Fingerprint) :
    r.registerAll (ps ++ [p]) = (r.registerAll ps).register p.name p.body :=
  List.foldl_concat ..

theorem WellFormed.registerAll (h : r.WellFormed) (ps : List Fingerprint) :
    (r.registerAll ps).WellFormed := by
  induction ps using List.reverseRecOn with
  | nil => exact h
  | append_singleton ps p ih =>
      rw [registerAll_concat]
      exact ih.register p

theorem mem_newBodies {ps : List Fingerprint} {name b : String} :
    b ∈ r.newBodies ps name ↔ ⟨name, b⟩ ∈ ps ∧ b ∉ r.bodies name := by
  rw [newBodies, List.mem_filter, List.mem_map, decide_eq_true_eq]
  refine and_congr_left fun _ => ⟨?_, fun h => ⟨_, List.mem_filter.2 ⟨h, by simp⟩, rfl⟩⟩
  rintro ⟨⟨n, b'⟩, hp, rfl⟩
  obtain ⟨hmem, hname⟩ := List.mem_filter.1 hp
  cases of_decide_eq_true hname
  exact hmem

theorem mem_bodiesAfter {ps : List Fingerprint} {name b : String} :
    b ∈ r.bodiesAfter ps name ↔ b ∈ r.bodies name ∨ ⟨name, b⟩ ∈ ps := by
  rw [bodiesAfter, List.mem_append, List.mem_eraseDups, mem_newBodies]
  by_cases hold : b ∈ r.bodies name <;> simp [hold]

/-- One more fingerprint adds its body to those of its name, unless it is there. -/
theorem bodiesAfter_concat (r : FragmentRegistry) (ps : List Fingerprint) (p : Fingerprint)
    (name : String) :
    r.bodiesAfter (ps ++ [p]) name =
      if name = p.name ∧ p.body ∉ r.bodiesAfter ps p.name then
        r.bodiesAfter ps name ++ [p.body]
      else r.bodiesAfter ps name := by
  have hconcat : r.newBodies (ps ++ [p]) name = r.newBodies ps name ++
      if name = p.name ∧ p.body ∉ r.bodies p.name then [p.body] else [] := by
    by_cases hname : name = p.name
    · by_cases hold : p.body ∈ r.bodies p.name <;>
        simp [newBodies, List.filter_append, hname, hold]
    · simp [newBodies, List.filter_append, hname, Ne.symm hname]
  by_cases hnew : name = p.name ∧ p.body ∉ r.bodies p.name
  · -- The body comes behind the new ones of its name, unless it is one of them.
    obtain ⟨rfl, hold⟩ := hnew
    have hmem : p.body ∈ r.newBodies ps p.name ↔ p ∈ ps :=
      mem_newBodies.trans (and_iff_left hold)
    rw [bodiesAfter, hconcat, if_pos ⟨rfl, hold⟩, eraseDups_concat]
    by_cases hp : p ∈ ps
    · rw [if_pos (hmem.2 hp), if_neg fun h => h.2 (mem_bodiesAfter.2 (.inr hp)), bodiesAfter]
    · rw [if_neg fun h => hp (hmem.1 h),
        if_pos ⟨rfl, fun h => (mem_bodiesAfter.1 h).elim hold hp⟩, bodiesAfter, List.append_assoc]
  · have hknown : ¬(name = p.name ∧ p.body ∉ r.bodiesAfter ps p.name) := fun h =>
      hnew ⟨h.1, fun hold => h.2 (mem_bodiesAfter.2 (.inl hold))⟩
    rw [bodiesAfter, hconcat, if_neg hnew, if_neg hknown, List.append_nil, bodiesAfter]

theorem bodies_registerAll (r : FragmentRegistry) (ps : List Fingerprint) (name : String) :
    (r.registerAll ps).bodies name = r.bodiesAfter ps name := by
  induction ps using List.reverseRecOn generalizing name with
  | nil => simp [registerAll, bodiesAfter, newBodies]
  | append_singleton ps p ih =>
      rw [registerAll_concat, bodies_register, bodiesAfter_concat, ih, ih]

/-- A fingerprint that comes behind others is a conflict if it is the first of its kind and
its name has a body by then. -/
theorem conflict?_registerAll (h : r.WellFormed) (front : List Fingerprint) (p : Fingerprint) :
    (r.registerAll front).conflict? p =
      if p ∉ front ∧ p.body ∉ r.bodies p.name ∧ r.bodiesAfter front p.name ≠ [] then
        some ⟨p.name, p.body, r.bodiesAfter front p.name⟩
      else none := by
  rw [conflict?_eq (h.registerAll front), bodies_registerAll]
  refine if_congr ?_ rfl rfl
  rw [mem_bodiesAfter, not_or, and_comm (a := p.body ∉ _), and_assoc]

end FragmentRegistry

/-! ### Registering without a loop -/

namespace Enrollment

theorem registry_eq (r : FragmentRegistry) (seen : List String) (cs : List Candidate) :
    (enroll r seen cs).registry = r.registerAll (cs.filterMap Candidate.fingerprint) := by
  induction cs generalizing r seen with
  | nil => rfl
  | cons c cs ih =>
      obtain ⟨d, p⟩ := c
      cases p with
      | none => exact ih r seen
      | some p => exact ih (r.register p.name p.body) (p.body :: seen)

/-- The conflicts met behind some fingerprints are those that their registry makes of each
later one, with those in front of it. -/
theorem conflicts_eq (r : FragmentRegistry) (front : List Fingerprint) (seen : List String)
    (cs : List Candidate) :
    (enroll (r.registerAll front) seen cs).conflicts =
      (withFront front (cs.filterMap Candidate.fingerprint)).filterMap fun x =>
        (r.registerAll x.1).conflict? x.2 := by
  induction cs generalizing front seen with
  | nil => rfl
  | cons c cs ih =>
      obtain ⟨d, p⟩ := c
      cases p with
      | none => exact ih front seen
      | some p =>
          have htail := ih (front ++ [p]) (p.body :: seen)
          rw [FragmentRegistry.registerAll_concat] at htail
          rw [enroll, htail]
          show _ = ((front, p) :: withFront _ _).filterMap _
          rw [List.filterMap_cons]
          cases (r.registerAll front).conflict? p <;> rfl

open Definition in
/-- Of definitions behind some others those are kept which share their body with none in
front of them, where the bodies of those others have been seen. -/
theorem kept_eq_filter {source : String} (r : FragmentRegistry) {seen : List String}
    {front : List Definition}
    (h : ∀ d : Definition, d.hasBody source seen = front.any (d.sameBody source))
    (ds : List Definition) :
    (enroll r seen (ds.map fun d => ⟨d, d.fingerprint? source⟩)).kept =
      ((withFront front ds).filter fun x => !x.1.any (x.2.sameBody source)).map Prod.snd := by
  induction ds generalizing r seen front with
  | nil => rfl
  | cons d ds ih =>
      rw [List.map_cons, withFront]
      cases hd : d.fingerprint? source with
      | none =>
          have hkeep : front.any (d.sameBody source) = false := by
            rw [← h d]
            simp [hasBody, hd]
          have hnext : ∀ e : Definition,
              e.hasBody source seen = (front ++ [d]).any (e.sameBody source) := fun e => by
            rw [List.any_append, ← h e]
            simp [sameBody_of_none hd]
          rw [enroll, List.filter_cons_of_pos (by simp [hkeep]), List.map_cons, ih r hnext]
      | some p =>
          have hseen : seen.contains p.body = front.any (d.sameBody source) := by
            rw [← h d]
            simp [hasBody, hd]
          have hnext : ∀ e : Definition,
              e.hasBody source (p.body :: seen) = (front ++ [d]).any (e.sameBody source) :=
            fun e => by
              rw [hasBody_cons, List.any_append, h e, Bool.or_comm]
              simp [sameBody_of_fingerprint hd]
          rw [enroll, List.filter_cons, hseen]
          cases hcontains : front.any (d.sameBody source) <;> simp [ih _ hnext]

end Enrollment

/-! ### Names and bodies -/

theorem regular_word (w : String) : (Lexeme.word w).Regular := by
  cases h : Keyword.ofWord? w <;> simp [Lexeme.Regular, Lexeme.word, TokenKind.ofName, h]

theorem squeezed_word (w : String) : (Lexeme.word w).squeezed = Lexeme.word w := by
  have hquoted : (TokenKind.ofName w).isQuoted = false := by
    cases h : Keyword.ofWord? w <;> simp [TokenKind.ofName, TokenKind.isQuoted, h]
  simp [Lexeme.squeezed, Lexeme.word, Key.tidyText, hquoted]

/-- What spells a fragment starts with its name. -/
theorem front_of_spells {f : FragmentDefinition} {ls : List Lexeme}
    (h : Spells (Definition.fragment f).slots ls) :
    ∃ back, ls = [Lexeme.word Keyword.fragment.word, Lexeme.word f.name.value] ++ back := by
  rw [Lexeme.word_keyword]
  obtain ⟨rest, rfl, hrest⟩ := Spells.lexeme_iff.1 h
  obtain ⟨back, rfl, -⟩ := Spells.lexeme_iff.1 hrest
  exact ⟨back, rfl⟩

/-- The key of a fragment starts with its name, so where two have one key they have one
name. -/
theorem name_eq_of_body_eq {options₁ options₂ : ParseOptions} {source₁ source₂ : String}
    (h₁ : (parse options₁ source₁).diagnostics = ⟨[]⟩)
    (h₂ : (parse options₂ source₂).diagnostics = ⟨[]⟩) {f₁ f₂ : FragmentDefinition}
    (hf₁ : .fragment f₁ ∈ (parse options₁ source₁).document.definitions)
    (hf₂ : .fragment f₂ ∈ (parse options₂ source₂).document.definitions) {p₁ p₂ : Fingerprint}
    (hp₁ : f₁.fingerprint? source₁ = some p₁) (hp₂ : f₂.fingerprint? source₂ = some p₂)
    (hbody : p₁.body = p₂.body) : f₁.name.value = f₂.name.value := by
  obtain ⟨text₁, -, hbody₁, -, hspells₁⟩ := text_of_fingerprint? h₁ hf₁ hp₁
  obtain ⟨text₂, -, hbody₂, -, hspells₂⟩ := text_of_fingerprint? h₂ hf₂ hp₂
  obtain ⟨back₁, hfront₁⟩ := front_of_spells hspells₁.1
  obtain ⟨back₂, hfront₂⟩ := front_of_spells hspells₂.1
  rw [hbody₁, hbody₂] at hbody
  have hregular : ∀ name : String,
      ∀ l ∈ [Lexeme.word Keyword.fragment.word, Lexeme.word name], l.Regular := fun name l hl => by
    rcases List.mem_pair.1 hl with rfl | rfl <;> exact regular_word _
  have hwords := Key.squeezed_front_eq hfront₁ hfront₂ rfl (hregular _) (hregular _) hbody
  simp only [List.map_cons, squeezed_word] at hwords
  exact congrArg Lexeme.text (List.cons.inj (List.cons.inj hwords).2).1

/-! ### A document that was read -/

/-- Registering a document that was read keeps what is no fragment, and of the fragments
those whose body comes nowhere in front of them. Fragments with one body have one name, so
every name stays defined. To the bodies of each name the new ones are added as they first
come. The conflicts are the first of each name and body that are new to the registry while
their name has a body, each with the bodies that the name has by then. A registry that starts
out empty is well-formed, and registering keeps it so. -/
theorem registerFragments_read (options : ParseOptions) (source : String)
    (h : (parse options source).diagnostics = ⟨[]⟩) (r : FragmentRegistry)
    (hr : r.WellFormed) :
    let document := (parse options source).document
    let ds := document.definitions
    let ps := ds.filterMap (Definition.fingerprint? source)
    ∃ a, registerFragments r source document = .ok a ∧ a.registry.WellFormed ∧
      a.kept = ((withFront [] ds).filter fun (front, d) =>
        !front.any (d.sameBody source)).map Prod.snd ∧
      (∀ f g, .fragment f ∈ ds → .fragment g ∈ ds →
        (Definition.fragment f).sameBody source (.fragment g) = true →
        f.name.value = g.name.value) ∧
      (∀ f, .fragment f ∈ ds → ∃ g, .fragment g ∈ a.kept ∧ g.name.value = f.name.value) ∧
      (∀ name, a.registry.bodies name = r.bodiesAfter ps name) ∧
      a.conflicts = (withFront [] ps).filterMap fun (front, p) =>
        if p ∉ front ∧ p.body ∉ r.bodies p.name ∧ r.bodiesAfter front p.name ≠ [] then
          some ⟨p.name, p.body, r.bodiesAfter front p.name⟩
        else none := by
  intro document ds ps
  have hps : (ds.map fun d => (⟨d, d.fingerprint? source⟩ : Candidate)).filterMap
      Candidate.fingerprint = ps := by
    rw [List.filterMap_map]
    rfl
  refine ⟨_, registerFragments_of_parse options source r, Enrollment.wellFormed hr _ _, ?_,
    ?_, ?_, ?_, ?_⟩
  · exact Enrollment.kept_eq_filter r (fun d => Definition.hasBody_nil source d) ds
  · intro f g hf hg hsame
    obtain ⟨p, hp⟩ := fingerprint?_of_parse hf
    obtain ⟨q, hq⟩ := fingerprint?_of_parse hg
    have hbody : p.body = q.body := by
      simpa [Definition.sameBody, Definition.fingerprint?, hp, hq] using hsame
    exact name_eq_of_body_eq h h hf hg hp hq hbody
  · intro f hf
    obtain ⟨p, hp⟩ := fingerprint?_of_parse hf
    obtain ⟨g, hg, q, hq, hbody, hkept⟩ := kept_of_fragment r hf hp
    exact ⟨g, hkept, name_eq_of_body_eq h h hg hf hq hp hbody⟩
  · intro name
    rw [Enrollment.registry_eq, hps, FragmentRegistry.bodies_registerAll]
  · have hconflicts := Enrollment.conflicts_eq r [] []
      (ds.map fun d => ⟨d, d.fingerprint? source⟩)
    rw [hps] at hconflicts
    refine hconflicts.trans (List.filterMap_congr fun x _ => ?_)
    exact FragmentRegistry.conflict?_registerAll hr x.1 x.2

/-- The second fragment is dropped, and the others are conflicts. -/
theorem registerFragments_read_example :
    let source :=
      "fragment F on T\x7ba\x7d \x7ba\x7d fragment F on T \x7b a \x7d fragment F on T\x7bb\x7d"
    let r : FragmentRegistry := ⟨[("F", ["x"])]⟩
    let a := "fragment F on T \x7b a \x7d"
    let b := "fragment F on T \x7b b \x7d"
    ∃ e, registerFragments r source (parse {} source).document = .ok e ∧ e.kept.length = 3 ∧
      e.registry.bodies "F" = ["x", a, b] ∧
      e.conflicts = [⟨"F", a, ["x"]⟩, ⟨"F", b, ["x", a]⟩] := by
  intro source r a b
  obtain ⟨e, hregister, -, hkept, -, -, hbodies, hconflicts⟩ :=
    registerFragments_read {} source (by decide +kernel) r
      ⟨List.nodup_singleton _, by simp [r], by simp [r]⟩
  refine ⟨e, hregister, ?_, (hbodies "F").trans (by decide +kernel),
    hconflicts.trans (by decide +kernel)⟩
  rw [hkept]
  decide +kernel

end GraphQL
