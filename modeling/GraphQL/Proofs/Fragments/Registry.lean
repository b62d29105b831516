import GraphQL.Fragments

/-!
What registering does to the bodies under a name: a body that is new there comes
last, and nothing else changes. A new body under a name that has one already is
a conflict with all the bodies before it.
-/

namespace GraphQL.FragmentRegistry

variable {r : FragmentRegistry} {name body : String}

theorem bodies_of_lookup {bodies : List String} (h : r.entries.lookup name = some bodies) :
    r.bodies name = bodies := by
  rw [FragmentRegistry.bodies, h]
  rfl

theorem bodies_of_lookup_none (h : r.entries.lookup name = none) : r.bodies name = [] := by
  rw [bodies, h]
  rfl

theorem mem_entries_of_lookup {bodies : List String} (h : r.entries.lookup name = some bodies) :
    (name, bodies) ∈ r.entries := by
  obtain ⟨front, back, hentries, -⟩ := List.lookup_eq_some_iff.1 h
  rw [hentries]
  exact List.mem_append_right front List.mem_cons_self

/-! ### The three cases of registering -/

theorem classify_new (h : r.entries.lookup name = none) : r.classify name body = .new := by
  rw [classify, h]

theorem classify_known (h : body ∈ r.bodies name) : r.classify name body = .known := by
  cases hlookup : r.entries.lookup name with
  | none =>
      rw [bodies_of_lookup_none hlookup] at h
      cases h
  | some bodies =>
      rw [bodies_of_lookup hlookup] at h
      rw [classify, hlookup]
      exact if_pos (List.contains_iff_mem.2 h)

theorem classify_conflict {bodies : List String} (h : r.entries.lookup name = some bodies)
    (hbody : body ∉ bodies) : r.classify name body = .conflict := by
  rw [classify, h]
  exact if_neg fun hmem => hbody (List.contains_iff_mem.1 hmem)

theorem lookup_extend (name body n : String) (entries : List (String × List String)) :
    (extend name body entries).lookup n =
      if n = name then (entries.lookup n).map (· ++ [body]) else entries.lookup n := by
  induction entries with
  | nil => simp [extend]
  | cons entry rest ih =>
      obtain ⟨m, bodies⟩ := entry
      rw [extend]
      by_cases hm : m = name
      · rw [if_pos hm, List.lookup_cons, List.lookup_cons, ← hm]
        by_cases hn : n = m
        · simp [hn]
        · rw [if_neg hn, beq_false_of_ne hn]
      · rw [if_neg hm, List.lookup_cons, List.lookup_cons, ih]
        by_cases hn : n = m
        · have hne : n ≠ name := fun h => hm (hn.symm.trans h)
          simp [hn, hm]
        · simp [beq_false_of_ne hn]

theorem bodies_register (r : FragmentRegistry) (name body n : String) :
    (r.register name body).bodies n =
      if n = name ∧ body ∉ r.bodies name then r.bodies n ++ [body] else r.bodies n := by
  by_cases hknown : body ∈ r.bodies name
  · rw [register, classify_known hknown, if_neg fun h => h.2 hknown]
  · cases hlookup : r.entries.lookup name with
    | none =>
        rw [register, classify_new hlookup]
        simp only [bodies, List.lookup_append]
        by_cases hn : n = name
        · simp [hn, hlookup]
        · simp [hn, List.lookup_cons, beq_false_of_ne hn]
    | some bs =>
        rw [bodies_of_lookup hlookup] at hknown ⊢
        rw [register, classify_conflict hlookup hknown, bodies, bodies, lookup_extend]
        by_cases hn : n = name
        · simp [hn, hlookup, hknown]
        · simp [hn]

theorem mem_bodies_register {n b : String} :
    b ∈ (r.register name body).bodies n ↔ b ∈ r.bodies n ∨ n = name ∧ b = body := by
  rw [bodies_register]
  split
  · rename_i h
    rw [List.mem_append, List.mem_singleton]
    exact ⟨Or.imp_right fun hb => ⟨h.1, hb⟩, Or.imp_right And.right⟩
  · rename_i h
    refine ⟨.inl, fun hb => hb.elim id ?_⟩
    rintro ⟨rfl, rfl⟩
    exact Classical.not_not.1 fun hb => h ⟨rfl, hb⟩

/-- The other bodies under a name are those that it had before. -/
theorem filter_bodies_register (h : body ∉ r.bodies name) :
    ((r.register name body).bodies name).filter (· != body) = r.bodies name := by
  have hold : ∀ b ∈ r.bodies name, (b != body) = true := by
    intro b hb
    exact bne_iff_ne.2 fun heq => h (heq ▸ hb)
  have hnew : ([body].filter (· != body)) = [] :=
    List.filter_cons_of_neg (by simp)
  rw [bodies_register, if_pos ⟨rfl, h⟩, List.filter_append, List.filter_eq_self.2 hold, hnew,
    List.append_nil]

/-- A conflict holds the bodies that the name had before. -/
theorem conflict?_eq_previous (r : FragmentRegistry) (p : Fingerprint) :
    r.conflict? p =
      match r.classify p.name p.body with
      | .conflict => some ⟨p.name, p.body, r.bodies p.name⟩
      | _ => none := by
  by_cases hbody : p.body ∈ r.bodies p.name
  · rw [conflict?, classify_known hbody]
  · have hprevious := filter_bodies_register hbody
    rw [conflict?]
    cases r.classify p.name p.body with
    | conflict => exact congrArg (some <| FragmentConflict.mk p.name p.body ·) hprevious
    | new => rfl
    | known => rfl

/-- A new body under a name that has one is a conflict. -/
theorem conflict?_of_mem {p : Fingerprint} {b : String} (hb : b ∈ r.bodies p.name)
    (hp : p.body ∉ r.bodies p.name) :
    r.conflict? p = some ⟨p.name, p.body, r.bodies p.name⟩ := by
  cases hlookup : r.entries.lookup p.name with
  | none =>
      rw [bodies_of_lookup_none hlookup] at hb
      cases hb
  | some bs =>
      have hnot := hp
      rw [bodies_of_lookup hlookup] at hnot
      rw [conflict?_eq_previous, classify_conflict hlookup hnot]

end GraphQL.FragmentRegistry
