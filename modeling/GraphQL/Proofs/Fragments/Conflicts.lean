import GraphQL.Proofs.Fragments.Counts

/-!
Which conflicts have been met. The bodies under a name tell it: every body but the
first was a conflict when it came, with those before it. So the conflicts of a name
follow each other as its bodies do, and none is met twice.
-/

namespace GraphQL

/-- The conflicts that bodies make which come under a name one after the other, where it
has some bodies before. -/
def conflictsAfter (name : String) (previous : List String) : List String → List FragmentConflict
  | [] => []
  | body :: later => ⟨name, body, previous⟩ :: conflictsAfter name (previous ++ [body]) later

theorem getElem?_conflictsAfter (name : String) (previous later : List String) (i : Nat) :
    (conflictsAfter name previous later)[i]? =
      later[i]?.map fun body => ⟨name, body, previous ++ later.take i⟩ := by
  induction later generalizing previous i with
  | nil => rfl
  | cons body later ih =>
      cases i with
      | zero => simp [conflictsAfter]
      | succ i => simp [conflictsAfter, ih]

theorem conflictsAfter_concat (name : String) (previous later : List String) (body : String) :
    conflictsAfter name previous (later ++ [body]) =
      conflictsAfter name previous later ++ [⟨name, body, previous ++ later⟩] := by
  induction later generalizing previous with
  | nil => simp [conflictsAfter]
  | cons first later ih => simp [conflictsAfter, ih]

theorem map_body_conflictsAfter (name : String) (previous later : List String) :
    (conflictsAfter name previous later).map FragmentConflict.body = later := by
  induction later generalizing previous with
  | nil => rfl
  | cons body later ih => simp [conflictsAfter, ih]

namespace FragmentRegistry

/-- The conflicts that the bodies under a name tell of. -/
def conflicts (r : FragmentRegistry) (name : String) : List FragmentConflict :=
  match r.bodies name with
  | [] => []
  | first :: later => conflictsAfter name [first] later

variable {r : FragmentRegistry} {name : String}

theorem conflicts_congr {r' : FragmentRegistry} (h : r'.bodies name = r.bodies name) :
    r'.conflicts name = r.conflicts name := by
  rw [conflicts, conflicts, h]

/-- A new body under a name that has some is a conflict, and nothing else is. -/
theorem conflict?_eq (h : r.WellFormed) (p : Fingerprint) :
    r.conflict? p =
      if p.body ∉ r.bodies p.name ∧ r.bodies p.name ≠ [] then
        some ⟨p.name, p.body, r.bodies p.name⟩
      else none := by
  cases hlookup : r.entries.lookup p.name with
  | none =>
      rw [bodies_of_lookup_none hlookup, conflict?_eq_previous, classify_new hlookup]
      simp
  | some bodies =>
      have hne : bodies ≠ [] := h.bodies_ne_nil (p.name, bodies) (mem_entries_of_lookup hlookup)
      have hbodies := bodies_of_lookup hlookup
      by_cases hbody : p.body ∈ bodies
      · rw [conflict?_eq_previous, classify_known (hbodies ▸ hbody), hbodies]
        simp [hbody]
      · rw [conflict?_eq_previous, classify_conflict hlookup hbody, hbodies]
        simp [hbody, hne]

/-- Registering adds the conflict that is met to those of its name. -/
theorem conflicts_register (h : r.WellFormed) (p : Fingerprint) (name : String) :
    (r.register p.name p.body).conflicts name =
      r.conflicts name ++ (r.conflict? p).toList.filter (·.name = name) := by
  rw [conflict?_eq h]
  by_cases hname : name = p.name
  · subst hname
    by_cases hbody : p.body ∈ r.bodies p.name
    · have hbodies : (r.register p.name p.body).bodies p.name = r.bodies p.name := by
        rw [bodies_register, if_neg fun h => h.2 hbody]
      rw [conflicts_congr hbodies]
      simp [hbody]
    · have hbodies : (r.register p.name p.body).bodies p.name = r.bodies p.name ++ [p.body] := by
        rw [bodies_register, if_pos ⟨rfl, hbody⟩]
      cases hold : r.bodies p.name with
      | nil => simp [conflicts, hbodies, hold, conflictsAfter]
      | cons first later =>
          rw [hold] at hbody
          simp [conflicts, hbodies, hold, hbody, conflictsAfter_concat]
  · have hbodies : (r.register p.name p.body).bodies name = r.bodies name := by
      rw [bodies_register, if_neg fun h => hname h.1]
    rw [conflicts_congr hbodies]
    split <;> simp [Ne.symm hname]

/-! ### The conflicts of one name -/

theorem WellFormed.nodup_bodies (h : r.WellFormed) (name : String) : (r.bodies name).Nodup := by
  cases hlookup : r.entries.lookup name with
  | none =>
      rw [bodies_of_lookup_none hlookup]
      exact List.nodup_nil
  | some bodies =>
      rw [bodies_of_lookup hlookup]
      exact h.bodies_nodup (name, bodies) (mem_entries_of_lookup hlookup)

/-- A conflict has as many bodies before it as its place in the order tells, and the one
that follows it has its own body besides. -/
theorem WellFormed.previous_conflicts (h : r.WellFormed) {i : Nat} {k : FragmentConflict}
    (hk : (r.conflicts name)[i]? = some k) :
    k.previous.length = i + 1 ∧ k.body ∉ k.previous ∧
      ∀ k', (r.conflicts name)[i + 1]? = some k' → k'.previous = k.previous ++ [k.body] := by
  have hnodup := h.nodup_bodies name
  unfold conflicts at hk ⊢
  cases hbodies : r.bodies name with
  | nil =>
      rw [hbodies] at hk
      cases hk
  | cons first later =>
      simp only [hbodies, getElem?_conflictsAfter] at hk ⊢
      obtain ⟨body, hbody, rfl⟩ := Option.map_eq_some_iff.1 hk
      obtain ⟨hi, rfl⟩ := List.getElem?_eq_some_iff.1 hbody
      refine ⟨?_, ?_, ?_⟩
      · simp [Nat.le_of_lt hi]
      · -- The body comes right behind those before it, and none comes twice.
        rw [hbodies, ← List.take_append_drop i later, List.drop_eq_getElem_cons hi,
          ← List.cons_append] at hnodup
        exact fun hmem => (List.nodup_append.1 hnodup).2.2 _ hmem _ List.mem_cons_self rfl
      · rintro k' hk'
        obtain ⟨body', -, rfl⟩ := Option.map_eq_some_iff.1 hk'
        show [first] ++ later.take (i + 1) = [first] ++ later.take i ++ [later[i]]
        rw [List.take_add_one, List.getElem?_eq_getElem hi, List.append_assoc]
        rfl

theorem WellFormed.nodup_conflicts (h : r.WellFormed) (name : String) :
    ((r.conflicts name).map FragmentConflict.body).Nodup := by
  have hnodup := h.nodup_bodies name
  unfold conflicts
  cases hbodies : r.bodies name with
  | nil => exact List.nodup_nil
  | cons first later =>
      rw [hbodies] at hnodup
      show ((conflictsAfter name [first] later).map FragmentConflict.body).Nodup
      rw [map_body_conflictsAfter]
      exact hnodup.of_cons

end FragmentRegistry

namespace Enrollment

variable {r : FragmentRegistry}

/-- Registering a document adds the conflicts that it meets, name by name. -/
theorem conflicts_registry (h : r.WellFormed) (seen : List String) (cs : List Candidate)
    (name : String) :
    (enroll r seen cs).registry.conflicts name =
      r.conflicts name ++ (enroll r seen cs).conflicts.filter (·.name = name) := by
  induction cs generalizing r seen with
  | nil => simp [enroll]
  | cons c cs ih =>
      obtain ⟨d, p⟩ := c
      cases p with
      | none => exact ih h seen
      | some p =>
          simp only [enroll, List.filter_append]
          rw [ih (h.register p), r.conflicts_register h, List.append_assoc]

/-- A conflict is a body that was not under its name before, and it comes from a fragment. -/
theorem of_mem_conflicts (h : r.WellFormed) {seen : List String} {cs : List Candidate}
    {k : FragmentConflict} (hk : k ∈ (enroll r seen cs).conflicts) :
    k.body ∉ r.bodies k.name ∧ ∃ d, ⟨d, some ⟨k.name, k.body⟩⟩ ∈ cs := by
  induction cs generalizing r seen with
  | nil => cases hk
  | cons c cs ih =>
      obtain ⟨d, p⟩ := c
      cases p with
      | none =>
          obtain ⟨hnew, e, he⟩ := ih h hk
          exact ⟨hnew, e, List.mem_cons_of_mem _ he⟩
      | some p =>
          rcases List.mem_append.1 hk with hk | hk
          · rw [Option.mem_toList, r.conflict?_eq h, Option.ite_none_right_eq_some] at hk
            obtain ⟨⟨hnew, -⟩, heq⟩ := hk
            cases heq
            exact ⟨hnew, d, List.mem_cons_self⟩
          · obtain ⟨hnew, e, he⟩ := ih (h.register p) hk
            refine ⟨fun hold => hnew ?_, e, List.mem_cons_of_mem _ he⟩
            exact FragmentRegistry.mem_bodies_register.2 (.inl hold)

end Enrollment

/-- Where the conflicts of each name have different bodies, no name comes twice with one
body. -/
theorem nodup_of_nodup_filter {ks : List FragmentConflict}
    (h : ∀ name, ((ks.filter (·.name = name)).map FragmentConflict.body).Nodup) :
    (ks.map fun k => (k.name, k.body)).Nodup := by
  rw [List.nodup_iff_count_le_one]
  rintro ⟨name, body⟩
  have hcount := List.nodup_iff_count_le_one.1 (h name) body
  refine le_of_eq_of_le ?_ hcount
  simp only [List.count, List.countP_map, List.countP_filter]
  refine List.countP_congr fun k _ => ?_
  simp [and_comm]

end GraphQL
