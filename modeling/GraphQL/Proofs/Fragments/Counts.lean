import Mathlib.Algebra.BigOperators.Group.Finset.Basic
import Mathlib.Algebra.GroupWithZero.Nat
import GraphQL.Proofs.Fragments.Registry

/-!
How many names and bodies a registry has. Every name has one body without a
conflict, and each further body is one conflict, so the conflicts met are the
bodies that are not the first under their names.
-/

namespace GraphQL

namespace FragmentRegistry

variable {r : FragmentRegistry} {name body : String}

/-- No name occurs twice, no name is without a body, and no body occurs twice under
one name. -/
structure WellFormed (r : FragmentRegistry) : Prop where
  names : (r.entries.map Prod.fst).Nodup
  bodies_ne_nil : ∀ e ∈ r.entries, e.2 ≠ []
  bodies_nodup : ∀ e ∈ r.entries, e.2.Nodup

/-- How many bodies are not the first under their names. -/
def surplus (r : FragmentRegistry) : Nat :=
  (r.entries.map fun e => e.2.length - 1).sum

/-! ### Registering -/

/-- A body that is put under a name that has some comes last there. -/
theorem extend_eq {front back : List (String × List String)} {bodies : List String}
    (h : ∀ e ∈ front, e.1 ≠ name) :
    extend name body (front ++ (name, bodies) :: back) =
      front ++ (name, bodies ++ [body]) :: back := by
  induction front with
  | nil => exact if_pos rfl
  | cons e front ih =>
      rw [List.cons_append, extend, if_neg (h e List.mem_cons_self),
        ih fun e he => h e (List.mem_cons_of_mem _ he)]
      rfl

/-- Registering adds an entry, or changes nothing, or adds a body to an entry. Only
the last of these is a conflict. -/
theorem register_cases (r : FragmentRegistry) (p : Fingerprint) :
    (p.name ∉ r.entries.map Prod.fst ∧ r.conflict? p = none ∧
      (r.register p.name p.body).entries = r.entries ++ [(p.name, [p.body])]) ∨
    (r.conflict? p = none ∧ r.register p.name p.body = r) ∨
    ∃ front bodies back, r.entries = front ++ (p.name, bodies) :: back ∧ p.body ∉ bodies ∧
      (r.conflict? p).isSome ∧
      (r.register p.name p.body).entries = front ++ (p.name, bodies ++ [p.body]) :: back := by
  cases hlookup : r.entries.lookup p.name with
  | none =>
      refine .inl ⟨fun hmem => ?_, ?_, ?_⟩
      · obtain ⟨e, he, hname⟩ := List.mem_map.1 hmem
        simpa [hname] using List.lookup_eq_none_iff.1 hlookup e he
      · rw [conflict?_eq_previous, classify_new hlookup]
      · rw [register, classify_new hlookup]
  | some bodies =>
      by_cases hbody : p.body ∈ bodies
      · have hknown : r.classify p.name p.body = .known := by
          apply classify_known
          rwa [bodies_of_lookup hlookup]
        refine .inr (.inl ⟨?_, ?_⟩)
        · rw [conflict?_eq_previous, hknown]
        · rw [register, hknown]
      · have hconflict := classify_conflict hlookup hbody
        obtain ⟨front, back, hentries, hfront⟩ := List.lookup_eq_some_iff.1 hlookup
        refine .inr (.inr ⟨front, bodies, back, hentries, hbody, ?_, ?_⟩)
        · rw [conflict?_eq_previous, hconflict]
          rfl
        · rw [register, hconflict, hentries]
          refine extend_eq fun e he hname => ?_
          simpa [hname] using hfront e he

namespace WellFormed

theorem empty : WellFormed .empty :=
  ⟨List.nodup_nil, nofun, nofun⟩

theorem register (h : r.WellFormed) (p : Fingerprint) :
    (r.register p.name p.body).WellFormed := by
  rcases r.register_cases p with ⟨hname, -, hentries⟩ | ⟨-, heq⟩ |
    ⟨front, bodies, back, hold, hbody, -, hentries⟩
  · refine ⟨?_, ?_, ?_⟩
    · rw [hentries, List.map_append, List.nodup_append_comm]
      exact List.nodup_cons.2 ⟨by simpa using hname, by simpa using h.names⟩
    · rw [hentries]
      simpa [or_imp, forall_and] using h.bodies_ne_nil
    · rw [hentries]
      simpa [or_imp, forall_and] using h.bodies_nodup
  · rwa [heq]
  · obtain ⟨hnames, hne, hnodup⟩ := h
    rw [hold] at hnames hne hnodup
    refine ⟨?_, fun e he => ?_, fun e he => ?_⟩
    · rw [hentries]
      simpa using hnames
    · rw [hentries, List.mem_append, List.mem_cons] at he
      rcases he with he | rfl | he
      · exact hne e (List.mem_append_left _ he)
      · exact List.concat_ne_nil _ _
      · exact hne e (List.mem_append_right _ (List.mem_cons_of_mem _ he))
    · rw [hentries, List.mem_append, List.mem_cons] at he
      rcases he with he | rfl | he
      · exact hnodup e (List.mem_append_left _ he)
      · have hbodies : bodies.Nodup :=
          hnodup _ (List.mem_append_right _ List.mem_cons_self)
        rw [List.nodup_append_comm]
        exact List.nodup_cons.2 ⟨hbody, hbodies⟩
      · exact hnodup e (List.mem_append_right _ (List.mem_cons_of_mem _ he))

/-- A conflict is a body that is not the first under its name. -/
theorem surplus_register (h : r.WellFormed) (p : Fingerprint) :
    (r.register p.name p.body).surplus = r.surplus + (r.conflict? p).toList.length := by
  rcases r.register_cases p with ⟨-, hnone, hentries⟩ | ⟨hnone, heq⟩ |
    ⟨front, bodies, back, hold, -, hconflict, hentries⟩
  · simp [surplus, hnone, hentries]
  · simp [hnone, heq]
  · obtain ⟨k, hk⟩ := Option.isSome_iff_exists.1 hconflict
    have hpos : 0 < bodies.length := by
      apply List.length_pos_of_ne_nil
      apply h.bodies_ne_nil (p.name, bodies)
      rw [hold]
      exact List.mem_append_right _ List.mem_cons_self
    simp only [surplus, hk, hold, hentries, List.map_append, List.map_cons, List.sum_append,
      List.sum_cons, List.length_append, List.length_singleton, Option.toList_some]
    omega

/-! ### Names as a set -/

theorem bodies_of_mem (h : r.WellFormed) {bodies : List String} (he : (name, bodies) ∈ r.entries) :
    r.bodies name = bodies := by
  obtain ⟨front, back, hentries⟩ := List.append_of_mem he
  refine bodies_of_lookup (List.lookup_eq_some_iff.2 ⟨front, back, hentries, fun e hmem => ?_⟩)
  -- The name is not met before its entry, as it occurs only once.
  have hnames := h.names
  rw [hentries, List.map_append, List.map_cons] at hnames
  have hne := (List.nodup_append.1 hnames).2.2 e.1 (List.mem_map_of_mem hmem) name
    List.mem_cons_self
  simpa using hne.symm

theorem mem_names_iff (h : r.WellFormed) :
    name ∈ (r.entries.map Prod.fst).toFinset ↔ r.bodies name ≠ [] := by
  rw [List.mem_toFinset]
  constructor
  · intro hmem
    obtain ⟨e, he, rfl⟩ := List.mem_map.1 hmem
    rw [h.bodies_of_mem he]
    exact h.bodies_ne_nil e he
  · intro hne
    cases hlookup : r.entries.lookup name with
    | none => exact absurd (bodies_of_lookup_none hlookup) hne
    | some bodies =>
        exact List.mem_map.2 ⟨(name, bodies), mem_entries_of_lookup hlookup, rfl⟩

theorem card_names (h : r.WellFormed) : (r.entries.map Prod.fst).toFinset.card = r.size := by
  rw [List.toFinset_card_of_nodup h.names, List.length_map]
  rfl

/-- The bodies that are not the first, name by name. -/
theorem surplus_eq_sum (h : r.WellFormed) :
    r.surplus =
      ∑ name ∈ (r.entries.map Prod.fst).toFinset, ((r.bodies name).toFinset.card - 1) := by
  rw [List.sum_toFinset _ h.names, List.map_map, surplus]
  refine congrArg List.sum (List.map_congr_left fun e he => ?_)
  rw [Function.comp_apply, h.bodies_of_mem he,
    List.toFinset_card_of_nodup (h.bodies_nodup e he)]

/-- Where fingerprints are given that stand for all bodies, the bodies that are not the
first can be counted among them. -/
theorem surplus_eq_sum_fingerprints (h : r.WellFormed) {found : Finset Fingerprint}
    (hfound : ∀ p, p ∈ found ↔ p.body ∈ r.bodies p.name) :
    r.surplus =
      ∑ name ∈ found.image Fingerprint.name, ((found.filter (·.name = name)).card - 1) := by
  have hnames : (r.entries.map Prod.fst).toFinset = found.image Fingerprint.name := by
    ext name
    rw [h.mem_names_iff, Finset.mem_image]
    constructor
    · intro hne
      obtain ⟨body, hbody⟩ := List.exists_mem_of_ne_nil _ hne
      exact ⟨⟨name, body⟩, (hfound _).2 hbody, rfl⟩
    · rintro ⟨p, hp, rfl⟩
      exact List.ne_nil_of_mem ((hfound p).1 hp)
  rw [h.surplus_eq_sum, hnames]
  refine Finset.sum_congr rfl fun name _ => ?_
  have hbodies : (r.bodies name).toFinset =
      (found.filter (·.name = name)).image Fingerprint.body := by
    ext body
    simp only [List.mem_toFinset, Finset.mem_image, Finset.mem_filter]
    constructor
    · intro hbody
      exact ⟨⟨name, body⟩, ⟨(hfound _).2 hbody, rfl⟩, rfl⟩
    · rintro ⟨p, ⟨hp, rfl⟩, rfl⟩
      exact (hfound p).1 hp
  rw [hbodies, Finset.card_image_of_injOn]
  rintro ⟨n, b⟩ hp ⟨n', b'⟩ hq (rfl : b = b')
  obtain ⟨-, rfl⟩ := Finset.mem_filter.1 hp
  obtain ⟨-, rfl⟩ := Finset.mem_filter.1 hq
  rfl

end WellFormed
end FragmentRegistry

namespace Enrollment

variable {r : FragmentRegistry}

theorem wellFormed (h : r.WellFormed) (seen : List String) (cs : List Candidate) :
    (enroll r seen cs).registry.WellFormed := by
  induction cs generalizing r seen with
  | nil => exact h
  | cons c cs ih =>
      obtain ⟨d, p⟩ := c
      cases p with
      | none => exact ih h seen
      | some p => exact ih (h.register p) _

/-- Each conflict met is one more body that is not the first. -/
theorem surplus_registry (h : r.WellFormed) (seen : List String) (cs : List Candidate) :
    (enroll r seen cs).registry.surplus = r.surplus + (enroll r seen cs).conflicts.length := by
  induction cs generalizing r seen with
  | nil => rfl
  | cons c cs ih =>
      obtain ⟨d, p⟩ := c
      cases p with
      | none => exact ih h seen
      | some p =>
          have hlater := ih (h.register p) (p.body :: seen)
          rw [h.surplus_register p] at hlater
          simp only [enroll, List.length_append]
          omega

end Enrollment
end GraphQL
