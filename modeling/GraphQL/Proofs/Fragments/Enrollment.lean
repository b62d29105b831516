import Mathlib.Data.List.Forall2
import GraphQL.Proofs.Fragments.Registry

/-!
What registering a document does. Every fragment is in the registry afterwards,
whichever registry that was; of two bodies under one name that came to be there,
the later one is reported with the earlier one. A fragment that is dropped leaves
one with the same body.
-/

namespace GraphQL

/-- The fingerprint of a definition, if it is a fragment. -/
def Definition.fingerprint? (source : String) : Definition → Option Fingerprint
  | .fragment f => f.fingerprint? source
  | _ => none

/-- Where every fragment has a fingerprint, all definitions are candidates. -/
theorem candidates_eq {source : String} {ds : List Definition}
    (h : ∀ f, .fragment f ∈ ds → ∃ p, f.fingerprint? source = some p) :
    candidates source ds = .ok (ds.map fun d => ⟨d, d.fingerprint? source⟩) := by
  induction ds with
  | nil => rfl
  | cons d ds ih =>
      have hds := ih fun f hf => h f (List.mem_cons_of_mem d hf)
      cases d with
      | fragment f =>
          obtain ⟨p, hp⟩ := h f List.mem_cons_self
          rw [candidates, hp, hds, List.map_cons, Definition.fingerprint?, hp]
          rfl
      | _ =>
          rw [candidates, hds]
          · rfl
          · exact nofun

/-- A registration that tells of two bodies under a name. -/
def Enrollment.Reports (a : Enrollment) (name b b' : String) : Prop :=
  ∃ k ∈ a.conflicts, k.name = name ∧
    (k.body = b ∧ b' ∈ k.previous ∨ k.body = b' ∧ b ∈ k.previous)

namespace Enrollment

variable {r : FragmentRegistry} {seen : List String} {cs : List Candidate}

/-- What is kept depends on the bodies of the candidates alone: of candidates with
the same bodies, those at the same places are kept. -/
theorem kept_forall₂ {R : Definition → Definition → Prop} {cs cs' : List Candidate}
    (r r' : FragmentRegistry) (seen : List String)
    (h : List.Forall₂ (fun c c' => R c.definition c'.definition ∧
      c.fingerprint.map Fingerprint.body = c'.fingerprint.map Fingerprint.body) cs cs') :
    List.Forall₂ R (enroll r seen cs).kept (enroll r' seen cs').kept := by
  induction h generalizing r r' seen with
  | nil => exact .nil
  | @cons c c' cs cs' hc _ ih =>
      obtain ⟨d, p⟩ := c
      obtain ⟨d', p'⟩ := c'
      obtain ⟨hd, hp⟩ := hc
      cases p with
      | none =>
          cases p' with
          | none => exact .cons hd (ih r r' seen)
          | some p' => cases hp
      | some p =>
          cases p' with
          | none => cases hp
          | some p' =>
              have hbody : p.body = p'.body := Option.some.inj hp
              have htail := ih (r.register p.name p.body) (r'.register p'.name p'.body)
                (p'.body :: seen)
              rw [enroll, enroll]
              simp only [hbody]
              rw [hbody] at htail
              split
              · exact htail
              · exact .cons hd htail

/-- What is kept does not depend on the registry. -/
theorem kept_eq (r r' : FragmentRegistry) (seen : List String) (cs : List Candidate) :
    (enroll r seen cs).kept = (enroll r' seen cs).kept := by
  rw [← List.forall₂_eq_eq_eq]
  exact kept_forall₂ r r' seen (List.forall₂_same.2 fun _ _ => ⟨rfl, rfl⟩)

/-- The bodies in the registry afterwards. -/
theorem mem_bodies_iff {name b : String} :
    b ∈ (enroll r seen cs).registry.bodies name ↔
      b ∈ r.bodies name ∨ ∃ d, ⟨d, some ⟨name, b⟩⟩ ∈ cs := by
  induction cs generalizing r seen with
  | nil => exact ⟨.inl, fun h => h.elim id fun ⟨_, h⟩ => nomatch h⟩
  | cons c cs ih =>
      obtain ⟨d, p⟩ := c
      cases p with
      | none =>
          rw [enroll]
          refine ih.trans (or_congr_right ⟨fun ⟨e, he⟩ => ⟨e, List.mem_cons_of_mem _ he⟩, ?_⟩)
          rintro ⟨e, he⟩
          rcases List.mem_cons.1 he with heq | he
          · cases heq
          · exact ⟨e, he⟩
      | some p =>
          rw [enroll]
          refine ih.trans ?_
          rw [FragmentRegistry.mem_bodies_register, or_assoc]
          refine or_congr_right ⟨?_, ?_⟩
          · rintro (⟨rfl, rfl⟩ | ⟨e, he⟩)
            · exact ⟨d, List.mem_cons_self⟩
            · exact ⟨e, List.mem_cons_of_mem _ he⟩
          · rintro ⟨e, he⟩
            rcases List.mem_cons.1 he with heq | he
            · cases heq
              exact .inl ⟨rfl, rfl⟩
            · exact .inr ⟨e, he⟩

/-- Two bodies that stand under a name afterwards stood there before, or the later
one has been reported. -/
theorem reports_of_mem {name b b' : String} (hne : b ≠ b')
    (hb : b ∈ (enroll r seen cs).registry.bodies name)
    (hb' : b' ∈ (enroll r seen cs).registry.bodies name) :
    (b ∈ r.bodies name ∧ b' ∈ r.bodies name) ∨ (enroll r seen cs).Reports name b b' := by
  induction cs generalizing r seen with
  | nil => exact .inl ⟨hb, hb'⟩
  | cons c cs ih =>
      obtain ⟨d, p⟩ := c
      cases p with
      | none => exact ih hb hb'
      | some p =>
          have hlater : ∀ {k},
              k ∈ (enroll (r.register p.name p.body) (p.body :: seen) cs).conflicts →
                k ∈ (enroll r seen (⟨d, some p⟩ :: cs)).conflicts :=
            fun hk => List.mem_append_right _ hk
          have hnow : ∀ {x}, x ∈ r.bodies p.name → p.body ∉ r.bodies p.name →
              ⟨p.name, p.body, r.bodies p.name⟩ ∈
                (enroll r seen (⟨d, some p⟩ :: cs)).conflicts := by
            intro x hx hp
            refine List.mem_append_left _ ?_
            rw [FragmentRegistry.conflict?_of_mem hx hp]
            exact List.mem_singleton_self _
          rcases ih hb hb' with ⟨hbefore, hbefore'⟩ | ⟨k, hk, hreport⟩
          · -- Each of the two was there before, or it is the one that comes now.
            rw [FragmentRegistry.mem_bodies_register] at hbefore hbefore'
            by_cases hold : b ∈ r.bodies name
            · by_cases hold' : b' ∈ r.bodies name
              · exact .inl ⟨hold, hold'⟩
              · obtain ⟨rfl, rfl⟩ := hbefore'.resolve_left hold'
                exact .inr ⟨_, hnow hold hold', rfl, .inr ⟨rfl, hold⟩⟩
            · obtain ⟨rfl, rfl⟩ := hbefore.resolve_left hold
              have hold' := hbefore'.resolve_right fun h => hne h.2.symm
              exact .inr ⟨_, hnow hold' hold, rfl, .inl ⟨rfl, hold'⟩⟩
          · exact .inr ⟨k, hlater hk, hreport⟩

/-- A fragment is kept, or one with the same body is. -/
theorem kept_of_mem {d : Definition} {p : Fingerprint} (h : ⟨d, some p⟩ ∈ cs)
    (hseen : p.body ∉ seen) :
    ∃ e q, ⟨e, some q⟩ ∈ cs ∧ q.body = p.body ∧ e ∈ (enroll r seen cs).kept := by
  induction cs generalizing r seen with
  | nil => cases h
  | cons c cs ih =>
      obtain ⟨e, q⟩ := c
      cases q with
      | none =>
          have htail : ⟨d, some p⟩ ∈ cs := by
            rcases List.mem_cons.1 h with heq | h
            · cases heq
            · exact h
          obtain ⟨e', q', hmem, hbody, hkept⟩ := ih (r := r) htail hseen
          exact ⟨e', q', List.mem_cons_of_mem _ hmem, hbody, List.mem_cons_of_mem _ hkept⟩
      | some q =>
          rw [enroll]
          by_cases hbody : q.body = p.body
          · -- The first candidate with the body has not been seen yet, so it is kept.
            refine ⟨e, q, List.mem_cons_self, hbody, ?_⟩
            have hcontains : seen.contains q.body = false := by
              rw [hbody, Bool.eq_false_iff]
              exact fun hmem => hseen (List.contains_iff_mem.1 hmem)
            rw [hcontains]
            exact List.mem_cons_self
          · have htail : ⟨d, some p⟩ ∈ cs := by
              rcases List.mem_cons.1 h with heq | h
              · cases heq
                exact absurd rfl hbody
              · exact h
            have hseen' : p.body ∉ q.body :: seen := fun hmem => by
              rcases List.mem_cons.1 hmem with heq | hmem
              · exact hbody heq.symm
              · exact hseen hmem
            obtain ⟨e', q', hmem, hbody', hkept⟩ :=
              ih (r := r.register q.name q.body) htail hseen'
            refine ⟨e', q', List.mem_cons_of_mem _ hmem, hbody', ?_⟩
            show e' ∈ (if seen.contains q.body then _ else _)
            split
            · exact hkept
            · exact List.mem_cons_of_mem _ hkept

end Enrollment
end GraphQL
