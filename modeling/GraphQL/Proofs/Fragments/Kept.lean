import GraphQL.Proofs.Fragments.Enrollment

/-!
What is kept of a document when its fragments are registered: all that are no
fragments, and of every body the first fragment that has it.
-/

namespace GraphQL

/-- Are both definitions fragments, with the same body? -/
def Definition.sameBody (source : String) (d e : Definition) : Bool :=
  match d.fingerprint? source, e.fingerprint? source with
  | some p, some q => p.body == q.body
  | _, _ => false

/-- Is the definition a fragment with one of some bodies? -/
def Definition.hasBody (source : String) (bodies : List String) (d : Definition) : Bool :=
  (d.fingerprint? source).any fun p => bodies.contains p.body

namespace Definition

variable {source : String} {d : Definition}

@[simp] theorem hasBody_nil (source : String) (d : Definition) :
    d.hasBody source [] = false := by
  cases h : d.fingerprint? source <;> simp [hasBody, h]

theorem hasBody_cons (source : String) (b : String) (bodies : List String) (e : Definition) :
    e.hasBody source (b :: bodies) = (e.hasBody source [b] || e.hasBody source bodies) := by
  cases h : e.fingerprint? source <;> simp [hasBody, h]

theorem hasBody_of_mem {b : String} {bodies : List String} (hb : b ∈ bodies) {e : Definition}
    (he : e.hasBody source [b] = true) : e.hasBody source bodies = true := by
  cases h : e.fingerprint? source with
  | none => simp [hasBody, h] at he
  | some p =>
      have hp : p.body = b := by simpa [hasBody, h] using he
      simpa [hasBody, h, hp] using hb

theorem sameBody_of_fingerprint {p : Fingerprint} (hd : d.fingerprint? source = some p)
    (e : Definition) : e.sameBody source d = e.hasBody source [p.body] := by
  rw [Bool.eq_iff_iff]
  cases h : e.fingerprint? source <;> simp [sameBody, hasBody, h, hd]

theorem sameBody_of_none (hd : d.fingerprint? source = none) (e : Definition) :
    e.sameBody source d = false := by
  cases h : e.fingerprint? source <;> simp [sameBody, h, hd]

end Definition

open Definition in
/-- Besides definitions with bodies that were seen before, those are dropped that have
the body of an earlier one. -/
theorem Enrollment.kept_eq_eraseDupsBy (source : String) (r : FragmentRegistry)
    (seen : List String) (ds : List Definition) :
    (enroll r seen (ds.map fun d => ⟨d, d.fingerprint? source⟩)).kept =
      (ds.filter fun d => !d.hasBody source seen).eraseDupsBy (sameBody source) := by
  induction ds generalizing r seen with
  | nil => rfl
  | cons d ds ih =>
      rw [List.map_cons]
      cases hd : d.fingerprint? source with
      | none =>
          have hkeep : d.hasBody source seen = false := by simp [hasBody, hd]
          rw [enroll, List.filter_cons_of_pos (by simp [hkeep]), List.eraseDupsBy_cons]
          simp [sameBody_of_none hd, ih]
      | some p =>
          have hseen : d.hasBody source seen = seen.contains p.body := by simp [hasBody, hd]
          rw [enroll]
          cases hcontains : seen.contains p.body with
          | true =>
              -- A body that was seen before adds nothing to those that were seen.
              have hfilter : ∀ e : Definition,
                  e.hasBody source (p.body :: seen) = e.hasBody source seen := by
                intro e
                rw [hasBody_cons, Bool.or_eq_right_iff_imp]
                exact hasBody_of_mem (List.contains_iff_mem.1 hcontains)
              rw [hcontains] at hseen
              simp [hseen, ih, hfilter]
          | false =>
              have hfilter : ∀ e : Definition, (!e.hasBody source (p.body :: seen)) =
                  (decide (e.sameBody source d = false) && !e.hasBody source seen) := by
                intro e
                rw [hasBody_cons, sameBody_of_fingerprint hd]
                cases e.hasBody source [p.body] <;> rfl
              rw [hcontains] at hseen
              rw [List.filter_cons_of_pos (by simp [hseen]), List.eraseDupsBy_cons,
                List.filter_filter]
              simp [ih, hfilter]

end GraphQL
