import GraphQL.Template

/-!
Templates that have no text. There are too few or too many literals, or a document
among the values has no source, and then the first such document is the one to blame.
-/

namespace GraphQL

theorem Splice.text?_eq_none_iff {v : Splice} :
    v.text? = none ↔ ∃ d, v = .document d ∧ d.source? = none := by
  cases v with
  | text t => simp [text?]
  | document d => simp [text?]

/-- The first value without a text is named, by its place from the index on. -/
theorem interleave_eq_error_iff {index : Nat} {values : List (Splice × String)}
    {e : TemplateError} :
    interleave index values = .error e ↔
      ∃ i, values.findIdx? (·.1.text?.isNone) = some i ∧ e = .missingSource (index + i) := by
  induction values generalizing index with
  | nil => simp [interleave]
  | cons x values ih =>
      obtain ⟨v, literal⟩ := x
      rw [interleave, List.findIdx?_cons]
      cases htext : v.text? with
      | none => simp [eq_comm]
      | some t =>
          have hmap : (interleave (index + 1) values).map (t ++ literal ++ ·) = .error e ↔
              interleave (index + 1) values = .error e := by
            cases interleave (index + 1) values <;> simp [Except.map]
          refine hmap.trans (ih.trans ?_)
          -- Places behind this value are one further from its own index.
          simp only [Option.isNone_some, Bool.false_eq_true, if_false, Option.map_eq_some_iff]
          constructor
          · rintro ⟨i, hi, rfl⟩
            exact ⟨i + 1, ⟨i, hi, rfl⟩, by rw [Nat.add_right_comm, Nat.add_assoc]⟩
          · rintro ⟨-, ⟨i, hi, rfl⟩, rfl⟩
            exact ⟨i, hi, by rw [Nat.add_right_comm, Nat.add_assoc]⟩

/-- Numbers that do not fit are blamed first. -/
theorem assemble_eq_error_iff {literals : List String} {values : List Splice}
    {e : TemplateError} :
    assemble literals values = .error e ↔
      if literals.length = values.length + 1 then
        ∃ i, values.findIdx? (·.text?.isNone) = some i ∧ e = .missingSource i
      else e = .arity literals.length values.length := by
  cases literals with
  | nil => simp [assemble, eq_comm]
  | cons first rest =>
      by_cases hlength : rest.length = values.length
      · have hvalues : (values.zip rest).map Prod.fst = values :=
          List.map_fst_zip (Nat.le_of_eq hlength.symm)
        have hfind : (values.zip rest).findIdx? (·.1.text?.isNone) =
            values.findIdx? (·.text?.isNone) := by
          have hplace := @List.findIdx?_map _ _ (·.text?.isNone) Prod.fst (values.zip rest)
          rw [hvalues] at hplace
          exact hplace.symm
        have hmap : assemble (first :: rest) values = .error e ↔
            interleave 0 (values.zip rest) = .error e := by
          rw [assemble, if_pos hlength]
          cases interleave 0 (values.zip rest) <;> simp [Except.map]
        rw [hmap, interleave_eq_error_iff, hfind]
        simp [hlength]
      · simp [assemble, hlength, eq_comm]

/-- A template fails only for its numbers of literals and values, or for a document
that has no source. -/
theorem exists_assemble_eq_error_iff {literals : List String} {values : List Splice} :
    (∃ e, assemble literals values = .error e) ↔
      literals.length ≠ values.length + 1 ∨ ∃ d, .document d ∈ values ∧ d.source? = none := by
  simp only [assemble_eq_error_iff]
  by_cases hlength : literals.length = values.length + 1
  · have hblamed : (∃ i, values.findIdx? (·.text?.isNone) = some i) ↔
        ∃ d, .document d ∈ values ∧ d.source? = none := by
      rw [← Option.isSome_iff_exists, List.findIdx?_isSome, List.any_eq_true]
      simp only [Option.isNone_iff_eq_none, Splice.text?_eq_none_iff]
      constructor
      · rintro ⟨-, hmem, d, rfl, hd⟩
        exact ⟨d, hmem, hd⟩
      · rintro ⟨d, hmem, hd⟩
        exact ⟨_, hmem, d, rfl, hd⟩
    simpa [hlength, exists_comm] using hblamed
  · simp [hlength]

end GraphQL
