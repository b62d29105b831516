import GraphQL.Proofs.Key.Contents

/-!
The form of keys. A key is made of words with one space between them, and its
characters are those of the text that neither separate nor stand in a comment.
-/

namespace GraphQL.Key

open Text

/-! ### Single spaces -/

/-- A text of words with single spaces between them, and maybe one in front. -/
structure Spaced (w : List Char) : Prop where
  separator : ∀ c ∈ w, isSeparator c = true → c = ' '
  last : ∀ c ∈ w.getLast?, c ≠ ' '
  single : ¬[' ', ' '] <:+: w

/-- The form of a key. -/
structure Canonical (k : List Char) : Prop extends Spaced k where
  head : ∀ c ∈ k.head?, c ≠ ' '

theorem ne_space {c : Char} (h : isSeparator c = false) : c ≠ ' ' := by
  rintro rfl
  exact absurd h (by decide)

namespace Spaced

variable {c : Char} {w : List Char}

theorem nil : Spaced [] := ⟨by simp, by simp, by simp⟩

theorem cons (hc : isSeparator c = false) (h : Spaced w) : Spaced (c :: w) where
  separator := by
    refine List.forall_mem_cons.2 ⟨fun hsep => ?_, h.separator⟩
    rw [hc] at hsep
    cases hsep
  last := by
    cases w with
    | nil =>
        rintro d ⟨⟩
        exact ne_space hc
    | cons d w => exact h.last
  single := by
    rw [List.infix_cons_iff, not_or]
    refine ⟨fun hpre => ?_, h.single⟩
    exact ne_space hc (List.cons_prefix_cons.1 hpre).1.symm

theorem space (hc : isSeparator c = false) (h : Spaced (c :: w)) : Spaced (' ' :: c :: w) where
  separator := List.forall_mem_cons.2 ⟨fun _ => rfl, h.separator⟩
  last := h.last
  single := by
    rw [List.infix_cons_iff, not_or]
    refine ⟨fun hpre => ?_, h.single⟩
    have hsecond := (List.cons_prefix_cons.1 hpre).2
    exact ne_space hc (List.cons_prefix_cons.1 hsecond).1.symm

end Spaced

theorem spaced_writeAfter {ms : List Mark} (h : ∀ c, .keep c ∈ ms → isSeparator c = false)
    (due : Bool) : Spaced (writeAfter due ms) := by
  induction ms generalizing due with
  | nil => exact .nil
  | cons m ms ih =>
      have hrest := ih fun c hc => h c (List.mem_cons_of_mem _ hc)
      cases m with
      | gap => exact hrest true
      | keep c =>
          have hc := h c List.mem_cons_self
          have hword := (hrest false).cons hc
          cases due with
          | false => exact hword
          | true => exact hword.space hc

theorem canonical_write {ms : List Mark} (h : ∀ c, .keep c ∈ ms → isSeparator c = false) :
    Canonical (write ms) := by
  induction ms with
  | nil => exact ⟨.nil, by simp [write]⟩
  | cons m ms ih =>
      have hrest : ∀ c, .keep c ∈ ms → isSeparator c = false :=
        fun c hc => h c (List.mem_cons_of_mem _ hc)
      cases m with
      | gap => exact ih hrest
      | keep c =>
          have hc := h c List.mem_cons_self
          refine ⟨(spaced_writeAfter hrest false).cons hc, ?_⟩
          rintro d ⟨⟩
          exact ne_space hc

/-! ### What is kept -/

/-- What is no space in a key does not separate. -/
theorem Canonical.filter_ne_space {k : List Char} (h : Canonical k) :
    k.filter (· ≠ ' ') = contents k := by
  refine List.filter_congr fun c hc => ?_
  cases hsep : isSeparator c with
  | true => simp [h.separator c hc hsep]
  | false => simp [ne_space hsep]

/-- The reader of marks keeps characters of the text, in order. -/
theorem keptBy_sublist (mode : Mode) (cs : List Char) : (keptBy (marks mode cs)).Sublist cs := by
  fun_induction marks mode cs with
  | _ => grind [keptBy]

/-- A key is of the form of keys. It has no other characters than the text, and all those
that do not separate if there is no sign of a comment. -/
theorem ofSource_canonical (s : String) :
    Canonical (ofSource s).toList ∧
      ((ofSource s).toList.filter (· ≠ ' ')).Sublist s.toList ∧
      ('#' ∉ s.toList → (ofSource s).toList.filter (· ≠ ' ') = contents s.toList) := by
  have hcanonical : Canonical (ofSource s).toList := by
    rw [ofSource, String.toList_ofList]
    exact canonical_write isSeparator_of_keep
  have hcontents : contents (ofSource s).toList = contents (keptBy (marks .code s.toList)) := by
    rw [ofSource, String.toList_ofList, ofText, contents_write]
  rw [hcanonical.filter_ne_space, hcontents]
  refine ⟨hcanonical, List.filter_sublist.trans (keptBy_sublist .code s.toList), fun hhash => ?_⟩
  exact contents_keptBy_marks (by simp) hhash

/-- Separators in code and in a string that a line end closes. -/
theorem ofSource_canonical_example :
    let s := "\uFEFF a,\u00A0b\x7b\"c \\\"\t d\r\n\x7d "
    '#' ∉ s.toList ∧ Canonical (ofSource s).toList ∧
      (ofSource s).toList.filter (· ≠ ' ') = "ab\x7b\"c\\\"d\x7d".toList := by
  intro s
  have hhash : '#' ∉ s.toList := by decide +kernel
  obtain ⟨hcanonical, -, hcontents⟩ := ofSource_canonical s
  have hkept : contents s.toList = "ab\x7b\"c\\\"d\x7d".toList := by decide +kernel
  exact ⟨hhash, hcanonical, (hcontents hhash).trans hkept⟩

end GraphQL.Key
