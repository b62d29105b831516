import GraphQL.Proofs.Template.Failures
import Mathlib.Data.List.Basic

/-!
Templates inside templates. A value that is the text of another template can be replaced by the
literals and values of that template: its first and last literals then run into those around
the value. The text is the same, since it is woven of the same pieces in the same order.
-/

namespace GraphQL

/-! ### The text of literals and texts -/

/-- Literals and the texts between them, one after the other. -/
def weave : List String → List String → String
  | [], _ => ""
  | l :: _, [] => l
  | l :: ls, t :: ts => l ++ t ++ weave ls ts

/-- Literals with a text behind each of them. -/
def weaveAll : List String → List String → String
  | l :: ls, t :: ts => l ++ t ++ weaveAll ls ts
  | _, _ => ""

theorem weave_append {front texts : List String} (h : front.length = texts.length)
    (ls ts : List String) :
    weave (front ++ ls) (texts ++ ts) = weaveAll front texts ++ weave ls ts := by
  induction front generalizing texts with
  | nil =>
      obtain rfl := List.eq_nil_of_length_eq_zero h.symm
      simp [weaveAll]
  | cons l front ih =>
      obtain ⟨t, texts, rfl⟩ := List.exists_cons_of_length_eq_add_one h.symm
      simp [weave, weaveAll, ih (Nat.succ.inj h), String.append_assoc]

/-- What is put in front of the first literal is in front of the text. -/
theorem weave_modifyHead (before : String) {ls : List String} (h : ls ≠ []) (ts : List String) :
    weave (ls.modifyHead (before ++ ·)) ts = before ++ weave ls ts := by
  obtain ⟨l, ls, rfl⟩ := List.exists_cons_of_ne_nil h
  cases ts with
  | nil => simp [weave]
  | cons t ts => simp [weave, String.append_assoc]

theorem weave_cons_append (l after : String) (ls ts : List String) :
    weave ((l ++ after) :: ls) ts = l ++ weave (after :: ls) ts :=
  weave_modifyHead l (List.cons_ne_nil after ls) ts

/-! ### Templates that have a text -/

theorem interleave_of_texts {values : List Splice} {ts rest : List String} {index : Nat}
    (htexts : values.map Splice.text? = ts.map some) (h : rest.length = values.length)
    (first : String) :
    (interleave index (values.zip rest)).map (first ++ ·) = .ok (weave (first :: rest) ts) := by
  induction ts generalizing values rest index first with
  | nil =>
      obtain rfl := List.map_eq_nil_iff.1 htexts
      simp [interleave, weave, Except.map]
  | cons t ts ih =>
      obtain ⟨v, values, rfl, hv, hvalues⟩ := List.map_eq_cons_iff.1 htexts
      obtain ⟨l, rest, rfl⟩ := List.exists_cons_of_length_eq_add_one h
      have hrest : (interleave (index + 1) (values.zip rest)).map (l ++ ·) =
          .ok (weave (l :: rest) ts) := ih hvalues (Nat.succ.inj h) l
      rw [List.zip_cons_cons, interleave, hv]
      cases hs : interleave (index + 1) (values.zip rest) with
      | error e => simp [hs, Except.map] at hrest
      | ok s =>
          rw [hs] at hrest
          have hs' : l ++ s = weave (l :: rest) ts := Except.ok.inj hrest
          simp [Except.map, weave, ← hs', String.append_assoc]

theorem assemble_of_texts {literals ts : List String} {values : List Splice}
    (htexts : values.map Splice.text? = ts.map some) (h : literals.length = values.length + 1) :
    assemble literals values = .ok (weave literals ts) := by
  obtain ⟨first, rest, rfl⟩ := List.exists_cons_of_length_eq_add_one h
  rw [assemble, if_pos (Nat.succ.inj h)]
  exact interleave_of_texts htexts (Nat.succ.inj h) first

/-- Where a template has a text, all its values have, and there is one literal more. -/
theorem exists_texts {literals : List String} {values : List Splice} {s : String}
    (h : assemble literals values = .ok s) :
    literals.length = values.length + 1 ∧
      ∃ ts : List String, values.map Splice.text? = ts.map some ∧ weave literals ts = s := by
  have hnot : ¬∃ e, assemble literals values = .error e := by simp [h]
  rw [exists_assemble_eq_error_iff, not_or, not_ne_iff] at hnot
  obtain ⟨hlength, hsources⟩ := hnot
  have htexts : values.map Splice.text? = (values.map fun v => v.text?.getD "").map some := by
    rw [List.map_map]
    refine List.map_congr_left fun v hv => ?_
    cases htext : v.text? with
    | none =>
        obtain ⟨d, rfl, hd⟩ := Splice.text?_eq_none_iff.1 htext
        exact absurd ⟨d, hv, hd⟩ hsources
    | some t => simp [htext]
  refine ⟨hlength, _, htexts, ?_⟩
  rw [assemble_of_texts htexts hlength] at h
  exact Except.ok.inj h

/-! ### A template in place of a value -/

/-- The literals of a template between two others: the first one goes on from the literal in
front, and the last one goes on with the literal behind. -/
def enclose (before after : String) (inner : List String) : List String :=
  (inner.dropLast ++ [inner.getLastD "" ++ after]).modifyHead (before ++ ·)

/-- The literals of a template with those of another one in place of the value at an index. -/
def graft (outer : List String) (i : Nat) (inner : List String) : List String :=
  outer.take i ++ enclose (outer.getD i "") (outer.getD (i + 1) "") inner ++ outer.drop (i + 2)

theorem weave_enclose {inner texts : List String} (h : inner.length = texts.length + 1)
    (before after : String) (ls ts : List String) :
    weave (enclose before after inner ++ ls) (texts ++ ts) =
      before ++ weave inner texts ++ weave (after :: ls) ts := by
  obtain rfl | ⟨front, last, rfl⟩ := List.eq_nil_or_concat inner
  · cases h
  rw [List.concat_eq_append, List.length_append] at *
  have hfront : front.length = texts.length := Nat.succ.inj h
  have hinner : weave (front ++ [last]) texts = weaveAll front texts ++ last := by
    have happend := weave_append hfront [last] []
    rwa [List.append_nil] at happend
  have henclose : enclose before after (front ++ [last]) ++ ls =
      (front ++ ((last ++ after) :: ls)).modifyHead (before ++ ·) := by
    rw [enclose, List.dropLast_concat, List.getLastD_concat]
    cases front <;> simp
  rw [henclose, weave_modifyHead before (by simp), weave_append hfront, weave_cons_append, hinner]
  simp [String.append_assoc]

theorem length_enclose {inner : List String} (h : inner ≠ []) (before after : String) :
    (enclose before after inner).length = inner.length := by
  have hpos := List.length_pos_of_ne_nil h
  simp only [enclose, List.length_modifyHead, List.length_append, List.length_dropLast,
    List.length_singleton]
  omega

/-- A template between some literals and values has the text that it has as one value. -/
theorem assemble_enclose {front back inner : List String} {before after t s : String}
    {values first last : List Splice} (hfront : front.length = first.length)
    (hinner : assemble inner values = .ok t)
    (houter : assemble (front ++ before :: after :: back) (first ++ .text t :: last) = .ok s) :
    assemble (front ++ (enclose before after inner ++ back)) (first ++ (values ++ last)) =
      .ok s := by
  obtain ⟨hlength, texts, htexts, rfl⟩ := exists_texts hinner
  obtain ⟨hlength', ts, hts, rfl⟩ := exists_texts houter
  rw [List.map_append, List.map_cons] at hts
  obtain ⟨as, us, rfl, has, hus⟩ := List.map_eq_append_iff.1 hts.symm
  obtain ⟨u, bs, rfl, hu, hbs⟩ := List.map_eq_cons_iff.1 hus
  obtain rfl : u = weave inner texts := Option.some.inj hu
  have hall : (first ++ (values ++ last)).map Splice.text? = (as ++ (texts ++ bs)).map some := by
    rw [List.map_append, List.map_append, List.map_append, List.map_append, has, hbs, htexts]
  have hfront' : front.length = as.length := by
    rw [hfront, ← List.length_map (f := Splice.text?), ← has, List.length_map]
  have htexts' : inner.length = texts.length + 1 := by
    rw [hlength, ← List.length_map (f := Splice.text?), htexts, List.length_map]
  rw [assemble_of_texts hall]
  · rw [weave_append hfront', weave_append hfront', weave_enclose htexts', weave]
  · have hinner' : inner ≠ [] := List.ne_nil_of_length_eq_add_one hlength
    simp only [List.length_append, List.length_cons, length_enclose hinner'] at hlength' ⊢
    omega

/-- A list with an item at an index is what is in front of it, the item and what is behind. -/
theorem eq_take_cons_drop {α : Type} {xs : List α} {i : Nat} {x : α} (h : xs[i]? = some x) :
    xs = xs.take i ++ x :: xs.drop (i + 1) := by
  obtain ⟨hi, rfl⟩ := List.getElem?_eq_some_iff.1 h
  rw [← List.drop_eq_getElem_cons hi, List.take_append_drop]

theorem assemble_graft {inner outer : List String} {values around : List Splice} {t s : String}
    {i : Nat} (hinner : assemble inner values = .ok t) (houter : assemble outer around = .ok s)
    (hi : around[i]? = some (.text t)) :
    assemble (graft outer i inner) (around.take i ++ (values ++ around.drop (i + 1))) = .ok s := by
  have hlength := (exists_texts houter).1
  have hlt := (List.getElem?_eq_some_iff.1 hi).1
  have hbefore : outer[i]? = some outer[i] := List.getElem?_eq_getElem (by omega)
  have hafter : outer[i + 1]? = some outer[i + 1] := List.getElem?_eq_getElem (by omega)
  have hback : outer.drop (i + 1) = outer[i + 1] :: outer.drop (i + 2) :=
    List.drop_eq_getElem_cons (by omega)
  have hgraft : graft outer i inner =
      outer.take i ++ (enclose outer[i] outer[i + 1] inner ++ outer.drop (i + 2)) := by
    rw [graft, List.getD_eq_getElem?_getD, List.getD_eq_getElem?_getD, hbefore, hafter,
      List.append_assoc]
    rfl
  rw [eq_take_cons_drop hi, eq_take_cons_drop hbefore, hback] at houter
  rw [hgraft]
  refine assemble_enclose ?_ hinner houter
  rw [List.length_take, List.length_take]
  omega

example : graft ["a", "b", "c", "d"] 1 ["x"] = ["a", "bxc", "d"] := by decide

example : graft ["a", "b", "c", "d"] 1 ["x", "y", "z"] = ["a", "bx", "y", "zc", "d"] := by decide

/-! ### Templates that have no text -/

/-- The first value without a text is the first document without a source. -/
theorem findIdx?_sourceless {values : List Splice} {i : Nat} :
    values.findIdx? (·.text?.isNone) = some i ↔
      (∃ d, values[i]? = some (.document d) ∧ d.source? = none) ∧
        ∀ j < i, ∀ d, values[j]? = some (.document d) → d.source? ≠ none := by
  rw [List.findIdx?_eq_some_iff_getElem]
  simp only [Option.isNone_iff_eq_none, Splice.text?_eq_none_iff]
  constructor
  · rintro ⟨hi, ⟨d, hd, hsource⟩, hfirst⟩
    refine ⟨⟨d, List.getElem?_eq_some_iff.2 ⟨hi, hd⟩, hsource⟩, fun j hj e he hnone => ?_⟩
    exact hfirst j hj ⟨e, (List.getElem?_eq_some_iff.1 he).2, hnone⟩
  · rintro ⟨⟨d, hd, hsource⟩, hfirst⟩
    obtain ⟨hi, hd⟩ := List.getElem?_eq_some_iff.1 hd
    refine ⟨hi, ⟨d, hd, hsource⟩, fun j hj => ?_⟩
    rintro ⟨e, he, hnone⟩
    exact hfirst j hj e (List.getElem?_eq_some_iff.2 ⟨_, he⟩) hnone

/-- The text of a template can be taken apart again: the template may stand in place of a value
that is its text. A template has no text if the numbers of literals and values do not fit, and
else if a document among the values has no source, the first of which is named. -/
theorem assemble_flattens :
    (∀ (inner outer : List String) (values around : List Splice) (t s : String) (i : Nat),
      assemble inner values = .ok t → assemble outer around = .ok s →
        around[i]? = some (.text t) →
          assemble (graft outer i inner) (around.take i ++ (values ++ around.drop (i + 1))) =
            assemble outer around) ∧
      ∀ (literals : List String) (values : List Splice),
        (∀ l v, assemble literals values = .error (.arity l v) ↔
          literals.length ≠ values.length + 1 ∧ l = literals.length ∧ v = values.length) ∧
        ∀ i, assemble literals values = .error (.missingSource i) ↔
          literals.length = values.length + 1 ∧
            (∃ d, values[i]? = some (.document d) ∧ d.source? = none) ∧
            ∀ j < i, ∀ d, values[j]? = some (.document d) → d.source? ≠ none := by
  refine ⟨fun _ _ _ _ _ _ _ hinner houter hi => ?_,
    fun literals values => ⟨fun l v => ?_, fun i => ?_⟩⟩
  · rw [houter]
    exact assemble_graft hinner houter hi
  · rw [assemble_eq_error_iff]
    split <;> simp_all
  · rw [assemble_eq_error_iff, ← findIdx?_sourceless]
    split <;> simp_all

/-- A template whose only value is a document, as a value between two braces. -/
theorem assemble_flattens_example :
    let d : Document := ⟨[], some ⟨none, "b"⟩⟩
    assemble ["a", "c"] [.document d] = .ok "abc" ∧
      assemble ["\x7b", "\x7d"] [.text "abc"] = .ok "\x7babc\x7d" ∧
      assemble (graft ["\x7b", "\x7d"] 0 ["a", "c"]) [.document d] =
        assemble ["\x7b", "\x7d"] [.text "abc"] :=
  ⟨rfl, rfl, assemble_flattens.1 ["a", "c"] ["\x7b", "\x7d"] [.document ⟨[], some ⟨none, "b"⟩⟩]
    [.text "abc"] "abc" "\x7babc\x7d" 0 rfl rfl rfl⟩

end GraphQL
