import GraphQL.Proofs.Document.Trees

/-!
How trees of spans are laid out in a text. Every span is there and is not empty, the spans
inside it do not leave it, and of two spans next to each other the second one starts where
the first one stops, or behind. So if the spans are listed in the order of the tree, no
span stops in front of one that was listed before it.
-/

namespace GraphQL.SpanTree

/-- Trees that are laid out between two places, with a property of their spans. -/
inductive Laid (P : Option String → Span → Prop) : Nat → Nat → List SpanTree → Prop
  | nil {lo hi : Nat} (hle : lo ≤ hi) : Laid P lo hi []
  | cons {lo hi : Nat} {name : Option String} {span : Span} {children ts : List SpanTree}
      (hlo : lo ≤ span.start) (hlt : span.start < span.stop) (hspan : P name span)
      (hchildren : Laid P span.start span.stop children) (hts : Laid P span.stop hi ts) :
      Laid P lo hi (node name (some span) children :: ts)

/-- Of two spans the second one stops where the first one does, or behind. -/
def StopsBy (s t : Option Span) : Prop := ∀ x ∈ s, ∀ y ∈ t, x.stop ≤ y.stop

namespace Laid

variable {P : Option String → Span → Prop} {lo mid hi : Nat} {ts us : List SpanTree}

theorem le (h : Laid P lo hi ts) : lo ≤ hi := by
  induction h with
  | nil hle => exact hle
  | cons hlo hlt _ _ _ _ ih => omega

theorem append (hts : Laid P lo mid ts) (hus : Laid P mid hi us) : Laid P lo hi (ts ++ us) := by
  induction hts with
  | nil hle =>
      cases hus with
      | nil hle' => exact .nil (by omega)
      | cons hlo hlt hspan hchildren hrest => exact .cons (by omega) hlt hspan hchildren hrest
  | cons hlo hlt hspan hchildren _ _ ih => exact .cons hlo hlt hspan hchildren (ih hus)

/-- One tree on the whole of its place. -/
theorem whole {name : Option String} (hlt : lo < hi) (hspan : P name ⟨lo, hi⟩)
    (h : Laid P lo hi ts) : Laid P lo hi [node name (some ⟨lo, hi⟩) ts] :=
  .cons (Nat.le_refl lo) hlt hspan h (.nil (Nat.le_refl hi))

/-- What is known of every span that is listed. -/
theorem of_mem_postorder (h : Laid P lo hi ts) {s : Option Span}
    (hs : s ∈ ts.flatMap postorder) :
    ∃ name span, s = some span ∧ lo ≤ span.start ∧ span.start < span.stop ∧ span.stop ≤ hi ∧
      P name span := by
  induction h with
  | nil => cases hs
  | @cons lo hi name span children ts hlo hlt hspan hchildren hts ihchildren ihts =>
      have hle := hts.le
      rw [List.flatMap_cons, postorder, postorderList_eq_flatMap, List.mem_append,
        List.mem_append, List.mem_singleton] at hs
      rcases hs with (hs | rfl) | hs
      · obtain ⟨name', span', rfl, hstart, hlt', hstop, hspan'⟩ := ihchildren hs
        exact ⟨name', span', rfl, by omega, hlt', by omega, hspan'⟩
      · exact ⟨name, span, rfl, hlo, hlt, hle, hspan⟩
      · obtain ⟨name', span', rfl, hstart, hlt', hstop, hspan'⟩ := ihts hs
        exact ⟨name', span', rfl, by omega, hlt', hstop, hspan'⟩

/-- No span stops in front of one that is listed before it. -/
theorem pairwise_postorder (h : Laid P lo hi ts) :
    (ts.flatMap postorder).Pairwise StopsBy := by
  induction h with
  | nil => exact .nil
  | @cons lo hi name span children ts hlo hlt hspan hchildren hts ihchildren ihts =>
      rw [List.flatMap_cons, postorder, postorderList_eq_flatMap]
      refine List.pairwise_append.2 ⟨List.pairwise_append.2 ⟨ihchildren, ?_, ?_⟩, ihts, ?_⟩
      · exact List.pairwise_singleton _ _
      · -- The children stop inside the node.
        rintro s hs t ht x hx y hy
        rw [List.mem_singleton.1 ht] at hy
        obtain ⟨_, span', rfl, -, -, hstop, -⟩ := hchildren.of_mem_postorder hs
        cases hx
        cases hy
        exact hstop
      · -- What follows starts where the node stops, or behind.
        rintro s hs t ht x hx y hy
        obtain ⟨_, span', rfl, hstart, hlt', -, -⟩ := hts.of_mem_postorder ht
        cases hy
        have hx' : x.stop ≤ span.stop := by
          rcases List.mem_append.1 hs with hs | hs
          · obtain ⟨_, span'', rfl, -, -, hstop, -⟩ := hchildren.of_mem_postorder hs
            cases hx
            exact hstop
          · rw [List.mem_singleton.1 hs] at hx
            cases hx
            exact Nat.le_refl _
        omega

end Laid

/-! ### Placing -/

/-- What is between places that are counted is put somewhere in order: each of `n` things
starts in front of its own end, and not in front of the end of the one before it. -/
structure Orderly (start stop : Nat → Nat) (n : Nat) : Prop where
  start_lt : ∀ {i}, i < n → start i < stop (i + 1)
  stop_le : ∀ {i}, i < n → stop i ≤ start i

namespace Orderly

variable {start stop : Nat → Nat} {n i j : Nat} (h : Orderly start stop n)
include h

theorem stop_mono (hij : i ≤ j) (hj : j ≤ n) : stop i ≤ stop j := by
  induction hij with
  | refl => exact Nat.le_refl _
  | step _ ih =>
      have hnext := Nat.le_trans (h.stop_le hj) (Nat.le_of_lt (h.start_lt hj))
      exact Nat.le_trans (ih (Nat.le_of_lt hj)) hnext

theorem start_lt_stop (hij : i < j) (hj : j ≤ n) : start i < stop j :=
  Nat.lt_of_lt_of_le (h.start_lt (Nat.lt_of_lt_of_le hij hj)) (h.stop_mono hij hj)

theorem stop_le_start (hij : i ≤ j) (hj : j < n) : stop i ≤ start j :=
  Nat.le_trans (h.stop_mono hij (Nat.le_of_lt hj)) (h.stop_le hj)

theorem start_mono (hij : i ≤ j) (hj : j < n) : start i ≤ start j := by
  rcases Nat.lt_or_eq_of_le hij with hlt | rfl
  · exact Nat.le_trans (Nat.le_of_lt (h.start_lt (Nat.lt_trans hlt hj))) (h.stop_le_start hlt hj)
  · exact Nat.le_refl _

end Orderly

/-- Trees that are laid out by counting are laid out where they are put. -/
theorem Laid.place {P Q : Option String → Span → Prop} {start stop : Nat → Nat}
    {n lo hi bound : Nat} {ts : List SpanTree} (horderly : Orderly start stop n)
    (hQ : ∀ name span, span.start < span.stop → span.stop ≤ n → P name span →
      Q name ⟨start span.start, stop span.stop⟩)
    (h : Laid P lo hi ts) (hhi : hi ≤ n) (hstop : bound ≤ stop hi)
    (hstart : ∀ i, lo ≤ i → i < n → bound ≤ start i) :
    Laid Q bound (stop hi)
      (ts.map (·.mapSpans (Option.map fun s => ⟨start s.start, stop s.stop⟩))) := by
  induction h generalizing bound with
  | nil => exact .nil hstop
  | cons hlo hlt hspan hchildren hts ihchildren ihts =>
      have hle := Nat.le_trans hts.le hhi
      rw [List.map_cons, mapSpans, mapSpansList_eq_map]
      refine .cons (hstart _ hlo (Nat.lt_of_lt_of_le hlt hle)) (horderly.start_lt_stop hlt hle)
        (hQ _ _ hlt hle hspan) (ihchildren hle ?_ ?_) (ihts hhi ?_ ?_)
      · exact Nat.le_of_lt (horderly.start_lt_stop hlt hle)
      · exact fun i => horderly.start_mono
      · exact horderly.stop_mono hts.le hhi
      · exact fun i => horderly.stop_le_start

end GraphQL.SpanTree
