import GraphQL.Proofs.Grammar.Soundness

/-!
Where definitions are read from. Each definition of a document has the span of
the lexemes that spell it, and the definitions stand one behind the other, so
that no lexeme is left out.
-/

namespace GraphQL.Grammar

variable {α β : Type}

/-! ### Spans of definitions -/

/-- Every answer of a parser has a property. -/
def Answers (p : Parser α) (P : α → Prop) : Prop :=
  ∀ ⦃c : Cursor⦄ ⦃a : α⦄ ⦃d : Cursor⦄, p c = .ok (a, d) → P a

namespace Answers

variable {p q : Parser α} {f : α → Parser β} {P : α → Prop} {Q : β → Prop}

theorem pure {a : α} (h : P a) : Answers (pure a) P := by
  intro c b d hb
  obtain ⟨rfl, -⟩ := Prod.mk.inj (pure_eq_ok.1 hb)
  exact h

theorem bind (hp : Answers p P) (hf : ∀ a, P a → Answers (f a) Q) : Answers (p >>= f) Q := by
  intro c b e h
  obtain ⟨a, d, ha, hb⟩ := bind_eq_ok.1 h
  exact hf a (hp ha) hb

/-- What comes last decides on the answer. -/
theorem last (hf : ∀ a, Answers (f a) Q) : Answers (p >>= f) Q := by
  intro c b e h
  obtain ⟨a, d, -, hb⟩ := bind_eq_ok.1 h
  exact hf a hb

theorem fail (fault : Lexeme → Fault) : Answers (fail fault) P := by
  intro c a d h
  cases h

theorem ite {t : Prop} [Decidable t] (hp : Answers p P) (hq : Answers q P) :
    Answers (if t then p else q) P := by
  split
  · exact hp
  · exact hq

end Answers

/-- A node under construction takes the span that it is given. -/
def TakesSpan (span : α → Option Span) (build : Option Span → α) : Prop :=
  ∀ s, span (build s) = s

theorem takesSpan_shorthandQuery : Answers shorthandQuery (TakesSpan OperationDefinition.span) :=
  .last fun _ => .pure fun _ => rfl

theorem takesSpan_operation : Answers operation (TakesSpan OperationDefinition.span) :=
  .last fun _ => .last fun _ => .last fun _ => .last fun _ => .last fun _ => .pure fun _ => rfl

theorem takesSpan_fragment (allowed : Bool) :
    Answers (fragment allowed) (TakesSpan FragmentDefinition.span) :=
  .last fun _ => .last fun _ => .ite (.fail _) (.last fun _ => .last fun _ => .last fun _ =>
    .last fun _ => .last fun _ => .last fun _ => .pure fun _ => rfl)

theorem takesSpan_schema (about : Option StringValue) (extend : Bool) :
    Answers (schema about extend) (TakesSpan SchemaDefinition.span) :=
  .last fun _ => .last fun _ => .last fun _ => .pure fun _ => rfl

theorem takesSpan_typeDefinition (about : Option StringValue) (extend : Bool) (k : Keyword) :
    Answers (typeDefinition about extend k) (TakesSpan TypeDefinition.span) :=
  .last fun _ => .last fun _ => .last fun _ => .pure fun _ => rfl

theorem takesSpan_directiveDefinition (about : Option StringValue) :
    Answers (directiveDefinition about) (TakesSpan DirectiveDefinition.span) :=
  .last fun _ => .last fun _ => .last fun _ => .last fun _ => .last fun _ => .last fun _ =>
    .last fun _ => .pure fun _ => rfl

theorem takesSpan_extension : Answers extension (TakesSpan Definition.span) := by
  refine .last fun _ => .bind (P := TakesSpan Definition.span) (.last fun l => ?_) fun _ hbuild =>
    .ite (.fail _) (.pure hbuild)
  split
  · exact .bind (takesSpan_schema none true) fun _ h => .pure h
  · exact .ite (.bind (takesSpan_typeDefinition none true _) fun _ h => .pure h) (.fail _)
  · exact .fail _

theorem takesSpan_keywordDefinition (allowed : Bool) (about : Option StringValue) (k : Keyword) :
    Answers (keywordDefinition allowed about k) (TakesSpan Definition.span) := by
  refine .ite (.fail _) ?_
  split
  · exact .bind takesSpan_operation fun _ h => .pure h
  · exact .bind takesSpan_operation fun _ h => .pure h
  · exact .bind takesSpan_operation fun _ h => .pure h
  · exact .bind (takesSpan_fragment allowed) fun _ h => .pure h
  · exact .bind (takesSpan_schema about false) fun _ h => .pure h
  · exact .bind (takesSpan_directiveDefinition about) fun _ h => .pure h
  · exact takesSpan_extension
  · exact .ite (.bind (takesSpan_typeDefinition about false _) fun _ h => .pure h) (.fail _)

/-- The span of a node is what was read for it. -/
theorem span_spanned {node : Parser (Option Span → α)} (span : α → Option Span) {c e : Cursor}
    {a : α} (hn : Answers node (TakesSpan span)) (h : spanned node c = .ok (a, e)) :
    span a = some ⟨c.position, e.position⟩ := by
  obtain ⟨start, c', hstart, h⟩ := bind_eq_ok.1 h
  cases hstart
  obtain ⟨build, e', hbuild, h⟩ := bind_eq_ok.1 h
  obtain ⟨stop, e'', hstop, h⟩ := bind_eq_ok.1 h
  cases hstop
  cases h
  exact hn hbuild _

theorem span_definition {allowed : Bool} {c e : Cursor} {d : Definition}
    (h : definition allowed c = .ok (d, e)) : d.span = some ⟨c.position, e.position⟩ := by
  refine span_spanned Definition.span ?_ h
  refine .last fun _ => .ite ?_ (.last fun _ => .last fun _ => ?_)
  · exact .bind takesSpan_shorthandQuery fun _ h => .pure h
  · split
    · exact takesSpan_keywordDefinition allowed _ _
    · exact .fail _

/-! ### Definitions in a row -/

/-- Definitions that stand one behind the other, the first one at a place, and
all the lexemes that spell them. -/
inductive Placed (allowed : Bool) : Nat → List Definition → List Lexeme → Prop
  | nil (place : Nat) : Placed allowed place [] []
  | cons {place : Nat} {d : Definition} {ds : List Definition} {chunk ls : List Lexeme}
      (hspan : d.span = some ⟨place, place + chunk.length⟩)
      (hproper : ∀ l ∈ chunk, l.Proper)
      (hchunk : SpellsValid Definition.slots (Definition.Valid allowed) d chunk)
      (hds : Placed allowed (place + chunk.length) ds ls) :
      Placed allowed place (d :: ds) (chunk ++ ls)

namespace Placed

variable {allowed : Bool} {place : Nat} {ds : List Definition} {ls : List Lexeme}

/-- Together the definitions spell all the lexemes. -/
theorem spells (h : Placed allowed place ds ls) :
    Spells (ds.flatMap Definition.slots) ls ∧ ∀ d ∈ ds, d.Valid allowed := by
  induction h with
  | nil => exact ⟨.nil, List.forall_mem_nil _⟩
  | cons _ _ hchunk _ ih =>
      rw [List.flatMap_cons]
      exact ⟨hchunk.1.append ih.1, List.forall_mem_cons.2 ⟨hchunk.2, ih.2⟩⟩

theorem proper (h : Placed allowed place ds ls) : ∀ l ∈ ls, l.Proper := by
  induction h with
  | nil => exact List.forall_mem_nil _
  | cons _ hproper _ _ ih => exact List.forall_mem_append.2 ⟨hproper, ih⟩

/-- Each definition is spelled by the lexemes under its span. -/
theorem of_mem (h : Placed allowed place ds ls) {d : Definition} (hd : d ∈ ds) :
    ∃ front chunk back, ls = front ++ chunk ++ back ∧
      d.span = some ⟨place + front.length, place + front.length + chunk.length⟩ ∧
      SpellsValid Definition.slots (Definition.Valid allowed) d chunk := by
  induction h with
  | nil => cases hd
  | @cons place e ds chunk ls hspan _ hchunk _ ih =>
      rcases List.mem_cons.1 hd with rfl | hd
      · exact ⟨[], chunk, ls, by simp, hspan, hchunk⟩
      · obtain ⟨front, chunk', back, rfl, hspan', hchunk'⟩ := ih hd
        refine ⟨chunk ++ front, chunk', back, by simp, ?_, hchunk'⟩
        rw [hspan', List.length_append, Nat.add_assoc place]

end Placed

theorem Cursor.rest_eq_nil {c : Cursor} (hc : ∀ l ∈ c.rest, l.Coherent)
    (h : c.current.kind = .endOfInput) : c.rest = [] := by
  obtain ⟨n, rest⟩ := c
  cases rest with
  | nil => rfl
  | cons l rest => exact absurd h (hc l List.mem_cons_self).kind_ne_endOfInput

/-- A definition and the lexemes that were read for it. -/
theorem placed_definition {allowed : Bool} {c e : Cursor} {d : Definition}
    (hc : ∀ l ∈ c.rest, l.Coherent) (h : definition allowed c = .ok (d, e)) :
    ∃ chunk, c.rest = chunk ++ e.rest ∧ e.position = c.position + chunk.length ∧
      ∀ {ds ls}, Placed allowed e.position ds ls →
        Placed allowed c.position (d :: ds) (chunk ++ ls) := by
  obtain ⟨chunk, hrest, hproper, hchunk⟩ := sound_definition allowed hc d e h
  obtain ⟨chunk', -, hrest', hposition⟩ := reads_definition allowed h
  rw [hrest] at hrest'
  rw [← List.append_cancel_right hrest'] at hposition
  refine ⟨chunk, hrest, hposition, fun hds => ?_⟩
  have hspan := span_definition h
  rw [hposition] at hspan hds
  exact .cons hspan hproper hchunk hds

/-- Definitions that are read one after the other. -/
inductive Runs (allowed : Bool) : Cursor → List Definition → Cursor → Prop
  | nil (c : Cursor) : Runs allowed c [] c
  | cons {c d e : Cursor} {x : Definition} {xs : List Definition}
      (hx : definition allowed c = .ok (x, d)) (hxs : Runs allowed d xs e) :
      Runs allowed c (x :: xs) e

/-- Definitions are read one after the other, up to the end of the input or to a fault. -/
theorem definitions_cases (allowed : Bool) (c : Cursor) : ∃ ds d, Runs allowed c ds d ∧
    (ds ≠ [] ∧ d.current.kind = .endOfInput ∧ definitions allowed c = .ok ((ds, none), d) ∨
      ∃ err, definition allowed d = .error err ∧
        definitions allowed c = .ok ((ds, some err), d)) := by
  -- Each round reads one definition and leaves the rest to the next.
  induction hn : c.rest.length using Nat.strongRecOn generalizing c with
  | ind n ih =>
      cases hx : definition allowed c with
      | error err => exact ⟨[], c, .nil c, .inr ⟨err, hx, definitions_of_error hx⟩⟩
      | ok r =>
          obtain ⟨x, d⟩ := r
          by_cases hend : d.current.kind = .endOfInput
          · exact ⟨[x], d, .cons hx (.nil d),
              .inl ⟨List.cons_ne_nil _ _, hend, definitions_of_last hx hend⟩⟩
          · have hlength := (reads_definition allowed).length_le hx
            obtain ⟨xs, e, hxs, hstop⟩ := ih _ (by omega) d rfl
            refine ⟨x :: xs, e, .cons hx hxs, hstop.imp ?_ ?_⟩
            · rintro ⟨-, he, hds⟩
              exact ⟨List.cons_ne_nil _ _, he, definitions_of_more hx hend hds⟩
            · rintro ⟨err, herr, hds⟩
              exact ⟨err, herr, definitions_of_more hx hend hds⟩

/-- The same for what was read. -/
theorem read_cases (allowed : Bool) (ls : List Lexeme) : ∃ ds d, Runs allowed ⟨0, ls⟩ ds d ∧
    (ds ≠ [] ∧ d.current.kind = .endOfInput ∧ read allowed ls = ⟨ds, none, d.position⟩ ∨
      ∃ err, definition allowed d = .error err ∧
        read allowed ls = ⟨ds, some err, err.position⟩) := by
  obtain ⟨ds, d, hruns, hstop⟩ := definitions_cases allowed ⟨0, ls⟩
  refine ⟨ds, d, hruns, hstop.imp ?_ ?_⟩
  · rintro ⟨hne, hend, hds⟩
    refine ⟨hne, hend, ?_⟩
    rw [read, hds]
  · rintro ⟨err, herr, hds⟩
    refine ⟨err, herr, ?_⟩
    rw [read, hds]

/-- Definitions were read one after the other, also in front of a fault. -/
theorem runs_read (allowed : Bool) (ls : List Lexeme) :
    ∃ d, Runs allowed ⟨0, ls⟩ (read allowed ls).definitions d := by
  obtain ⟨ds, d, hruns, ⟨-, -, hread⟩ | ⟨err, -, hread⟩⟩ := read_cases allowed ls
  · exact ⟨d, by rwa [hread]⟩
  · exact ⟨d, by rwa [hread]⟩

/-- A fault is that of the definition at which reading stopped. -/
theorem read_of_error {allowed : Bool} {ls : List Lexeme} {e : SyntaxError}
    (h : (read allowed ls).error? = some e) : ∃ ds d, Runs allowed ⟨0, ls⟩ ds d ∧
      definition allowed d = .error e ∧ read allowed ls = ⟨ds, some e, e.position⟩ := by
  obtain ⟨ds, d, hruns, ⟨-, -, hread⟩ | ⟨err, he, hread⟩⟩ := read_cases allowed ls
  · rw [hread] at h
    cases h
  · rw [hread] at h
    obtain rfl := Option.some.inj h
    exact ⟨ds, d, hruns, he, hread⟩

theorem Runs.coherent {allowed : Bool} {c e : Cursor} {ds : List Definition}
    (h : Runs allowed c ds e) (hc : ∀ l ∈ c.rest, l.Coherent) : ∀ l ∈ e.rest, l.Coherent := by
  induction h with
  | nil => exact hc
  | cons hx _ ih =>
      obtain ⟨chunk, -, hrest, -⟩ := reads_definition allowed hx
      exact ih fun l hl => hc l (hrest ▸ List.mem_append_right chunk hl)

theorem Runs.placed {allowed : Bool} {c e : Cursor} {ds : List Definition}
    (h : Runs allowed c ds e) (hc : ∀ l ∈ c.rest, l.Coherent) (he : e.rest = []) :
    Placed allowed c.position ds c.rest := by
  induction h with
  | nil =>
      rw [he]
      exact .nil _
  | cons hx _ ih =>
      obtain ⟨chunk, hrest, -, hplaced⟩ := placed_definition hc hx
      rw [hrest]
      exact hplaced (ih (fun l hl => hc l (hrest ▸ List.mem_append_right chunk hl)) he)

/-- Reading without a fault reads everything. -/
theorem runs_of_read {allowed : Bool} {ls : List Lexeme} (hc : ∀ l ∈ ls, l.Coherent)
    (h : (read allowed ls).error? = none) :
    (read allowed ls).definitions ≠ [] ∧
      ∃ e, Runs allowed ⟨0, ls⟩ (read allowed ls).definitions e ∧ e.rest = [] := by
  obtain ⟨ds, e, hruns, ⟨hne, hend, hread⟩ | ⟨err, -, hread⟩⟩ := read_cases allowed ls
  · rw [hread]
    exact ⟨hne, e, hruns, Cursor.rest_eq_nil (hruns.coherent hc) hend⟩
  · rw [hread] at h
    cases h

theorem placed_read (allowed : Bool) {ls : List Lexeme} (hc : ∀ l ∈ ls, l.Coherent)
    (h : (read allowed ls).error? = none) :
    (read allowed ls).definitions ≠ [] ∧ Placed allowed 0 (read allowed ls).definitions ls := by
  obtain ⟨hne, e, hruns, he⟩ := runs_of_read hc h
  exact ⟨hne, hruns.placed hc he⟩

end GraphQL.Grammar
