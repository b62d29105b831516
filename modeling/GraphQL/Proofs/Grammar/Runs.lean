import GraphQL.Proofs.Grammar.Placement
import GraphQL.Proofs.Grammar.Settings

/-!
Two lists of definitions read one after the other. A definition that ends with a brace
is complete: nothing that stands behind it can go on with it, except that it could start
another definition. So lexemes that end with a brace are read alike in front of others.
-/

namespace GraphQL.Grammar

variable {α : Type}

/-! ### How spellings end -/

/-- No spelling of some slots ends with a brace. -/
def Unbraced (ss : List Slot) : Prop :=
  ∀ ls, Spells ss ls → ∀ l ∈ ls.getLast?, l.kind ≠ .punctuator .braceClose

namespace Unbraced

variable {ss ts : List Slot} {l : Lexeme}

theorem nil : Unbraced [] := by
  intro ls h l hl
  rw [Spells.nil_iff.1 h] at hl
  cases hl

theorem append (hs : Unbraced ss) (ht : Unbraced ts) : Unbraced (ss ++ ts) := by
  intro ls h l hl
  obtain ⟨front, back, rfl, hfront, hback⟩ := h.of_append
  rw [List.getLast?_append] at hl
  rcases Option.or_eq_some_iff.1 hl with hl | ⟨-, hl⟩
  · exact ht back hback l hl
  · exact hs front hfront l hl

theorem single (hl : l.kind ≠ .punctuator .braceClose) : Unbraced [.lexeme l] := by
  intro ls h m hm
  obtain ⟨rest, rfl, hrest⟩ := Spells.lexeme_iff.1 h
  rw [Spells.nil_iff.1 hrest] at hm
  cases hm
  exact hl

theorem optional (hl : l.kind ≠ .punctuator .braceClose) : Unbraced [.optional l] := by
  intro ls h
  cases h with
  | present l h => exact single hl _ (.lexeme l h)
  | absent l h => exact nil _ h

theorem lexeme (hl : l.kind ≠ .punctuator .braceClose) (hs : Unbraced ss) :
    Unbraced (.lexeme l :: ss) :=
  (single hl).append hs

/-- Behind a lexeme it does not matter what stands in front of it. -/
theorem behind (ss : List Slot) (h : Unbraced (.lexeme l :: ts)) :
    Unbraced (ss ++ .lexeme l :: ts) := by
  intro ls hls m hm
  obtain ⟨front, back, rfl, -, hback⟩ := hls.of_append
  obtain ⟨rest, rfl, -⟩ := Spells.lexeme_iff.1 hback
  rw [List.getLast?_append, List.getLast?_cons, Option.some_or] at hm
  exact h _ hback m (List.getLast?_cons.trans hm)

theorem flatMap {slots : α → List Slot} (h : ∀ x, Unbraced (slots x)) (xs : List α) :
    Unbraced (xs.flatMap slots) := by
  induction xs with
  | nil => exact nil
  | cons x xs ih =>
      rw [List.flatMap_cons]
      exact (h x).append ih

theorem group {slots : α → List Slot} {opening close : Punctuator} (hc : close ≠ .braceClose)
    (xs : List α) : Unbraced (group slots opening close xs) := by
  cases xs with
  | nil => exact nil
  | cons x xs =>
      refine .behind (.mark opening :: (x :: xs).flatMap slots) (single ?_)
      simpa [Lexeme.punctuator] using hc

theorem introduced {slots : α → List Slot} (h : ∀ x, Unbraced (slots x))
    {separator : Punctuator} (hl : l.kind ≠ .punctuator .braceClose)
    (hs : separator ≠ .braceClose) (xs : List α) :
    Unbraced (introduced slots l separator xs) := by
  have hmark : (Lexeme.punctuator separator).kind ≠ .punctuator .braceClose := by
    simpa [Lexeme.punctuator] using hs
  cases xs with
  | nil => exact nil
  | cons x xs =>
      exact lexeme hl ((optional hmark).append ((h x).append
        (flatMap (fun y => lexeme hmark (h y)) xs)))

end Unbraced

theorem unbraced_name (n : Name) : Unbraced n.slots := by
  refine .single fun hk => ?_
  have hname := isName_ofName n.value
  rw [show TokenKind.ofName n.value = _ from hk] at hname
  cases hname

theorem unbraced_directive (d : Directive) : Unbraced d.slots :=
  .lexeme (by decide) ((unbraced_name d.name).append (.group (by decide) d.arguments))

/-- Without members in braces there is nothing behind the directives. -/
theorem memberSlots_of_lacksBlock {b : TypeBody} (h : b.lacksBlock = true) :
    b.memberSlots = [] := by
  have hgroup : ∀ {β : Type} {slots : β → List Slot} {opening close : Punctuator} {xs : List β},
      xs.isEmpty = true → group slots opening close xs = [] := by
    intro β slots opening close xs hxs
    rw [List.isEmpty_iff.1 hxs]
    rfl
  cases b with
  | object is fs => exact hgroup h
  | interface is fs => exact hgroup h
  | enum vs => exact hgroup h
  | input fs => exact hgroup h
  | scalar => cases h
  | union ms => cases h

/-- Without its block a definition does not end with a brace. -/
theorem unbraced_of_lacksBlock {d : Definition} (h : d.lacksBlock = true) :
    Unbraced d.slots := by
  cases d with
  | schema d =>
      have hoperations : d.operations = [] := List.isEmpty_iff.1 h
      show Unbraced d.slots
      rw [SchemaDefinition.slots, SchemaDefinition.coreSlots, hoperations, ← List.append_assoc]
      exact .behind _ (.lexeme (by decide) ((Unbraced.flatMap unbraced_directive _).append .nil))
  | type d =>
      have hmembers : d.body.memberSlots = [] := memberSlots_of_lacksBlock h
      show Unbraced d.slots
      rw [TypeDefinition.slots, TypeDefinition.coreSlots, hmembers, ← List.append_assoc]
      refine .behind _ (.lexeme ?_ ((unbraced_name d.name).append
        (.append (.introduced unbraced_name (by decide) (by decide) _)
          ((Unbraced.flatMap unbraced_directive _).append .nil))))
      simp [Lexeme.keyword]
  | _ => cases h

/-! ### Definitions in a row -/

theorem Runs.length_le {allowed : Bool} {c e : Cursor} {ds : List Definition}
    (h : Runs allowed c ds e) : e.rest.length ≤ c.rest.length := by
  induction h with
  | nil => exact Nat.le_refl _
  | cons hx _ ih => exact Nat.le_trans ih ((reads_definition allowed).zero.length_le hx)

theorem Runs.append {allowed : Bool} {c d e : Cursor} {xs ys : List Definition}
    (hxs : Runs allowed c xs d) (hys : Runs allowed d ys e) : Runs allowed c (xs ++ ys) e := by
  induction hxs with
  | nil => exact hys
  | cons hx _ ih => exact .cons hx (ih hys)

theorem Runs.of_append {allowed : Bool} {c e : Cursor} {xs ys : List Definition}
    (h : Runs allowed c (xs ++ ys) e) : ∃ d, Runs allowed c xs d ∧ Runs allowed d ys e := by
  induction xs generalizing c with
  | nil => exact ⟨c, .nil c, h⟩
  | cons x xs ih =>
      cases h with
      | cons hx hxs =>
          obtain ⟨d, hd, hys⟩ := ih hxs
          exact ⟨d, .cons hx hd, hys⟩

/-- The lexemes that definitions were read from. -/
theorem Runs.chunk {allowed : Bool} {c e : Cursor} {ds : List Definition}
    (h : Runs allowed c ds e) (hc : ∀ l ∈ c.rest, l.Coherent) :
    ∃ ls, c.rest = ls ++ e.rest ∧ e.position = c.position + ls.length ∧ ∀ l ∈ ls, l.Proper := by
  induction h with
  | nil c => exact ⟨[], rfl, rfl, List.forall_mem_nil _⟩
  | @cons c d e x xs hx hxs ih =>
      obtain ⟨front, hfront, hposition, hplaced⟩ := placed_definition hc hx
      obtain ⟨back, hback, hposition', hproper⟩ := ih fun l hl =>
        hc l (hfront ▸ List.mem_append_right front hl)
      refine ⟨front ++ back, ?_, ?_, List.forall_mem_append.2 ⟨?_, hproper⟩⟩
      · rw [hfront, hback, List.append_assoc]
      · rw [hposition', hposition, List.length_append, Nat.add_assoc]
      · have hfrontProper := (hplaced (.nil d.position)).proper
        rwa [List.append_nil] at hfrontProper

/-- One definition has the span of what was read for it, which is not nothing. -/
theorem Runs.single {allowed : Bool} {c e : Cursor} {d : Definition}
    (h : Runs allowed c [d] e) :
    d.span = some ⟨c.position, e.position⟩ ∧ e.rest.length < c.rest.length := by
  cases h with
  | cons hx hnil =>
      cases hnil
      exact ⟨span_definition hx, (reads_definition allowed).length_le hx⟩

/-- Definitions start with none of the lexemes that go on with the one before them. -/
theorem nextKind_of_definition {allowed : Bool} {c e : Cursor} {d : Definition}
    (hc : ∀ l ∈ c.rest, l.Coherent) (h : definition allowed c = .ok (d, e)) :
    avoids (.endOfInput :: definitionKinds) c.current.kind := by
  obtain ⟨chunk, hrest, -, hchunk⟩ := sound_definition allowed hc d e h
  show avoids _ (nextKind c.rest)
  rw [hrest]
  exact (leads_definition d : Leads _ anything _) chunk e.rest hchunk.1 trivial

/-- All that can be read as definitions is read. -/
theorem definitions_of_runs {allowed : Bool} {c e : Cursor} {ds : List Definition}
    (h : Runs allowed c ds e) (hne : ds ≠ []) (hc : ∀ l ∈ c.rest, l.Coherent)
    (he : e.rest = []) : definitions allowed c = .ok ((ds, none), e) := by
  induction h with
  | nil => exact absurd rfl hne
  | @cons c d e x xs hx hxs ih =>
      have hd : ∀ l ∈ d.rest, l.Coherent := (Runs.cons hx (.nil d)).coherent hc
      cases hxs with
      | nil =>
          refine definitions_of_last hx ?_
          rw [Cursor.current, he]
          rfl
      | cons hy hys =>
          -- What follows starts a definition, so it is not the end.
          exact definitions_of_more hx (avoids.cons.1 (nextKind_of_definition hd hy)).1
            (ih (List.cons_ne_nil _ _) hd he)

namespace Excerpt

variable {k : Excerpt} {allowed : Bool} {c d e : Cursor}

/-- Definitions that leave enough lexemes are read in both settings. -/
theorem runs {ds : List Definition} (h : Runs allowed c ds e) (hcd : k.Aligned c d)
    (hle : k.here.behind.length + k.spare ≤ e.rest.length) :
    ∃ ds' f, Runs allowed d ds' f ∧ k.Aligned e f ∧ k.SameList Definition.mapSpans ds ds' := by
  induction h generalizing d with
  | nil => exact ⟨[], d, .nil d, hcd, rfl⟩
  | cons hx hxs ih =>
      have hlength := hxs.length_le
      obtain ⟨x', d', hx', hcd', hsame⟩ :=
        (mirrors_definition (H := True) allowed).mirrored trivial hcd hx (by omega)
      obtain ⟨xs', f, hxs', hef, hsames⟩ := ih hcd' hle
      exact ⟨x' :: xs', f, .cons hx' hxs', hef, .cons hsame hsames⟩

/-- The other way round, if nothing stands behind the lexemes in the first setting. -/
def flip (k : Excerpt) (h : k.here.behind = []) : Excerpt where
  size := k.size
  here := k.there
  there := k.here
  spare := 0
  behind_there := fun _ => h
  place_none := k.place_none.symm
  place_some := fun start stop hlt hle => (k.place_some start stop hlt hle).symm

section
variable (hbehind : k.here.behind = [])
  (hfollow : avoids definitionKinds (nextKind k.there.behind))
include hbehind hfollow

/-- A definition up to a brace at the end is read in front of other lexemes as well. -/
theorem definition_closed {x : Definition} (hx : definition allowed c = .ok (x, e))
    (hcd : k.Aligned c d) (hc : ∀ l ∈ c.rest, l.Coherent) (he : e.rest = [])
    (hclosed : ∀ l ∈ c.rest.getLast?, l.kind = .punctuator .braceClose) :
    ∃ x' f, definition allowed d = .ok (x', f) ∧ k.Aligned e f ∧
      k.Same Definition.mapSpans x x' := by
  obtain ⟨chunk, hrest, -, hspells, hvalid⟩ := sound_definition allowed hc x e hx
  rw [he, List.append_nil] at hrest
  have hlacks : x.lacksBlock ≠ true := by
    intro hlacks
    have hlength := (reads_definition allowed).length_le hx
    cases hlast : c.rest.getLast? with
    | none =>
        rw [List.getLast?_eq_none_iff.1 hlast, List.length_nil] at hlength
        omega
    | some l =>
        rw [hrest] at hlast
        exact unbraced_of_lacksBlock hlacks chunk hspells l hlast (hclosed l (hrest ▸ hlast))
  obtain ⟨n, shared, hsize, rfl, rfl⟩ := hcd
  have hshared : shared = chunk := by simpa [Setting.cursor, hbehind] using hrest
  subst hshared
  -- Completeness says that a definition is read, and the comparison which one it is.
  obtain ⟨x', hx', -⟩ := complete_definition hvalid (k.there.front + n) shared k.there.behind
    hspells ⟨hfollow, fun h => absurd h hlacks⟩
  obtain ⟨y, f, hy, ⟨n', left, hsize', hthere, hhere⟩, hsame⟩ :=
    (mirrors_definition (k := k.flip hbehind) (H := True) allowed).mirrored trivial
      ⟨n, shared, hsize, rfl, rfl⟩ hx' (Nat.le_refl _)
  obtain ⟨rfl, rfl⟩ := Prod.mk.inj (Except.ok.inj (hx.symm.trans hy))
  exact ⟨x', _, hx', ⟨n', left, hsize', hhere, hthere⟩, hsame.symm⟩

/-- Definitions up to a brace at the end are read in front of other lexemes as well. -/
theorem runs_closed {ds : List Definition} (hspare : k.spare = 1) (h : Runs allowed c ds e)
    (hcd : k.Aligned c d) (hc : ∀ l ∈ c.rest, l.Coherent) (he : e.rest = [])
    (hclosed : ∀ l ∈ c.rest.getLast?, l.kind = .punctuator .braceClose) :
    ∃ ds' f, Runs allowed d ds' f ∧ k.Aligned e f ∧ k.SameList Definition.mapSpans ds ds' := by
  induction h generalizing d with
  | nil => exact ⟨[], d, .nil d, hcd, rfl⟩
  | @cons c c' e x xs hx hxs ih =>
      obtain ⟨chunk, -, hrest, -⟩ := reads_definition allowed hx
      cases hxs with
      | nil =>
          obtain ⟨x', f, hx', hef, hsame⟩ :=
            definition_closed hbehind hfollow hx hcd hc he hclosed
          exact ⟨[x'], f, .cons hx' (.nil f), hef, .cons hsame rfl⟩
      | cons hy hys =>
          -- What is left for the next definition is looked at, and nothing behind it.
          have hlength := (reads_definition allowed).length_le hy
          obtain ⟨x', d', hx', hcd', hsame⟩ :=
            (mirrors_definition (H := True) allowed).mirrored trivial hcd hx (by
              rw [hbehind, hspare, List.length_nil]
              omega)
          have hc' : ∀ l ∈ c'.rest, l.Coherent := fun l hl =>
            hc l (hrest ▸ List.mem_append_right chunk hl)
          obtain ⟨xs', f, hxs', hef, hsames⟩ := ih hcd' hc' he fun l hl => hclosed l (by
            rw [hrest, List.getLast?_append, Option.mem_def.1 hl]
            rfl)
          exact ⟨x' :: xs', f, .cons hx' hxs', hef, .cons hsame hsames⟩

end

end Excerpt

theorem read_of_runs {allowed : Bool} {ls : List Lexeme} {ds : List Definition} {e : Cursor}
    (h : Runs allowed ⟨0, ls⟩ ds e) (hne : ds ≠ []) (hc : ∀ l ∈ ls, l.Coherent)
    (he : e.rest = []) : read allowed ls = ⟨ds, none, e.position⟩ := by
  unfold read
  rw [definitions_of_runs h hne hc he]

section
variable {allowed : Bool} {ls ms : List Lexeme} {ds : List Definition} {e : Cursor}
  {place front back : Span → Span}

/-- Definitions up to a brace at the end, in front of other definitions. -/
theorem Runs.before (h : Runs allowed ⟨0, ls⟩ ds e) (he : e.rest = [])
    (hls : ∀ l ∈ ls, l.Coherent) (hclosed : ∀ l ∈ ls.getLast?, l.kind = .punctuator .braceClose)
    (hfollow : avoids definitionKinds (nextKind ms))
    (hplace : ∀ start stop, start < stop → stop ≤ ls.length →
      front ⟨start, stop⟩ = place ⟨start, stop⟩) :
    ∃ ds', Runs allowed ⟨0, ls ++ ms⟩ ds' ⟨ls.length, ms⟩ ∧
      ds'.map (·.mapSpans (Option.map place)) = ds.map (·.mapSpans (Option.map front)) := by
  let k : Excerpt :=
    { size := ls.length
      here := ⟨0, [], Option.map front⟩
      there := ⟨0, ms, Option.map place⟩
      spare := 1
      behind_there := by simp
      place_none := rfl
      place_some := fun start stop hlt hle => by simpa using hplace start stop hlt hle }
  have hstart : k.Aligned ⟨0, ls⟩ ⟨0, ls ++ ms⟩ :=
    ⟨0, ls, Nat.zero_add _, by simp [k, Setting.cursor], by simp [k, Setting.cursor]⟩
  obtain ⟨ds', f, hds', ⟨n, left, hsize, rfl, rfl⟩, hsame⟩ :=
    Excerpt.runs_closed rfl hfollow rfl h hstart hls he hclosed
  obtain rfl : left = [] := by simpa [k, Setting.cursor] using he
  obtain rfl : n = ls.length := by simpa [k] using hsize
  refine ⟨ds', ?_, hsame.symm⟩
  simpa [k, Setting.cursor] using hds'

/-- Definitions up to a place, at another place and with nothing behind them. -/
theorem Runs.moved {n : Nat} {here there : Span → Span} (h : Runs allowed ⟨n, ls ++ ms⟩ ds e)
    (he : e.rest = ms) (m : Nat)
    (hplace : ∀ start stop, start < stop → stop ≤ ls.length →
      here ⟨n + start, n + stop⟩ = there ⟨m + start, m + stop⟩) :
    ∃ ds' f, Runs allowed ⟨m, ls⟩ ds' f ∧ f.rest = [] ∧
      ds'.map (·.mapSpans (Option.map there)) = ds.map (·.mapSpans (Option.map here)) := by
  let k : Excerpt :=
    { size := ls.length
      here := ⟨n, ms, Option.map here⟩
      there := ⟨m, [], Option.map there⟩
      spare := 0
      behind_there := fun _ => rfl
      place_none := rfl
      place_some := fun start stop hlt hle => congrArg some (hplace start stop hlt hle) }
  have hstart : k.Aligned ⟨n, ls ++ ms⟩ ⟨m, ls⟩ :=
    ⟨0, ls, Nat.zero_add _, by simp [k, Setting.cursor], by simp [k, Setting.cursor]⟩
  obtain ⟨ds', f, hds', ⟨_, left, -, rfl, rfl⟩, hsame⟩ :=
    k.runs h hstart (Nat.le_of_eq (congrArg List.length he.symm))
  obtain rfl : left = [] := List.append_left_eq_self.1 he
  exact ⟨ds', _, hds', rfl, hsame.symm⟩

/-- Definitions behind a number of lexemes. -/
theorem Runs.behind (h : Runs allowed ⟨0, ms⟩ ds e) (he : e.rest = []) (n : Nat)
    (hplace : ∀ start stop, start < stop → stop ≤ ms.length →
      back ⟨start, stop⟩ = place ⟨n + start, n + stop⟩) :
    ∃ ds' f, Runs allowed ⟨n, ms⟩ ds' f ∧ f.rest = [] ∧
      ds'.map (·.mapSpans (Option.map place)) = ds.map (·.mapSpans (Option.map back)) := by
  rw [← List.append_nil ms] at h
  exact h.moved he n fun start stop hlt hle => by
    simpa using hplace start stop hlt hle

/-- Lexemes up to a brace and others behind them are read as the definitions of both, if
spans are placed where they would be on either side. -/
theorem read_append (hls : ∀ l ∈ ls, l.Coherent) (hms : ∀ l ∈ ms, l.Coherent)
    (hclosed : ∀ l ∈ ls.getLast?, l.kind = .punctuator .braceClose)
    (hreadls : (read allowed ls).error? = none) (hreadms : (read allowed ms).error? = none)
    (hfront : ∀ start stop, start < stop → stop ≤ ls.length →
      front ⟨start, stop⟩ = place ⟨start, stop⟩)
    (hback : ∀ start stop, start < stop → stop ≤ ms.length →
      back ⟨start, stop⟩ = place ⟨ls.length + start, ls.length + stop⟩) :
    (read allowed (ls ++ ms)).error? = none ∧
      (read allowed (ls ++ ms)).definitions.map (·.mapSpans (Option.map place)) =
        (read allowed ls).definitions.map (·.mapSpans (Option.map front)) ++
          (read allowed ms).definitions.map (·.mapSpans (Option.map back)) := by
  obtain ⟨hne, e, hruns, he⟩ := runs_of_read hls hreadls
  obtain ⟨hne', e', hruns', he'⟩ := runs_of_read hms hreadms
  have hfollow : avoids definitionKinds (nextKind ms) := by
    generalize (read allowed ms).definitions = ds at hruns' hne'
    cases hruns' with
    | nil => exact absurd rfl hne'
    | cons hx _ => exact (nextKind_of_definition hms hx).tail
  obtain ⟨ds, hds, hsame⟩ := hruns.before he hls hclosed hfollow hfront
  obtain ⟨ds', f, hds', hf, hsame'⟩ := hruns'.behind he' ls.length hback
  have hds_ne : ds ≠ [] := by
    rintro rfl
    exact hne (List.map_eq_nil_iff.1 hsame.symm)
  rw [read_of_runs (hds.append hds') (List.append_ne_nil_of_left_ne_nil hds_ne _)
    (List.forall_mem_append.2 ⟨hls, hms⟩) hf]
  refine ⟨rfl, ?_⟩
  rw [List.map_append, hsame, hsame']

end

end GraphQL.Grammar
