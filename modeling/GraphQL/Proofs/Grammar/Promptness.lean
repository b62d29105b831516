import GraphQL.Proofs.Grammar.Excerpts
import GraphQL.Proofs.Lexer.Cuts

/-!
Parsers that stop as early as they can. A parser is prompt if a fault is met at the first
lexeme at which the lexemes so far cannot be gone on with: whatever was read before a
fault can be completed, and the fault depends on nothing behind the lexeme where it is
met. Completions are written with a few sample lexemes.

What a parser reads may depend on the lexeme behind it, if that goes on with it. So each
parser comes with the kinds that go on with it, its stops, and with the sample that it
starts with; in a sequence the sample of the second part must be no stop of the first. A
parser that needs nothing at all has no sample, and passes its neighbour's stops on.

Recursion goes down on the number of lexemes that are left, since a parser meets a fault
of its own kind only behind a lexeme that it has read. Completions are not bound by that
number.
-/

namespace GraphQL

/-- What may be met while a definition is read: are fragments allowed to have variables,
and is there a description in front? -/
structure Circumstances where
  allowed : Bool
  described : Bool

/-- Faults that may be met. Most of them may always be. -/
def Fault.Possible (k : Circumstances) : Fault → Prop
  | .strayDescription => k.described = true
  | .fragmentVariables => k.allowed = false
  | _ => True

namespace Grammar

variable {α β : Type}

/-- In front of any lexeme but its stops the parser reads these lexemes and answers. -/
def Takes (stops : List TokenKind) (p : Parser α) (n : Nat) (ls : List Lexeme) (a : α) : Prop :=
  ∀ back, avoids stops (nextKind back) → p ⟨n, ls ++ back⟩ = .ok (a, ⟨n + ls.length, back⟩)

/-- There are lexemes that the parser takes, starting with the sample, if there is one. -/
def Fills (sample : Option Lexeme) (stops : List TokenKind) (p : Parser α) : Prop :=
  ∀ n, ∃ ls a, ls.head? = sample ∧ (∀ l ∈ ls, l.Writable) ∧ Takes stops p n ls a

/-- What a parser does at a cursor: its answer is the same in front of the same lexeme, or
one that is no stop; its fault is met at a lexeme that decides on it, and what was read
before can be completed. -/
structure SteadyAt (k : Circumstances) (least : Nat) (stops : List TokenKind) (p : Parser α)
    (c : Cursor) : Prop where
  answered : ∀ ⦃a : α⦄ ⦃d : Cursor⦄, p c = .ok (a, d) →
    ∃ ls, least ≤ ls.length ∧ c.rest = ls ++ d.rest ∧ d.position = c.position + ls.length ∧
      (∀ back, back.head? = d.rest.head? →
        p ⟨c.position, ls ++ back⟩ = .ok (a, ⟨d.position, back⟩)) ∧
      Takes stops p c.position ls a
  refused : ∀ ⦃e : SyntaxError⦄, p c = .error e →
    ∃ ls rest, c.rest = ls ++ rest ∧ e.position = c.position + ls.length ∧ e.fault.Possible k ∧
      (∀ back, back.head? = rest.head? → p ⟨c.position, ls ++ back⟩ = .error e) ∧
      (ls ≠ [] → ∃ more a, (∀ l ∈ more, l.Writable) ∧ Takes stops p c.position (ls ++ more) a)

/-- What a parser does where fewer than a number of lexemes are left. -/
def Steady (k : Circumstances) (bound least : Nat) (stops : List TokenKind) (p : Parser α) :
    Prop :=
  ∀ ⦃c : Cursor⦄, c.rest.length < bound → SteadyAt k least stops p c

/-- How many lexemes a parser with this sample needs. -/
def needed : Option Lexeme → Nat
  | none => 0
  | some _ => 1

/-- A parser that is steady and can always be completed. -/
structure Prompt (k : Circumstances) (bound : Nat) (sample : Option Lexeme)
    (stops : List TokenKind) (p : Parser α) : Prop where
  steady : Steady k bound (needed sample) stops p
  fills : Fills sample stops p

/-- The second of two parts may stand behind the first: its sample is no stop of the
first, or the stops of the first are stops of both. -/
def Seam (sample : Option Lexeme) (first both : List TokenKind) : Prop :=
  match sample with
  | some l => avoids first l.kind
  | none => ∀ k ∈ first, k ∈ both

instance : (sample : Option Lexeme) → (first both : List TokenKind) →
    Decidable (Seam sample first both)
  | some l, first, _ => inferInstanceAs (Decidable (avoids first l.kind))
  | none, first, both => inferInstanceAs (Decidable (∀ k ∈ first, k ∈ both))

theorem Seam.some {l : Lexeme} {first both : List TokenKind} (h : avoids first l.kind) :
    Seam (some l) first both := h

theorem Seam.none {first both : List TokenKind} (h : ∀ k ∈ first, k ∈ both) :
    Seam none first both := h

theorem Seam.avoids {sample : Option Lexeme} {first both : List TokenKind} {ls back : List Lexeme}
    (h : Seam sample first both) (hls : ls.head? = sample)
    (hback : Grammar.avoids both (nextKind back)) :
    Grammar.avoids first (nextKind (ls ++ back)) := by
  cases ls with
  | nil =>
      subst hls
      exact Grammar.avoids.mono h _ hback
  | cons l ls =>
      subst hls
      exact h

/-! ### Answers and errors of a sequence -/

theorem bind_eq_error {p : Parser α} {f : α → Parser β} {c : Cursor} {e : SyntaxError} :
    (p >>= f) c = .error e ↔ p c = .error e ∨ ∃ a d, p c = .ok (a, d) ∧ f a d = .error e := by
  show (p c >>= fun x => f x.1 x.2) = .error e ↔ _
  rcases h : p c with e' | ⟨a, d⟩
  · simp [bind, Except.bind]
  · constructor
    · exact fun hf => .inr ⟨a, d, rfl, hf⟩
    · rintro (he | ⟨b, d', hbd, hf⟩)
      · cases he
      · cases hbd
        exact hf

/-- The next lexeme is the same in front of the same lexemes. -/
theorem current_eq_of_head? {n : Nat} {ls : List Lexeme} (c : Cursor)
    (h : ls.head? = c.rest.head?) : (⟨n, ls⟩ : Cursor).current = c.current := by
  simp only [Cursor.current, List.headD_eq_head?_getD, h]

theorem head?_append_congr {ls back rest : List Lexeme} (h : back.head? = rest.head?) :
    (ls ++ back).head? = (ls ++ rest).head? := by
  rw [List.head?_append, List.head?_append, h]

/-- The second parser is the first with its answers changed, also by what has been read. -/
def Maps (g : Nat → α → Nat → β) (p : Parser α) (q : Parser β) : Prop :=
  ∀ c, q c = (p c).map fun r => (g c.position r.1 r.2.position, r.2)

theorem maps_last (g : α → β) (p : Parser α) :
    Maps (fun _ a _ => g a) p (p >>= fun a => Pure.pure (g a)) := by
  intro c
  show (p c >>= fun x => Except.ok (g x.1, x.2)) = _
  cases p c <;> rfl

theorem maps_spanned (p : Parser (Option Span → α)) :
    Maps (fun start build stop => build (some ⟨start, stop⟩)) p (spanned p) := by
  intro c
  show (p c >>= fun x => Except.ok (x.1 (some ⟨c.position, x.2.position⟩), x.2)) = _
  cases p c <;> rfl

section
variable {g : Nat → α → Nat → β} {p : Parser α} {q : Parser β} (hq : Maps g p q) {c : Cursor}
include hq

theorem Maps.ok_iff {b : β} {d : Cursor} :
    q c = .ok (b, d) ↔ ∃ a, p c = .ok (a, d) ∧ g c.position a d.position = b := by
  rw [hq c]
  rcases p c with e | ⟨a, e⟩
  · simp [Except.map]
  · simp only [Except.map, Except.ok.injEq, Prod.mk.injEq]
    constructor
    · rintro ⟨rfl, rfl⟩
      exact ⟨a, ⟨rfl, rfl⟩, rfl⟩
    · rintro ⟨-, ⟨rfl, rfl⟩, rfl⟩
      exact ⟨rfl, rfl⟩

theorem Maps.error_iff {e : SyntaxError} : q c = .error e ↔ p c = .error e := by
  rw [hq c]
  cases p c <;> simp [Except.map]

end

namespace Takes

variable {u u' t : List TokenKind} {p : Parser α} {f : α → Parser β} {n : Nat}
  {ls ms : List Lexeme} {a : α} {b : β}

theorem mono (h : Takes u p n ls a) (hs : ∀ k ∈ u, k ∈ u') : Takes u' p n ls a :=
  fun back hback => h back (avoids.mono hs _ hback)

/-- What the second part takes must leave the first one as it is. -/
theorem seq (hp : ∀ back, avoids u (nextKind back) →
      p ⟨n, ls ++ (ms ++ back)⟩ = .ok (a, ⟨n + ls.length, ms ++ back⟩))
    (hf : Takes u (f a) (n + ls.length) ms b) : Takes u (p >>= f) n (ls ++ ms) b := by
  intro back hback
  refine bind_eq_ok.2 ⟨a, ⟨n + ls.length, ms ++ back⟩, ?_, ?_⟩
  · rw [List.append_assoc]
    exact hp back hback
  · rw [hf back hback, List.length_append, Nat.add_assoc]

theorem bind {s : Option Lexeme} (hp : Takes t p n ls a)
    (hf : Takes u (f a) (n + ls.length) ms b) (hs : Seam s t u)
    (hms : ms.head? = s) : Takes u (p >>= f) n (ls ++ ms) b :=
  seq (fun _ hback => hp _ (hs.avoids hms hback)) hf

theorem of_map {q : Parser β} {g : Nat → α → Nat → β} (h : Takes u p n ls a)
    (hq : Maps g p q) : Takes u q n ls (g n a (n + ls.length)) :=
  fun back hback => hq.ok_iff.2 ⟨a, h back hback, rfl⟩

end Takes

/-! ### Tests -/

/-- A test that looks whether the next lexeme is of one of some kinds. -/
def Spots (kinds : List TokenKind) (test : Parser Bool) : Prop :=
  ∀ c : Cursor, test c = .ok (decide (c.current.kind ∈ kinds), c)

theorem spots_sees (kind : TokenKind) : Spots [kind] (sees kind) := by
  intro c
  show Except.ok (c.current.kind == kind, c) = _
  congr 2
  rw [Bool.eq_iff_iff]
  simp

def nameKinds : List TokenKind := .name :: Keyword.all.map .keyword

theorem mem_nameKinds {kind : TokenKind} : kind ∈ nameKinds ↔ kind.isName = true := by
  cases kind <;> simp [TokenKind.isName, nameKinds, Keyword.mem_all]

theorem spots_seesName : Spots nameKinds seesName := by
  intro c
  show Except.ok (c.current.kind.isName, c) = _
  congr 2
  rw [Bool.eq_iff_iff, decide_eq_true_eq, mem_nameKinds]

theorem spots_seesString : Spots [.string, .blockString] seesString := by
  intro c
  rw [Complete.seesString_eq]
  show Except.ok (c.current.kind == .string || c.current.kind == .blockString, c) = _
  congr 2
  rw [Bool.eq_iff_iff]
  simp

section
variable {kinds : List TokenKind} {test : Parser Bool} (ht : Spots kinds test)
  {p p' : Parser α} {c : Cursor}
include ht

theorem Spots.bind_eq : (test >>= fun b => if b = true then p else p') =
    (current >>= fun l => if l.kind ∈ kinds then p else p') := by
  funext c
  show (test c >>= fun x => (if x.1 = true then p else p') x.2) =
    (if c.current.kind ∈ kinds then p else p') c
  rw [ht c]
  show (if decide (c.current.kind ∈ kinds) = true then p else p') c = _
  simp only [decide_eq_true_eq]

theorem Spots.pos (hc : c.current.kind ∈ kinds) :
    (test >>= fun b => if b = true then p else p') c = p c := by
  rw [ht.bind_eq]
  show (if c.current.kind ∈ kinds then p else p') c = _
  rw [if_pos hc]

theorem Spots.neg (hc : c.current.kind ∉ kinds) :
    (test >>= fun b => if b = true then p else p') c = p' c := by
  rw [ht.bind_eq]
  show (if c.current.kind ∈ kinds then p else p') c = _
  rw [if_neg hc]

end

/-! ### Completions -/

theorem writable_punctuator (sign : Punctuator) : (Lexeme.punctuator sign).Writable := by
  cases sign <;> decide +kernel

theorem writable_keyword (word : Keyword) : (Lexeme.keyword word).Writable := by
  cases word <;> decide +kernel

namespace Fills

variable {s s' : Option Lexeme} {u u' t : List TokenKind} {p p' : Parser α}
  {f : α → Parser β} {l : Lexeme}

theorem mono (h : Fills s u p) (hs : ∀ k ∈ u, k ∈ u') : Fills s u' p := by
  intro n
  obtain ⟨ls, a, hls, hw, ha⟩ := h n
  exact ⟨ls, a, hls, hw, ha.mono hs⟩

theorem pure (a : α) : Fills none u (Pure.pure a) :=
  fun _ => ⟨[], a, rfl, List.forall_mem_nil _, fun _ _ => rfl⟩

/-- Where no lexeme is needed, none is taken. -/
theorem takes_nil (h : Fills none u p) (n : Nat) : ∃ a, Takes u p n [] a := by
  obtain ⟨ls, a, hls, -, ha⟩ := h n
  obtain rfl : ls = [] := List.head?_eq_none_iff.1 hls
  exact ⟨a, ha⟩

theorem bind (hs : Seam s' t u) (hp : Fills s t p) (hf : ∀ a, Fills s' u (f a)) :
    Fills (s.or s') u (p >>= f) := by
  intro n
  obtain ⟨ls, a, hls, hw, ha⟩ := hp n
  obtain ⟨ms, b, hms, hw', hb⟩ := hf a (n + ls.length)
  refine ⟨ls ++ ms, b, ?_, List.forall_mem_append.2 ⟨hw, hw'⟩, ha.bind hb hs hms⟩
  rw [List.head?_append, hls, hms]

theorem of_map {q : Parser β} {g : Nat → α → Nat → β} (h : Fills s u p)
    (hq : Maps g p q) : Fills s u q := by
  intro n
  obtain ⟨ls, a, hls, hw, ha⟩ := h n
  exact ⟨ls, _, hls, hw, ha.of_map hq⟩

/-- A parser may be told by what it does where the sample comes next. -/
theorem congr (h : Fills (some l) u p)
    (heq : ∀ n ls, p' ⟨n, l :: ls⟩ = p ⟨n, l :: ls⟩) : Fills (some l) u p' := by
  intro n
  obtain ⟨ls, a, hls, hw, ha⟩ := h n
  obtain ⟨ls, rfl⟩ := List.head?_eq_some_iff.1 hls
  exact ⟨l :: ls, a, rfl, hw, fun back hback => (heq n _).trans (ha back hback)⟩

section
variable {kinds : List TokenKind} {test : Parser Bool} (ht : Spots kinds test)
include ht

theorem test_true (h : Fills (some l) u p) (hl : l.kind ∈ kinds) :
    Fills (some l) u (test >>= fun b => if b = true then p else p') :=
  h.congr fun _ _ => ht.pos hl

theorem test_false (h : Fills (some l) u p') (hl : l.kind ∉ kinds) :
    Fills (some l) u (test >>= fun b => if b = true then p else p') :=
  h.congr fun _ _ => ht.neg hl

/-- Kinds that are looked for go on with what need not be there. -/
theorem test_none (h : Fills none u p') (hks : ∀ k ∈ kinds, k ∈ u) :
    Fills none u (test >>= fun b => if b = true then p else p') := by
  intro n
  obtain ⟨a, ha⟩ := h.takes_nil n
  refine ⟨[], a, rfl, List.forall_mem_nil _, fun back hback => ?_⟩
  exact (ht.neg (c := ⟨n, back⟩) fun hk => hback (hks _ hk)).trans (ha back hback)

end

theorem current {f : Lexeme → Parser β} (h : Fills (some l) u (f l)) :
    Fills (some l) u (Grammar.current >>= f) :=
  h.congr fun _ _ => rfl

end Fills

/-! ### What is done at a cursor -/

namespace SteadyAt

variable {k : Circumstances} {m n : Nat} {u u' t : List TokenKind}
  {p q : Parser α} {f : α → Parser β} {s : Option Lexeme} {c : Cursor}

theorem mono (h : SteadyAt k n u p c) (hm : m ≤ n) (hs : ∀ k ∈ u, k ∈ u') :
    SteadyAt k m u' p c where
  answered a d hp := by
    obtain ⟨ls, hn, hrest, hposition, hsame, htakes⟩ := h.answered hp
    exact ⟨ls, Nat.le_trans hm hn, hrest, hposition, hsame, htakes.mono hs⟩
  refused e hp := by
    obtain ⟨ls, rest, hrest, hposition, hfault, hsame, hmore⟩ := h.refused hp
    refine ⟨ls, rest, hrest, hposition, hfault, hsame, fun hne => ?_⟩
    obtain ⟨more, a, hw, ha⟩ := hmore hne
    exact ⟨more, a, hw, ha.mono hs⟩

/-- The second parser does the same in front of the same lexeme, and if nothing need be
read, also in front of one that is no stop. -/
theorem congr (h : SteadyAt k n u p c) (hq : ∀ d : Cursor, d.current = c.current → q d = p d)
    (hfree : n = 0 → ∀ d : Cursor, avoids u d.current.kind → q d = p d) :
    SteadyAt k n u q c where
  answered a d hp := by
    obtain ⟨ls, hn, hrest, hposition, hsame, htakes⟩ := h.answered ((hq c rfl).symm.trans hp)
    refine ⟨ls, hn, hrest, hposition, fun back hback => ?_, fun back hback => ?_⟩
    · rw [hq _ (current_eq_of_head? _ (hrest ▸ head?_append_congr hback)), hsame back hback]
    · rw [← htakes back hback]
      cases ls with
      | nil => exact hfree (Nat.le_zero.1 hn) _ hback
      | cons l ls => exact hq _ (current_eq_of_head? _ (hrest ▸ rfl))
  refused e hp := by
    obtain ⟨ls, rest, hrest, hposition, hfault, hsame, hmore⟩ :=
      h.refused ((hq c rfl).symm.trans hp)
    refine ⟨ls, rest, hrest, hposition, hfault, fun back hback => ?_, fun hne => ?_⟩
    · rw [hq _ (current_eq_of_head? _ (hrest ▸ head?_append_congr hback)), hsame back hback]
    · obtain ⟨more, a, hw, ha⟩ := hmore hne
      refine ⟨more, a, hw, fun back hback => ?_⟩
      obtain ⟨l, ls, rfl⟩ := List.exists_cons_of_ne_nil hne
      rw [hq _ (current_eq_of_head? _ (hrest ▸ rfl)), ha back hback]

/-- What reads a lexeme is told by the next one. -/
theorem congr_of_reads (h : SteadyAt k 1 u p c)
    (hq : ∀ d : Cursor, d.current = c.current → q d = p d) : SteadyAt k 1 u q c :=
  h.congr hq fun hn => absurd hn Nat.one_ne_zero

theorem fail {fault : Lexeme → Fault} (hf : ∀ l, (fault l).Possible k) :
    SteadyAt k n u (fail fault : Parser α) c where
  answered _ _ hp := nomatch hp
  refused e hp := by
    cases hp
    refine ⟨[], c.rest, rfl, rfl, hf _, fun back hback => ?_, fun h => absurd rfl h⟩
    have hcurrent : (⟨c.position, back⟩ : Cursor).current = c.current :=
      current_eq_of_head? c hback
    show Except.error (SyntaxError.mk c.position (fault (Cursor.mk c.position back).current)) = _
    rw [hcurrent]

/-- An answer that is there without reading. -/
theorem of_ok {g : Nat → α} (hp : ∀ n ls, p ⟨n, ls⟩ = .ok (g n, ⟨n, ls⟩)) :
    SteadyAt k 0 u p c where
  answered a d h := by
    cases (hp c.position c.rest).symm.trans h
    exact ⟨[], Nat.le_refl 0, rfl, rfl, fun back _ => hp _ back, fun back _ => hp _ back⟩
  refused e h := nomatch (hp c.position c.rest).symm.trans h

theorem advance {l : Lexeme} {rest : List Lexeme} (hc : c.rest = l :: rest) :
    SteadyAt k 1 u advance c where
  answered a d h := by
    unfold Grammar.advance at h
    rw [hc] at h
    cases h
    exact ⟨[l], Nat.le_refl 1, hc, rfl, fun _ _ => rfl, fun _ _ => rfl⟩
  refused e h := by
    unfold Grammar.advance at h
    rw [hc] at h
    cases h

/-- The answer may be changed, also by what has been read. -/
theorem of_map {q : Parser β} {g : Nat → α → Nat → β} (h : SteadyAt k n u p c)
    (hq : Maps g p q) : SteadyAt k n u q c where
  answered b d hb := by
    obtain ⟨a, ha, rfl⟩ := hq.ok_iff.1 hb
    obtain ⟨ls, hn, hrest, hposition, hsame, htakes⟩ := h.answered ha
    refine ⟨ls, hn, hrest, hposition, fun back hback => ?_, ?_⟩
    · exact hq.ok_iff.2 ⟨a, hsame back hback, rfl⟩
    · rw [hposition]
      exact htakes.of_map hq
  refused e he := by
    obtain ⟨ls, rest, hrest, hposition, hfault, hsame, hmore⟩ := h.refused (hq.error_iff.1 he)
    refine ⟨ls, rest, hrest, hposition, hfault,
      fun back hback => hq.error_iff.2 (hsame back hback), fun hne => ?_⟩
    obtain ⟨more, a, hw, ha⟩ := hmore hne
    exact ⟨more, _, hw, ha.of_map hq⟩

section
variable (hp : SteadyAt k m t p c) (hs : Seam s t u)
include hp hs

theorem answered_bind
    (hf : ∀ a d, p c = .ok (a, d) → SteadyAt k (needed s) u (f a) d) {b : β} {e : Cursor}
    (h : (p >>= f) c = .ok (b, e)) :
    ∃ ls, m + needed s ≤ ls.length ∧ c.rest = ls ++ e.rest ∧
      e.position = c.position + ls.length ∧
      (∀ back, back.head? = e.rest.head? →
        (p >>= f) ⟨c.position, ls ++ back⟩ = .ok (b, ⟨e.position, back⟩)) ∧
      Takes u (p >>= f) c.position ls b := by
  obtain ⟨a, d, ha, hb⟩ := bind_eq_ok.1 h
  obtain ⟨ls, hm, hrest, hposition, hsame, htakes⟩ := hp.answered ha
  obtain ⟨ms, hn, hrest', hposition', hsame', htakes'⟩ := (hf a d ha).answered hb
  refine ⟨ls ++ ms, ?_, ?_, ?_, fun back hback => ?_, .seq (a := a) (fun back hback => ?_) ?_⟩
  · rw [List.length_append]
    exact Nat.add_le_add hm hn
  · rw [hrest, hrest', List.append_assoc]
  · rw [hposition', hposition, List.length_append, Nat.add_assoc]
  · rw [List.append_assoc]
    exact bind_eq_ok.2 ⟨a, ⟨d.position, ms ++ back⟩,
      hsame _ (hrest' ▸ head?_append_congr hback), hsame' back hback⟩
  · cases ms with
    | nil =>
        -- The second part needs nothing, so the stops of the first are left to be avoided.
        obtain rfl : s = none := by
          cases s with
          | none => rfl
          | some l => exact absurd hn (Nat.not_succ_le_zero 0)
        exact htakes _ (avoids.mono hs _ hback)
    | cons m ms => rw [← hposition, hsame _ (hrest' ▸ rfl)]
  · rwa [← hposition]

theorem refused_bind (hf : ∀ a d, p c = .ok (a, d) → SteadyAt k n u (f a) d)
    (hfill : ∀ a, Fills s u (f a)) {e : SyntaxError} (h : (p >>= f) c = .error e) :
    ∃ ls rest, c.rest = ls ++ rest ∧ e.position = c.position + ls.length ∧ e.fault.Possible k ∧
      (∀ back, back.head? = rest.head? → (p >>= f) ⟨c.position, ls ++ back⟩ = .error e) ∧
      (ls ≠ [] → ∃ more a, (∀ l ∈ more, l.Writable) ∧
        Takes u (p >>= f) c.position (ls ++ more) a) := by
  rcases bind_eq_error.1 h with hp' | ⟨a, d, ha, he⟩
  · obtain ⟨ls, rest, hrest, hposition, hfault, hsame, hmore⟩ := hp.refused hp'
    refine ⟨ls, rest, hrest, hposition, hfault,
      fun back hback => bind_eq_error.2 (.inl (hsame back hback)), fun hne => ?_⟩
    obtain ⟨more, a, hw, ha⟩ := hmore hne
    obtain ⟨ms, b, hms, hw', hb⟩ := hfill a (c.position + (ls ++ more).length)
    refine ⟨more ++ ms, b, List.forall_mem_append.2 ⟨hw, hw'⟩, ?_⟩
    rw [← List.append_assoc]
    exact ha.bind hb hs hms
  · obtain ⟨ls, -, hrest, hposition, hsame, htakes⟩ := hp.answered ha
    obtain ⟨ms, rest, hrest', hposition', hfault, hsame', hmore⟩ := (hf a d ha).refused he
    refine ⟨ls ++ ms, rest, ?_, ?_, hfault, fun back hback => ?_, fun hne => ?_⟩
    · rw [hrest, hrest', List.append_assoc]
    · rw [hposition', hposition, List.length_append, Nat.add_assoc]
    · rw [List.append_assoc]
      exact bind_eq_error.2 (.inr ⟨a, ⟨d.position, ms ++ back⟩,
        hsame _ (hrest' ▸ head?_append_congr hback), hsame' back hback⟩)
    · cases ms with
      | nil =>
          obtain ⟨more, b, hmore, hw, hb⟩ := hfill a (c.position + ls.length)
          refine ⟨more, b, hw, ?_⟩
          rw [List.append_nil]
          exact htakes.bind hb hs hmore
      | cons m ms =>
          obtain ⟨more, b, hw, hb⟩ := hmore (List.cons_ne_nil m ms)
          refine ⟨more, b, hw, ?_⟩
          rw [List.append_assoc]
          refine .seq (a := a) (fun back _ => ?_) (hposition ▸ hb)
          rw [← hposition]
          exact hsame _ (hrest' ▸ rfl)

theorem bind (hf : ∀ a d, p c = .ok (a, d) → SteadyAt k (needed s) u (f a) d)
    (hfill : ∀ a, Fills s u (f a)) :
    SteadyAt k (m + needed s) u (p >>= f) c :=
  ⟨fun _ _ h => hp.answered_bind hs hf h, fun _ h => hp.refused_bind hs hf hfill h⟩

end
end SteadyAt

/-! ### Steady parsers -/

namespace Steady

variable {k : Circumstances} {M N m n : Nat} {u u' t : List TokenKind}
  {p p' : Parser α} {f : α → Parser β} {s : Option Lexeme}

theorem mono (h : Steady k N n u p) (hM : M ≤ N) (hm : m ≤ n)
    (hs : ∀ k ∈ u, k ∈ u') : Steady k M m u' p :=
  fun _ hc => (h (Nat.lt_of_lt_of_le hc hM)).mono hm hs

/-- Nothing is said where no bound is left. -/
theorem zero : Steady k 0 n u p := fun _ hc => absurd hc (Nat.not_lt_zero _)

theorem fail {fault : Lexeme → Fault} (hf : ∀ l, (fault l).Possible k) :
    Steady k N n u (fail fault : Parser α) := fun _ _ => .fail hf

theorem unexpected : Steady k N n u (unexpected : Parser α) := fail fun _ => trivial

theorem pure {a : α} : Steady k N 0 u (Pure.pure a) :=
  fun _ _ => .of_ok (g := fun _ => a) fun _ _ => rfl

theorem ite {t : Prop} [Decidable t] (h : t → Steady k N n u p)
    (h' : ¬t → Steady k N n u p') : Steady k N n u (if t then p else p') := by
  split
  · exact h ‹_›
  · exact h' ‹_›

/-- The second part need be steady only where the first has read what it reads at least. -/
theorem bind (hp : Steady k M m t p) (hf : ∀ a, Steady k N (needed s) u (f a))
    (hfill : ∀ a, Fills s u (f a)) (hs : Seam s t u) (hle : M ≤ N + m) :
    Steady k M (m + needed s) u (p >>= f) := by
  refine fun c hc => (hp hc).bind hs (fun a d ha => hf a ?_) hfill
  obtain ⟨ls, hm, hrest, -⟩ := (hp hc).answered ha
  rw [hrest, List.length_append] at hc
  omega

theorem last {g : α → β} (h : Steady k N n u p) :
    Steady k N n u (p >>= fun a => Pure.pure (g a)) :=
  fun _ hc => (h hc).of_map (maps_last g p)

theorem spanned {p : Parser (Option Span → α)} (h : Steady k N n u p) :
    Steady k N n u (Grammar.spanned p) :=
  fun _ hc => (h hc).of_map (maps_spanned p)

/-- What is done here depends on the next lexeme, and reads it. -/
theorem current {f : Lexeme → Parser β} (h : ∀ l, Steady k N 1 u (f l)) :
    Steady k N 1 u (Grammar.current >>= f) := by
  refine fun c hc => (h c.current hc).congr_of_reads fun d hd => ?_
  show f d.current d = _
  rw [hd]

section
variable {kinds : List TokenKind} {looks : Parser Bool} (ht : Spots kinds looks)
include ht

/-- Where nothing need be read, kinds that are looked for must be stops. -/
theorem test (h : Steady k N 1 u p) (h' : Steady k N n u p') (hn : n ≤ 1)
    (hks : n = 0 → ∀ k ∈ kinds, k ∈ u) :
    Steady k N n u (looks >>= fun b => if b = true then p else p') := by
  intro c hc
  by_cases hk : c.current.kind ∈ kinds
  · refine ((h hc).congr_of_reads fun d hd => ?_).mono hn fun _ hk => hk
    exact ht.pos (by rwa [hd])
  · refine (h' hc).congr (fun d hd => ?_) fun h0 d hd => ?_
    · exact ht.neg (by rwa [hd])
    · exact ht.neg fun hmem => hd (hks h0 _ hmem)

/-- The next lexeme is read if it passes the test. -/
theorem advance (hend : .endOfInput ∉ kinds) {fault : Lexeme → Fault}
    (hf : ∀ l, (fault l).Possible k) : Steady k N 1 u
      (looks >>= fun b => if b = true then Grammar.advance else Grammar.fail fault) := by
  intro c _
  by_cases hk : c.current.kind ∈ kinds
  · cases hc : c.rest with
    | nil =>
        rw [Cursor.current, hc] at hk
        exact absurd hk hend
    | cons l rest =>
        exact (SteadyAt.advance hc).congr_of_reads fun d hd => ht.pos (by rwa [hd])
  · exact (SteadyAt.fail hf).congr_of_reads fun d hd => ht.neg (by rwa [hd])

end

theorem sees {kind : TokenKind} (h : Steady k N 1 u p) (h' : Steady k N 1 u p') :
    Steady k N 1 u (Grammar.sees kind >>= fun b => if b = true then p else p') :=
  .test (spots_sees kind) h h' (Nat.le_refl 1) nofun

theorem expect {kind : TokenKind} (hk : kind ≠ .endOfInput) :
    Steady k N 1 u (expect kind) :=
  .advance (spots_sees kind) (by simpa using hk.symm) fun _ => trivial

end Steady

/-! ### Prompt parsers -/

namespace Prompt

variable {k : Circumstances} {M N : Nat} {u u' t : List TokenKind}
  {s : Option Lexeme} {l : Lexeme} {p p' : Parser α} {f : α → Parser β}

theorem mono (h : Prompt k N s u p) (hM : M ≤ N) (hs : ∀ k ∈ u, k ∈ u') :
    Prompt k M s u' p :=
  ⟨h.steady.mono hM (Nat.le_refl _) hs, h.fills.mono hs⟩

/-- A smaller bound. -/
theorem below (h : Prompt k N s u p) (hM : M ≤ N) : Prompt k M s u p :=
  h.mono hM fun _ hk => hk

/-- More stops. -/
theorem widen (h : Prompt k N s u p) (hs : ∀ k ∈ u, k ∈ u') : Prompt k N s u' p :=
  h.mono (Nat.le_refl N) hs

/-- What no lexeme goes on with may be given any stops. -/
theorem anyStops (h : Prompt k N s [] p) : Prompt k N s u p :=
  h.widen (List.forall_mem_nil _)

theorem pure {a : α} : Prompt k N none u (Pure.pure a) := ⟨.pure, .pure a⟩

/-- The first part needs nothing. -/
theorem bind_right (hs : Seam s t u) (hp : Prompt k N none t p)
    (hf : ∀ a, Prompt k N s u (f a)) : Prompt k N s u (p >>= f) where
  steady := (hp.steady.bind (fun a => (hf a).steady) (fun a => (hf a).fills) hs
    (Nat.le_add_right N 0)).mono (Nat.le_refl N) (Nat.le_add_left _ _) fun _ hk => hk
  fills := .bind hs hp.fills fun a => (hf a).fills

/-- The first part needs a lexeme, so that the second is left with fewer. -/
theorem step (hs : Seam s t u) (hp : Prompt k (N + 1) (some l) t p)
    (hf : ∀ a, Prompt k N s u (f a)) : Prompt k (N + 1) (some l) u (p >>= f) where
  steady := (hp.steady.bind (fun a => (hf a).steady) (fun a => (hf a).fills) hs
    (Nat.le_refl _)).mono (Nat.le_refl _) (Nat.le_add_right _ _) fun _ hk => hk
  fills := .bind hs hp.fills fun a => (hf a).fills

theorem bind_left (hs : Seam s t u) (hp : Prompt k N (some l) t p)
    (hf : ∀ a, Prompt k N s u (f a)) : Prompt k N (some l) u (p >>= f) where
  steady := (hp.steady.bind (fun a => (hf a).steady) (fun a => (hf a).fills) hs
    (Nat.le_add_right _ _)).mono (Nat.le_refl _) (Nat.le_add_right _ _) fun _ hk => hk
  fills := .bind hs hp.fills fun a => (hf a).fills

theorem last {g : α → β} (h : Prompt k N s u p) :
    Prompt k N s u (p >>= fun a => Pure.pure (g a)) :=
  ⟨h.steady.last, h.fills.of_map (maps_last g p)⟩

theorem map {g : α → β} (h : Prompt k N s u p) : Prompt k N s u (g <$> p) := by
  rw [map_eq_pure_bind]
  exact h.last

theorem spanned {p : Parser (Option Span → α)} (h : Prompt k N s u p) :
    Prompt k N s u (Grammar.spanned p) :=
  ⟨h.steady.spanned, h.fills.of_map (maps_spanned p)⟩

/-- A look at the next lexeme, of which one case is completed. -/
theorem current {f : Lexeme → Parser β} (h : ∀ l, Steady k N 1 u (f l))
    (hfill : Fills (some l) u (f l)) :
    Prompt k N (some l) u (Grammar.current >>= f) :=
  ⟨.current h, hfill.current⟩

section
variable {kinds : List TokenKind} {looks : Parser Bool} (ht : Spots kinds looks)
include ht

theorem test_false (h : Steady k N 1 u p) (h' : Prompt k N (some l) u p')
    (hl : l.kind ∉ kinds) :
    Prompt k N (some l) u (looks >>= fun b => if b = true then p else p') :=
  ⟨.test ht h h'.steady (Nat.le_refl 1) nofun, h'.fills.test_false ht hl⟩

theorem test_none (h : Steady k N 1 u p) (h' : Prompt k N none u p')
    (hks : ∀ k ∈ kinds, k ∈ u) :
    Prompt k N none u (looks >>= fun b => if b = true then p else p') :=
  ⟨.test ht h h'.steady (Nat.zero_le 1) fun _ => hks, h'.fills.test_none ht hks⟩

theorem advance (hend : .endOfInput ∉ kinds) {fault : Lexeme → Fault}
    (hf : ∀ l, (fault l).Possible k) (hl : l.kind ∈ kinds) (hw : l.Writable) :
    Prompt k N (some l) u
      (looks >>= fun b => if b = true then Grammar.advance else Grammar.fail fault) :=
  ⟨.advance ht hend hf, .test_true ht (fun _ => ⟨[l], l, rfl, List.forall_mem_singleton.2 hw,
    fun _ _ => rfl⟩) hl⟩

end

/-! ### Single lexemes -/

theorem mark (sign : Punctuator) :
    Prompt k N (some (.punctuator sign)) [] (expect (.punctuator sign)) :=
  .advance (spots_sees _) (by simp) (fun _ => trivial) (List.mem_singleton_self _)
    (writable_punctuator sign)

theorem keyword (word : Keyword) :
    Prompt k N (some (.keyword word)) [] (expect (.keyword word)) :=
  .advance (spots_sees _) (by simp) (fun _ => trivial) (List.mem_singleton_self _)
    (writable_keyword word)

theorem expectName (hl : l.kind.isName = true) (hw : l.Writable) :
    Prompt k N (some l) [] expectName :=
  .advance spots_seesName (by decide) (fun _ => trivial) (mem_nameKinds.2 hl) hw

theorem accept_none {kind : TokenKind} (hk : kind ≠ .endOfInput) :
    Prompt k N none [kind] (accept kind) := by
  rw [accept_eq]
  exact .test_none (spots_sees kind) (Steady.expect hk).last .pure fun _ hk => hk

/-! ### Recursion -/

/-- A parser is prompt if it is so for one lexeme more than where it calls itself. -/
theorem fix {body : Parser α → Parser α} (heq : fix body = body (fix body))
    (hfill : Fills s u (fix body))
    (h : ∀ M < N, Prompt k M s u (fix body) →
      Steady k (M + 1) (needed s) u (body (fix body))) :
    Prompt k N s u (fix body) := by
  induction N with
  | zero => exact ⟨.zero, hfill⟩
  | succ N ih =>
      have hN := ih fun M hM => h M (Nat.lt_succ_of_lt hM)
      exact ⟨heq ▸ h N (Nat.lt_succ_self N) hN, hfill⟩

/-! ### Lists -/

section
variable {item : Parser α} {opening close sign : Punctuator}
  (hi : Prompt k N (some l) u item)
include hi

section
variable (hr : Reads 1 item) (hclose : avoids u (.punctuator close))
include hr hclose

/-- Behind an item the closing lexeme may stand. -/
theorem upTo :
    Prompt k N (some (.punctuator close)) [] (upTo (.punctuator close) item) := by
  have heq : Grammar.upTo (.punctuator close) item = upToBody _ item (Grammar.upTo _ item) :=
    (guarded_upTo hr).fix_eq
  have hdone : ∀ M, Prompt k M (some (.punctuator close)) []
      (expect (.punctuator close) >>= fun _ => Pure.pure ([] : List α)) :=
    fun _ => (mark close).last
  refine .fix heq ?_ fun M hM ih => ?_
  · show Fills _ _ (Grammar.upTo _ item)
    rw [heq, upToBody, accept_bind]
    exact (hdone N).fills.test_true (spots_sees _) (List.mem_singleton_self _)
  · rw [upToBody, accept_bind]
    refine .sees (hdone _).steady ?_
    exact (Prompt.step (.some hclose) (hi.below hM) fun _ => ih.last).steady

theorem many : Prompt k (N + 1) (some (.punctuator opening)) []
    (many (.punctuator opening) (.punctuator close) item) :=
  .step (.some List.not_mem_nil) (mark opening) fun _ =>
    .bind_left (.some hclose) hi fun _ => (hi.upTo hr hclose).last

theorem optionalMany :
    Prompt k N none [.punctuator opening]
      (optionalMany (.punctuator opening) (.punctuator close) item) :=
  .test_none (spots_sees _) ((hi.many hr hclose).below (Nat.le_succ N)).anyStops.steady .pure
    fun _ hk => hk

end

theorem whileSees (hr : Reads 1 item) {kind : TokenKind} :
    Prompt k N none (kind :: u) (whileSees kind item) := by
  have heq : Grammar.whileSees kind item = whileSeesBody _ item (Grammar.whileSees _ item) :=
    (guarded_whileSees hr).fix_eq
  have hkind : ∀ k ∈ [kind], k ∈ kind :: u := by simp
  refine .fix heq ?_ fun M hM ih => ?_
  · show Fills _ _ (Grammar.whileSees _ item)
    rw [heq]
    exact .test_none (spots_sees _) (.pure _) hkind
  · refine .test (spots_sees _) ?_ .pure (Nat.zero_le 1) fun _ => hkind
    exact (Prompt.step (.none fun _ => List.mem_cons_of_mem kind) (hi.below hM)
      fun _ => ih.last).steady

theorem separatedBy (hr : Reads 1 item) (hl : l.kind ≠ .punctuator sign) :
    Prompt k N (some l) (.punctuator sign :: u) (separatedBy (.punctuator sign) item) := by
  have hnext : Prompt k N (some (.punctuator sign)) u
      (expect (.punctuator sign) >>= fun _ => item) :=
    .bind_left (.some List.not_mem_nil) (mark sign) fun _ => hi
  have hreads : Reads 1 (expect (.punctuator sign) >>= fun _ => item) :=
    (reads_expect (mark_ne_endOfInput sign)).bind_left fun _ => hr.zero
  exact .bind_right (.some (avoids.cons.2 ⟨hl, List.not_mem_nil⟩))
    (accept_none (mark_ne_endOfInput sign)) fun _ =>
      .bind_left (.none fun _ => List.mem_cons_of_mem _) hi fun _ => (hnext.whileSees hreads).last

theorem onlyIf {kinds : List TokenKind} {looks : Parser Bool} (ht : Spots kinds looks) :
    Prompt k N none (kinds ++ u) (onlyIf looks item) :=
  .test_none ht (hi.last.steady.mono (Nat.le_refl N) (Nat.le_refl 1)
    fun _ => List.mem_append_right kinds) .pure fun _ => List.mem_append_left u

theorem after {kind : TokenKind} (hk : kind ≠ .endOfInput) :
    Prompt k N none (kind :: u) (after kind item) := by
  have hks : ∀ k ∈ u, k ∈ kind :: u := fun _ => List.mem_cons_of_mem kind
  have hitem : Prompt k N (some l) (kind :: u) (item >>= fun a => Pure.pure (some a)) :=
    hi.last.widen hks
  have hsteady : Steady k N 1 (kind :: u)
      (expect kind >>= fun _ => item >>= fun a => Pure.pure (some a)) :=
    ((Steady.expect hk).bind (fun _ => hitem.steady) (fun _ => hitem.fills) (t := [])
      List.not_mem_nil (Nat.le_add_right N 1)).mono (Nat.le_refl N) (Nat.le_add_left 1 1)
        fun _ hk => hk
  show Prompt k N none (kind :: u) (accept kind >>= fun b => if b = true then _ else _)
  rw [accept_bind]
  exact .test_none (spots_sees kind) hsteady .pure (by simp)

end

end Prompt

/-! ### Answers that must not be empty -/

/-- A lexeme is read, and the answer is not empty. -/
structure Yields (empty : α → Bool) (p : Parser α) : Prop where
  reads : Reads 1 p
  yields : ∀ ⦃c : Cursor⦄ ⦃a : α⦄ ⦃d : Cursor⦄, p c = .ok (a, d) → empty a = false

namespace Yields

variable {q : Parser α} {f : α → Parser β} {empty : α → Bool} {empty' : β → Bool}

theorem cons {item : Parser α} {more : Parser (List α)} (hi : Reads 1 item) (hm : Reads 0 more) :
    Yields List.isEmpty (item >>= fun x => more >>= fun xs => pure (x :: xs)) := by
  refine ⟨hi.bind_left fun _ => hm.bind fun _ => .pure _, fun c ys d h => ?_⟩
  obtain ⟨x, d', -, h⟩ := bind_eq_ok.1 h
  obtain ⟨xs, d'', -, h⟩ := bind_eq_ok.1 h
  cases h
  rfl

theorem behind (hq : Reads 0 q) (hf : ∀ a, Yields empty' (f a)) : Yields empty' (q >>= f) := by
  refine ⟨.bind_right hq fun a => (hf a).reads, fun c b e h => ?_⟩
  obtain ⟨a, d, -, hb⟩ := bind_eq_ok.1 h
  exact (hf a).yields hb

theorem last {g : α → β} (h : Yields empty q) (hg : ∀ a, empty a = false → empty' (g a) = false) :
    Yields empty' (q >>= fun a => pure (g a)) := by
  refine ⟨h.reads.bind_left fun _ => .pure _, fun c b e hb => ?_⟩
  obtain ⟨a, ha, rfl⟩ := (maps_last g q).ok_iff.1 hb
  exact hg a (h.yields ha)

end Yields

/-- On a premise, the answer is empty just if nothing is read. -/
structure Tells (H : Prop) (empty : α → Bool) (p : Parser α) : Prop where
  reads : Reads 0 p
  tells : ∀ ⦃c : Cursor⦄ ⦃a : α⦄ ⦃d : Cursor⦄, p c = .ok (a, d) →
    (empty a = true ↔ H ∧ d.position = c.position)

namespace Tells

variable {H : Prop} {p q : Parser α} {f : α → Parser β} {empty : α → Bool} {empty' : β → Bool}

theorem pure {a : α} (h : empty a = true ↔ H) : Tells H empty (Pure.pure a) := by
  refine ⟨.pure a, fun c b d hp => ?_⟩
  obtain ⟨rfl, rfl⟩ := Prod.mk.inj (pure_eq_ok.1 hp)
  simp [h]

theorem of_yields (h : Yields empty p) : Tells H empty p := by
  refine ⟨h.reads.zero, fun c a d hp => ?_⟩
  obtain ⟨ls, hn, -, hposition⟩ := h.reads hp
  rw [h.yields hp]
  constructor
  · exact nofun
  · rintro ⟨-, hd⟩
    omega

/-- What comes second is empty only if the first part is. -/
theorem bind (hp : Tells True empty p) (hf : ∀ a, Tells (H ∧ empty a = true) empty' (f a)) :
    Tells H empty' (p >>= f) := by
  refine ⟨hp.reads.bind fun a => (hf a).reads, fun c b e h => ?_⟩
  obtain ⟨a, d, ha, hb⟩ := bind_eq_ok.1 h
  obtain ⟨ls, -, -, hd⟩ := hp.reads ha
  obtain ⟨ms, -, -, he⟩ := (hf a).reads hb
  rw [(hf a).tells hb, hp.tells ha]
  constructor
  · rintro ⟨⟨hH, -, hdc⟩, hed⟩
    exact ⟨hH, hed.trans hdc⟩
  · rintro ⟨hH, hec⟩
    exact ⟨⟨hH, trivial, by omega⟩, by omega⟩

theorem sees {kind : TokenKind} (h : Tells H empty p) (h' : Tells H empty q) :
    Tells H empty (sees kind >>= fun b => if b = true then p else q) := by
  refine ⟨(reads_sees kind).bind fun _ => .ite h.reads h'.reads, fun c a d hp => ?_⟩
  rcases Decidable.em (c.current.kind ∈ [kind]) with hk | hk
  · exact h.tells (((spots_sees kind).pos hk).symm.trans hp)
  · exact h'.tells (((spots_sees kind).neg hk).symm.trans hp)

theorem whileSees {item : Parser α} (hr : Reads 1 item) {kind : TokenKind} :
    Tells True List.isEmpty (whileSees kind item) := by
  have heq : Grammar.whileSees kind item = whileSeesBody _ item (Grammar.whileSees _ item) :=
    (guarded_whileSees hr).fix_eq
  rw [heq]
  exact .sees (.of_yields (.cons hr (reads_whileSees hr))) (.pure (by simp))

theorem optionalMany {item : Parser α} (hr : Reads 1 item) {opening close : Punctuator} :
    Tells True List.isEmpty (optionalMany (.punctuator opening) (.punctuator close) item) :=
  .sees (.of_yields (.behind (reads_expect (mark_ne_endOfInput opening)).zero
    fun _ => .cons hr (reads_upTo hr))) (.pure (by simp))

end Tells

/-- An answer that must not be empty. -/
def filled (test : α → Bool) (g : α → β) (p : Parser α) : Parser β :=
  p >>= fun a => if test a = true then unexpected else pure (g a)

section
variable {k : Circumstances} {N : Nat} {u : List TokenKind} {p : Parser α} {test : α → Bool}
  {g : α → β} {a : α} {c d : Cursor}

theorem filled_of_false (h : p c = .ok (a, d)) (ht : test a = false) :
    filled test g p c = .ok (g a, d) := by
  refine bind_eq_ok.2 ⟨a, d, h, ?_⟩
  rw [ht]
  rfl

theorem filled_of_true (h : p c = .ok (a, d)) (ht : test a = true) :
    filled test g p c = .error ⟨d.position, .unexpected d.current⟩ := by
  refine bind_eq_error.2 (.inr ⟨a, d, h, ?_⟩)
  rw [ht]
  rfl

section
variable (ht : Tells True test p) (hend : avoids u .endOfInput)
include ht hend

/-- Lexemes that are taken are an answer that is not empty. -/
theorem Takes.filled {n : Nat} {ls : List Lexeme} (h : Takes u p n ls a) (hne : ls ≠ []) :
    Takes u (filled test g p) n ls (g a) := by
  refine fun back hback => filled_of_false (h back hback) (Bool.eq_false_iff.2 ?_)
  rw [Ne, ht.tells (h [] hend)]
  rintro ⟨-, hn⟩
  exact hne (List.length_eq_zero_iff.1 (by simpa using hn))

theorem Fills.filled {l : Lexeme} (h : Fills (some l) u p) :
    Fills (some l) u (filled test g p) := by
  intro n
  obtain ⟨ls, a, hls, hw, ha⟩ := h n
  exact ⟨ls, g a, hls, hw, ha.filled ht hend (by rintro rfl; cases hls)⟩

/-- Where the answer is empty, nothing has been read, so there is nothing to complete. -/
theorem SteadyAt.filled (h : SteadyAt k 0 u p c) : SteadyAt k 1 u (filled test g p) c where
  answered b e hb := by
    obtain ⟨a, d, ha, hd⟩ := bind_eq_ok.1 hb
    obtain ⟨ls, -, hrest, hposition, hsame, htakes⟩ := h.answered ha
    cases htest : test a with
    | true =>
        rw [htest] at hd
        cases hd
    | false =>
        rw [htest] at hd
        cases hd
        have hne : ls ≠ [] := by
          rintro rfl
          rw [(ht.tells ha).2 ⟨trivial, hposition⟩] at htest
          cases htest
        exact ⟨ls, List.length_pos_iff.2 hne, hrest, hposition,
          fun back hback => filled_of_false (hsame back hback) htest, htakes.filled ht hend hne⟩
  refused e he := by
    rcases bind_eq_error.1 he with hp | ⟨a, d, ha, hd⟩
    · obtain ⟨ls, rest, hrest, hposition, hfault, hsame, hmore⟩ := h.refused hp
      refine ⟨ls, rest, hrest, hposition, hfault,
        fun back hback => bind_eq_error.2 (.inl (hsame back hback)), fun hne => ?_⟩
      obtain ⟨more, a, hw, ha⟩ := hmore hne
      exact ⟨more, _, hw, ha.filled ht hend (List.append_ne_nil_of_left_ne_nil hne more)⟩
    · obtain ⟨ls, -, hrest, hposition, hsame, -⟩ := h.answered ha
      cases htest : test a with
      | false =>
          rw [htest] at hd
          cases hd
      | true =>
          rw [htest] at hd
          cases hd
          obtain rfl : ls = [] := by
            have hstay := ((ht.tells ha).1 htest).2
            exact List.length_eq_zero_iff.1 (by omega)
          refine ⟨[], d.rest, hrest, hposition, trivial, fun back hback => ?_,
            fun hne => absurd rfl hne⟩
          rw [filled_of_true (hsame back hback) htest]
          have hcurrent : (⟨d.position, back⟩ : Cursor).current = d.current :=
            current_eq_of_head? d hback
          rw [hcurrent]

theorem Prompt.filled {l : Lexeme} (h : Prompt k N none u p) (hfill : Fills (some l) u p) :
    Prompt k N (some l) u (filled test g p) :=
  ⟨fun _ hc => (h.steady hc).filled ht hend, hfill.filled ht hend⟩

end
end

end Grammar
end GraphQL
