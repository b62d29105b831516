import GraphQL.Document.Spans
import GraphQL.Proofs.Grammar.Lookahead

/-!
Lexemes that are read in two settings. A parser looks at one lexeme behind those it
reads at most. So it does the same in both settings if it leaves some of the lexemes
they share, and also if it goes to the end of them and finds nothing behind them in the
second setting: whatever it looked at in the first one was only to find that it does not
go on. The answers have other spans, which are the same once they are placed.

Two runs are compared only if the first one succeeds within the shared lexemes. Whatever
a parser does because of a lexeme behind them must therefore read that lexeme, so what is
read is counted along with the comparison. It is counted also where the runs have parted;
what is known of their answers is a premise for that reason, and not a hypothesis of the
rules.
-/

namespace GraphQL.Grammar

variable {α β : Type}

/-- What stands around some lexemes, and how spans are placed there. -/
structure Setting where
  /-- How many lexemes stand in front. -/
  front : Nat
  behind : List Lexeme
  place : Option Span → Option Span

/-- The cursor at some lexemes that are left, behind a number of those that are not. -/
def Setting.cursor (t : Setting) (n : Nat) (ls : List Lexeme) : Cursor :=
  ⟨t.front + n, ls ++ t.behind⟩

/-- Two settings of the same lexemes, and how many of these are not to be read. Only if
they may all be read, nothing must stand behind them in the second setting. -/
structure Excerpt where
  size : Nat
  here : Setting
  there : Setting
  spare : Nat
  behind_there : spare = 0 → there.behind = []
  place_none : here.place none = there.place none
  place_some : ∀ start stop, start < stop → stop ≤ size →
    here.place (some ⟨here.front + start, here.front + stop⟩) =
      there.place (some ⟨there.front + start, there.front + stop⟩)

/-- A test of the next lexeme that fails at the end of the input. -/
def Looks (test : Parser Bool) : Prop :=
  ∃ f : Lexeme → Bool, f .endOfInput = false ∧ test = current >>= fun l => pure (f l)

theorem looks_sees {kind : TokenKind} (hk : kind ≠ .endOfInput) : Looks (sees kind) :=
  ⟨fun l => l.kind == kind, beq_false_of_ne hk.symm, rfl⟩

theorem mark_ne_endOfInput (sign : Punctuator) : TokenKind.punctuator sign ≠ .endOfInput := nofun

theorem keyword_ne_endOfInput (word : Keyword) : TokenKind.keyword word ≠ .endOfInput := nofun

theorem looks_mark {sign : Punctuator} : Looks (sees (.punctuator sign)) :=
  looks_sees (mark_ne_endOfInput sign)

theorem looks_keyword {word : Keyword} : Looks (sees (.keyword word)) :=
  looks_sees (keyword_ne_endOfInput word)

theorem looks_seesName : Looks seesName := ⟨fun l => l.kind.isName, rfl, rfl⟩

theorem looks_seesString : Looks seesString :=
  ⟨fun l => l.kind == .string || l.kind == .blockString, rfl, Complete.seesString_eq⟩

/-- What is done after a test of the next lexeme. -/
theorem test_bind (f : Lexeme → Bool) (p p' : Parser α) (c : Cursor) :
    ((current >>= fun l => pure (f l)) >>= fun b => if b = true then p else p') c =
      if f c.current = true then p c else p' c := by
  show (if f c.current = true then p else p') c = _
  split <;> rfl

/-- A lexeme that was read because it passed a test. -/
theorem advance_of_test {f : Lexeme → Bool} (hf : f .endOfInput = false) {fault : Lexeme → Fault}
    {c d : Cursor} {l : Lexeme}
    (h : ((current >>= fun l => pure (f l)) >>= fun b =>
      if b = true then advance else fail fault) c = .ok (l, d)) :
    f l = true ∧ c.rest = l :: d.rest ∧ d.position = c.position + 1 := by
  rw [test_bind] at h
  split at h
  · rename_i htest
    unfold advance at h
    split at h
    · rename_i hnil
      rw [Cursor.current, hnil] at htest
      exact absurd (htest.symm.trans hf) (by decide)
    · rename_i m rest hcons
      cases h
      rw [Cursor.current, hcons] at htest
      exact ⟨htest, hcons, rfl⟩
  · cases h

/-- What is done if the next lexeme has a kind need not look for that kind again. -/
theorem sees_congr {kind : TokenKind} {p p' q : Parser α}
    (h : ∀ c : Cursor, c.current.kind = kind → p c = p' c) :
    (sees kind >>= fun b => if b = true then p else q) =
      (sees kind >>= fun b => if b = true then p' else q) := by
  funext c
  refine (test_bind (·.kind == kind) p q c).trans (Eq.trans ?_ (test_bind _ p' q c).symm)
  split
  · rename_i hkind
    exact h c (beq_iff_eq.1 hkind)
  · rfl

/-- A lexeme that is accepted is one that could be expected. -/
theorem accept_eq (kind : TokenKind) : accept kind =
    (sees kind >>= fun b => if b = true then (expect kind >>= fun _ => pure true)
      else pure false) := by
  refine sees_congr fun c hkind => ?_
  have hexpect : expect kind c = advance c :=
    (test_bind (·.kind == kind) _ _ c).trans (if_pos (beq_iff_eq.2 hkind))
  show (advance c >>= fun x => _) = (expect kind c >>= fun x => _)
  rw [hexpect]

/-- What depends on whether a lexeme was there depends on whether it is there. -/
theorem accept_bind {kind : TokenKind} {p q : Parser α} :
    (accept kind >>= fun b => if b = true then p else q) =
      (sees kind >>= fun b => if b = true then (expect kind >>= fun _ => p) else q) := by
  rw [accept_eq, bind_assoc]
  refine bind_congr fun b => ?_
  cases b with
  | true =>
      rw [if_pos rfl, if_pos rfl, bind_assoc]
      rfl
  | false => rfl

/-- The parenthesis in front of a fragment's variables is looked for once. -/
theorem fragmentVariables_eq (allowed : Bool) : fragmentVariables allowed =
    (sees (.punctuator .parenOpen) >>= fun b =>
      if b = true then
        if allowed then
          many (.punctuator .parenOpen) (.punctuator .parenClose) variableDefinition >>=
            fun vs => pure (some vs)
        else fail fun _ => .fragmentVariables
      else pure none) := by
  refine sees_congr fun c hkind => ?_
  rw [map_eq_pure_bind]
  cases allowed with
  | false => rfl
  | true =>
      have hmany : variableDefinitions c =
          many (.punctuator .parenOpen) (.punctuator .parenClose) variableDefinition c :=
        (test_bind (·.kind == .punctuator .parenOpen) _ _ c).trans (if_pos (beq_iff_eq.2 hkind))
      show (variableDefinitions c >>= fun x => _) = (many _ _ _ c >>= fun x => _)
      rw [hmany]

namespace Excerpt

/-- Two cursors stand at the same lexeme, each in its setting. -/
def Aligned (k : Excerpt) (c d : Cursor) : Prop :=
  ∃ n ls, n + ls.length = k.size ∧ c = k.here.cursor n ls ∧ d = k.there.cursor n ls

/-- The first parser reads at least a number of lexemes. If it is run in the first setting
and leaves as many lexemes as it should, the second one gives a related answer in the
second setting, on some premise. -/
structure Mirrors (k : Excerpt) (H : Prop) (n : Nat) (p q : Parser α) (R : α → α → Prop) :
    Prop where
  reads : Reads n p
  mirrored : H → ∀ ⦃c d : Cursor⦄, k.Aligned c d → ∀ ⦃a : α⦄ ⦃e : Cursor⦄, p c = .ok (a, e) →
    k.here.behind.length + k.spare ≤ e.rest.length →
      ∃ b f, q d = .ok (b, f) ∧ k.Aligned e f ∧ R a b

variable {k : Excerpt} {H : Prop}

/-- Two nodes are the same when they have been placed. -/
def Same (k : Excerpt) (map : (Option Span → Option Span) → α → α) (a b : α) : Prop :=
  map k.here.place a = map k.there.place b

/-- No node is there, or two that are the same. -/
def SameOption (k : Excerpt) (map : (Option Span → Option Span) → α → α) :
    Option α → Option α → Prop :=
  k.Same fun f => Option.map (map f)

/-- As many nodes are there, and they are the same. -/
def SameList (k : Excerpt) (map : (Option Span → Option Span) → α → α) : List α → List α → Prop :=
  k.Same fun f => List.map (map f)

/-- Given spans that are placed at the same place, the nodes are the same. -/
def SameNode (k : Excerpt) (map : (Option Span → Option Span) → α → α)
    (f g : Option Span → α) : Prop :=
  ∀ s t, k.here.place s = k.there.place t → k.Same map (f s) (g t)

theorem SameList.cons {map : (Option Span → Option Span) → α → α} {x y : α} {xs ys : List α}
    (h : k.Same map x y) (hs : k.SameList map xs ys) : k.SameList map (x :: xs) (y :: ys) := by
  show map k.here.place x :: xs.map (map k.here.place) =
    map k.there.place y :: ys.map (map k.there.place)
  rw [show map k.here.place x = _ from h, show xs.map (map k.here.place) = _ from hs]

theorem SameOption.none {map : (Option Span → Option Span) → α → α} :
    k.SameOption map none none := rfl

theorem SameOption.isSome_eq {map : (Option Span → Option Span) → α → α} {a b : Option α}
    (h : k.SameOption map a b) : a.isSome = b.isSome := by
  have hmap := congrArg Option.isSome h
  rwa [Option.isSome_map, Option.isSome_map] at hmap

/-- A step over a lexeme that both settings share. -/
theorem Aligned.advance {c d : Cursor} (h : k.Aligned c d) {l : Lexeme} {ls : List Lexeme}
    (hc : c.rest = l :: ls) (hls : k.here.behind.length ≤ ls.length) :
    ∃ ms, d.rest = l :: ms ∧ k.Aligned ⟨c.position + 1, ls⟩ ⟨d.position + 1, ms⟩ := by
  obtain ⟨n, shared, hsize, rfl, rfl⟩ := h
  cases shared with
  | nil =>
      have hbehind : k.here.behind = l :: ls := hc
      rw [hbehind, List.length_cons] at hls
      omega
  | cons m ms =>
      obtain ⟨rfl, rfl⟩ := List.cons.inj hc
      refine ⟨ms ++ k.there.behind, rfl, n + 1, ms, ?_, rfl, rfl⟩
      rw [List.length_cons] at hsize
      omega

/-- The next lexemes are different only behind those that both settings share. -/
theorem Aligned.current {c d : Cursor} (h : k.Aligned c d) :
    d.current = c.current ∨ c.rest = k.here.behind ∧ d.rest = k.there.behind := by
  obtain ⟨n, shared, -, rfl, rfl⟩ := h
  cases shared with
  | nil => exact .inr ⟨rfl, rfl⟩
  | cons l ls => exact .inl rfl

namespace Mirrors

variable {m n : Nat} {p p' q q' : Parser α} {R S : α → α → Prop}

/-- A stronger premise does as well. -/
theorem on (h : k.Mirrors H n p q R) {H' : Prop} (hH : H' → H) : k.Mirrors H' n p q R :=
  ⟨h.reads, fun hH' => h.mirrored (hH hH')⟩

theorem zero (h : k.Mirrors H n p q R) : k.Mirrors H 0 p q R := ⟨h.reads.zero, h.mirrored⟩

theorem of_eq (h : k.Mirrors H n p q R) (hq : q' = q) : k.Mirrors H n p q' R := by
  rwa [hq]

theorem pure {a b : α} (h : H → R a b) : k.Mirrors H 0 (pure a) (pure b) R := by
  refine ⟨.pure a, fun hH c d hcd a' e hp _ => ?_⟩
  obtain ⟨rfl, rfl⟩ := Prod.mk.inj (pure_eq_ok.1 hp)
  exact ⟨b, d, rfl, hcd, h hH⟩

theorem fail {n : Nat} {f : Lexeme → Fault} : k.Mirrors H n (fail f) q R :=
  ⟨reads_fail n f, fun _ _ _ _ _ _ hp => nomatch hp⟩

theorem unexpected {n : Nat} : k.Mirrors H n unexpected q R := .fail

/-- Both runs take the same branch. -/
theorem ite {t t' : Prop} [Decidable t] [Decidable t'] (ht : H → (t ↔ t'))
    (h : k.Mirrors H n p q R) (h' : k.Mirrors H n p' q' R) :
    k.Mirrors H n (if t then p else p') (if t' then q else q') R := by
  refine ⟨.ite h.reads h'.reads, fun hH => ?_⟩
  by_cases hcase : t
  · rw [if_pos hcase, if_pos ((ht hH).1 hcase)]
    exact h.mirrored hH
  · rw [if_neg hcase, if_neg fun hcase' => hcase ((ht hH).2 hcase')]
    exact h'.mirrored hH

section
variable {f g : α → Parser β} {S : β → β → Prop}

theorem bind (h : k.Mirrors H m p q R) (hf : ∀ a b, k.Mirrors (H ∧ R a b) n (f a) (g b) S) :
    k.Mirrors H (m + n) (p >>= f) (q >>= g) S := by
  refine ⟨h.reads.bind fun a => (hf a a).reads, fun hH c d hcd x e hx hle => ?_⟩
  obtain ⟨a, c', hp, hfa⟩ := bind_eq_ok.1 hx
  have hlength := (hf a a).reads.length_le hfa
  obtain ⟨b, d', hq, hcd', hab⟩ := h.mirrored hH hcd hp (by omega)
  obtain ⟨y, e', hg, hee', hxy⟩ := (hf a b).mirrored ⟨hH, hab⟩ hcd' hfa hle
  exact ⟨y, e', bind_eq_ok.2 ⟨b, d', hq, hg⟩, hee', hxy⟩

/-- What follows may read nothing. -/
theorem bind_left (h : k.Mirrors H n p q R)
    (hf : ∀ a b, k.Mirrors (H ∧ R a b) 0 (f a) (g b) S) : k.Mirrors H n (p >>= f) (q >>= g) S :=
  h.bind hf

/-- What comes before may read nothing. -/
theorem bind_right (h : k.Mirrors H 0 p q R)
    (hf : ∀ a b, k.Mirrors (H ∧ R a b) n (f a) (g b) S) :
    k.Mirrors H n (p >>= f) (q >>= g) S := by
  have hbind := h.bind hf
  rwa [Nat.zero_add] at hbind

/-- What is read last decides on the relation. -/
theorem last {f g : α → β} (h : k.Mirrors H n p q R)
    (hf : ∀ a b, H ∧ R a b → S (f a) (g b)) :
    k.Mirrors H n (p >>= fun a => Pure.pure (f a)) (q >>= fun b => Pure.pure (g b)) S :=
  h.bind_left fun a b => .pure (hf a b)

end

/-! ### Single lexemes -/

/-- A look at the next lexeme, which is then read. -/
theorem current {f g : Lexeme → Parser β} {S : β → β → Prop}
    (h : ∀ l, k.Mirrors H 1 (f l) (g l) S) :
    k.Mirrors H 1 (Grammar.current >>= f) (Grammar.current >>= g) S := by
  refine ⟨.bind_right reads_current fun l => (h l).reads, fun hH c d hcd x e hx hle => ?_⟩
  have hlength := (h c.current).reads.length_le (c := c) hx
  rcases hcd.current with hcurrent | ⟨hrest, -⟩
  · show ∃ y e', g d.current d = .ok (y, e') ∧ _
    rw [hcurrent]
    exact (h c.current).mirrored hH hcd hx hle
  · rw [hrest] at hlength
    omega

/-- If a test of the next lexeme succeeds, that lexeme is read. -/
theorem test {t : Parser Bool} (ht : Looks t) (hn : n ≤ 1) (h : k.Mirrors H 1 p q R)
    (h' : k.Mirrors H n p' q' R) :
    k.Mirrors H n (t >>= fun b => if b = true then p else p')
      (t >>= fun b => if b = true then q else q') R := by
  obtain ⟨f, hend, rfl⟩ := ht
  refine ⟨fun c a e hp => ?_, fun hH c d hcd a e hp hle => ?_⟩
  · rw [test_bind] at hp
    split at hp
    · exact (h.reads.mono hn) hp
    · exact h'.reads hp
  · rw [test_bind] at hp
    rw [test_bind]
    rcases hcd.current with hcurrent | ⟨hrest, hbehind⟩
    · rw [hcurrent]
      split at hp
      · rename_i hf
        rw [if_pos hf]
        exact h.mirrored hH hcd hp hle
      · rename_i hf
        rw [if_neg hf]
        exact h'.mirrored hH hcd hp hle
    · -- Behind the shared lexemes the test fails, or else the lexeme there is read.
      split at hp
      · have hlength := h.reads.length_le hp
        rw [hrest] at hlength
        omega
      · have hlength := h'.reads.length_le hp
        rw [hrest] at hlength
        have hf : f d.current = false := by
          rw [Cursor.current, hbehind, k.behind_there (by omega)]
          exact hend
        rw [hf]
        exact h'.mirrored hH hcd hp hle

/-- The next lexeme is read if it passes a test. -/
theorem advance {t : Parser Bool} (ht : Looks t) {f : Lexeme → Fault} :
    k.Mirrors H 1 (t >>= fun b => if b = true then Grammar.advance else Grammar.fail f)
      (t >>= fun b => if b = true then Grammar.advance else Grammar.fail f) Eq := by
  obtain ⟨g, hend, rfl⟩ := ht
  refine ⟨fun c l e hp => ?_, fun _ c d hcd l e hp hle => ?_⟩
  · obtain ⟨-, hrest, hposition⟩ := advance_of_test hend hp
    exact ⟨[l], Nat.le_refl 1, hrest, hposition⟩
  · obtain ⟨hg, hrest, hposition⟩ := advance_of_test hend hp
    obtain ⟨ms, hms, haligned⟩ := hcd.advance hrest (by omega)
    refine ⟨l, ⟨d.position + 1, ms⟩, ?_, ?_, rfl⟩
    · have hcurrent : d.current = l := by
        rw [Cursor.current, hms]
        rfl
      rw [test_bind, hcurrent, if_pos hg]
      unfold Grammar.advance
      rw [hms]
    · rwa [← hposition] at haligned

theorem expect {kind : TokenKind} (hk : kind ≠ .endOfInput) :
    k.Mirrors H 1 (expect kind) (expect kind) Eq :=
  .advance (looks_sees hk)

section
variable {f g : Lexeme → Parser β} {S : β → β → Prop} {sign : Punctuator} {word : Keyword}

theorem mark_left (h : ∀ a b, k.Mirrors (H ∧ a = b) 0 (f a) (g b) S) :
    k.Mirrors H 1 (Grammar.expect (.punctuator sign) >>= f)
      (Grammar.expect (.punctuator sign) >>= g) S :=
  (expect (mark_ne_endOfInput sign)).bind_left h

theorem mark_right (h : ∀ a b, k.Mirrors (H ∧ a = b) n (f a) (g b) S) :
    k.Mirrors H n (Grammar.expect (.punctuator sign) >>= f)
      (Grammar.expect (.punctuator sign) >>= g) S :=
  (expect (mark_ne_endOfInput sign)).zero.bind_right h

theorem keyword_left (h : ∀ a b, k.Mirrors (H ∧ a = b) 0 (f a) (g b) S) :
    k.Mirrors H 1 (Grammar.expect (.keyword word) >>= f)
      (Grammar.expect (.keyword word) >>= g) S :=
  (expect (keyword_ne_endOfInput word)).bind_left h

theorem keyword_right (h : ∀ a b, k.Mirrors (H ∧ a = b) n (f a) (g b) S) :
    k.Mirrors H n (Grammar.expect (.keyword word) >>= f)
      (Grammar.expect (.keyword word) >>= g) S :=
  (expect (keyword_ne_endOfInput word)).zero.bind_right h

end

theorem expectName : k.Mirrors H 1 expectName expectName Eq := .advance looks_seesName

theorem accept {kind : TokenKind} (hk : kind ≠ .endOfInput) :
    k.Mirrors H 0 (Grammar.accept kind) (Grammar.accept kind) Eq := by
  rw [accept_eq]
  exact .test (looks_sees hk) (Nat.zero_le 1) ((expect hk).last fun _ _ _ => rfl)
    (.pure fun _ => rfl)

theorem spanned {p q : Parser (Option Span → α)} {map : (Option Span → Option Span) → α → α}
    (h : k.Mirrors H 1 p q (k.SameNode map)) :
    k.Mirrors H 1 (spanned p) (spanned q) (k.Same map) := by
  refine ⟨reads_spanned h.reads, fun hH c d hcd a e hp hle => ?_⟩
  obtain ⟨start, c', hstart, hp⟩ := bind_eq_ok.1 hp
  obtain ⟨build, e', hbuild, hp⟩ := bind_eq_ok.1 hp
  obtain ⟨stop, e'', hstop, hp⟩ := bind_eq_ok.1 hp
  cases hstart
  cases hstop
  cases hp
  obtain ⟨ls, hls, -, hposition⟩ := h.reads hbuild
  obtain ⟨build', f, hq, hef, hsame⟩ := h.mirrored hH hcd hbuild hle
  refine ⟨build' (some ⟨d.position, f.position⟩), f, ?_, hef, hsame _ _ ?_⟩
  · exact bind_eq_ok.2 ⟨_, d, rfl, bind_eq_ok.2 ⟨build', f, hq, rfl⟩⟩
  · obtain ⟨m, shared, hsize, rfl, rfl⟩ := hef
    obtain ⟨m', shared', -, rfl, rfl⟩ := hcd
    have hstop : k.here.front + m = k.here.front + m' + ls.length := hposition
    exact k.place_some m' m (by omega) (by omega)

/-! ### Recursion and lists -/

theorem fix {body : Parser α → Parser α}
    (h : ∀ p, k.Mirrors H n p q R → k.Mirrors H n (body p) q R) :
    k.Mirrors H n (fix body) q R := by
  have hunroll : ∀ ls, k.Mirrors H n (unroll body ls) q R := by
    intro ls
    induction ls with
    | nil => exact .unexpected
    | cons l ls ih => exact h _ ih
  exact ⟨fun c a e hp => (h _ (hunroll c.rest)).reads hp,
    fun hH c d hcd a e hp => (h _ (hunroll c.rest)).mirrored hH hcd hp⟩

section
variable {item item' : Parser α} {map : (Option Span → Option Span) → α → α}
  {opening close separator sign : Punctuator} (hi : k.Mirrors H 1 item item' (k.Same map))
include hi

theorem upTo (hr : Reads 1 item') : k.Mirrors H 0 (upTo (.punctuator close) item)
    (upTo (.punctuator close) item') (k.SameList map) := by
  refine .fix fun p hp => .of_eq ?_ (guarded_upTo hr).fix_eq
  refine (accept (mark_ne_endOfInput close)).bind_right fun b b' =>
    .ite (fun h => by rw [h.2]) (.pure fun _ => rfl) ?_
  refine (hi.on And.left).zero.bind_left fun x x' => (hp.on fun h => h.1.1).last fun xs xs' h =>
    .cons h.1.2 h.2

theorem many (hr : Reads 1 item') :
    k.Mirrors H 1 (many (.punctuator opening) (.punctuator close) item)
      (many (.punctuator opening) (.punctuator close) item') (k.SameList map) := by
  refine .mark_left fun _ _ => (hi.on And.left).zero.bind_left fun x x' =>
    ((hi.upTo hr).on fun h => h.1.1).last fun xs xs' h => .cons h.1.2 h.2

theorem optionalMany (hr : Reads 1 item') :
    k.Mirrors H 0 (optionalMany (.punctuator opening) (.punctuator close) item)
      (optionalMany (.punctuator opening) (.punctuator close) item') (k.SameList map) :=
  .test looks_mark (Nat.zero_le 1) (hi.many hr) (.pure fun _ => rfl)

theorem whileSees (hr : Reads 1 item') : k.Mirrors H 0 (whileSees (.punctuator sign) item)
    (whileSees (.punctuator sign) item') (k.SameList map) := by
  refine .fix fun p hp => .of_eq ?_ (guarded_whileSees hr).fix_eq
  refine .test looks_mark (Nat.zero_le 1) ?_ (.pure fun _ => rfl)
  refine hi.bind_left fun x x' => (hp.on And.left).last fun xs xs' h => .cons h.1.2 h.2

theorem separatedBy (hr : Reads 1 item') :
    k.Mirrors H 1 (separatedBy (.punctuator separator) item)
      (separatedBy (.punctuator separator) item') (k.SameList map) := by
  have hnext : k.Mirrors H 1 (Grammar.expect (.punctuator separator) >>= fun _ => item)
      (Grammar.expect (.punctuator separator) >>= fun _ => item') (k.Same map) :=
    .mark_left fun _ _ => (hi.on And.left).zero
  have hreads : Reads 1 (Grammar.expect (.punctuator separator) >>= fun _ => item') :=
    (reads_expect (mark_ne_endOfInput _)).bind_left fun _ => hr.zero
  refine (accept (mark_ne_endOfInput _)).bind_right fun _ _ =>
    (hi.on And.left).bind_left fun x x' =>
      ((hnext.whileSees hreads).on fun h => h.1.1).last fun xs xs' h => .cons h.1.2 h.2

theorem onlyIf {test : Parser Bool} (ht : Looks test) :
    k.Mirrors H 0 (onlyIf test item) (onlyIf test item') (k.SameOption map) :=
  .test ht (Nat.zero_le 1) (hi.last fun _ _ h => congrArg some h.2) (.pure fun _ => rfl)

theorem after {kind : TokenKind} (hk : kind ≠ .endOfInput) :
    k.Mirrors H 0 (after kind item) (after kind item') (k.SameOption map) :=
  (accept hk).bind_right fun _ _ => .ite (fun h => by rw [h.2])
    ((hi.on And.left).zero.last fun _ _ h => congrArg some h.2) (.pure fun _ => rfl)

end

end Mirrors
end Excerpt
end GraphQL.Grammar
