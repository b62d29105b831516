import GraphQL.Grammar.Progress
import GraphQL.Proofs.Grammar.Spelling

/-!
How parsers that look at one lexeme behave on spellings. What a parser does with
a spelling depends also on the lexeme behind it: where a part may be absent, it
is taken to be there if the next lexeme could start it. So each rule names the
kinds that must not follow, and a sequence asks that its parts do not start with
what their predecessors must not be followed by.
-/

namespace GraphQL.Grammar

variable {α β γ : Type}

/-- The kind of the lexeme at the front. -/
def nextKind (ls : List Lexeme) : TokenKind := (ls.headD .endOfInput).kind

theorem nextKind_cons (l : Lexeme) (ls : List Lexeme) : nextKind (l :: ls) = l.kind := rfl

/-- In front of a lexeme of a suitable kind, a parser reads every spelling of
some slots, no more and no less, and answers as it should. -/
def Complete (p : Parser α) (ss : List Slot) (follow : TokenKind → Prop) (Q : α → Prop) :
    Prop :=
  ∀ n ls rest, Spells ss ls → follow (nextKind rest) →
    ∃ a, p ⟨n, ls ++ rest⟩ = .ok (a, ⟨n + ls.length, rest⟩) ∧ Q a

/-- In front of a lexeme of a suitable kind, a spelling of some slots starts with
a kind that is suitable itself, be it its own or that of the lexeme behind. -/
def Leads (ss : List Slot) (follow P : TokenKind → Prop) : Prop :=
  ∀ ls rest, Spells ss ls → follow (nextKind rest) → P (nextKind (ls ++ rest))

/-- Kinds other than those of a list. -/
def avoids (ks : List TokenKind) (k : TokenKind) : Prop := k ∉ ks

instance (ks : List TokenKind) (k : TokenKind) : Decidable (avoids ks k) :=
  inferInstanceAs (Decidable (k ∉ ks))

def anything (_ : TokenKind) : Prop := True

namespace avoids

variable {ks : List TokenKind} {k k' : TokenKind}

theorem mono {ks' : List TokenKind} (h : ∀ k ∈ ks, k ∈ ks') (k : TokenKind)
    (hk : avoids ks' k) : avoids ks k :=
  fun hmem => hk (h k hmem)

theorem cons : avoids (k' :: ks) k ↔ k ≠ k' ∧ avoids ks k := by
  simp [avoids]

theorem tail (h : avoids (k' :: ks) k) : avoids ks k := (cons.1 h).2

/-- What can stand where a name can is none of some kinds that cannot. -/
theorem of_isName (h : ks.all (!·.isName) = true) (hk : k.isName = true) : avoids ks k := by
  intro hmem
  have := List.all_eq_true.1 h k hmem
  rw [hk] at this
  cases this

end avoids

theorem isName_ofName (w : String) : (TokenKind.ofName w).isName = true := by
  unfold TokenKind.ofName
  split <;> rfl

/-! ### How spellings start -/

namespace Leads

variable {ss ts : List Slot} {follow P P' : TokenKind → Prop}

theorem imp (h : Leads ss follow P) (hP : ∀ k, P k → P' k) : Leads ss follow P' :=
  fun ls rest hs hf => hP _ (h ls rest hs hf)

theorem nil (h : ∀ k, follow k → P k) : Leads [] follow P := by
  intro ls rest hs hf
  rw [Spells.nil_iff.1 hs]
  exact h _ hf

theorem lexeme {l : Lexeme} (h : P l.kind) : Leads (.lexeme l :: ss) follow P := by
  intro ls rest hs _
  obtain ⟨ms, rfl, -⟩ := Spells.lexeme_iff.1 hs
  exact h

theorem word {w : String} (h : ∀ k : TokenKind, k.isName = true → P k) :
    Leads (.word w :: ss) follow P :=
  .lexeme (h _ (isName_ofName w))

theorem optional {l : Lexeme} (hl : P l.kind) (hs : Leads ss follow P) :
    Leads (.optional l :: ss) follow P := by
  intro ls rest h hf
  cases h with
  | present l h => exact hl
  | absent l h => exact hs ls rest h hf

theorem string {value : String} {block : Bool} (hs : P .string) (hb : P .blockString) :
    Leads (.string value block :: ss) follow P := by
  intro ls rest h _
  cases h with
  | string hl h =>
      rw [List.cons_append, nextKind_cons]
      cases block with
      | true =>
          rw [hl.1]
          exact hb
      | false =>
          rw [hl.1]
          exact hs

theorem append (hs : Leads ss P P) (ht : Leads ts follow P) : Leads (ss ++ ts) follow P := by
  intro ls rest h hf
  obtain ⟨front, back, rfl, hfront, hback⟩ := h.of_append
  rw [List.append_assoc]
  exact hs front _ hfront (ht back rest hback hf)

theorem append_left (hs : Leads ss anything P) : Leads (ss ++ ts) follow P := by
  intro ls rest h _
  obtain ⟨front, back, rfl, hfront, -⟩ := h.of_append
  rw [List.append_assoc]
  exact hs front _ hfront trivial

theorem of_anything (h : Leads ss anything P) : Leads ss follow P :=
  fun ls rest hs _ => h ls rest hs trivial

/-- Where nothing is spelled, what follows comes first. -/
theorem of_follow (h : Leads ss P P) (hf : ∀ k, follow k → P k) : Leads ss follow P :=
  fun ls rest hs hk => h ls rest hs (hf _ hk)

section
variable {slots : α → List Slot} (h : ∀ x, Leads (slots x) anything P)
include h

theorem flatMap (xs : List α) : Leads (xs.flatMap slots) P P := by
  cases xs with
  | nil => exact .nil fun _ hk => hk
  | cons x xs =>
      rw [List.flatMap_cons]
      exact .append_left (h x)

theorem optionalSlots (o : Option α) : Leads (optionalSlots slots o) P P := by
  cases o with
  | none => exact .nil fun _ hk => hk
  | some x => exact (h x).of_anything

end

theorem group {slots : α → List Slot} {opening close : Punctuator} (xs : List α)
    (h : P (.punctuator opening)) : Leads (group slots opening close xs) P P := by
  cases xs with
  | nil => exact .nil fun _ hk => hk
  | cons x xs => exact .lexeme h

theorem introduced {slots : α → List Slot} {l : Lexeme} {separator : Punctuator} (xs : List α)
    (h : P l.kind) : Leads (introduced slots l separator xs) P P := by
  cases xs with
  | nil => exact .nil fun _ hk => hk
  | cons x xs => exact .lexeme h

end Leads

/-! ### Steps -/

namespace Complete

variable {p : Parser α} {f : α → Parser β} {ss ts : List Slot} {follow follow' : TokenKind → Prop}
  {Q : α → Prop} {R : β → Prop}

theorem mono (h : Complete p ss follow Q) (hf : ∀ k, follow' k → follow k) :
    Complete p ss follow' Q :=
  fun n ls rest hs hk => h n ls rest hs (hf _ hk)

theorem pure {a : α} (h : Q a) : Complete (pure a) [] follow Q := by
  intro n ls rest hs _
  rw [Spells.nil_iff.1 hs]
  exact ⟨a, rfl, h⟩

/-- The parts of a sequence, the second of which starts with something that may
stand behind the first. -/
theorem bind (hp : Complete p ss follow' Q) (ht : Leads ts follow follow')
    (hf : ∀ a, Q a → Complete (f a) ts follow R) : Complete (p >>= f) (ss ++ ts) follow R := by
  intro n ls rest hs hrest
  obtain ⟨front, back, rfl, hfront, hback⟩ := hs.of_append
  obtain ⟨a, ha, hq⟩ := hp n front (back ++ rest) hfront (ht back rest hback hrest)
  obtain ⟨b, hb, hr⟩ := hf a hq (n + front.length) back rest hback hrest
  refine ⟨b, bind_eq_ok.2 ⟨a, ⟨n + front.length, back ++ rest⟩, ?_, ?_⟩, hr⟩
  · rw [List.append_assoc]
    exact ha
  · rw [hb, List.length_append, Nat.add_assoc]

/-- A first part that anything may stand behind. -/
theorem bind_free (hp : Complete p ss anything Q) (hf : ∀ a, Q a → Complete (f a) ts follow R) :
    Complete (p >>= f) (ss ++ ts) follow R :=
  hp.bind (fun _ _ _ _ => trivial) hf

/-- The last part of a sequence. -/
theorem last {g : α → β} (hp : Complete p ss follow Q) (hg : ∀ a, Q a → R (g a)) :
    Complete (p >>= fun a => Pure.pure (g a)) ss follow R := by
  intro n ls rest hs hrest
  obtain ⟨a, ha, hq⟩ := hp n ls rest hs hrest
  exact ⟨g a, bind_eq_ok.2 ⟨a, _, ha, rfl⟩, hg a hq⟩

theorem map {g : α → β} (hp : Complete p ss follow Q) (hg : ∀ a, Q a → R (g a)) :
    Complete (g <$> p) ss follow R := by
  rw [map_eq_pure_bind]
  exact hp.last hg

/-- Whatever span a node is given. -/
theorem spanned {node : Parser (Option Span → α)}
    (h : Complete node ss follow fun build => ∀ s, Q (build s)) :
    Complete (spanned node) ss follow Q := by
  intro n ls rest hs hrest
  obtain ⟨build, hbuild, hq⟩ := h n ls rest hs hrest
  exact ⟨_, bind_eq_ok.2 ⟨n, _, rfl, bind_eq_ok.2 ⟨build, _, hbuild, rfl⟩⟩, hq _⟩

theorem position {f : Nat → Parser β} (h : ∀ n, Complete (f n) ss follow R) :
    Complete (position >>= f) ss follow R :=
  fun n ls rest hs hrest => h n n ls rest hs hrest

/-- A lexeme that may stand in front or not. -/
theorem optional {l : Lexeme} (hl : Complete p (.lexeme l :: ss) follow Q)
    (h : Complete p ss follow Q) : Complete p (.optional l :: ss) follow Q := by
  intro n ls rest hs hrest
  cases hs with
  | present l hs => exact hl n _ rest (.lexeme l hs) hrest
  | absent l hs => exact h n ls rest hs hrest

/-! ### Looking at the next lexeme -/

theorem current {f : Lexeme → Parser β} {l : Lexeme}
    (h : Complete (f l) (.lexeme l :: ss) follow R) :
    Complete (current >>= f) (.lexeme l :: ss) follow R := by
  intro n ls rest hs hrest
  obtain ⟨ms, rfl, hms⟩ := Spells.lexeme_iff.1 hs
  exact h n _ rest (.lexeme l hms) hrest

theorem current_string {f : Lexeme → Parser β} {value : String} {block : Bool}
    (h : ∀ l : Lexeme, l.Denotes value block →
      Complete (f l) (.string value block :: ss) follow R) :
    Complete (Grammar.current >>= f) (.string value block :: ss) follow R := by
  intro n ls rest hs hrest
  cases hs with
  | string hl hs => exact h _ hl n _ rest (.string hl hs) hrest

/-- A choice by the kind of the next lexeme. -/
theorem current_pos {t : TokenKind → Prop} [DecidablePred t] {p q : Parser β}
    (hk : Leads ss follow t) (h : Complete p ss follow R) :
    Complete (Grammar.current >>= fun l => if t l.kind then p else q) ss follow R := by
  intro n ls rest hs hrest
  show ∃ b, (if t (nextKind (ls ++ rest)) then p else q) _ = _ ∧ R b
  rw [if_pos (hk ls rest hs hrest)]
  exact h n ls rest hs hrest

theorem current_neg {t : TokenKind → Prop} [DecidablePred t] {p q : Parser β}
    (hk : Leads ss follow (¬t ·)) (h : Complete q ss follow R) :
    Complete (Grammar.current >>= fun l => if t l.kind then p else q) ss follow R := by
  intro n ls rest hs hrest
  show ∃ b, (if t (nextKind (ls ++ rest)) then p else q) _ = _ ∧ R b
  rw [if_neg (hk ls rest hs hrest)]
  exact h n ls rest hs hrest

theorem sees_true {kind : TokenKind} {f : Bool → Parser β} (hk : Leads ss follow (· = kind))
    (h : Complete (f true) ss follow R) : Complete (sees kind >>= f) ss follow R := by
  intro n ls rest hs hrest
  have hsees : (nextKind (ls ++ rest) == kind) = true := beq_iff_eq.2 (hk ls rest hs hrest)
  show ∃ b, f (nextKind (ls ++ rest) == kind) ⟨n, ls ++ rest⟩ = _ ∧ R b
  rw [hsees]
  exact h n ls rest hs hrest

theorem sees_false {kind : TokenKind} {f : Bool → Parser β} (hk : Leads ss follow (· ≠ kind))
    (h : Complete (f false) ss follow R) : Complete (sees kind >>= f) ss follow R := by
  intro n ls rest hs hrest
  have hsees : (nextKind (ls ++ rest) == kind) = false :=
    beq_eq_false_iff_ne.2 (hk ls rest hs hrest)
  show ∃ b, f (nextKind (ls ++ rest) == kind) ⟨n, ls ++ rest⟩ = _ ∧ R b
  rw [hsees]
  exact h n ls rest hs hrest

theorem seesName {f : Bool → Parser β} {b : Bool} (hk : Leads ss follow (·.isName = b))
    (h : Complete (f b) ss follow R) : Complete (seesName >>= f) ss follow R := by
  intro n ls rest hs hrest
  show ∃ b, f (nextKind (ls ++ rest)).isName ⟨n, ls ++ rest⟩ = _ ∧ R b
  rw [hk ls rest hs hrest]
  exact h n ls rest hs hrest

/-! ### Single lexemes -/

theorem advance {l : Lexeme} {f : Lexeme → Parser β} (h : Complete (f l) ss follow R) :
    Complete (advance >>= f) (.lexeme l :: ss) follow R := by
  intro n ls rest hs hrest
  obtain ⟨ms, rfl, hms⟩ := Spells.lexeme_iff.1 hs
  obtain ⟨b, hb, hr⟩ := h (n + 1) ms rest hms hrest
  refine ⟨b, ?_, hr⟩
  rw [List.length_cons, Nat.add_comm ms.length, ← Nat.add_assoc]
  exact hb

/-- A parser that takes the lexeme in front, whatever stands behind it. -/
theorem of_advance {l : Lexeme} {p : Parser β} {f : Lexeme → Parser β}
    (hp : ∀ n ls, p ⟨n, l :: ls⟩ = (Grammar.advance >>= f) ⟨n, l :: ls⟩)
    (h : Complete (f l) ss follow R) : Complete p (.lexeme l :: ss) follow R := by
  intro n ls rest hs hrest
  obtain ⟨ms, rfl, hms⟩ := Spells.lexeme_iff.1 hs
  rw [List.cons_append, hp]
  exact advance h n _ rest hs hrest

theorem expect {kind : TokenKind} {l : Lexeme} {f : Lexeme → Parser β} (hk : l.kind = kind)
    (h : Complete (f l) ss follow R) :
    Complete (expect kind >>= f) (.lexeme l :: ss) follow R := by
  refine of_advance (fun n ls => ?_) h
  show ((if (l.kind == kind) = true then Grammar.advance else Grammar.fail _ : Parser Lexeme)
    >>= f) _ = _
  rw [if_pos (beq_iff_eq.2 hk)]

theorem mark {sign : Punctuator} {f : Lexeme → Parser β}
    (h : Complete (f (.punctuator sign)) ss follow R) :
    Complete (Grammar.expect (.punctuator sign) >>= f) (.mark sign :: ss) follow R :=
  .expect rfl h

theorem keyword {k : Keyword} {f : Lexeme → Parser β}
    (h : Complete (f (.keyword k)) ss follow R) :
    Complete (Grammar.expect (.keyword k) >>= f) (.keyword k :: ss) follow R :=
  .expect rfl h

theorem expectName {w : String} {f : Lexeme → Parser β}
    (h : Complete (f (.word w)) ss follow R) :
    Complete (expectName >>= f) (.word w :: ss) follow R := by
  refine of_advance (fun n ls => ?_) h
  show ((if (TokenKind.ofName w).isName = true then Grammar.advance
    else Grammar.fail _ : Parser Lexeme) >>= f) _ = _
  rw [if_pos (isName_ofName w)]

theorem accept_true {kind : TokenKind} {l : Lexeme} {f : Bool → Parser β} (hk : l.kind = kind)
    (h : Complete (f true) ss follow R) :
    Complete (accept kind >>= f) (.lexeme l :: ss) follow R := by
  refine of_advance (f := fun _ => f true) (fun n ls => ?_) h
  show ((if (l.kind == kind) = true then Grammar.advance >>= fun _ => Pure.pure true
    else Pure.pure false : Parser Bool) >>= f) _ = _
  rw [if_pos (beq_iff_eq.2 hk)]
  rfl

theorem accept_false {kind : TokenKind} {f : Bool → Parser β} (hk : Leads ss follow (· ≠ kind))
    (h : Complete (f false) ss follow R) : Complete (accept kind >>= f) ss follow R := by
  intro n ls rest hs hrest
  obtain ⟨b, hb, hr⟩ := h n ls rest hs hrest
  refine ⟨b, ?_, hr⟩
  show ((if (nextKind (ls ++ rest) == kind) = true then Grammar.advance >>= fun _ => Pure.pure true
    else Pure.pure false : Parser Bool) >>= f) _ = _
  rw [if_neg (by simpa using hk ls rest hs hrest)]
  exact hb

/-! ### Lists -/

section
variable {item : Parser α} {slots : α → List Slot} {clear : α → γ} {ks : List TokenKind}
  {xs : List α} (hi : ∀ x ∈ xs, Complete item (slots x) (avoids ks) fun y => clear y = clear x)
  (hr : Reads 1 item)

section
variable {opening close : Punctuator}
  (hstart : ∀ x, Leads (slots x) anything (avoids (.punctuator close :: ks)))
  (hclose : avoids ks (.punctuator close))
include hstart hclose

/-- Behind an item there is another one or the closing lexeme. -/
theorem leads_items (xs : List α) :
    Leads (xs.flatMap slots ++ [.mark close]) follow (avoids ks) :=
  .append (.flatMap (fun x => (hstart x).imp fun _ => avoids.tail) xs) (.lexeme hclose)

include hi hr

/-- Items of which none starts with the closing lexeme, nor with what the one
before it must not be followed by. -/
theorem upTo : Complete (upTo (.punctuator close) item) (xs.flatMap slots ++ [.mark close]) follow
    fun ys => ys.map clear = xs.map clear := by
  have heq : Grammar.upTo (.punctuator close) item = upToBody _ item (Grammar.upTo _ item) :=
    (guarded_upTo hr).fix_eq
  induction xs with
  | nil =>
      rw [heq]
      exact .accept_true rfl (.pure rfl)
  | cons x xs ih =>
      obtain ⟨hx, hxs⟩ := List.forall_mem_cons.1 hi
      rw [heq, List.flatMap_cons, List.append_assoc]
      refine .accept_false (.append_left ((hstart x).imp fun k h => (avoids.cons.1 h).1)) ?_
      refine .bind hx (leads_items hstart hclose xs) fun y hy => .last (ih hxs) fun ys hys => ?_
      rw [List.map_cons, List.map_cons, hy, hys]

theorem many (hne : xs ≠ []) : Complete (many (.punctuator opening) (.punctuator close) item)
    (enclosed slots opening close xs) follow fun ys => ys.map clear = xs.map clear := by
  cases xs with
  | nil => exact absurd rfl hne
  | cons x xs =>
      obtain ⟨hx, hxs⟩ := List.forall_mem_cons.1 hi
      rw [enclosed, List.flatMap_cons, List.append_assoc]
      refine .mark (.bind hx (leads_items hstart hclose xs) fun y hy =>
        .last (.upTo hxs hr hstart hclose) fun ys hys => ?_)
      rw [List.map_cons, List.map_cons, hy, hys]

theorem optionalMany :
    Complete (optionalMany (.punctuator opening) (.punctuator close) item)
      (group slots opening close xs) (avoids [.punctuator opening])
      fun ys => ys.map clear = xs.map clear := by
  cases xs with
  | nil => exact .sees_false (.nil fun _ hk => (avoids.cons.1 hk).1) (.pure rfl)
  | cons x xs =>
      exact .sees_true (.lexeme rfl) (.many hi hr hstart hclose (List.cons_ne_nil _ _))

end

/-- Items that all start with a lexeme of one kind end where another follows. -/
theorem leads_starting {slots : α → List Slot} {kind : TokenKind} {ks : List TokenKind}
    (hstart : ∀ x, Leads (slots x) anything (· = kind)) (hkind : avoids ks kind) (xs : List α) :
    Leads (xs.flatMap slots) (avoids (kind :: ks)) (avoids ks) := by
  cases xs with
  | nil => exact .nil fun _ => avoids.tail
  | cons x xs =>
      rw [List.flatMap_cons]
      exact .append_left ((hstart x).imp fun k hk => hk ▸ hkind)

include hi hr

/-- Items that all start with a lexeme of one kind. -/
theorem whileSees {kind : TokenKind} (hstart : ∀ x, Leads (slots x) anything (· = kind))
    (hkind : avoids ks kind) : Complete (whileSees kind item) (xs.flatMap slots)
      (avoids (kind :: ks)) fun ys => ys.map clear = xs.map clear := by
  have heq : Grammar.whileSees kind item = whileSeesBody _ item (Grammar.whileSees _ item) :=
    (guarded_whileSees hr).fix_eq
  induction xs with
  | nil =>
      rw [heq]
      exact .sees_false (.nil fun _ hk => (avoids.cons.1 hk).1) (.pure rfl)
  | cons x xs ih =>
      obtain ⟨hx, hxs⟩ := List.forall_mem_cons.1 hi
      rw [heq, List.flatMap_cons]
      refine .sees_true (.append_left (hstart x)) ?_
      refine .bind hx (leads_starting hstart hkind xs) fun y hy => .last (ih hxs) fun ys hys => ?_
      rw [List.map_cons, List.map_cons, hy, hys]

/-- Items of which none starts with the separator. -/
theorem separatedBy {separator : Punctuator} (hne : xs ≠ [])
    (hstart : ∀ x, Leads (slots x) anything (· ≠ .punctuator separator))
    (hsep : avoids ks (.punctuator separator)) :
    Complete (separatedBy (.punctuator separator) item) (separated slots separator xs)
      (avoids (.punctuator separator :: ks)) fun ys => ys.map clear = xs.map clear := by
  cases xs with
  | nil => exact absurd rfl hne
  | cons x xs =>
      obtain ⟨hx, hxs⟩ := List.forall_mem_cons.1 hi
      have hr' : Reads 1 (do let _ ← Grammar.expect (.punctuator separator); item) :=
        (reads_expect (by simp)).bind_left fun _ => hr.zero
      have hsign : ∀ y : α, Leads (.mark separator :: slots y) anything
          (· = .punctuator separator) := fun _ => .lexeme rfl
      have hitems : Complete (do let x ← item
                                 return x :: (← Grammar.whileSees (.punctuator separator) do
                                   let _ ← Grammar.expect (.punctuator separator)
                                   item))
          (slots x ++ xs.flatMap fun y => .mark separator :: slots y)
          (avoids (.punctuator separator :: ks)) fun ys =>
            ys.map clear = (x :: xs).map clear := by
        refine .bind hx (leads_starting hsign hsep xs) fun y hy => .last
          (.whileSees (fun z hz => .mark (hxs z hz)) hr' hsign hsep) fun ys hys => ?_
        rw [List.map_cons, List.map_cons, hy, hys]
      -- The leading separator makes no difference to what follows it.
      exact .optional (.accept_true rfl hitems) (.accept_false (.append_left (hstart x)) hitems)

end

section
variable {item : Parser α} {slots : α → List Slot} {clear : α → γ} {ks : List TokenKind}
  {o : Option α} (hi : ∀ x ∈ o, Complete item (slots x) (avoids ks) fun y => clear y = clear x)
include hi

theorem onlyIf_sees {kind : TokenKind} (hstart : ∀ x, Leads (slots x) anything (· = kind)) :
    Complete (onlyIf (sees kind) item) (optionalSlots slots o) (avoids (kind :: ks))
      fun o' => o'.map clear = o.map clear := by
  cases o with
  | none => exact .sees_false (.nil fun _ hk => (avoids.cons.1 hk).1) (.pure rfl)
  | some x =>
      refine .sees_true (hstart x).of_anything (.last (.mono (hi x rfl) fun _ => avoids.tail) ?_)
      exact fun y hy => congrArg some hy

theorem after {kind : TokenKind} {l : Lexeme} (hl : l.kind = kind) :
    Complete (after kind item) (optionalSlots (fun x => .lexeme l :: slots x) o)
      (avoids (kind :: ks)) fun o' => o'.map clear = o.map clear := by
  cases o with
  | none => exact .accept_false (.nil fun _ hk => (avoids.cons.1 hk).1) (.pure rfl)
  | some x =>
      refine .accept_true hl (.last (.mono (hi x rfl) fun _ => avoids.tail) ?_)
      exact fun y hy => congrArg some hy

end

/-! ### Strings -/

section
variable {value : String} {block : Bool}

theorem expect_string {kind : TokenKind} {f : Lexeme → Parser β}
    (hk : ∀ l : Lexeme, l.Denotes value block → l.kind = kind)
    (h : ∀ l, Complete (f l) ss follow R) :
    Complete (Grammar.expect kind >>= f) (.string value block :: ss) follow R := by
  intro n ls rest hs hrest
  cases hs with
  | string hl hs => exact expect (hk _ hl) (h _) n _ rest (.lexeme _ hs) hrest

theorem seesString_eq : seesString =
    Grammar.current >>= fun l => Pure.pure (l.kind == .string || l.kind == .blockString) := by
  refine bind_congr fun l => ?_
  obtain ⟨kind, text⟩ := l
  cases kind <;> rfl

theorem seesString_true {f : Bool → Parser β}
    (h : Complete (f true) (.string value block :: ss) follow R) :
    Complete (seesString >>= f) (.string value block :: ss) follow R := by
  rw [seesString_eq, bind_assoc]
  refine current_string fun l hl => ?_
  have hkind : (l.kind == .string || l.kind == .blockString) = true := by
    cases block <;> simp [hl.1]
  rw [pure_bind, hkind]
  exact h

theorem seesString_false {f : Bool → Parser β}
    (hk : Leads ss follow (avoids [.string, .blockString]))
    (h : Complete (f false) ss follow R) : Complete (seesString >>= f) ss follow R := by
  intro n ls rest hs hrest
  have hnext := hk ls rest hs hrest
  obtain ⟨b, hb, hr⟩ := h n ls rest hs hrest
  refine ⟨b, ?_, hr⟩
  have hother : (nextKind (ls ++ rest) == .string || nextKind (ls ++ rest) == .blockString) =
      false := by
    simpa [avoids] using hnext
  rw [seesString_eq, ← hb, ← hother]
  rfl

end

end Complete

end GraphQL.Grammar
