import GraphQL.Proofs.Cache.Warnings

/-!
Handlers that use the cache they are called from. A text that is parsed in answer to a
report may be reported itself, and each of these reports is answered before the next
one of the outer text. `Answers` says how this goes, without a bound on how deep it
gets; the text is in the cache once it has been reported, so it never gets deeper than
two. However deep it gets, the cache goes through the same states as if the reports were
not answered and the text were parsed once more for each of them.
-/

namespace GraphQL

/-- A call of a handler: the conflict it is told, the text that was parsed when that was
met, the cache in which it was parsed, and the cache as the handler finds it. -/
structure Invocation where
  conflict : FragmentConflict
  text : String
  before : Cache
  found : Cache

/-- What is noted of a call that is answered with a text. -/
def Invocation.notice (reply : String) (i : Invocation) : Notice :=
  ⟨i.conflict, some (i.found.stats, (i.found.parseDocument reply).outcome.isOk)⟩

/-- Parsing a text in one cache led to another one and to some reports. When all of them
have been answered with a text, the handler has been called so often, in this order,
and the cache is the last one. Within a call there are calls to a depth. -/
inductive Answers (reply : String) :
    Nat → Cache → String → Cache → List FragmentConflict → List Invocation → Cache → Prop
  | done {depth : Nat} {before c : Cache} {text : String} :
      Answers reply depth before text c [] [] c
  | call {depth : Nat} {before c c' c'' : Cache} {text : String} {k : FragmentConflict}
      {ks : List FragmentConflict} {inner later : List Invocation}
      (answer : Answers reply depth c reply (c.parseDocument reply).cache
        (c.parseDocument reply).reports inner c')
      (rest : Answers reply (depth + 1) before text c' ks later c'') :
      Answers reply (depth + 1) before text c (k :: ks)
        (⟨k, text, before, c⟩ :: (inner ++ later)) c''

/-! ### Delivering report by report -/

namespace Delivery

/-- A delivery that has not told of anything. -/
def silent (c : Cache) : Delivery := ⟨c, [], []⟩

/-- One delivery, then another. -/
def followedBy (d e : Delivery) : Delivery :=
  ⟨e.cache, d.events ++ e.events, d.notices ++ e.notices⟩

theorem followedBy_assoc (d e e' : Delivery) :
    (d.followedBy e).followedBy e' = d.followedBy (e.followedBy e') := by
  simp only [followedBy, List.append_assoc]

/-- What is added by each report depends on the cache alone, so what was delivered before
stays in front. -/
theorem foldl_eq_followedBy {f : Delivery → FragmentConflict → Delivery}
    (hf : ∀ d k, f d k = d.followedBy (f (silent d.cache) k)) (d : Delivery)
    (ks : List FragmentConflict) :
    ks.foldl f d = d.followedBy (ks.foldl f (silent d.cache)) := by
  induction ks generalizing d with
  | nil => simp [followedBy, silent]
  | cons k ks ih =>
      calc (k :: ks).foldl f d
        _ = (f d k).followedBy (ks.foldl f (silent (f d k).cache)) := ih _
        _ = d.followedBy ((f (silent d.cache) k).followedBy
            (ks.foldl f (silent (f (silent d.cache) k).cache))) := by
          rw [hf d k, followedBy_assoc]
          rfl
        _ = d.followedBy ((k :: ks).foldl f (silent d.cache)) := by rw [List.foldl_cons, ← ih]

end Delivery

namespace Handler

theorem answer_nil (text : String) (depth : Nat) (c : Cache) :
    answer text depth c [] = ⟨c, [], []⟩ := by
  cases depth <;> rfl

/-- The first report is answered, with all that comes of it, and then the others are. -/
theorem answer_cons (text : String) (depth : Nat) (c : Cache) (k : FragmentConflict)
    (ks : List FragmentConflict) :
    answer text (depth + 1) c (k :: ks) =
      let a := c.parseDocument text
      let inner := answer text depth a.cache a.reports
      Delivery.followedBy
        ⟨inner.cache, a.events ++ inner.events,
          inner.notices ++ [⟨k, some (c.stats, a.outcome.isOk)⟩]⟩
        (answer text (depth + 1) inner.cache ks) := by
  refine Delivery.foldl_eq_followedBy (fun d k => ?_) _ ks
  simp only [Delivery.followedBy, Delivery.silent, List.append_assoc, List.nil_append]

end Handler

/-! ### What a report tells -/

namespace Cache

/-- A conflict was met when a text was parsed in an earlier cache. The document of the text
is there, its fragments are registered, and its conflicts are counted. -/
def Settles (c before : Cache) (text : String) (k : FragmentConflict) : Prop :=
  ∃ d a, before.missed.enrollSource text = .ok (d, a) ∧ k ∈ a.conflicts ∧
    c.lookup (Key.ofSource text) = some d ∧
    (∀ e ∈ (GraphQL.parse ⟨before.options.legacyFragmentVariables⟩ text).document.definitions,
      ∀ p, e.fingerprint? text = some p → p.body ∈ c.fragments.bodies p.name) ∧
    before.conflicts + a.conflicts.length ≤ c.conflicts

theorem settles_of_mem_reports {c : Cache} {text : String} {k : FragmentConflict}
    (hk : k ∈ (c.parseDocument text).reports) :
    (c.parseDocument text).cache.Settles c text k := by
  rcases c.parseDocument_cases text with ⟨d, -, heq⟩ | ⟨e, -, -, heq⟩ | ⟨d, a, -, ha, heq⟩
  · rw [heq] at hk
    cases hk
  · rw [heq] at hk
    cases hk
  · rw [heq] at hk ⊢
    have hmet : k ∈ a.conflicts := by
      split at hk
      · exact hk
      · cases hk
    refine ⟨d, a, ha, hmet, ?_, fun e he p hp => ?_, Nat.le_refl _⟩
    · show List.lookup _ ((Key.ofSource text, d) :: c.documents) = some d
      rw [List.lookup_cons, beq_self_eq_true]
    · obtain ⟨-, rfl, -⟩ := of_enrollSource ha
      refine Enrollment.mem_bodies_iff.2 (.inr ⟨e, List.mem_map.2 ⟨e, he, ?_⟩⟩)
      rw [hp]

/-- What has been settled remains so when another text is parsed. -/
theorem Settles.parseDocument {c before : Cache} {text : String} {k : FragmentConflict}
    (h : c.Settles before text k) (other : String) :
    (c.parseDocument other).cache.Settles before text k := by
  obtain ⟨d, a, ha, hk, hd, hbodies, hcount⟩ := h
  refine ⟨d, a, ha, hk, (c.change_parseDocument other).lookup hd, ?_⟩
  have hop : Operation.parse other ≠ .reset := nofun
  rcases c.detected_cases hop with ⟨-, -, hfragments, hconflicts⟩ |
    ⟨_, _, a', ha', -, -, hfragments, hconflicts⟩
  · change (c.parseDocument other).cache.fragments = c.fragments at hfragments
    change (c.parseDocument other).cache.conflicts = c.conflicts at hconflicts
    rw [hfragments, hconflicts]
    exact ⟨hbodies, hcount⟩
  · change (c.parseDocument other).cache.fragments = a'.registry at hfragments
    change (c.parseDocument other).cache.conflicts = c.conflicts + a'.conflicts.length
      at hconflicts
    obtain ⟨-, rfl, -⟩ := of_enrollSource ha'
    rw [hfragments, hconflicts]
    exact ⟨fun e he p hp => Enrollment.mem_bodies_iff.2 (.inl (hbodies e he p hp)),
      Nat.le_add_right_of_le hcount⟩

end Cache

namespace Answers

variable {reply text : String} {depth : Nat} {before c after : Cache}
  {ks : List FragmentConflict} {calls : List Invocation}

/-- There is one way to answer reports, at whatever depth. -/
theorem unique (h : Answers reply depth before text c ks calls after) {depth' : Nat}
    {calls' : List Invocation} {after' : Cache}
    (h' : Answers reply depth' before text c ks calls' after') :
    calls' = calls ∧ after' = after := by
  induction h generalizing depth' calls' after' with
  | done =>
      cases h'
      exact ⟨rfl, rfl⟩
  | call _ _ ihanswer ihrest =>
      cases h' with
      | call answer rest =>
          obtain ⟨rfl, rfl⟩ := ihanswer answer
          obtain ⟨rfl, rfl⟩ := ihrest rest
          exact ⟨rfl, rfl⟩

/-! ### The depth -/

/-- Where the text is in the cache, answering with it leads to no further call. -/
theorem exists_of_lookup {d : SharedDocument} (h : c.lookup (Key.ofSource reply) = some d)
    (before : Cache) (text : String) (ks : List FragmentConflict) :
    ∃ calls after, Answers reply 1 before text c ks calls after := by
  induction ks generalizing c with
  | nil => exact ⟨_, _, .done⟩
  | cons k ks ih =>
      have hhit := Cache.parseDocument_of_hit h
      have hanswer : Answers reply 0 c reply (c.parseDocument reply).cache
          (c.parseDocument reply).reports [] (c.parseDocument reply).cache := by
        rw [hhit]
        exact .done
      obtain ⟨later, after, hrest⟩ := ih (c := (c.parseDocument reply).cache) <| by
        rw [hhit]
        exact h
      exact ⟨_, _, .call hanswer hrest⟩

/-- A text that leads to calls when it is parsed in answer is in the cache afterwards, and
these calls lead to no further ones. -/
theorem exists_two (reply : String) (before : Cache) (text : String) (c : Cache)
    (ks : List FragmentConflict) :
    ∃ calls after, Answers reply 2 before text c ks calls after := by
  induction ks generalizing c with
  | nil => exact ⟨_, _, .done⟩
  | cons k ks ih =>
      obtain ⟨inner, c', hanswer⟩ : ∃ inner c', Answers reply 1 c reply
          (c.parseDocument reply).cache (c.parseDocument reply).reports inner c' := by
        cases hreports : (c.parseDocument reply).reports with
        | nil => exact ⟨_, _, .done⟩
        | cons k' ks' =>
            obtain ⟨d, -, -, -, hd, -⟩ := Cache.settles_of_mem_reports
              (hreports ▸ List.mem_cons_self : k' ∈ (c.parseDocument reply).reports)
            exact exists_of_lookup hd c reply _
      obtain ⟨later, after, hrest⟩ := ih c'
      exact ⟨_, _, .call hanswer hrest⟩

/-! ### The order -/

/-- What every parsing of the text keeps is kept. -/
theorem keeps {P : Cache → Prop} (hP : ∀ c, P c → P (c.parseDocument reply).cache)
    (h : Answers reply depth before text c ks calls after) (hc : P c) : P after := by
  induction h with
  | done => exact hc
  | call _ _ ihanswer ihrest => exact ihrest (ihanswer (hP _ hc))

/-- Every handler finds settled what it is told. -/
theorem settles (h : Answers reply depth before text c ks calls after)
    (hks : ∀ k ∈ ks, c.Settles before text k) :
    ∀ i ∈ calls, i.found.Settles i.before i.text i.conflict := by
  induction h with
  | done => exact nofun
  | call answer _ ihanswer ihrest =>
      rw [List.forall_mem_cons] at hks
      rw [List.forall_mem_cons, List.forall_mem_append]
      refine ⟨hks.1, ihanswer fun k hk => Cache.settles_of_mem_reports hk, ihrest fun k hk => ?_⟩
      exact answer.keeps (P := (·.Settles _ _ k)) (fun _ hc => hc.parseDocument reply)
        ((hks.2 k hk).parseDocument reply)

/-- The handlers find the states of a history in which the text is parsed so often. -/
theorem linear (h : Answers reply depth before text c ks calls after) {h' : Handler}
    (hh : ∀ text, h' ≠ .parse text) :
    h'.stages c (List.replicate calls.length (.parse reply)) =
        calls.map (fun i => (i.found, .parse reply)) ∧
      h'.run c (List.replicate calls.length (.parse reply)) = after := by
  induction h with
  | done => exact ⟨rfl, rfl⟩
  | @call _ _ c _ _ _ _ _ inner later _ _ ihanswer ihrest =>
      have hfirst : (h'.perform c (.parse reply)).1.cache = (c.parseDocument reply).cache :=
        Handler.cache_perform hh c _
      rw [List.length_cons, List.length_append, List.replicate_succ, List.replicate_add,
        Handler.stages, Handler.run_cons, hfirst, Handler.stages_append, Handler.run_append,
        ihanswer.1, ihanswer.2, ihrest.1, ihrest.2]
      simp

/-- Delivering to the depth does what is said here, and notes every call once. -/
theorem answer_eq (h : Answers reply depth before text c ks calls after) :
    (Handler.answer reply depth c ks).cache = after ∧
      (Handler.answer reply depth c ks).notices.Perm (calls.map (·.notice reply)) := by
  induction h with
  | done =>
      rw [Handler.answer_nil]
      exact ⟨rfl, .nil⟩
  | call _ _ ihanswer ihrest =>
      rw [Handler.answer_cons]
      simp only [Delivery.followedBy, ihanswer.1, ihrest.1, true_and]
      rw [List.map_cons, List.map_append, List.append_assoc]
      exact List.perm_middle.trans (.cons _ (ihanswer.2.append ihrest.2))

end Answers

/-- Answering the reports of a text by parsing another one through the same cache comes to
an end, in one way and not more than two calls deep. That is what is delivered, and each
call finds the text whose conflict it is told cached, registered and counted. The calls
find the states of a history in which nothing is answered and the other text is parsed
once more for each of them, and the cache is left as by that history. -/
theorem perform_answers (reply source : String) (c : Cache) :
    let a := c.parseDocument source
    let performed := (Handler.parse reply).perform c (.parse source)
    ∃ calls after, Answers reply 2 c source a.cache a.reports calls after ∧
      (∀ depth calls' after', Answers reply depth c source a.cache a.reports calls' after' →
        calls' = calls ∧ after' = after) ∧
      (c.options.warnOnFragmentConflicts = true → a.reports = c.conflictsOf source) ∧
      performed.1.cache = after ∧ performed.2.Perm (calls.map (·.notice reply)) ∧
      (∀ i ∈ calls, i.found.Settles i.before i.text i.conflict) ∧
      ∀ h : Handler, (∀ text, h ≠ .parse text) →
        let history := .parse source :: List.replicate calls.length (.parse reply)
        h.stages c history =
            (c, .parse source) :: calls.map (fun i => (i.found, .parse reply)) ∧
          h.run c history = after ∧
          (h.perform c (.parse source)).1.outcome = performed.1.outcome := by
  intro a performed
  obtain ⟨calls, after, hcalls⟩ := Answers.exists_two reply c source a.cache a.reports
  obtain ⟨hcache, hnotices⟩ := hcalls.answer_eq
  refine ⟨calls, after, hcalls, fun _ _ _ => hcalls.unique, fun hwarn => ?_, hcache, hnotices,
    hcalls.settles fun k hk => Cache.settles_of_mem_reports hk, fun h hh => ?_⟩
  · have hreports := c.reports_apply (.parse source)
    rwa [hwarn, if_pos rfl] at hreports
  · obtain ⟨hstages, hrun⟩ := hcalls.linear hh
    have hfirst : (h.perform c (.parse source)).1.cache = a.cache := h.cache_perform hh c _
    refine ⟨?_, ?_, rfl⟩
    · rw [Handler.stages, hfirst, hstages]
    · rw [Handler.run_cons, hfirst, hrun]

/-- The text meets two conflicts. The first answer is a third one, which is answered before
the second. -/
theorem perform_answers_example :
    let reply := "fragment F on T \x7b c \x7d"
    let source := "fragment F on T \x7b b \x7d fragment G on T \x7b a \x7d fragment G on T \x7b b \x7d"
    let c := (Cache.empty {}).run [.parse "fragment F on T \x7b a \x7d"]
    (c.parseDocument source).reports.length = 2 ∧
      ((Handler.parse reply).perform c (.parse source)).1.cache =
        Handler.collect.run c (.parse source :: List.replicate 3 (.parse reply)) := by
  intro reply source c
  obtain ⟨calls, after, -, -, -, hcache, hnotices, -, hlinear⟩ := perform_answers reply source c
  have hthree : ((Handler.parse reply).perform c (.parse source)).2.length = 3 := by
    decide +kernel
  have hlength : calls.length = 3 := by
    rw [← hthree, hnotices.length_eq, List.length_map]
  obtain ⟨-, hrun, -⟩ := hlinear .collect nofun
  rw [hlength] at hrun
  exact ⟨by decide +kernel, hcache.trans hrun.symm⟩

end GraphQL
