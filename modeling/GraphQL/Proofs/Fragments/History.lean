import GraphQL.FragmentRegistry.Operation
import GraphQL.Proofs.Fragments.Processing

/-!
A registry is what its log makes of an empty one. Whatever is done to it, its bodies, its names
and what registering comes to can therefore be read off the list of what was registered; the
histories of a registry and of its log are the same, step by step.
-/

namespace GraphQL.FragmentRegistry

variable {r : FragmentRegistry}

/-! ### Reading a log -/

/-- The distinct bodies of a name, as they first come. -/
def loggedBodies (log : List Fingerprint) (name : String) : List String :=
  ((log.filter (·.name = name)).map Fingerprint.body).eraseDups

/-- The distinct names, as they first come. -/
def loggedNames (log : List Fingerprint) : List String :=
  (log.map Fingerprint.name).eraseDups

/-! ### Histories -/

namespace Session

variable {α β : Type}

/-- A session with each of its states replaced. -/
def map (f : α → β) (s : Session α) : Session β := ⟨f s.current, fun n => f (s.kept n)⟩

section
variable {empty : α} {register : α → Fingerprint → α} {empty' : β}
  {register' : β → Fingerprint → β} {f : α → β} (hempty : f empty = empty')
  (hregister : ∀ a p, f (register a p) = register' (f a) p)
include hempty hregister

/-- Where registering is the same in two kinds of states, so is every operation. -/
theorem map_step (s : Session α) (op : Operation) :
    (s.step empty register op).map f = (s.map f).step empty' register' op := by
  cases op with
  | register p => simp only [step, map, hregister]
  | clear => simp only [step, map, hempty]
  | save slot => simp only [step, map, apply_ite f]
  | restore slot => rfl

theorem map_run (history : List Operation) :
    (run empty register history).map f = run empty' register' history := by
  induction history using List.reverseRecOn with
  | nil => simp only [run, start, map, List.foldl_nil, hempty]
  | append_singleton history op ih =>
      simp only [run, List.foldl_concat] at ih ⊢
      rw [map_step hempty hregister, ih]

end
end Session

/-- The registry is the one that its log makes. -/
theorem ofHistory_eq (history : List Operation) :
    ofHistory history = FragmentRegistry.empty.registerAll (logOf history) := by
  have hrun : (Session.run [] (fun log p => log ++ [p]) history).map
      FragmentRegistry.empty.registerAll =
        Session.run .empty (fun r p => r.register p.name p.body) history :=
    Session.map_run rfl FragmentRegistry.empty.registerAll_concat history
  exact congrArg Session.current hrun.symm

/-! ### What a log makes -/

/-- A name that has an entry has a body. -/
theorem WellFormed.contains_iff (h : r.WellFormed) {name : String} :
    r.contains name = true ↔ r.bodies name ≠ [] := by
  rw [contains, Option.isSome_iff_exists]
  constructor
  · rintro ⟨bodies, hlookup⟩
    rw [bodies_of_lookup hlookup]
    exact h.bodies_ne_nil (name, bodies) (mem_entries_of_lookup hlookup)
  · intro hne
    refine Option.ne_none_iff_exists'.1 fun hlookup => hne ?_
    exact bodies_of_lookup_none hlookup

theorem bodies_ofLog (log : List Fingerprint) (name : String) :
    (FragmentRegistry.empty.registerAll log).bodies name = loggedBodies log name := by
  rw [bodies_registerAll, bodiesAfter, newBodies]
  simp [bodies, FragmentRegistry.empty, loggedBodies]

theorem mem_loggedBodies {log : List Fingerprint} {p : Fingerprint} :
    p.body ∈ loggedBodies log p.name ↔ p ∈ log := by
  rw [← bodies_ofLog, bodies_registerAll, mem_bodiesAfter]
  simp [bodies, FragmentRegistry.empty]

theorem loggedBodies_ne_nil {log : List Fingerprint} {name : String} :
    loggedBodies log name ≠ [] ↔ name ∈ log.map Fingerprint.name := by
  constructor
  · intro hne
    obtain ⟨body, hbody⟩ := List.exists_mem_of_ne_nil _ hne
    exact List.mem_map.2 ⟨⟨name, body⟩, mem_loggedBodies.1 hbody, rfl⟩
  · intro hname
    obtain ⟨p, hp, rfl⟩ := List.mem_map.1 hname
    exact List.ne_nil_of_mem (mem_loggedBodies.2 hp)

/-- A name gets its entry when it first comes. -/
theorem names_ofLog (log : List Fingerprint) :
    (FragmentRegistry.empty.registerAll log).entries.map Prod.fst = loggedNames log := by
  induction log using List.reverseRecOn with
  | nil => rfl
  | append_singleton log p ih =>
      have hmem : p.name ∈ (FragmentRegistry.empty.registerAll log).entries.map Prod.fst ↔
          p.name ∈ log.map Fingerprint.name := by
        rw [ih, loggedNames, List.mem_eraseDups]
      rw [registerAll_concat, loggedNames, List.map_append, List.map_singleton,
        eraseDups_concat, ← loggedNames, ← ih]
      rcases register_cases (FragmentRegistry.empty.registerAll log) p with
        ⟨hnew, -, hentries⟩ | ⟨-, hknown⟩ | ⟨front, bodies, back, hold, -, -, hentries⟩
      · rw [if_neg (mt hmem.2 hnew), hentries, List.map_append, List.map_singleton]
      · have hbody : p.body ∈ (FragmentRegistry.empty.registerAll log).bodies p.name := by
          rw [← hknown, mem_bodies_register]
          exact .inr ⟨rfl, rfl⟩
        rw [bodies_ofLog, mem_loggedBodies] at hbody
        rw [if_pos (List.mem_map_of_mem hbody), hknown]
      · rw [if_pos (hmem.1 (by simp [hold])), hentries, hold]
        simp

/-- What registering comes to is told by the log. -/
theorem classify_ofLog (log : List Fingerprint) (p : Fingerprint) :
    (FragmentRegistry.empty.registerAll log).classify p.name p.body =
      if p ∈ log then .known
      else if p.name ∈ log.map Fingerprint.name then .conflict
      else .new := by
  have hcontains : (FragmentRegistry.empty.registerAll log).contains p.name = true ↔
      (FragmentRegistry.empty.registerAll log).bodies p.name ≠ [] :=
    (WellFormed.empty.registerAll log).contains_iff
  rw [bodies_ofLog, loggedBodies_ne_nil, contains] at hcontains
  by_cases hp : p ∈ log
  · rw [if_pos hp, classify_known]
    rwa [bodies_ofLog, mem_loggedBodies]
  · rw [if_neg hp]
    cases hlookup : (FragmentRegistry.empty.registerAll log).entries.lookup p.name with
    | none => rw [classify_new hlookup, if_neg (by simpa [hlookup] using hcontains)]
    | some bodies =>
        have hbody : p.body ∉ bodies := by
          rwa [← bodies_of_lookup hlookup, bodies_ofLog, mem_loggedBodies]
        rw [classify_conflict hlookup hbody, if_pos (hcontains.1 (by rw [hlookup]; rfl))]

/-! ### Registries after a history -/

/-- After any history a registry tells of its log: the distinct bodies of each name in the order
in which they first came, and how many names there are. What is registered next is new if the
log has not its name, known if it is in the log, and else a conflict, and no other name is
touched by it. -/
theorem ofHistory_represents (history : List Operation) :
    let r := ofHistory history
    let log := logOf history
    (∀ name, r.bodies name = loggedBodies log name) ∧
      r.size = (loggedNames log).length ∧
      (∀ name, r.contains name = true ↔ r.bodies name ≠ []) ∧
      ∀ p : Fingerprint,
        (r.classify p.name p.body = .new ↔ p.name ∉ log.map Fingerprint.name) ∧
        (r.classify p.name p.body = .known ↔ p ∈ log) ∧
        (r.classify p.name p.body = .conflict ↔ p.name ∈ log.map Fingerprint.name ∧ p ∉ log) ∧
        ∀ name, name ≠ p.name → (r.register p.name p.body).bodies name = r.bodies name := by
  intro r log
  have hr : r = FragmentRegistry.empty.registerAll log := ofHistory_eq history
  refine ⟨fun name => ?_, ?_, fun name => ?_, fun p => ?_⟩
  · rw [hr, bodies_ofLog]
  · rw [← names_ofLog, ← hr, List.length_map]
    rfl
  · rw [hr, (WellFormed.empty.registerAll log).contains_iff]
  · have hclassify := classify_ofLog log p
    rw [← hr] at hclassify
    have hframe : ∀ name, name ≠ p.name →
        (r.register p.name p.body).bodies name = r.bodies name := by
      intro name hne
      rw [bodies_register, if_neg fun h => hne h.1]
    rw [hclassify]
    by_cases hp : p ∈ log
    · have hname : p.name ∈ log.map Fingerprint.name := List.mem_map_of_mem hp
      rw [if_pos hp]
      exact ⟨by simp [hname], by simp [hp], by simp [hp], hframe⟩
    · rw [if_neg hp]
      by_cases hname : p.name ∈ log.map Fingerprint.name
      · rw [if_pos hname]
        exact ⟨by simp [hname], by simp [hp], by simp [hname, hp], hframe⟩
      · rw [if_neg hname]
        exact ⟨by simp [hname], by simp [hp], by simp [hname], hframe⟩

example :
    logOf [.register ⟨"A", "a"⟩, .save 0, .register ⟨"A", "b"⟩, .restore 0] = [⟨"A", "a"⟩] := by
  decide

end GraphQL.FragmentRegistry
