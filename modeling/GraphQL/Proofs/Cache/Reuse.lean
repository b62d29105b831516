import Mathlib.Data.List.Nodup
import GraphQL.Proofs.Cache.Changes

/-!
A document that was handed out is handed out again. Until the next reset, every text
with its key gets that document and no other text does, which is what sharing one
object means: documents have serial numbers, and no two under different keys have
the same one.
-/

namespace GraphQL

namespace Cache

/-- The serial numbers of the documents are different from each other and from those
to come. -/
structure Numbered (c : Cache) : Prop where
  distinct : (c.documents.map fun x => x.2.serial).Nodup
  used : ∀ x ∈ c.documents, x.2.serial < c.nextSerial

namespace Numbered

variable {c c' : Cache}

theorem empty (options : CacheOptions) : Numbered (Cache.empty options) :=
  ⟨.nil, List.forall_mem_nil _⟩

theorem reset (_ : c.Numbered) : c.reset.Numbered := ⟨.nil, List.forall_mem_nil _⟩

/-- A document that is put in takes the number that is next. -/
theorem change (h : c.Change c') (hc : c.Numbered) : c'.Numbered := by
  cases h with
  | keep documents fragments nextSerial =>
      constructor
      · rw [documents]
        exact hc.distinct
      · rw [documents, nextSerial]
        exact hc.used
  | @insert text d a absent enrolled =>
      obtain ⟨-, -, hd⟩ := of_enrollSource enrolled
      have hserial : d.serial = c.nextSerial := congrArg SharedDocument.serial hd
      constructor
      · refine List.nodup_cons.2 ⟨fun hmem => ?_, hc.distinct⟩
        obtain ⟨x, hx, hsame⟩ := List.mem_map.1 hmem
        have hlt := hc.used x hx
        have hsame : x.2.serial = d.serial := hsame
        omega
      · refine List.forall_mem_cons.2 ⟨?_, fun x hx => Nat.lt_succ_of_lt (hc.used x hx)⟩
        show d.serial < c.nextSerial + 1
        omega

theorem run (h : Handler) (options : CacheOptions) (history : List Operation) :
    (h.run (Cache.empty options) history).Numbered :=
  Handler.run_induction change h (fun _ _ => reset) (empty options)

/-- The number of a document tells its key. -/
theorem key_eq (hc : c.Numbered) {key key' : String} {d d' : SharedDocument}
    (hd : c.lookup key = some d) (hd' : c.lookup key' = some d')
    (hserial : d'.serial = d.serial) : key' = key :=
  congrArg Prod.fst (List.inj_on_of_nodup_map hc.distinct (mem_of_lookup hd')
    (mem_of_lookup hd) hserial)

end Numbered
end Cache

/-- Once a document was handed out for a text, it is handed out whenever a text of the
same key is asked for, until the next reset; besides a hit, nothing changes and nobody
is told. A text that gets the document has that key. -/
theorem perform_of_hasReturned (h : Handler) (options : CacheOptions)
    (history : List Operation) (s : String) (d : SharedDocument)
    (hd : h.HasReturned (Cache.empty options) history s d) :
    let c := h.run (Cache.empty options) history
    ∀ op s', op.text? = some s' →
      (Key.ofSource s' = Key.ofSource s →
        h.perform c op = (c.found (Key.ofSource s') d, [])) ∧
      ∀ d', (h.perform c op).1.outcome = some (.ok d') → d'.serial = d.serial →
        Key.ofSource s' = Key.ofSource s := by
  intro c op s' htext
  have hlookup := Handler.lookup_of_hasReturned hd
  refine ⟨fun hkey => Handler.perform_of_hit h htext (hkey ▸ hlookup), fun d' hd' hserial => ?_⟩
  have hop : op ≠ .reset := by
    rintro rfl
    cases htext
  have hchange := c.change_apply hop
  have hnumbered := Cache.Numbered.change hchange (Cache.Numbered.run h options history)
  exact hnumbered.key_eq (hchange.lookup hlookup) (Cache.lookup_of_outcome htext hd') hserial

/-- Other texts are parsed in between, one of them in answer to a conflict, some fail,
and a setting changes. -/
theorem perform_of_hasReturned_example :
    let h := Handler.parse "fragment F on T \x7b c \x7d"
    let history := [.parse "fragment F on T \x7b a \x7d", .parse "\x7b b \x7d",
      .parse "fragment F on T \x7b b \x7d", .setLegacyFragmentVariables true, .parse "\x7b"]
    let c := h.run (Cache.empty {}) history
    ∃ d, h.HasReturned (Cache.empty {}) history "\x7b b \x7d" d ∧
      h.perform c (.template ["\x7b", ",\x7d"] [.text "b"]) =
        (c.found (Key.ofSource "\x7bb,\x7d") d, []) := by
  intro h history c
  let first := h.run (Cache.empty {}) [.parse "fragment F on T \x7b a \x7d"]
  obtain ⟨d, hd⟩ : ∃ d, (h.perform first (.parse "\x7b b \x7d")).1.outcome = some (.ok d) :=
    Cache.exists_document (by decide +kernel)
  have hreturned : h.HasReturned (Cache.empty {}) history "\x7b b \x7d" d :=
    ⟨[.parse "fragment F on T \x7b a \x7d"], .parse "\x7b b \x7d", _, rfl, rfl, hd, by simp⟩
  have hreuse := perform_of_hasReturned h {} history _ d hreturned
    (.template ["\x7b", ",\x7d"] [.text "b"]) "\x7bb,\x7d" (by decide +kernel)
  exact ⟨d, hreturned, hreuse.1 (by decide +kernel)⟩

end GraphQL
