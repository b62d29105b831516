import GraphQL.Proofs.Grammar.Runs
import GraphQL.Proofs.Grammar.Sources
import GraphQL.Proofs.Lexer.Seams

/-!
Two sources put together, with a line end between them. If the first one ends with a
brace, the definitions are those of the first source and then those of the second. Their
spans are those they had, moved to where the second source starts.
-/

namespace GraphQL

open Grammar

section
variable {ts us : List Token} {start stop : Nat}

/-- Where lexemes are does not depend on the tokens behind theirs. -/
theorem placeSpan_append_left (hlt : start < stop) (hle : stop ≤ ts.length) :
    placeSpan (ts ++ us).toArray ⟨start, stop⟩ = placeSpan ts.toArray ⟨start, stop⟩ := by
  obtain ⟨last, rfl⟩ : ∃ last, stop = last + 1 := ⟨stop - 1, by omega⟩
  simp only [placeSpan, startOf, endOf, List.getElem?_toArray]
  rw [List.getElem?_append_left (by omega), List.getElem?_append_left (by omega)]

/-- Tokens that were moved behind others are where they were moved to. -/
theorem placeSpan_append_right (hlt : start < stop) (hle : stop ≤ us.length) (n : Nat) :
    placeSpan (ts ++ us.map (·.shift n)).toArray ⟨ts.length + start, ts.length + stop⟩ =
      (placeSpan us.toArray ⟨start, stop⟩).shift n := by
  obtain ⟨last, rfl⟩ : ∃ last, stop = last + 1 := ⟨stop - 1, by omega⟩
  have hmoved : ∀ i < us.length,
      (ts ++ us.map (·.shift n))[ts.length + i]? = us[i]?.map (·.shift n) := by
    intro i hi
    rw [List.getElem?_append_right (by omega), Nat.add_sub_cancel_left, List.getElem?_map]
  show Span.mk (startOf _ (ts.length + start)) (endOf _ (ts.length + last + 1)) = _
  simp only [placeSpan, startOf, endOf, List.getElem?_toArray]
  rw [hmoved start (by omega), hmoved last (by omega), List.getElem?_eq_getElem (by omega),
    List.getElem?_eq_getElem (by omega)]
  rfl

end

section
variable {a b : String} (ha : ∀ l ∈ lexemes a, l.kind ≠ .unterminated) {start stop : Nat}
include ha

/-- The lexemes of the first source stay where they are. -/
theorem placeSpan_before (hlt : start < stop) (hle : stop ≤ (lexemes a).length) :
    placeSpan (tokenize (a ++ "\n" ++ b)).toArray ⟨start, stop⟩ =
      placeSpan (tokenize a).toArray ⟨start, stop⟩ := by
  rw [length_lexemes] at hle
  obtain ⟨last, hlast⟩ := List.dropLast_prefix (tokenize a)
  rw [tokenize_append ha, placeSpan_append_left hlt hle]
  conv => rhs; rw [← hlast]
  exact (placeSpan_append_left hlt hle).symm

/-- The lexemes of the second source are moved to its start. -/
theorem placeSpan_behind (hlt : start < stop) (hle : stop ≤ (lexemes b).length) :
    placeSpan (tokenize (a ++ "\n" ++ b)).toArray
        ⟨(lexemes a).length + start, (lexemes a).length + stop⟩ =
      (placeSpan (tokenize b).toArray ⟨start, stop⟩).shift (a.utf8ByteSize + 1) := by
  rw [length_lexemes, List.length_dropLast] at hle
  rw [tokenize_append ha, length_lexemes]
  exact placeSpan_append_right hlt (by omega) _

end

/-- Sources that are put together are read as one, if the first one ends with a brace. -/
theorem parse_append (options : ParseOptions) (a b : String)
    (ha : (parse options a).diagnostics = ⟨[]⟩) (hb : (parse options b).diagnostics = ⟨[]⟩)
    (hclosed : ∃ t ∈ (tokenize a).dropLast.getLast?, t.kind = .punctuator .braceClose) :
    (parse options (a ++ "\n" ++ b)).diagnostics = ⟨[]⟩ ∧
      (parse options (a ++ "\n" ++ b)).document.definitions =
        (parse options a).document.definitions ++ (parse options b).document.definitions.map
          (·.mapSpans (Option.map (·.shift (a.utf8ByteSize + 1)))) := by
  -- An open string at the end of the first source would be a fault there.
  have hterminated : ∀ l ∈ lexemes a, l.kind ≠ .unterminated := by
    intro l hl hk
    have hproper := ((placed_of_parse ha).2.proper l hl).kind
    rw [hk] at hproper
    cases hproper
  have hlast : ∀ l ∈ (lexemes a).getLast?, l.kind = .punctuator .braceClose := by
    obtain ⟨t, ht, hk⟩ := hclosed
    rw [← map_toLexeme_tokenize, List.getLast?_map, Option.mem_def.1 ht]
    rintro l ⟨⟩
    exact hk
  let moved : Span → Span := fun s => (placeSpan (tokenize b).toArray s).shift (a.utf8ByteSize + 1)
  have hmoved : ∀ start stop, start < stop → stop ≤ (lexemes b).length →
      moved ⟨start, stop⟩ = placeSpan (tokenize (a ++ "\n" ++ b)).toArray
        ⟨(lexemes a).length + start, (lexemes a).length + stop⟩ :=
    fun start stop hlt hle => (placeSpan_behind hterminated hlt hle).symm
  obtain ⟨herror, hdefinitions⟩ := read_append (fun _ => coherent_of_mem)
    (fun _ => coherent_of_mem) hlast ((diagnostics_parse_eq_nil_iff options a).1 ha)
    ((diagnostics_parse_eq_nil_iff options b).1 hb)
    (fun start stop hlt hle => (placeSpan_before hterminated hlt hle).symm) hmoved
  rw [diagnostics_parse_eq_nil_iff, definitions_parse, definitions_parse, definitions_parse,
    lexemes_append_line hterminated, Definition.map_mapSpans_map]
  exact ⟨herror, hdefinitions⟩

/-- The comment at the end of the first source does not reach into the second one, and the
extension does not take the brace there for its own. -/
theorem parse_append_example :
    let a := "extend schema \x7b query: Q \x7d # é"
    let b := "\x7b a \x7d"
    (parse {} (a ++ "\n" ++ b)).diagnostics = ⟨[]⟩ ∧
      (parse {} (a ++ "\n" ++ b)).document.definitions =
        (parse {} a).document.definitions ++ (parse {} b).document.definitions.map
          (·.mapSpans (Option.map (·.shift 32))) := by
  intro a b
  have hclosed : (tokenize a).dropLast.getLast? =
      some ⟨.punctuator .braceClose, ⟨25, 26⟩⟩ := by decide +kernel
  exact parse_append {} a b (by decide +kernel) (by decide +kernel) ⟨_, hclosed, rfl⟩

end GraphQL
