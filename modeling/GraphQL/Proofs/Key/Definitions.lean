import Mathlib.Data.List.Forall2
import GraphQL.Proofs.Grammar.Sources
import GraphQL.Proofs.Key.Strings

/-!
What a key tells of definitions. Those of two regular texts with one key are as many
on either side, they stand at the same sites, and they are spelled by the same
lexemes but for separators in strings.
-/

namespace GraphQL

open Grammar

/-- Valid definitions that can be written with the same lexemes but for separators
in strings. -/
def Definition.Alike (d e : Definition) : Prop :=
  ∃ ls ms, SpellsValid Definition.slots (Definition.Valid true) d ls ∧
    SpellsValid Definition.slots (Definition.Valid true) e ms ∧
    ls.map Lexeme.squeezed = ms.map Lexeme.squeezed

namespace Definition.Alike

variable {d e : Definition}

theorem of_spells {allowed allowed' : Bool} {ls ms : List Lexeme}
    (hd : SpellsValid Definition.slots (Definition.Valid allowed) d ls)
    (he : SpellsValid Definition.slots (Definition.Valid allowed') e ms)
    (h : ls.map Lexeme.squeezed = ms.map Lexeme.squeezed) : d.Alike e :=
  ⟨ls, ms, ⟨hd.1, hd.2.allow⟩, ⟨he.1, he.2.allow⟩, h⟩

/-- Spans do not matter. -/
theorem mapSpans (h : d.Alike e) (f g : Option Span → Option Span) :
    (d.mapSpans f).Alike (e.mapSpans g) := by
  obtain ⟨ls, ms, ⟨hd, hvd⟩, ⟨he, hve⟩, hls⟩ := h
  rw [← Definition.slots_mapSpans f d] at hd
  rw [← Definition.slots_mapSpans g e] at he
  exact ⟨ls, ms, ⟨hd, hvd.mapSpans f⟩, ⟨he, hve.mapSpans g⟩, hls⟩

end Definition.Alike

/-- A text that is read without a diagnostic is regular if its block strings are. -/
theorem Key.regular_of_parse {options : ParseOptions} {source : String}
    (h : (parse options source).diagnostics = ⟨[]⟩) (hblock : Key.BlockRegular source) :
    Key.Regular source :=
  fun l hl => Key.regular_of_proper hl ((placed_of_parse h).2.proper l hl) (hblock l hl)

/-- Definitions at the same sites, of lexemes that are the same but for separators
in strings. -/
theorem Grammar.Placed.alike {allowed : Bool} {place : Nat} {ds es : List Definition}
    {ls ms : List Lexeme} (hds : Placed allowed place ds ls) (hes : Placed allowed place es ms)
    (hsites : ds.map Definition.site = es.map Definition.site)
    (h : ls.map Lexeme.squeezed = ms.map Lexeme.squeezed) :
    List.Forall₂ Definition.Alike ds es := by
  induction hds generalizing es ms with
  | nil =>
      cases List.map_eq_nil_iff.1 hsites.symm
      exact .nil
  | @cons place d ds chunk ls hspan _ hchunk _ ih =>
      obtain ⟨e, es, rfl, hsite, hrest⟩ := List.map_eq_cons_iff.1 hsites.symm
      cases hes with
      | @cons _ _ _ chunk' ms hspan' _ hchunk' hes =>
          -- Where two definitions start and stop alike, as many lexemes spell them.
          have hspans : e.span = d.span := congrArg Prod.fst hsite
          rw [hspan, hspan'] at hspans
          have hlength : chunk.length = chunk'.length :=
            (Nat.add_left_cancel (Span.mk.inj (Option.some.inj hspans)).2).symm
          rw [List.map_append, List.map_append] at h
          obtain ⟨hchunks, htails⟩ := List.append_inj h (by simpa using hlength)
          rw [← hlength] at hes
          exact .cons (.of_spells hchunk hchunk' hchunks) (ih hes hrest.symm htails)

section
variable {s t : String} (hs : Key.Regular s) (ht : Key.Regular t)
  (hkey : Key.ofSource s = Key.ofSource t)
include hs ht hkey

/-- Regular texts with one key have their definitions at the same sites. -/
theorem map_site_eq (allowed : Bool) :
    (read allowed (lexemes s)).definitions.map Definition.site =
      (read allowed (lexemes t)).definitions.map Definition.site :=
  (read_agrees allowed (Key.map_shadow_eq hs ht hkey)).1

/-- Of regular texts with one key, both are read without a diagnostic or none is. -/
theorem diagnostics_parse_iff (options : ParseOptions) :
    (parse options s).diagnostics = ⟨[]⟩ ↔ (parse options t).diagnostics = ⟨[]⟩ := by
  rw [diagnostics_parse_eq_nil_iff, diagnostics_parse_eq_nil_iff]
  exact error?_eq_none_iff _ (Key.map_shadow_eq hs ht hkey)

/-- Regular texts with one key have definitions that are alike. -/
theorem alike_of_parse {options : ParseOptions}
    (hreads : (parse options s).diagnostics = ⟨[]⟩)
    (hreadt : (parse options t).diagnostics = ⟨[]⟩) :
    List.Forall₂ Definition.Alike (parse options s).document.definitions
      (parse options t).document.definitions := by
  have halike := (placed_of_parse hreads).2.alike (placed_of_parse hreadt).2
    (map_site_eq hs ht hkey _) (Key.map_squeezed_eq hs ht hkey)
  rw [definitions_parse, definitions_parse, List.forall₂_map_left_iff,
    List.forall₂_map_right_iff]
  exact halike.imp fun _ _ h => h.mapSpans _ _

end

end GraphQL
