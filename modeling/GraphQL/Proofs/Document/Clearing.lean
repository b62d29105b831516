import GraphQL.Proofs.Document.Trees

/-!
Changing the spans of a document changes each of the spans that it lists, in place. So
a document that has been stripped lists no span.
-/

namespace GraphQL

variable (f : Option Span → Option Span)

@[simp] theorem Definition.spans_mapSpans (d : Definition) :
    (d.mapSpans f).spans = d.spans.map f := by
  rw [← Definition.postorder_tree, Definition.tree_mapSpans, SpanTree.postorder_mapSpans,
    Definition.postorder_tree]

@[simp] theorem Document.spans_mapSpans (d : Document) :
    (d.mapSpans f).spans = d.spans.map f := by
  have hdefinitions : (d.definitions.map (·.mapSpans f)).flatMap Definition.spans =
      (d.definitions.flatMap Definition.spans).map f := by
    simp [List.flatMap_map, List.map_flatMap]
  cases h : d.location <;> simp [Document.mapSpans, Document.spans, hdefinitions, h, optionalSpans]

/-- A stripped document has no span. -/
theorem Document.eq_none_of_mem_spans_strip {d : Document} {s : Option Span}
    (h : s ∈ d.strip.spans) : s = none := by
  rw [Document.strip, Document.spans_mapSpans] at h
  obtain ⟨_, -, rfl⟩ := List.mem_map.1 h
  rfl

end GraphQL
