import Skep.Arrangement.RunList

/-!
# Provenance

Which spans each document has ever arranged. The relation only grows: it keeps
the extent of every run a document placed, whether or not the arrangement still
holds it.
-/

/-- The spans each document has ever arranged. -/
structure Provenance where
  relation : OrdMap Address (List Span)

namespace Provenance

def empty : Provenance := ⟨OrdMap.empty⟩

/-- Append the extents of runs the document places. -/
def append (p : Provenance) (doc : Address) (runs : List Run) : Provenance :=
  ⟨p.relation.insert doc ((p.relation.get doc).getD [] ++ runs.map Run.iextent)⟩

/-- The spans the document has ever arranged. -/
def everContained (p : Provenance) (doc : Address) : SpanSet :=
  match p.relation.get doc with
  | some spans => ⟨spans⟩
  | none => SpanSet.empty

/-- The documents with a span not separated from the coverage, in key order. -/
def docsEverContaining (p : Provenance) (coverage : SpanSet) : List Address :=
  (p.relation.entries.filter fun e =>
    e.2.any fun placed => coverage.spans.any fun cover =>
      classifySpans placed cover != .separated).map Prod.fst

theorem spans_everContained (p : Provenance) (doc : Address) :
    (p.everContained doc).spans = (p.relation.get doc).getD [] := by
  rw [everContained]
  cases p.relation.get doc <;> rfl

theorem spans_everContained_append (p : Provenance) (doc doc' : Address) (runs : List Run) :
    ((p.append doc runs).everContained doc').spans =
      (p.everContained doc').spans ++ if doc' = doc then runs.map Run.iextent else [] := by
  rw [spans_everContained, spans_everContained, append, OrdMap.get_insert]
  split
  · next h => rw [h, Option.getD_some]
  · rw [List.append_nil]

/-- The documents are listed once each, in tumbler order. -/
theorem docsEverContaining_ascending (p : Provenance) (coverage : SpanSet) :
    (p.docsEverContaining coverage).Pairwise (· < ·) :=
  List.pairwise_map.2 (p.relation.ascending.filter _)

theorem mem_docsEverContaining {p : Provenance} {coverage : SpanSet} {doc : Address} :
    doc ∈ p.docsEverContaining coverage ↔ ∃ placed ∈ (p.everContained doc).spans,
      ∃ cover ∈ coverage.spans, classifySpans placed cover ≠ .separated := by
  rw [spans_everContained]
  simp only [docsEverContaining, List.mem_map, List.mem_filter, List.any_eq_true, bne_iff_ne]
  constructor
  · rintro ⟨⟨d, spans⟩, ⟨hmem, hany⟩, rfl⟩
    rwa [OrdMap.get_eq_some_iff.2 hmem]
  · intro hany
    cases hget : p.relation.get doc with
    | none => simp [hget] at hany
    | some spans =>
      rw [hget] at hany
      exact ⟨(doc, spans), ⟨OrdMap.get_eq_some_iff.1 hget, hany⟩, rfl⟩

end Provenance
