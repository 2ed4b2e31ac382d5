import Skep.Arrangement.Reads

/-!
# History and containment

What a document ever arranged is exactly what its provenance denotes, after any
sequence of records: a placing record adds the extents of the runs it leaves
arranged, and no other record arranges anything new. The candidates a coverage
is answered with and the difference against the current image rest on it.

## Main results

- `M5State.everContained_exact` — provenance denotes what was ever arranged
- `containment_exact` — the containment queries are exact
- `M5State.deletions_spec` — the deletions are history minus the image
-/

/-- Every part of a reordered list was there before. -/
theorem mem_reorderRegions {cuts : List ℕ} {pre : List Run} {x : Address}
    (h : x ∈ denRuns ((RunList.reorderRegions pre cuts).1 ++ (RunList.reorderRegions pre cuts).2)) :
    x ∈ denRuns pre := by
  induction cuts generalizing pre with
  | nil => simpa [RunList.reorderRegions] using h
  | cons cut cuts ih =>
    obtain ⟨hleft, hright⟩ := denRuns_splitRuns pre cut
    simp only [RunList.reorderRegions, denRuns_append, List.mem_append] at h ih
    rcases h with h | h | h
    · have := ih (.inl h)
      rw [hleft] at this
      exact List.mem_of_mem_take this
    · rw [hright] at h
      exact List.mem_of_mem_drop h
    · have := ih (.inr h)
      rw [hleft] at this
      exact List.mem_of_mem_take this

namespace RunList

theorem mem_den_reorder {l : RunList} {cuts : List ℕ} {x : Address} (h : x ∈ (l.reorder cuts).den) :
    x ∈ l.den := by
  rw [reorder] at h
  split at h
  · exact h
  · next last remaining _ =>
    obtain ⟨hleft, hright⟩ := denRuns_splitRuns l.runs last
    simp only [splitAt, den_ofRuns] at h
    rw [denRuns_append, List.mem_append] at h
    rcases h with h | h
    · have := mem_reorderRegions h
      rw [hleft] at this
      exact List.mem_of_mem_take this
    · rw [hright] at h
      exact List.mem_of_mem_drop h

theorem mem_den_removeRange {l : RunList} {start width : ℕ} {x : Address}
    (h : x ∈ (l.removeRange start width).den) : x ∈ l.den := by
  rw [den_removeRange, List.mem_append] at h
  exact h.elim List.mem_of_mem_take List.mem_of_mem_drop

theorem mem_den_spliceIn {l : RunList} {ord : ℕ} {runs : List Run} {x : Address} :
    x ∈ (l.spliceIn ord runs).den ↔ x ∈ l.den ∨ x ∈ denRuns runs := by
  rw [den_spliceIn, List.mem_append, List.mem_append, or_assoc, or_comm (a := x ∈ denRuns runs),
    ← or_assoc, ← List.mem_append, List.take_append_drop]

end RunList

theorem Run.admitsStart_of_mem {r : Run} {x : Address} (h : x ∈ r.addrs) : Run.admitsStart x = true := by
  obtain ⟨k, -, rfl⟩ := mem_addrs_iff.1 h
  exact admitsStart_advance r.full k

namespace M5State

/-- A record arranges in the document it moves what it places there, and nothing
else that was not there. -/
theorem arranges_applyM5 (s : M5State) (seq : ℕ) (r : M5Rec) (doc x : Address) :
    ((s.applyM5 seq r).Arranges doc x →
      s.Arranges doc x ∨ r.moves = some doc ∧ x ∈ denRuns (s.placed r)) ∧
    (r.moves = some doc → x ∈ denRuns (s.placed r) → (s.applyM5 seq r).Arranges doc x) := by
  rw [Arranges, contentList_applyM5]
  by_cases hmoves : r.moves = some doc
  · rw [if_pos hmoves]
    cases r with
    | contentPlace d ordinal runs =>
      cases hmoves
      rw [contentAfter, RunList.mem_den_spliceIn]
      exact ⟨fun h => h.imp_right fun h => ⟨rfl, h⟩, fun _ h => .inr h⟩
    | contentRemove d start width =>
      cases hmoves
      exact ⟨fun h => .inl (RunList.mem_den_removeRange h), fun _ h => by simp [placed] at h⟩
    | contentReorder d cutOrdinals =>
      cases hmoves
      exact ⟨fun h => .inl (RunList.mem_den_reorder h), fun _ h => by simp [placed] at h⟩
    | shotPlace d runs terms draft =>
      cases hmoves
      simp only [contentAfter, placed]
      split
      · next hempty =>
        rw [List.isEmpty_iff.1 hempty]
        exact ⟨.inl, fun _ h => by simp at h⟩
      · rw [RunList.mem_den_spliceIn]
        exact ⟨fun h => h.imp_right fun h => ⟨rfl, h⟩, fun _ h => .inr h⟩
    | versionSnapshot source new =>
      cases hmoves
      simp only [contentAfter, placed]
      split
      · next hempty =>
        rw [List.isEmpty_iff.1 hempty]
        exact ⟨.inl, fun _ h => by simp at h⟩
      · exact ⟨fun h => .inr ⟨rfl, h⟩, fun _ h => h⟩
    | linkSeat d link => cases hmoves
    | draftBase draft base extent source merge => cases hmoves
  · rw [if_neg hmoves]
    exact ⟨.inl, fun h => absurd h hmoves⟩

/-- Some prefix of the records left the document arranging the address. -/
def EverArranged (recs : List (ℕ × M5Rec)) (doc x : Address) : Prop :=
  ∃ pre, pre <+: recs ∧ (genesis.applyAll pre).Arranges doc x

theorem applyAll_append (s : M5State) (recs recs' : List (ℕ × M5Rec)) :
    s.applyAll (recs ++ recs') = (s.applyAll recs).applyAll recs' := List.foldl_append

theorem applyAll_concat (s : M5State) (recs : List (ℕ × M5Rec)) (r : ℕ × M5Rec) :
    s.applyAll (recs ++ [r]) = (s.applyAll recs).applyM5 r.1 r.2 := by
  simp [applyAll]

theorem everArranged_concat {recs : List (ℕ × M5Rec)} {r : ℕ × M5Rec} {doc x : Address} :
    EverArranged (recs ++ [r]) doc x ↔
      EverArranged recs doc x ∨ ((genesis.applyAll recs).applyM5 r.1 r.2).Arranges doc x := by
  constructor
  · rintro ⟨pre, hpre, harr⟩
    rcases List.prefix_concat_iff.1 hpre with rfl | hpre
    · exact .inr (by rwa [applyAll_concat] at harr)
    · exact .inl ⟨pre, hpre, harr⟩
  · rintro (⟨pre, hpre, harr⟩ | harr)
    · exact ⟨pre, hpre.trans (List.prefix_append _ _), harr⟩
    · exact ⟨recs ++ [r], List.prefix_rfl, by rwa [applyAll_concat]⟩

/-- Every span of a document's provenance is the extent of a run. -/
theorem everContained_extents (recs : List (ℕ × M5Rec)) (doc : Address) :
    ∃ runs : List Run, ((genesis.applyAll recs).provenance.everContained doc).spans =
      runs.map Run.iextent ∧ ∀ x, x ∈ denRuns runs ↔ EverArranged recs doc x := by
  induction recs using List.reverseRecOn with
  | nil =>
    refine ⟨[], rfl, fun x => ?_⟩
    simp only [denRuns_nil, List.not_mem_nil, false_iff]
    rintro ⟨pre, hpre, harr⟩
    rw [List.prefix_nil.1 hpre] at harr
    cases harr
  | append_singleton recs r ih =>
    obtain ⟨runs, hspans, hruns⟩ := ih
    have hstep := arranges_applyM5 (genesis.applyAll recs) r.1 r.2 doc
    have hself : ∀ x, (genesis.applyAll recs).Arranges doc x → EverArranged recs doc x :=
      fun x hx => ⟨recs, List.prefix_rfl, hx⟩
    rw [applyAll_concat, everContained_applyM5, hspans]
    by_cases hmoves : r.2.moves = some doc
    · refine ⟨runs ++ (genesis.applyAll recs).placed r.2, by simp [hmoves], fun x => ?_⟩
      rw [denRuns_append, List.mem_append, hruns, everArranged_concat]
      constructor
      · exact fun h => h.imp_right ((hstep x).2 hmoves)
      · rintro (h | h)
        · exact .inl h
        · exact ((hstep x).1 h).imp (hself x) And.right
    · refine ⟨runs, by simp [hmoves], fun x => ?_⟩
      rw [hruns, everArranged_concat]
      refine ⟨.inl, fun h => h.elim id fun h => ?_⟩
      exact ((hstep x).1 h).elim (hself x) fun h => absurd h.1 hmoves

theorem any_iextent_iff {runs : List Run} {x : Address} (hx : Run.admitsStart x = true) :
    (∃ v ∈ runs.map Run.iextent, v.contains x.tumbler = true) ↔ x ∈ denRuns runs := by
  simp only [List.mem_map, exists_exists_and_eq_and, Run.mem_iextent_iff hx, denRuns,
    List.mem_flatMap]

/-- Provenance denotes exactly what the document ever arranged. -/
theorem everContained_exact (recs : List (ℕ × M5Rec)) (doc : Address) {x : Address}
    (hx : Run.admitsStart x = true) :
    ((genesis.applyAll recs).provenance.everContained doc).denotes x.tumbler = true ↔
      EverArranged recs doc x := by
  obtain ⟨runs, hspans, hruns⟩ := everContained_extents recs doc
  rw [denotes_eq_true_iff, hspans, any_iextent_iff hx, hruns]

/-- The current image denotes exactly what the document arranges. -/
theorem contentImage_exact (s : M5State) (doc : Address) {x : Address} (hx : Run.admitsStart x = true) :
    (s.contentImage doc).denotes x.tumbler = true ↔ s.Arranges doc x := by
  rw [denotes_eq_true_iff, contentImage, RunList.image, any_iextent_iff hx]
  rfl

/-- A document that ever arranged what the coverage denotes is a candidate. -/
theorem mem_docsEverContaining_of_arranged {recs : List (ℕ × M5Rec)} {doc x : Address}
    {coverage : SpanSet} (h : EverArranged recs doc x) (hcov : coverage.denotes x.tumbler = true) :
    doc ∈ (genesis.applyAll recs).docsEverContaining coverage := by
  obtain ⟨runs, hspans, hruns⟩ := everContained_extents recs doc
  obtain ⟨run, hrun, hx⟩ := List.mem_flatMap.1 ((hruns x).2 h)
  obtain ⟨cover, hcover, hin⟩ := denotes_eq_true_iff.1 hcov
  refine Provenance.mem_docsEverContaining.2
    ⟨run.iextent, by rw [hspans]; exact List.mem_map_of_mem hrun, cover, hcover, fun hsep => ?_⟩
  have hplaced := (Run.mem_iextent_iff (Run.admitsStart_of_mem hx)).2 hx
  exact HalfOpen.Separated.not_mem (classifySpans_eq_separated_iff.1 hsep)
    (Span.contains_iff.1 hplaced) (Span.contains_iff.1 hin)

theorem atLength_class (runs : List Run) (len : ℕ) :
    SpanSet.AtLength len ⟨(runs.map Run.iextent).filter fun v => v.start.len == len⟩ := by
  intro v hv
  obtain ⟨hmem, hlen⟩ := List.mem_filter.1 hv
  obtain ⟨run, -, rfl⟩ := List.mem_map.1 hmem
  exact ⟨(Span.atLength_iff.1 run.iextent_atLength).1, beq_iff_eq.1 hlen⟩

theorem atLength_getD_class {set : SpanSet} {runs : List Run} (h : set.spans = runs.map Run.iextent)
    (len : ℕ) : ((set.byLevelClass.get len).getD SpanSet.empty).AtLength len := by
  rw [SpanSet.get_byLevelClass, h]
  split
  · rintro v hv
    cases hv
  · exact atLength_class runs len

/-- The class of an address's length holds it where the set does. -/
theorem denotes_class {set : SpanSet} {runs : List Run} (h : set.spans = runs.map Run.iextent)
    {x : Address} (hx : Run.admitsStart x = true) (len : ℕ) :
    ((set.byLevelClass.get len).getD SpanSet.empty).denotes x.tumbler = true ↔
      x.tumbler.len = len ∧ set.denotes x.tumbler = true := by
  have hspans : ((set.byLevelClass.get len).getD SpanSet.empty).spans =
      set.spans.filter fun v => v.start.len == len := by
    rw [SpanSet.get_byLevelClass]
    split
    · next hnil => rw [hnil]; rfl
    · rfl
  have hlen : ∀ v ∈ set.spans, v.contains x.tumbler = true → v.start.len = x.tumbler.len := by
    intro v hv hin
    rw [h] at hv
    obtain ⟨run, -, rfl⟩ := List.mem_map.1 hv
    obtain ⟨k, -, rfl⟩ := Run.mem_addrs_iff.1 ((Run.mem_iextent_iff hx).1 hin)
    rw [run.iextent_endpoints.1]
    exact (run.iStart.tumbler.len_shift k).symm
  simp only [denotes_eq_true_iff, hspans, List.mem_filter, beq_iff_eq]
  constructor
  · rintro ⟨v, ⟨hv, rfl⟩, hin⟩
    exact ⟨(hlen v hv hin).symm, v, hv, hin⟩
  · rintro ⟨rfl, v, hv, hin⟩
    exact ⟨v, ⟨hv, hlen v hv hin⟩, hin⟩

/-- A sweep of classes whose differences all succeed joins them. -/
theorem foldlM_differences (now : ℕ → SpanSet) (classes : List (ℕ × SpanSet)) (out : SpanSet)
    (h : ∀ e ∈ classes, e.2.AtLength e.1 ∧ (now e.1).AtLength e.1) :
    ∃ out', classes.foldlM (fun out (len, ever) => do
        let deleted ← (differenceSets ever (now len)).expect
        return union out deleted) out = (.ok out' : Outcome Empty SpanSet) ∧
      ∀ t, out'.denotes t = true ↔ out.denotes t = true ∨
        ∃ e ∈ classes, e.2.denotes t = true ∧ (now e.1).denotes t = false := by
  induction classes generalizing out with
  | nil => exact ⟨out, rfl, by simp⟩
  | cons e classes ih =>
    obtain ⟨len, ever⟩ := e
    obtain ⟨hever, hnow⟩ := h (len, ever) List.mem_cons_self
    obtain ⟨d, hd, hden, -⟩ := SpanSet.differenceSets_spec hever hnow
    obtain ⟨out', hout, hden'⟩ := ih (union out d) fun e' he' => h e' (List.mem_cons_of_mem _ he')
    refine ⟨out', ?_, fun t => ?_⟩
    · simp only at hd
      simp only [List.foldlM_cons, hd, Outcome.expect_ok, Outcome.ok_bind, Outcome.pure_eq]
      exact hout
    · have hunion : (union out d).denotes t = (out.denotes t || d.denotes t) := List.any_append
      rw [hden', hunion, hden]
      simp only [Bool.or_eq_true, Bool.and_eq_true, Bool.not_eq_true', List.mem_cons,
        exists_eq_or_imp, or_assoc]

/-- The deletions are answered without a fault, and denote what the history does
and the image does not. -/
theorem deletions_spec (recs : List (ℕ × M5Rec)) (doc : Address) :
    ∃ out, (genesis.applyAll recs).deletions doc = .ok out ∧
      ∀ x, Run.admitsStart x = true → (out.denotes x.tumbler = true ↔
        EverArranged recs doc x ∧ ¬ (genesis.applyAll recs).Arranges doc x) := by
  obtain ⟨runs, hspans, -⟩ := everContained_extents recs doc
  have hever := fun len => atLength_getD_class hspans len
  have hnow : ∀ len, (((((genesis.applyAll recs).contentImage doc).byLevelClass).get len).getD
      SpanSet.empty).AtLength len := atLength_getD_class rfl
  obtain ⟨out, hout, hden⟩ := foldlM_differences
    (fun len => (((genesis.applyAll recs).contentImage doc).byLevelClass.get len).getD SpanSet.empty)
    ((genesis.applyAll recs).provenance.everContained doc).byLevelClass.entries
    SpanSet.empty fun e he => by
      have hget := OrdMap.get_eq_some_iff.2 he
      have := hever e.1
      rw [hget] at this
      exact ⟨this, hnow e.1⟩
  refine ⟨out, hout, fun x hx => ?_⟩
  have hclass := denotes_class hspans hx
  have himage := denotes_class
    (show ((genesis.applyAll recs).contentImage doc).spans = _ from rfl) hx
  rw [hden, ← everContained_exact recs doc hx, ← contentImage_exact _ doc hx]
  constructor
  · rintro (h | ⟨e, he, h1, h2⟩)
    · cases h
    · have hget := OrdMap.get_eq_some_iff.2 he
      have h1' := (hclass e.1).1 (by rw [hget]; exact h1)
      refine ⟨h1'.2, fun h3 => ?_⟩
      rw [(himage e.1).2 ⟨h1'.1, h3⟩] at h2
      cases h2
  · rintro ⟨h1, h2⟩
    have h1' := (hclass _).2 ⟨rfl, h1⟩
    cases hget : ((genesis.applyAll recs).provenance.everContained doc).byLevelClass.get
        x.tumbler.len with
    | none =>
      rw [hget] at h1'
      cases h1'
    | some ever =>
      rw [hget] at h1'
      refine .inr ⟨(x.tumbler.len, ever), OrdMap.get_eq_some_iff.1 hget, h1', ?_⟩
      rw [← Bool.not_eq_true, himage]
      exact fun h => h2 h.2

end M5State

/-- **The containment queries are exact.** After any records and for any
coverage, the projection is answered and names the positions whose address the
coverage denotes; a document is met exactly where its projection is nonempty;
and the candidates that are met are the documents that arrange something the
coverage denotes, once each in tumbler order. -/
theorem containment_exact (recs : List (ℕ × M5Rec)) (coverage : SpanSet) :
    let s := M5State.genesis.applyAll recs
    (∀ doc, ∃ set any, s.project doc coverage = .ok set ∧ s.arrangesAny doc coverage = .ok any ∧
      (∀ k, set.denotes (VPos.content k).tumbler = true ↔ 1 ≤ k ∧ k ≤ s.contentCount doc ∧
        ∃ x, s.point doc (.content k) = some x ∧ coverage.denotes x.tumbler = true) ∧
      (any = true ↔ set.spans ≠ [])) ∧
    (∀ doc, (doc ∈ s.docsEverContaining coverage ∧ s.arrangesAny doc coverage = .ok true) ↔
      ∃ x, s.Arranges doc x ∧ coverage.denotes x.tumbler = true) ∧
    (s.docsEverContaining coverage).Pairwise (· < ·) := by
  intro s
  refine ⟨fun doc => ?_, fun doc => ?_, Provenance.docsEverContaining_ascending _ _⟩
  · obtain ⟨set, hset, hpoint, hne⟩ := s.project_spec doc coverage
    obtain ⟨any, hany, hiff⟩ := s.arrangesAny_spec doc coverage
    refine ⟨set, any, hset, hany, fun k => (hpoint k).trans ?_, hiff.trans hne.symm⟩
    constructor
    · rintro ⟨x, hx, hcov⟩
      have hbounds := hx
      rw [M5State.point_content, RunList.point_eq] at hbounds
      split at hbounds
      · cases hbounds
      · next hk =>
        obtain ⟨hlt, -⟩ := List.getElem?_eq_some_iff.1 hbounds
        rw [RunList.length_den] at hlt
        exact ⟨Nat.one_le_iff_ne_zero.2 hk, by rw [M5State.contentCount]; omega, x, hx, hcov⟩
    · exact fun h => h.2.2
  · obtain ⟨any, hany, hiff⟩ := s.arrangesAny_spec doc coverage
    rw [hany, Outcome.ok.injEq, hiff]
    refine ⟨And.right, fun h => ⟨?_, h⟩⟩
    obtain ⟨x, hx, hcov⟩ := h
    exact M5State.mem_docsEverContaining_of_arranged ⟨recs, List.prefix_rfl, hx⟩ hcov
