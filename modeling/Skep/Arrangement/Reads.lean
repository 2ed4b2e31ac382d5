import Skep.Arrangement.State
import Skep.Arrangement.VSpace
import Skep.Address.SpanSetAlgebra

/-!
# The reads of the arrangement slice

The resolution of ranges, the bounds the edits check, and the three containment
queries: where a document arranges what a coverage names, which documents ever
arranged it, and what a document no longer arranges.
-/

/-- A position of a block whose address a span covers. -/
def Block.Covers (b : Block) (cover : Span) (k : ℕ) : Prop :=
  b.vStart ≤ k ∧ k < b.vReach ∧ cover.contains (b.run.addrAt (k - b.vStart)).tumbler = true

/-- The address at a position is the one its block arranges there. -/
theorem exists_block_iff (runs : List Run) (v k : ℕ) (P : Address → Prop) :
    (∃ b ∈ blocksFrom v runs, b.vStart ≤ k ∧ k < b.vReach ∧ P (b.run.addrAt (k - b.vStart))) ↔
      v ≤ k ∧ ∃ x, (denRuns runs)[k - v]? = some x ∧ P x := by
  induction runs generalizing v with
  | nil => simp [blocksFrom]
  | cons run rest ih =>
    have hreach : Block.vReach ⟨v, run⟩ = v + run.width := rfl
    simp only [blocksFrom, List.mem_cons, or_and_right, exists_or, exists_eq_left, ih, hreach,
      denRuns_cons]
    by_cases hv : v ≤ k
    · by_cases hk : k < v + run.width
      · have hrest : ¬ v + run.width ≤ k := by omega
        rw [List.getElem?_append_left (by rw [Run.length_addrs]; omega),
          Run.getElem?_addrs (by omega)]
        simp [hv, hk, hrest]
      · rw [List.getElem?_append_right (by rw [Run.length_addrs]; omega), Run.length_addrs,
          show k - v - run.width = k - (v + run.width) by omega]
        simp [hv, hk, not_lt.1 hk]
    · have hrest : ¬ v + run.width ≤ k := by omega
      simp [hv, hrest]

namespace M5State

/-- The runs a source's range resolves to. -/
def iterResolve (s : M5State) (doc : Address) (span : Span) : List Run :=
  match asOrdinalVspan span with
  | none => []
  | some v =>
      match (s.arrangementOf doc).list v.subspace with
      | none => []
      | some list => list.iterResolveRange v.ordinal v.count

def point (s : M5State) (doc : Address) (p : VPos) : Option Address :=
  ((s.arrangementOf doc).list p.subspace).bind fun list => list.point p.ordinal

def contentCount (s : M5State) (doc : Address) : ℕ := (s.contentList doc).totalWidth

def contentRunCount (s : M5State) (doc : Address) : ℕ := (s.contentList doc).runs.length

def contentIsEmpty (s : M5State) (doc : Address) : Bool := (s.contentList doc).isEmpty

/-- Whether an insertion before the ordinal is in bounds. -/
def admitsContentBoundary (s : M5State) (doc : Address) (ord : ℕ) : Bool :=
  decide (1 ≤ ord) && decide (ord ≤ s.contentCount doc + 1)

def arrangesContentPosition (s : M5State) (doc : Address) (ord : ℕ) : Bool :=
  ((s.contentList doc).locate ord).isSome

def namesFreshContentPosition (s : M5State) (doc : Address) (pos : VPos) : Bool :=
  pos.isContent && decide (s.contentCount doc < pos.ordinal)

def containsContentRange (s : M5State) (doc : Address) (start width : ℕ) : Bool :=
  decide (start + width ≤ s.contentCount doc + 1)

/-- The runs past the first `extent` positions. -/
def contentRunsPast (s : M5State) (doc : Address) (extent : ℕ) : List Run :=
  (s.contentList doc).iterResolveFrom (extent + 1)

def seatsLink (s : M5State) (doc link : Address) : Bool := (s.linkList doc).holds link

/-- The positions of a block one span of a coverage covers. -/
def projectBlock (b : Block) (cover : Span) : Outcome Empty (List Span) := do
  match ← b.run.offsetsCoveredBy cover with
  | none => return []
  | some covered =>
      let pos := VPos.content (b.vStart + covered.lo)
      let vspan ← Outcome.expectSome (← ordinalVspan pos (covered.hi - covered.lo))
      return [vspan]

/-- The positions of a document's content a coverage names. -/
def project (s : M5State) (doc : Address) (coverage : SpanSet) : Outcome Empty SpanSet := do
  let vspans ← (s.contentList doc).iterBlocks.mapM fun b => coverage.spans.mapM (projectBlock b)
  (SpanSet.normalize ⟨vspans.flatten.flatten⟩).expect

/-- Whether a coverage names any content of the document. -/
def arrangesAny (s : M5State) (doc : Address) (coverage : SpanSet) : Outcome Empty Bool :=
  (s.contentList doc).runs.anyM fun run => coverage.spans.anyM fun cover => do
    return (← run.offsetsCoveredBy cover).isSome

def contentImage (s : M5State) (doc : Address) : SpanSet := (s.contentList doc).image

/-- What a document has arranged and does not arrange now, class by class. -/
def deletions (s : M5State) (doc : Address) : Outcome Empty SpanSet :=
  let image := (s.contentImage doc).byLevelClass
  (s.provenance.everContained doc).byLevelClass.entries.foldlM (fun out (len, ever) => do
    let now := (image.get len).getD SpanSet.empty
    let deleted ← (differenceSets ever now).expect
    return union out deleted) SpanSet.empty

def docsEverContaining (s : M5State) (coverage : SpanSet) : List Address :=
  s.provenance.docsEverContaining coverage

/-- The document's content holds the address. -/
def Arranges (s : M5State) (doc x : Address) : Prop := x ∈ (s.contentList doc).den

theorem point_content (s : M5State) (doc : Address) (k : ℕ) :
    s.point doc (.content k) = (s.contentList doc).point k := rfl

/-- The V-position of a content ordinal. -/
def vTumbler (k : ℕ) : Tumbler := (VPos.content k).tumbler

theorem vTumbler_le_iff {j k : ℕ} : vTumbler j ≤ vTumbler k ↔ j ≤ k :=
  Tumbler.snoc_le_snoc (p := [contentSubspace])

theorem vTumbler_lt_iff {j k : ℕ} : vTumbler j < vTumbler k ↔ j < k :=
  Tumbler.snoc_lt_snoc (p := [contentSubspace])

/-- Level-uniform spans of positions, naming the ordinals where `C` holds. -/
structure NamesOrdinals (vspans : List Span) (C : ℕ → Prop) : Prop where
  uniform : ∀ v ∈ vspans, v.isLevelUniform = true ∧ v.start.len = 2
  inhabited : ∀ v ∈ vspans, ∃ k, v.contains (vTumbler k) = true
  names : ∀ k, (∃ v ∈ vspans, v.contains (vTumbler k) = true) ↔ C k

theorem NamesOrdinals.flatten {α : Type} {l : List α} {vss : List (List Span)} {C : α → ℕ → Prop}
    (h : List.Forall₂ (fun a vs => NamesOrdinals vs (C a)) l vss) :
    NamesOrdinals vss.flatten fun k => ∃ a ∈ l, C a k := by
  induction h with
  | nil => exact ⟨by simp, by simp, by simp⟩
  | @cons a vs l vss hvs hvss ih =>
    refine ⟨fun v hv => ?_, fun v hv => ?_, fun k => ?_⟩
    · rcases List.mem_append.1 hv with hv | hv
      · exact hvs.uniform v hv
      · exact ih.uniform v hv
    · rcases List.mem_append.1 hv with hv | hv
      · exact hvs.inhabited v hv
      · exact ih.inhabited v hv
    · simp only [List.flatten_cons, List.mem_append, or_and_right, exists_or, List.mem_cons,
        exists_eq_left, hvs.names, ih.names]

theorem projectBlock_spec (b : Block) (cover : Span) :
    ∃ vspans, projectBlock b cover = .ok vspans ∧ NamesOrdinals vspans (b.Covers cover) := by
  obtain ⟨o, ho, hbound, hcov⟩ := b.run.offsetsCoveredBy_spec cover
  have hreach : b.vReach = b.vStart + b.run.width := rfl
  cases o with
  | none =>
    refine ⟨[], by simp [projectBlock, ho], by simp, by simp, fun k => ?_⟩
    simp only [List.not_mem_nil, false_and, exists_false, false_iff]
    rintro ⟨hlo, hhi, hin⟩
    obtain ⟨o', ho', -⟩ := (hcov (k - b.vStart) (by omega)).1 hin
    cases ho'
  | some covered =>
    obtain ⟨hlt, hle⟩ := hbound covered rfl
    obtain ⟨v, hv, hstart, hend, huni⟩ := ordinalVspan_spec (ε := Empty)
      (VPos.content (b.vStart + covered.lo)) (Nat.sub_pos_of_lt hlt)
    have hin : ∀ k, v.contains (vTumbler k) = true ↔
        b.vStart + covered.lo ≤ k ∧ k < b.vStart + covered.hi := fun k => by
      have hend' : v.reach = vTumbler (b.vStart + covered.hi) := by
        rw [hend, vTumbler]
        congr 1
        show VPos.mk contentSubspace (b.vStart + covered.lo + (covered.hi - covered.lo)) = _
        rw [Nat.add_assoc, Nat.add_sub_cancel' hlt.le]
        rfl
      rw [Span.contains, hend', hstart, Bool.and_eq_true, decide_eq_true_eq, decide_eq_true_eq,
        ← vTumbler, vTumbler_le_iff, vTumbler_lt_iff]
    refine ⟨[v], by simp [projectBlock, ho, hv, Outcome.expectSome], ?_, ?_, fun k => ?_⟩
    · simp only [List.mem_singleton, forall_eq]
      exact ⟨huni, by rw [hstart]; rfl⟩
    · simp only [List.mem_singleton, forall_eq]
      exact ⟨b.vStart + covered.lo, (hin _).2 ⟨le_rfl, by omega⟩⟩
    · simp only [List.mem_singleton, exists_eq_left, hin]
      constructor
      · rintro ⟨h1, h2⟩
        exact ⟨by omega, by omega, (hcov (k - b.vStart) (by omega)).2
          ⟨covered, rfl, by omega, by omega⟩⟩
      · rintro ⟨h1, h2, h3⟩
        obtain ⟨o', ho', h4, h5⟩ := (hcov (k - b.vStart) (by omega)).1 h3
        cases ho'
        omega

theorem denotes_eq_true_iff {a : SpanSet} {t : Tumbler} :
    a.denotes t = true ↔ ∃ s ∈ a.spans, s.contains t = true := List.any_eq_true

/-- The projection is answered without a fault, and holds the positions whose
address the coverage denotes. -/
theorem project_spec (s : M5State) (doc : Address) (coverage : SpanSet) :
    ∃ set, s.project doc coverage = .ok set ∧
      (∀ k, set.denotes (vTumbler k) = true ↔
        ∃ x, s.point doc (.content k) = some x ∧ coverage.denotes x.tumbler = true) ∧
      (set.spans ≠ [] ↔ ∃ x, s.Arranges doc x ∧ coverage.denotes x.tumbler = true) := by
  obtain ⟨vss, hvss, hall⟩ := Outcome.exists_mapM (ε := Empty)
    (f := fun b => coverage.spans.mapM (projectBlock b)) (l := (s.contentList doc).iterBlocks)
    (R := fun b vs => NamesOrdinals vs.flatten fun k => ∃ cover ∈ coverage.spans, b.Covers cover k)
    fun b _ => by
      obtain ⟨vs, hvs, hrow⟩ := Outcome.exists_mapM (ε := Empty) (f := projectBlock b)
        (l := coverage.spans) (R := fun cover vs => NamesOrdinals vs (b.Covers cover))
        fun cover _ => projectBlock_spec b cover
      exact ⟨vs, hvs, NamesOrdinals.flatten hrow⟩
  have hnames := NamesOrdinals.flatten (List.forall₂_map_right_iff.2 hall)
  have hflat : (vss.map List.flatten).flatten = vss.flatten.flatten := by
    rw [List.flatten_flatten]
  rw [hflat] at hnames
  have hat : SpanSet.AtLength 2 ⟨vss.flatten.flatten⟩ := hnames.uniform
  obtain ⟨n, hn, -, -⟩ := SpanSet.normalize_spec hat
  have hcovered : ∀ k, (∃ b ∈ (s.contentList doc).iterBlocks, ∃ cover ∈ coverage.spans,
      b.Covers cover k) ↔
      ∃ x, s.point doc (.content k) = some x ∧ coverage.denotes x.tumbler = true := fun k => by
    have hblock := exists_block_iff (s.contentList doc).runs 1 k
      fun x => coverage.denotes x.tumbler = true
    rw [point_content, RunList.point_eq]
    by_cases hk : k = 0
    · simp only [hk, if_true, reduceCtorEq, false_and, exists_false, iff_false]
      rintro ⟨b, hb, cover, hcover, h1, h2, h3⟩
      have := (hblock.1 ⟨b, hb, by omega, by omega, denotes_eq_true_iff.2 ⟨cover, hcover, by
        simpa [hk] using h3⟩⟩).1
      omega
    · rw [if_neg hk]
      have hone : 1 ≤ k := Nat.one_le_iff_ne_zero.2 hk
      rw [show (∃ x, (s.contentList doc).den[k - 1]? = some x ∧ coverage.denotes x.tumbler = true) ↔
        _ from ⟨fun h => hblock.2 ⟨hone, h⟩, fun h => (hblock.1 h).2⟩]
      simp only [denotes_eq_true_iff, Block.Covers]
      constructor
      · rintro ⟨b, hb, cover, hcover, h1, h2, h3⟩
        exact ⟨b, hb, h1, h2, cover, hcover, h3⟩
      · rintro ⟨b, hb, h1, h2, cover, hcover, h3⟩
        exact ⟨b, hb, cover, hcover, h1, h2, h3⟩
  have hden : ∀ k, n.denotes (vTumbler k) = true ↔
      ∃ x, s.point doc (.content k) = some x ∧ coverage.denotes x.tumbler = true := fun k => by
    rw [SpanSet.denotes_normalize hat hn, denotes_eq_true_iff, hnames.names, hcovered]
  refine ⟨n, ?_, hden, ?_⟩
  · rw [project, hvss, Outcome.ok_bind, hn]
    rfl
  · have harr : ∀ x, s.Arranges doc x ↔ ∃ k, s.point doc (.content k) = some x := fun x => by
      simp only [point_content]
      constructor
      · intro hx
        obtain ⟨k, hk⟩ := List.mem_iff_getElem?.1 hx
        exact ⟨k + 1, by rw [RunList.point_succ, hk]⟩
      · rintro ⟨k, hk⟩
        rw [RunList.point_eq] at hk
        split at hk
        · cases hk
        · exact List.mem_of_getElem? hk
    constructor
    · intro hne
      have hvne : vss.flatten.flatten ≠ [] := by
        intro hnil
        rw [hnil] at hn
        cases hn
        exact hne rfl
      obtain ⟨v, hv⟩ := List.exists_mem_of_ne_nil _ hvne
      obtain ⟨k, hk⟩ := hnames.inhabited v hv
      obtain ⟨x, hx, hcov⟩ := (hcovered k).1 ((hnames.names k).1 ⟨v, hv, hk⟩)
      exact ⟨x, (harr x).2 ⟨k, hx⟩, hcov⟩
    · rintro ⟨x, hx, hcov⟩ hnil
      obtain ⟨k, hk⟩ := (harr x).1 hx
      have := (hden k).2 ⟨x, hk, hcov⟩
      simp [SpanSet.denotes, hnil] at this

/-- A coverage meets a document's content exactly where it denotes an address of it. -/
theorem arrangesAny_spec (s : M5State) (doc : Address) (coverage : SpanSet) :
    ∃ b, s.arrangesAny doc coverage = .ok b ∧
      (b = true ↔ ∃ x, s.Arranges doc x ∧ coverage.denotes x.tumbler = true) := by
  obtain ⟨b, hb, hiff⟩ := Outcome.exists_anyM (ε := Empty)
    (f := fun run : Run => coverage.spans.anyM fun cover => do
      return (← run.offsetsCoveredBy cover).isSome)
    (P := fun run => ∃ cover ∈ coverage.spans, ∃ k < run.width,
      cover.contains (run.tumblerAt k) = true) (l := (s.contentList doc).runs)
    fun run _ => Outcome.exists_anyM fun cover _ => by
      obtain ⟨o, ho, hbound, hcov⟩ := run.offsetsCoveredBy_spec cover
      refine ⟨o.isSome, by simp [ho], ?_⟩
      constructor
      · intro hsome
        obtain ⟨covered, rfl⟩ := Option.isSome_iff_exists.1 hsome
        obtain ⟨hlt, hle⟩ := hbound covered rfl
        exact ⟨covered.lo, by omega, (hcov covered.lo (by omega)).2 ⟨covered, rfl, le_rfl, hlt⟩⟩
      · rintro ⟨k, hk, hin⟩
        obtain ⟨o', ho', -⟩ := (hcov k hk).1 hin
        rw [Option.mem_def] at ho'
        simp [ho']
  refine ⟨b, hb, hiff.trans ?_⟩
  simp only [Arranges, RunList.den, denRuns, List.mem_flatMap, Run.mem_addrs_iff,
    denotes_eq_true_iff]
  constructor
  · rintro ⟨run, hrun, cover, hcover, k, hk, hin⟩
    exact ⟨run.addrAt k, ⟨run, hrun, k, hk, rfl⟩, cover, hcover, hin⟩
  · rintro ⟨_, ⟨run, hrun, k, hk, rfl⟩, cover, hcover, hin⟩
    exact ⟨run, hrun, cover, hcover, k, hk, hin⟩

end M5State
