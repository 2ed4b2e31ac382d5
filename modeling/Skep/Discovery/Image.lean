import Skep.Arrangement.Reads
import Skep.Links.Store
import Skep.Namespace.Chain

/-!
# The image of a region

A region of a document is spans of its content positions. Its image is the runs that the
document's reading surface arranges there, span by span and in the order of the positions,
within a budget on the runs and one on the walk that finds them.
-/

/-- The slices of a world that discovery reads. -/
structure DiscoveryWorld where
  m3 : M3State
  m5 : M5State
  links : LinkStore

/-- Why a discovery read is refused. -/
inductive QueryError where
  | docNotRegistered
  | notALink
  | badRegion
  | imageTooLarge
  | endsetsTooLarge
  deriving DecidableEq, Repr

def maxImageRuns : ℕ := 2 ^ 12

def maxJoinSteps : ℕ := maxImageRuns * maxImageRuns

def maxAnswerSpans : ℕ := 2 ^ 16

/-- Each span of a region is one of content positions. -/
def checkRegion (region : List Span) : Outcome QueryError Unit :=
  Outcome.refuseIf (region.any fun span => !(asOrdinalVspan span).any OrdinalVSpan.isContent) .badRegion

/-- How many runs the walk to one span passes at most. A reach past the machine's word passes
every run. -/
def passedRuns (runCount : ℕ) (span : Span) : ℕ :=
  match asOrdinalVspan span with
  | some v => if v.ordinal + v.count < 2 ^ 64 then min (v.ordinal + v.count - 1) runCount else runCount
  | none => runCount

/-- How many runs the walks to the spans of a region pass at most. -/
def runListWalk (region : List Span) (runCount : ℕ) : ℕ := (region.map (passedRuns runCount)).sum

/-- Runs pulled one by one, up to the budget. -/
def pullRuns (runs pulled : List Run) : Outcome QueryError (List Run) :=
  pulled.foldlM (fun runs r => do
    Outcome.refuseIf (runs.length = maxImageRuns) .imageTooLarge
    return runs ++ [r]) runs

/-- The runs a region resolves through a document's reading surface. -/
def imageOn (w : DiscoveryWorld) (d : Address) (region : List Span) : Outcome QueryError (List Run) := do
  Outcome.refuseIf (w.m3.isRegisteredDocument d = false) .docNotRegistered
  checkRegion region
  let surface := readingSurface w.m3 d
  let runCount := w.m5.contentRunCount surface
  Outcome.refuseIf (maxJoinSteps < runListWalk region runCount) .imageTooLarge
  region.foldlM (fun runs span => pullRuns runs (w.m5.iterResolve surface span)) []

/-- The region is one of content positions, its walk and its image within the budgets. -/
structure ImageWithin (w : DiscoveryWorld) (d : Address) (region : List Span) : Prop where
  content : checkRegion region = .ok ()
  walk : runListWalk region (w.m5.contentRunCount (readingSurface w.m3 d)) ≤ maxJoinSteps
  runs : (region.flatMap (w.m5.iterResolve (readingSurface w.m3 d))).length ≤ maxImageRuns

theorem pullRuns_eq_ok {runs pulled : List Run} (h : (runs ++ pulled).length ≤ maxImageRuns) :
    pullRuns runs pulled = .ok (runs ++ pulled) := by
  induction pulled generalizing runs with
  | nil => simp [pullRuns]
  | cons r pulled ih =>
    rw [List.append_cons] at h ⊢
    have hroom : runs.length ≠ maxImageRuns := by
      simp only [List.length_append, List.length_singleton] at h
      omega
    rw [← ih h, pullRuns, pullRuns, List.foldlM_cons, Outcome.refuseIf, if_neg hroom]
    rfl

/-- A region within the budgets is answered: every run it resolves, span by span. -/
theorem imageOn_eq_ok {w : DiscoveryWorld} {d : Address} {region : List Span}
    (hd : w.m3.isRegisteredDocument d = true) (h : ImageWithin w d region) :
    imageOn w d region = .ok (region.flatMap (w.m5.iterResolve (readingSurface w.m3 d))) := by
  have hpull : ∀ (spans : List Span) (runs : List Run),
      (runs ++ spans.flatMap (w.m5.iterResolve (readingSurface w.m3 d))).length ≤ maxImageRuns →
      spans.foldlM (fun runs span => pullRuns runs (w.m5.iterResolve (readingSurface w.m3 d) span)) runs =
        .ok (runs ++ spans.flatMap (w.m5.iterResolve (readingSurface w.m3 d))) := by
    intro spans
    induction spans with
    | nil => exact fun runs _ => by rw [List.flatMap_nil, List.append_nil]; rfl
    | cons span spans ih =>
      intro runs hlen
      rw [List.flatMap_cons, ← List.append_assoc] at hlen ⊢
      have hfirst : (runs ++ w.m5.iterResolve (readingSurface w.m3 d) span).length ≤ maxImageRuns := by
        rw [List.length_append] at hlen
        omega
      rw [List.foldlM_cons, pullRuns_eq_ok hfirst, Outcome.ok_bind]
      exact ih _ hlen
  have hwalk := h.walk
  rw [imageOn, hd, h.content, Outcome.refuseIf, if_neg (by decide), Outcome.ok_bind, Outcome.ok_bind]
  dsimp only
  rw [Outcome.refuseIf, if_neg (not_lt.2 hwalk), Outcome.ok_bind, hpull region [] h.runs, List.nil_append]

/-- The positions of a range of two-component tumblers. -/
theorem contains_position_of_shape {span : Span} {v : OrdinalVSpan} (h : asOrdinalVspan span = some v)
    (p : VPos) : span.contains p.tumbler = true ↔
      p.subspace = v.subspace ∧ v.ordinal ≤ p.ordinal ∧ p.ordinal < v.ordinal + v.count := by
  obtain ⟨⟨start, hstart⟩, ⟨width, hwidth⟩, t12⟩ := span
  obtain ⟨k, hk⟩ := t12
  rw [asOrdinalVspan] at h
  split at h
  · cases h
  · next hlen =>
    simp only [Tumbler.len, ne_eq, not_or, not_not] at hlen
    obtain ⟨hs, hw, hzero⟩ := hlen
    obtain ⟨s, o, rfl⟩ := List.length_eq_two.1 hs
    obtain ⟨z, c, rfl⟩ := List.length_eq_two.1 hw
    obtain rfl : z = 0 := by simpa [Tumbler.get] using hzero
    have hv : ⟨s, o, c⟩ = v := by simpa [Tumbler.get] using h
    subst hv
    have hc : c ≠ 0 := by
      rintro rfl
      have haction := (addDomain_eq_ok_iff.1 hk).1
      simp [actionPoint, List.findIdx?_cons] at haction
    have hreach : (⟨⟨[s, o], hstart⟩, ⟨[0, c], hwidth⟩, ⟨k, hk⟩⟩ : Span).reach.comps = [s] ++ [o + c] := by
      have haction : actionPoint ⟨[0, c], hwidth⟩ = some 2 :=
        actionPoint_of_parts (show [0, c] = List.replicate 1 0 ++ [c] from rfl) hc
      rw [Span.reach_eq_sumAt (addDomain_eq_ok_iff.2 ⟨haction, le_rfl⟩)]
      rfl
    rw [Span.contains, Bool.and_eq_true, decide_eq_true_eq, decide_eq_true_eq,
      Tumbler.between_siblings (show [s, o] = [s] ++ [o] from rfl) hreach]
    simp only [VPos.tumbler, List.cons_append, List.nil_append, List.cons.injEq]
    constructor
    · rintro ⟨x, rest, ⟨hsub, hord, -⟩, hlo, hhi⟩
      exact ⟨hsub, hord ▸ hlo, hord ▸ hhi⟩
    · rintro ⟨hsub, hlo, hhi⟩
      exact ⟨p.ordinal, [], ⟨hsub, rfl, rfl⟩, hlo, hhi⟩

namespace M5State

/-- What a content span resolves to is what is arranged at its positions. -/
theorem mem_denRuns_iterResolve {m5 : M5State} {doc : Address} {span : Span} {v : OrdinalVSpan}
    (h : asOrdinalVspan span = some v) (hv : v.isContent = true) (x : Address) :
    x ∈ denRuns (m5.iterResolve doc span) ↔
      ∃ k, span.contains (vTumbler k) = true ∧ m5.point doc (.content k) = some x := by
  have hsub : v.subspace = contentSubspace := by simpa [OrdinalVSpan.isContent] using hv
  have hlist : (m5.arrangementOf doc).list v.subspace = some (m5.contentList doc) := by
    rw [DocArrangement.list, if_pos hsub]
    rfl
  rw [iterResolve, h]
  simp only [hlist]
  rw [RunList.den_iterResolveRange, RunList.positions, ← RunList.length_den, List.mem_iff_getElem?]
  constructor
  · rintro ⟨i, hi⟩
    rw [List.getElem?_drop] at hi
    have hlt := (List.getElem?_eq_some_iff.1 hi).1
    rw [List.length_take] at hlt
    rw [List.getElem?_take_of_lt (by omega)] at hi
    refine ⟨max v.ordinal 1 + i, (contains_position_of_shape h _).2 ⟨hsub.symm, ?_, ?_⟩, ?_⟩
    · exact (le_max_left _ _).trans (Nat.le_add_right _ _)
    · show max v.ordinal 1 + i < v.ordinal + v.count
      omega
    · rw [point_content, RunList.point_eq, if_neg (by omega), ← hi]
      congr 1
      omega
  · rintro ⟨k, hin, hk⟩
    obtain ⟨-, hlo, hhi⟩ := (contains_position_of_shape h _).1 hin
    rw [point_content, RunList.point_eq] at hk
    by_cases hzero : k = 0
    · rw [if_pos hzero] at hk
      cases hk
    · rw [if_neg hzero] at hk
      have hlt := (List.getElem?_eq_some_iff.1 hk).1
      have hlo' : v.ordinal ≤ k := hlo
      have hhi' : k < v.ordinal + v.count := hhi
      refine ⟨k - max v.ordinal 1, ?_⟩
      rw [List.getElem?_drop, List.getElem?_take_of_lt (by omega), ← hk]
      congr 1
      omega

theorem point_content_bounds {m5 : M5State} {doc x : Address} {k : ℕ}
    (h : m5.point doc (.content k) = some x) : 1 ≤ k ∧ k ≤ m5.contentCount doc := by
  rw [point_content, RunList.point_eq] at h
  by_cases hzero : k = 0
  · rw [if_pos hzero] at h
    cases h
  · rw [if_neg hzero] at h
    have hlt := (List.getElem?_eq_some_iff.1 h).1
    rw [RunList.length_den] at hlt
    rw [contentCount]
    omega

/-- The content of a document is what is arranged at its positions. -/
theorem arranges_iff_point {m5 : M5State} {doc x : Address} :
    m5.Arranges doc x ↔ ∃ k, m5.point doc (.content k) = some x := by
  rw [Arranges, List.mem_iff_getElem?]
  constructor
  · rintro ⟨i, hi⟩
    exact ⟨i + 1, by rw [point_content, RunList.point_succ, hi]⟩
  · rintro ⟨k, hk⟩
    have hpos := (point_content_bounds hk).1
    rw [point_content, RunList.point_eq, if_neg (by omega)] at hk
    exact ⟨k - 1, hk⟩

end M5State

/-- The image of a region holds what is arranged at its positions. -/
theorem mem_denRuns_image {m5 : M5State} {doc : Address} {region : List Span}
    (h : checkRegion region = .ok ()) (x : Address) :
    x ∈ denRuns (region.flatMap (m5.iterResolve doc)) ↔
      ∃ span ∈ region, ∃ k, span.contains (M5State.vTumbler k) = true ∧ m5.point doc (.content k) = some x := by
  rw [checkRegion, Outcome.refuseIf_eq_ok_iff, List.any_eq_true, not_exists] at h
  have hcontent : ∀ span ∈ region, ∃ v, asOrdinalVspan span = some v ∧ v.isContent = true := by
    intro span hspan
    by_contra hnot
    refine h span ⟨hspan, ?_⟩
    rw [Bool.not_eq_true', ← Bool.not_eq_true, Option.any_eq_true]
    exact hnot
  have hflat : denRuns (region.flatMap (m5.iterResolve doc)) =
      region.flatMap fun span => denRuns (m5.iterResolve doc span) := by
    rw [denRuns, List.flatMap_assoc]
    rfl
  rw [hflat, List.mem_flatMap]
  refine exists_congr fun span => and_congr_right fun hspan => ?_
  obtain ⟨v, hshape, hv⟩ := hcontent span hspan
  exact M5State.mem_denRuns_iterResolve hshape hv x

/-- A region of every content position has the whole content for its image. -/
theorem mem_denRuns_image_of_whole {m5 : M5State} {doc : Address} {region : List Span}
    (h : checkRegion region = .ok ())
    (hwhole : ∀ k, 1 ≤ k → k ≤ m5.contentCount doc → ∃ span ∈ region, span.contains (M5State.vTumbler k) = true)
    (x : Address) : x ∈ denRuns (region.flatMap (m5.iterResolve doc)) ↔ m5.Arranges doc x := by
  rw [mem_denRuns_image h, M5State.arranges_iff_point]
  constructor
  · rintro ⟨span, -, k, -, hk⟩
    exact ⟨k, hk⟩
  · rintro ⟨k, hk⟩
    obtain ⟨hpos, hle⟩ := M5State.point_content_bounds hk
    obtain ⟨span, hspan, hin⟩ := hwhole k hpos hle
    exact ⟨span, hspan, k, hin, hk⟩
