import Skep.Address.SpanSetAlgebra

/-!
# Pairs of spans

The pairwise operations on spans of one length class are the operations on the
tumblers they denote, and refuse outside it. The classification reads the
endpoints alone and so takes spans of any lengths.

## Main results

- `spanPairs_exact` — what each operation and the classification decide, for all spans
-/

/-- Whether a gap stands between two pairs of endpoints. -/
def separated (a b : HalfOpen Tumbler) : Bool := decide (min a.hi b.hi < max a.lo b.lo)

/-- The join of two spans of one length class that leave no gap. -/
def merge (a b : Span) : Outcome LevelMismatch (Option Span) := do
  let (ea, eb) ← gatedEndpoints a b
  if separated ea eb then return none
  else do
    let s ← (Span.fromEndpoints (min ea.lo eb.lo) (max ea.hi eb.hi)).expect
    return some s

/-- Why a span is not split. -/
inductive SplitError where
  | notInterior
  | levelMismatch
  deriving DecidableEq, Repr

/-- The parts of a span on the two sides of a point inside it. -/
def split (s : Span) (p : Tumbler) : Outcome SplitError (Span × Span) := do
  Outcome.refuseIf (s.isLevelUniform = false ∨ s.start.len ≠ p.len) .levelMismatch
  Outcome.refuseIf (¬ (s.start < p ∧ p < s.reach)) .notInterior
  let left ← (Span.fromEndpoints s.start p).expect
  let right ← (Span.fromEndpoints p s.reach).expect
  return (left, right)

/-- The span between two endpoints, where there is one. -/
def sideOf (lo hi : Tumbler) : Outcome LevelMismatch (List Span) :=
  if lo < hi then do
    let s ← (Span.fromEndpoints lo hi).expect
    return [s]
  else return []

/-- What the first span denotes and the second does not. -/
def difference (a b : Span) : Outcome LevelMismatch SpanSet := do
  let (ea, eb) ← gatedEndpoints a b
  match relate ea eb with
  | .separated | .adjacent => return .singleton a
  | .equal | .bContainsA => return .empty
  | .aContainsB => do
      let left ← sideOf ea.lo eb.lo
      let right ← sideOf eb.hi ea.hi
      return ⟨left ++ right⟩
  | .overlapAFirst => do
      let s ← (Span.fromEndpoints ea.lo eb.lo).expect
      return .singleton s
  | .overlapBFirst => do
      let s ← (Span.fromEndpoints eb.hi ea.hi).expect
      return .singleton s

namespace HalfOpen

variable {α : Type*} [LinearOrder α] {I J : HalfOpen α}

/-- Two intervals share a point exactly where the later start stands before the earlier end. -/
theorem exists_mem_both : (∃ x, I.Mem x ∧ J.Mem x) ↔ max I.lo J.lo < min I.hi J.hi := by
  constructor
  · rintro ⟨x, hI, hJ⟩
    exact (max_le hI.1 hJ.1).trans_lt (lt_min hI.2 hJ.2)
  · intro h
    obtain ⟨hI, hJ⟩ := lt_min_iff.1 h
    exact ⟨max I.lo J.lo, ⟨le_max_left _ _, hI⟩, le_max_right _ _, hJ⟩

/-- An interval lies within another exactly where its endpoints do. -/
theorem mem_imp_mem : (∀ x, J.Mem x → I.Mem x) ↔ I.lo ≤ J.lo ∧ J.hi ≤ I.hi := by
  constructor
  · intro h
    refine ⟨(h _ J.lo_mem).1, not_lt.1 fun hlt => ?_⟩
    exact lt_irrefl I.hi (h I.hi ⟨(h _ J.lo_mem).2.le, hlt⟩).2
  · rintro ⟨hlo, hhi⟩ x ⟨hx, hx'⟩
    exact ⟨hlo.trans hx, hx'.trans_le hhi⟩

/-- Two intervals cover an interval together exactly where they leave no gap. -/
theorem ordConnected_union : Set.OrdConnected {x | I.Mem x ∨ J.Mem x} ↔ ¬ Separated I J := by
  constructor
  · intro h hsep
    have hI := h.out (x := I.lo) (y := J.lo) (.inl I.lo_mem) (.inr J.lo_mem)
    have hJ := h.out (x := J.lo) (y := I.lo) (.inr J.lo_mem) (.inl I.lo_mem)
    -- the earlier end lies between the starts and in neither interval
    rcases le_total I.lo J.lo with hle | hle
    · have hgap := (separated_iff hle).1 hsep
      rcases hI ⟨I.lt.le, hgap.le⟩ with hmem | hmem
      · exact lt_irrefl _ hmem.2
      · exact absurd hmem.1 (not_le.2 hgap)
    · have hgap : J.hi < I.lo := by
        rw [Separated, max_eq_left hle, min_lt_iff] at hsep
        exact hsep.resolve_left (not_lt.2 I.lt.le)
      rcases hJ ⟨J.lt.le, hgap.le⟩ with hmem | hmem
      · exact absurd hmem.1 (not_le.2 hgap)
      · exact lt_irrefl _ hmem.2
  · intro hsep
    have hjoin : {x | I.Mem x ∨ J.Mem x} = Set.Ico (min I.lo J.lo) (max I.hi J.hi) := by
      ext x
      rcases le_total I.lo J.lo with hle | hle
      · rw [Set.mem_ofPred_eq, mem_join hle hsep, min_eq_left hle]
        rfl
      · have hsep' : ¬ Separated J I := by
          rw [Separated, min_comm, max_comm]
          exact hsep
        rw [Set.mem_ofPred_eq, or_comm, mem_join hle hsep', min_eq_right hle, max_comm]
        rfl
    rw [hjoin]
    exact Set.ordConnected_Ico

end HalfOpen

theorem comps_of_actionPoint {w : Tumbler} {k : ℕ} (h : actionPoint w = some k) :
    w.comps = List.replicate (k - 1) 0 ++ w.comps.getD (k - 1) 0 :: w.comps.drop k := by
  obtain ⟨i, hi, rfl⟩ := Option.map_eq_some_iff.1 h
  obtain ⟨hlt, -, hzero⟩ := List.findIdx?_eq_some_iff_getElem.1 hi
  have hfront : w.comps.take i = List.replicate i 0 := by
    refine List.eq_replicate_iff.2 ⟨by simp [hlt.le], fun b hb => ?_⟩
    obtain ⟨j, hj, rfl⟩ := List.mem_iff_getElem.1 hb
    rw [List.length_take, lt_min_iff] at hj
    simpa using hzero j hj.1
  rw [Nat.add_sub_cancel, ← hfront, List.getD_eq_getElem _ _ hlt, ← List.drop_eq_getElem_cons hlt,
    List.take_append_drop]

/-- The difference of a sum and its start is the displacement, where the two have one length. -/
theorem sub_sumAt {s w : Tumbler} {k : ℕ} (h : addDomain s w = .ok k) (hlen : s.len = w.len) :
    sub (sumAt k s w) s = .ok w := by
  obtain ⟨hk, hle⟩ := addDomain_eq_ok_iff.1 h
  obtain ⟨hpos, -, hne⟩ := actionPoint_parts hk
  obtain ⟨w', p, x, y, u, v, hsub, hs, hr, hxy, hw'⟩ :=
    sub_of_lt (hlen.trans (len_sumAt h).symm) (lt_sumAt h)
  have hlt : k - 1 < s.comps.length := by
    have : k ≤ s.comps.length := hle
    omega
  have hsum : s.comps.take (k - 1) ++ (s.comps.getD (k - 1) 0 + w.comps.getD (k - 1) 0) ::
      w.comps.drop k = p ++ y :: v := hr
  have hparts : s.comps.take (k - 1) ++ s.comps.getD (k - 1) 0 :: s.comps.drop k = p ++ x :: u := by
    rw [← hs]
    conv_rhs => rw [← List.take_append_drop (k - 1) s.comps, List.drop_eq_getElem_cons hlt]
    simp [List.getD_eq_getElem?_getD, hlt, Nat.sub_add_cancel hpos]
  -- both lists part from `s` first at one position
  have hplen : (s.comps.take (k - 1)).length = p.length := by
    rcases lt_trichotomy (s.comps.take (k - 1)).length p.length with hl | hl | hl
    · exfalso
      have h₁ := congrArg (fun l => l[(s.comps.take (k - 1)).length]?) hsum
      have h₂ := congrArg (fun l => l[(s.comps.take (k - 1)).length]?) hparts
      simp only [List.getElem?_append_right le_rfl, Nat.sub_self, List.getElem?_cons_zero,
        List.getElem?_append_left hl] at h₁ h₂
      rw [← h₂, Option.some.injEq] at h₁
      omega
    · exact hl
    · exfalso
      have h₁ := congrArg (fun l => l[p.length]?) hsum
      have h₂ := congrArg (fun l => l[p.length]?) hparts
      simp only [List.getElem?_append_right le_rfl, Nat.sub_self, List.getElem?_cons_zero,
        List.getElem?_append_left hl] at h₁ h₂
      rw [h₁, Option.some.injEq] at h₂
      omega
  obtain ⟨hp, hsum⟩ := List.append_inj hsum hplen
  obtain ⟨-, hparts⟩ := List.append_inj hparts hplen
  obtain ⟨hy, hv⟩ := List.cons.inj hsum
  obtain ⟨hx, -⟩ := List.cons.inj hparts
  have hz : p.length = k - 1 := by
    rw [← hplen, List.length_take, min_eq_left hlt.le]
  rw [hsub]
  refine congrArg Outcome.ok (Tumbler.ext ?_)
  rw [hw', comps_of_actionPoint hk, hz, ← hv, ← hx, ← hy, Nat.add_sub_cancel_left]

namespace Span

/-- A level-uniform span is the span between its endpoints. -/
theorem fromEndpoints_self {s : Span} {len : ℕ} (h : s.AtLength len) :
    fromEndpoints s.start s.reach = .ok s := by
  obtain ⟨k, hk⟩ := s.t12
  have huniform := (atLength_iff.1 h).1
  rw [isLevelUniform, beq_iff_eq] at huniform
  have hsub : sub s.reach s.start = .ok s.width := by
    rw [reach_eq_sumAt hk]
    exact sub_sumAt hk huniform
  simp [fromEndpoints, Outcome.refuseIf, h.len_start, h.len_reach, not_le.2 s.start_lt_reach, hsub,
    new_eq_ok hk]

end Span

/-- The first span denotes all the second does, and more. -/
def StrictlyContains (a b : Span) : Prop :=
  (∀ t, b.contains t = true → a.contains t = true) ∧ ∃ t, a.contains t = true ∧ b.contains t = false

/-- The second span stands within the first, at most one boundary shared. -/
def Encloses (a b : Span) : Prop :=
  (a.start < b.start ∧ b.reach < a.reach) ∨ (a.start = b.start ∧ b.reach < a.reach) ∨
    (a.start < b.start ∧ b.reach = a.reach)

theorem strictlyContains_iff {a b : Span} : StrictlyContains a b ↔ Encloses a b := by
  have hsub : (∀ t, b.contains t = true → a.contains t = true) ↔ a.start ≤ b.start ∧ b.reach ≤ a.reach := by
    simp only [Span.contains_iff]
    exact HalfOpen.mem_imp_mem
  have hback : (∀ t, a.contains t = true → b.contains t = true) ↔ b.start ≤ a.start ∧ a.reach ≤ b.reach := by
    simp only [Span.contains_iff]
    exact HalfOpen.mem_imp_mem
  have hmore : (∃ t, a.contains t = true ∧ b.contains t = false) ↔
      ¬ (b.start ≤ a.start ∧ a.reach ≤ b.reach) := by
    rw [← hback]
    push Not
    simp only [Bool.not_eq_true]
  rw [StrictlyContains, hsub, hmore, Encloses]
  grind

section

variable {a b : Span}

theorem classifySpans_symm (a b : Span) : classifySpans a b = classifySpans b a := by
  simp only [classifySpans, relate, Span.endpoints_lo, Span.endpoints_hi]
  grind

/-- Two spans share no tumbler exactly where they are apart or touch. -/
theorem classifySpans_disjoint_iff : classifySpans a b = .separated ∨ classifySpans a b = .adjacent ↔
    ∀ t, ¬ (a.contains t = true ∧ b.contains t = true) := by
  have hshare := HalfOpen.exists_mem_both (I := a.endpoints) (J := b.endpoints)
  simp only [Span.contains_iff, ← not_exists, hshare, classifySpans, relate]
  grind

theorem classifySpans_equal_iff :
    classifySpans a b = .equal ↔ a.start = b.start ∧ a.reach = b.reach := by
  have ha := a.start_lt_reach
  have hb := b.start_lt_reach
  simp only [classifySpans, relate, Span.endpoints_lo, Span.endpoints_hi]
  grind

theorem classifySpans_containment_iff : classifySpans a b = .containment ↔ Encloses a b ∨ Encloses b a := by
  have ha := a.start_lt_reach
  have hb := b.start_lt_reach
  simp only [classifySpans, relate, Encloses, Span.endpoints_lo, Span.endpoints_hi]
  grind

end

theorem relate_spec (a b : HalfOpen Tumbler) :
    match relate a b with
    | .separated | .adjacent => min a.hi b.hi ≤ max a.lo b.lo
    | .equal => a = b
    | .aContainsB => a.lo ≤ b.lo ∧ b.hi ≤ a.hi
    | .bContainsA => b.lo ≤ a.lo ∧ a.hi ≤ b.hi
    | .overlapAFirst => a.lo < b.lo ∧ b.lo < a.hi ∧ a.hi < b.hi
    | .overlapBFirst => b.lo < a.lo ∧ a.lo < b.hi ∧ b.hi < a.hi := by
  have hext : a.lo = b.lo → a.hi = b.hi → a = b := HalfOpen.ext
  have ha := a.lt
  have hb := b.lt
  unfold relate
  grind

section

variable {len : ℕ} {a b : Span}

theorem gatedEndpoints_eq (ha : a.AtLength len) (hb : b.AtLength len) :
    gatedEndpoints a b = .ok (a.endpoints, b.endpoints) := by
  obtain ⟨hua, hla⟩ := Span.atLength_iff.1 ha
  obtain ⟨hub, hlb⟩ := Span.atLength_iff.1 hb
  rw [gatedEndpoints, if_pos ⟨hua, hub, hla.trans hlb.symm⟩]
  rfl

/-- The span the asserted rebuild of two endpoints of one length returns. -/
theorem expect_fromEndpoints {ε : Type} {s r : Tumbler} (hs : s.len = len) (hr : r.len = len) (hlt : s < r) :
    ∃ span, ((Span.fromEndpoints s r).expect : Outcome ε Span) = .ok span ∧ span.endpoints = ⟨s, r, hlt⟩ ∧
      span.AtLength len := by
  obtain ⟨span, hok, hstart, hreach⟩ := Span.fromEndpoints_spec (hs.trans hr.symm) hlt
  exact ⟨span, Outcome.expect_eq_ok_iff.2 hok, HalfOpen.ext hstart hreach, hstart ▸ hs, hreach ▸ hr⟩

/-- Canonical spans of one length class are their own normal form. -/
theorem isNormalized_of_canonical (len : ℕ) {d : SpanSet} (hat : ∀ s ∈ d.spans, s.AtLength len)
    (hc : HalfOpen.Canonical d.endpoints) : d.isNormalized = .ok true := by
  have hclass : d.InClass := ⟨len, fun s hs => Span.atLength_iff.1 (hat s hs)⟩
  have hspans : d.spans.mapM (fun s => ((Span.ofEndpoints s.endpoints).expect :
      Outcome LevelMismatch Span)) = .ok d.spans := by
    have h := Outcome.mapM_eq_ok (ε := LevelMismatch) (l := d.spans) (g := id)
      (f := fun s => (Span.fromEndpoints s.start s.reach).expect) fun s hs =>
        (Outcome.expect_eq_ok_iff.2 (Span.fromEndpoints_self (hat s hs)))
    rw [List.map_id] at h
    exact h
  refine SpanSet.isNormalized_of_normalize (SpanSet.normalize_of_canonical hclass hc ?_)
  rw [SpanSet.spansFrom, SpanSet.endpoints, List.mapM_map]
  exact congrArg (· >>= fun spans => return SpanSet.mk spans) hspans

/-- The join is there exactly where the spans leave no gap, and then denotes both. -/
theorem merge_spec (ha : a.AtLength len) (hb : b.AtLength len) :
    (HalfOpen.Separated a.endpoints b.endpoints ∧ merge a b = .ok none) ∨
      (¬ HalfOpen.Separated a.endpoints b.endpoints ∧ ∃ s, merge a b = .ok (some s) ∧
        ∀ t, s.endpoints.Mem t ↔ a.endpoints.Mem t ∨ b.endpoints.Mem t) := by
  rw [merge, gatedEndpoints_eq ha hb, Outcome.ok_bind]
  by_cases hsep : HalfOpen.Separated a.endpoints b.endpoints
  · exact .inl ⟨hsep, if_pos (decide_eq_true hsep)⟩
  · refine .inr ⟨hsep, ?_⟩
    have hlt : min a.start b.start < max a.reach b.reach :=
      (min_le_left _ _).trans_lt (a.start_lt_reach.trans_le (le_max_left _ _))
    have hmin : (min a.start b.start).len = len := by
      rcases min_choice a.start b.start with h | h <;> rw [h]
      · exact ha.len_start
      · exact hb.len_start
    have hmax : (max a.reach b.reach).len = len := by
      rcases max_choice a.reach b.reach with h | h <;> rw [h]
      · exact ha.len_reach
      · exact hb.len_reach
    obtain ⟨s, hs, hends, -⟩ := expect_fromEndpoints (ε := LevelMismatch) hmin hmax hlt
    refine ⟨s, ?_, fun t => ?_⟩
    · have hnot : ¬ separated a.endpoints b.endpoints = true := fun h => hsep (of_decide_eq_true h)
      simp only [if_neg hnot, Span.endpoints_lo, Span.endpoints_hi, hs, Outcome.ok_bind, Outcome.pure_eq]
    · rw [hends]
      simp only [HalfOpen.Mem, HalfOpen.Separated, Span.endpoints_lo, Span.endpoints_hi] at hsep ⊢
      grind

theorem split_spec {p : Tumbler} (ha : a.AtLength len) (hp : p.len = len) (hlo : a.start < p)
    (hhi : p < a.reach) : ∃ left right, split a p = .ok (left, right) ∧
      left.endpoints = ⟨a.start, p, hlo⟩ ∧ right.endpoints = ⟨p, a.reach, hhi⟩ := by
  obtain ⟨huniform, hlen⟩ := Span.atLength_iff.1 ha
  obtain ⟨left, hleft, hl, -⟩ := expect_fromEndpoints (ε := SplitError) ha.len_start hp hlo
  obtain ⟨right, hright, hr, -⟩ := expect_fromEndpoints (ε := SplitError) hp ha.len_reach hhi
  refine ⟨left, right, ?_, hl, hr⟩
  rw [split, Outcome.refuseIf, if_neg (by simp [huniform, hlen, hp]), Outcome.ok_bind, Outcome.refuseIf,
    if_neg (by simp [hlo, hhi]), Outcome.ok_bind, hleft, Outcome.ok_bind, hright]
  rfl

theorem sideOf_spec {lo hi : Tumbler} (hlo : lo.len = len) (hhi : hi.len = len) :
    ∃ spans, sideOf lo hi = .ok spans ∧ spans.map Span.endpoints = HalfOpen.between lo hi ∧
      ∀ s ∈ spans, s.AtLength len := by
  unfold sideOf HalfOpen.between
  by_cases hlt : lo < hi
  · obtain ⟨s, hs, hends, hat⟩ := expect_fromEndpoints (ε := LevelMismatch) hlo hhi hlt
    rw [if_pos hlt, dif_pos hlt]
    exact ⟨[s], by rw [hs]; rfl, by simp [hends], by simpa using hat⟩
  · rw [if_neg hlt, dif_neg hlt]
    exact ⟨[], rfl, rfl, nofun⟩

/-- The difference denotes what the first span has and the second has not, in normal form. -/
theorem difference_spec (ha : a.AtLength len) (hb : b.AtLength len) :
    ∃ d, difference a b = .ok d ∧ d.isNormalized = .ok true ∧
      ∀ t, HalfOpen.Covers d.endpoints t ↔ a.endpoints.Mem t ∧ ¬ b.endpoints.Mem t := by
  rw [difference, gatedEndpoints_eq ha hb, Outcome.ok_bind]
  have hrel := relate_spec a.endpoints b.endpoints
  have halt := a.start_lt_reach
  have hblt := b.start_lt_reach
  have hsingle : ∀ s : Span, s.AtLength len → (SpanSet.singleton s).isNormalized = .ok true := fun s hs =>
    isNormalized_of_canonical len (by simpa [SpanSet.singleton] using hs)
      (by simp [SpanSet.singleton, SpanSet.endpoints, HalfOpen.Canonical])
  have hempty : SpanSet.empty.isNormalized = .ok true := rfl
  have hcovers : ∀ (s : Span) t, HalfOpen.Covers (SpanSet.singleton s).endpoints t ↔ s.endpoints.Mem t := by
    simp [SpanSet.singleton, SpanSet.endpoints]
  simp only
  cases h : relate a.endpoints b.endpoints with
  | separated | adjacent =>
    simp only [h] at hrel ⊢
    refine ⟨_, rfl, hsingle a ha, fun t => ?_⟩
    rw [hcovers]
    simp only [HalfOpen.Mem, Span.endpoints_lo, Span.endpoints_hi] at hrel ⊢
    grind
  | equal =>
    simp only [h] at hrel ⊢
    refine ⟨_, rfl, hempty, fun t => ?_⟩
    rw [hrel]
    simp [SpanSet.empty, SpanSet.endpoints]
  | bContainsA =>
    simp only [h] at hrel ⊢
    refine ⟨_, rfl, hempty, fun t => ?_⟩
    have hsub := HalfOpen.mem_imp_mem.2 hrel t
    simpa [SpanSet.empty, SpanSet.endpoints] using hsub
  | overlapAFirst =>
    simp only [h] at hrel ⊢
    obtain ⟨s, hs, hends, hat⟩ := expect_fromEndpoints (ε := LevelMismatch) ha.len_start hb.len_start hrel.1
    refine ⟨.singleton s, ?_, hsingle s hat, fun t => ?_⟩
    · simp only [Span.endpoints_lo, hs, Outcome.ok_bind, Outcome.pure_eq]
    · rw [hcovers, hends]
      simp only [HalfOpen.Mem, Span.endpoints_lo, Span.endpoints_hi] at hrel ⊢
      grind
  | overlapBFirst =>
    simp only [h] at hrel ⊢
    obtain ⟨s, hs, hends, hat⟩ := expect_fromEndpoints (ε := LevelMismatch) hb.len_reach ha.len_reach hrel.2.2
    refine ⟨.singleton s, ?_, hsingle s hat, fun t => ?_⟩
    · simp only [Span.endpoints_hi, hs, Outcome.ok_bind, Outcome.pure_eq]
    · rw [hcovers, hends]
      simp only [HalfOpen.Mem, Span.endpoints_lo, Span.endpoints_hi] at hrel ⊢
      grind
  | aContainsB =>
    simp only [h] at hrel ⊢
    obtain ⟨left, hleft, hl, hatl⟩ := sideOf_spec ha.len_start hb.len_start
    obtain ⟨right, hright, hr, hatr⟩ := sideOf_spec hb.len_reach ha.len_reach
    have hends : (SpanSet.mk (left ++ right)).endpoints =
        HalfOpen.between a.start b.start ++ HalfOpen.between b.reach a.reach := by
      rw [SpanSet.endpoints, List.map_append, hl, hr]
    refine ⟨⟨left ++ right⟩, ?_, isNormalized_of_canonical len (fun s hs => ?_) ?_, fun t => ?_⟩
    · simp only [Span.endpoints_lo, Span.endpoints_hi, hleft, Outcome.ok_bind, hright, Outcome.pure_eq]
    · exact (List.mem_append.1 hs).elim (hatl s) (hatr s)
    · rw [hends]
      refine List.pairwise_append.2 ⟨HalfOpen.canonical_between _ _, HalfOpen.canonical_between _ _, ?_⟩
      intro I hI J hJ
      rw [(HalfOpen.mem_between hI).2, (HalfOpen.mem_between hJ).1]
      exact hblt
    · rw [hends, HalfOpen.covers_append, HalfOpen.covers_between, HalfOpen.covers_between]
      simp only [HalfOpen.Mem, Span.endpoints_lo, Span.endpoints_hi] at hrel ⊢
      grind

end

/-- **The pairwise operations are those on the denoted tumblers.** Within one length class
the intersection, the join and the difference denote what they should, the join being there
exactly where the union has no gap, and a split gives two adjacent spans that part the span.
The classification decides, for spans of any lengths, whether two spans share a tumbler, are
one, or hold one another. -/
theorem spanPairs_exact :
    (∀ a b : Span, a.isLevelUniform = true → b.isLevelUniform = true → a.start.len = b.start.len →
      (∃ i, intersect a b = .ok i ∧
        (∀ t, (∃ s, i = some s ∧ s.contains t = true) ↔ a.contains t = true ∧ b.contains t = true) ∧
        (i = none ↔ ∀ t, ¬ (a.contains t = true ∧ b.contains t = true))) ∧
      (∃ m, merge a b = .ok m ∧
        (m.isSome = true ↔ Set.OrdConnected {t | a.contains t = true ∨ b.contains t = true}) ∧
        ∀ s, m = some s → ∀ t, s.contains t = true ↔ a.contains t = true ∨ b.contains t = true) ∧
      ∃ d, difference a b = .ok d ∧
        (∀ t, d.denotes t = true ↔ a.contains t = true ∧ b.contains t = false) ∧
        d.isNormalized = .ok true) ∧
    (∀ (a : Span) (p : Tumbler), a.isLevelUniform = true → p.len = a.start.len → a.start < p →
      p < a.reach → ∃ left right, split a p = .ok (left, right) ∧
        classifySpans left right = .adjacent ∧ left.reach = right.start ∧
        ∀ t, (a.contains t = true ↔ left.contains t = true ∨ right.contains t = true) ∧
          ¬ (left.contains t = true ∧ right.contains t = true)) ∧
    ∀ a b : Span,
      (classifySpans a b = .separated ∨ classifySpans a b = .adjacent ↔
        ∀ t, ¬ (a.contains t = true ∧ b.contains t = true)) ∧
      (classifySpans a b = .equal ↔ a.start = b.start ∧ a.reach = b.reach) ∧
      (classifySpans a b = .containment ↔ StrictlyContains a b ∨ StrictlyContains b a) ∧
      (classifySpans a b = .containment ↔ Encloses a b ∨ Encloses b a) ∧
      classifySpans a b = classifySpans b a ∧ add a.start a.width = .ok a.reach := by
  refine ⟨fun a b hua hub hlen => ?_, fun a p huniform hp hlo hhi => ?_, fun a b => ?_⟩
  · have ha : a.AtLength b.start.len := Span.atLength_iff.2 ⟨hua, hlen⟩
    have hb : b.AtLength b.start.len := Span.atLength_iff.2 ⟨hub, rfl⟩
    have hshare := HalfOpen.exists_mem_both (I := a.endpoints) (J := b.endpoints)
    simp only [Span.endpoints_lo, Span.endpoints_hi] at hshare
    simp only [Span.contains_iff, SpanSet.denotes_iff, ← Bool.not_eq_true]
    refine ⟨?_, ?_, ?_⟩
    · obtain ⟨hlt, s, hs, hstart, hreach⟩ | ⟨hle, hnone⟩ := intersect_spec ha hb
      · refine ⟨some s, hs, fun t => ?_, by simp only [reduceCtorEq, false_iff, not_forall, not_not, hshare, hlt]⟩
        have hmem : s.endpoints.Mem t ↔ a.endpoints.Mem t ∧ b.endpoints.Mem t := by
          simp only [HalfOpen.Mem, Span.endpoints_lo, Span.endpoints_hi, hstart, hreach, max_le_iff, lt_min_iff]
          tauto
        simpa using hmem
      · have hnot : ∀ t, ¬ (a.endpoints.Mem t ∧ b.endpoints.Mem t) := fun t ht =>
          absurd (hshare.1 ⟨t, ht⟩) (not_lt.2 hle)
        exact ⟨none, hnone, fun t => by simp [hnot t], by simpa using hnot⟩
    · rw [HalfOpen.ordConnected_union]
      obtain ⟨hsep, hnone⟩ | ⟨hsep, s, hs, hmem⟩ := merge_spec ha hb
      · exact ⟨none, hnone, by simp [hsep], nofun⟩
      · refine ⟨some s, hs, by simp [hsep], fun s' hs' => ?_⟩
        cases hs'
        exact hmem
    · obtain ⟨d, hd, hnorm, hmem⟩ := difference_spec ha hb
      exact ⟨d, hd, hmem, hnorm⟩
  · have ha : a.AtLength a.start.len := Span.atLength_iff.2 ⟨huniform, rfl⟩
    obtain ⟨left, right, hsplit, hl, hr⟩ := split_spec ha hp hlo hhi
    have hmem : ∀ t, (a.contains t = true ↔ left.contains t = true ∨ right.contains t = true) ∧
        ¬ (left.contains t = true ∧ right.contains t = true) := fun t => by
      simp only [Span.contains_iff, hl, hr, HalfOpen.Mem, Span.endpoints_lo, Span.endpoints_hi]
      grind
    have hreach : left.reach = p := congrArg HalfOpen.hi hl
    have hstart : right.start = p := congrArg HalfOpen.lo hr
    have hadj : classifySpans left right = .adjacent := by
      have hlo' : left.start = a.start := congrArg HalfOpen.lo hl
      have hhi' : right.reach = a.reach := congrArg HalfOpen.hi hr
      simp only [classifySpans, relate, Span.endpoints_lo, Span.endpoints_hi, hreach, hstart, hlo', hhi']
      grind
    exact ⟨left, right, hsplit, hadj, hreach.trans hstart.symm, hmem⟩
  · refine ⟨classifySpans_disjoint_iff, classifySpans_equal_iff, ?_, classifySpans_containment_iff,
      classifySpans_symm a b, a.add_eq_reach⟩
    rw [strictlyContains_iff, strictlyContains_iff, classifySpans_containment_iff]

/-- Three siblings, less the first two, and parted before the last. -/
theorem spanPairs_exact_siblings :
    let a : Span := ⟨⟨[1, 2], by simp⟩, ⟨[0, 3], by simp⟩, 2, rfl⟩
    let b : Span := ⟨⟨[1, 2], by simp⟩, ⟨[0, 2], by simp⟩, 2, rfl⟩
    (∃ d, difference a b = .ok d ∧ d.isNormalized = .ok true) ∧
      ∃ left right, split a ⟨[1, 4], by simp⟩ = .ok (left, right) ∧ left.reach = right.start := by
  intro a b
  obtain ⟨-, -, d, hd, -, hnorm⟩ := spanPairs_exact.1 a b (by decide) (by decide) (by decide)
  obtain ⟨left, right, hsplit, -, hreach, -⟩ := spanPairs_exact.2.1 a ⟨[1, 4], by simp⟩ (by decide)
    (by decide) (by decide) (by decide)
  exact ⟨⟨d, hd, hnorm⟩, left, right, hsplit, hreach⟩
