import Skep.Namespace.Documents
import Skep.Retrieval.Compare

/-!
# Compare reports the shared identities

The pairs of positions a report stands for are those the two operands name whose
documents' reading surfaces hold one address at both. Two runs that overlap lie on one
chain, so the subtraction of their ordinals is total; the runs of a resolution tile the
positions of its span, so a block's foot is the position its address stands at.

## Main results

- `overlapPair_spec` — the correspondence of two blocks
- `resolveBlocks_spec` — the blocks of an operand past the gate
- `intervalJoin_spec` — the join of two block lists, and its mirror
- `compare_exact` — what a report denotes, in order, and its mirror
-/

namespace Retrieval

/-- A position further on. -/
def VPos.advance (p : VPos) (k : ℕ) : VPos := ⟨p.subspace, p.ordinal + k⟩

/-- The pairs of positions a correspondence stands for. -/
def CorrPair.Relates (c : CorrPair) (d1 : Address) (p : VPos) (d2 : Address) (q : VPos) : Prop :=
  d1 = c.d1 ∧ d2 = c.d2 ∧ ∃ k < c.width, p = VPos.advance c.u1 k ∧ q = VPos.advance c.u2 k

/-- The correspondence read from the other side. -/
def CorrPair.swap (c : CorrPair) : CorrPair := ⟨c.d2, c.u2, c.d1, c.u1, c.width⟩

/-- The address a block holds at a position of its document. -/
def Block.Holds (b : Block) (d : Address) (p : VPos) (i : Address) : Prop :=
  d = b.doc ∧ ∃ k < b.run.width, p = VPos.advance b.vStart k ∧ i = b.run.addrAt k

/-- A position a spec-set names. -/
def Names (regions : List RegionSpec) (d : Address) (p : VPos) : Prop :=
  ∃ r ∈ regions, d = r.doc ∧ ∃ span ∈ r.spans, span.contains p.tumbler = true

theorem exists_chain {r s : Run} (h : max r.iStart.tumbler s.iStart.tumbler < min r.reach s.reach) :
    ∃ (c : Address) (j k : ℕ), r.iStart = c.advance j ∧ s.iStart = c.advance k := by
  obtain ⟨hr, hs⟩ := lt_min_iff.1 h
  rcases le_total r.iStart.tumbler s.iStart.tumbler with hle | hle
  · rw [max_eq_right hle] at hr
    have hmem : s.iStart ∈ r.addrs :=
      (Run.mem_iextent_iff s.full).1 (Run.iextent_contains_iff.2 ⟨hle, hr⟩)
    obtain ⟨k, -, hk⟩ := Run.mem_addrs_iff.1 hmem
    exact ⟨r.iStart, 0, k, (Address.advance_zero _).symm, hk⟩
  · rw [max_eq_left hle] at hs
    have hmem : r.iStart ∈ s.addrs :=
      (Run.mem_iextent_iff r.full).1 (Run.iextent_contains_iff.2 ⟨hle, hs⟩)
    obtain ⟨k, -, hk⟩ := Run.mem_addrs_iff.1 hmem
    exact ⟨s.iStart, k, 0, hk, (Address.advance_zero _).symm⟩

theorem overlap_of_common {r s : Run} {x : Address} (hr : x ∈ r.addrs) (hs : x ∈ s.addrs) :
    max r.iStart.tumbler s.iStart.tumbler < min r.reach s.reach := by
  obtain ⟨j, hj, hxj⟩ := Run.mem_addrs_iff.1 hr
  obtain ⟨k, hk, hxk⟩ := Run.mem_addrs_iff.1 hs
  have hrx : r.iStart.tumbler ≤ x.tumbler ∧ x.tumbler < r.reach := by
    rw [hxj]
    exact ⟨r.iStart_le_tumblerAt j, Run.tumblerAt_lt_tumblerAt.2 hj⟩
  have hsx : s.iStart.tumbler ≤ x.tumbler ∧ x.tumbler < s.reach := by
    rw [hxk]
    exact ⟨s.iStart_le_tumblerAt k, Run.tumblerAt_lt_tumblerAt.2 hk⟩
  exact (max_le hrx.1 hsx.1).trans_lt (lt_min hrx.2 hsx.2)

theorem max_shift (t : Tumbler) (j k : ℕ) : max (t.shift j) (t.shift k) = t.shift (max j k) := by
  rcases le_total j k with h | h
  · rw [max_eq_right h, max_eq_right (Tumbler.shift_le_shift.2 h)]
  · rw [max_eq_left h, max_eq_left (Tumbler.shift_le_shift.2 h)]

theorem min_shift (t : Tumbler) (j k : ℕ) : min (t.shift j) (t.shift k) = t.shift (min j k) := by
  rcases le_total j k with h | h
  · rw [min_eq_left h, min_eq_left (Tumbler.shift_le_shift.2 h)]
  · rw [min_eq_right h, min_eq_right (Tumbler.shift_le_shift.2 h)]

theorem ordinalGap_shift {ε : Type} (t : Tumbler) {j k : ℕ} (h : k ≤ j) :
    (ordinalGap (t.shift j) (t.shift k) : Outcome ε ℕ) = .ok (j - k) := by
  rw [ordinalGap, Outcome.natSub, ordinal_shift, ordinal_shift, if_neg (by omega)]
  congr 1
  omega

section Overlap

variable {pb qb : Block}

/-- The correspondence of two overlapping blocks of one chain. -/
theorem overlapPair_chain {ε : Type} {c : Address} {j k : ℕ} (hp : pb.run.iStart = c.advance j)
    (hq : qb.run.iStart = c.advance k)
    (h : max j k < min (j + pb.run.width) (k + qb.run.width)) :
    (overlapPair pb qb : Outcome ε (Option CorrPair)) = .ok (some
      ⟨pb.doc, VPos.advance pb.vStart (max j k - j), qb.doc, VPos.advance qb.vStart (max j k - k),
        min (j + pb.run.width) (k + qb.run.width) - max j k⟩) := by
  have hps : pb.iStart = c.tumbler.shift j := by rw [Block.iStart, hp, Address.tumbler_advance]
  have hqs : qb.iStart = c.tumbler.shift k := by rw [Block.iStart, hq, Address.tumbler_advance]
  have hpr : pb.reach = c.tumbler.shift (j + pb.run.width) := by
    rw [Block.reach, Run.reach, Run.tumblerAt, hp, Address.tumbler_advance, Tumbler.shift_shift]
  have hqr : qb.reach = c.tumbler.shift (k + qb.run.width) := by
    rw [Block.reach, Run.reach, Run.tumblerAt, hq, Address.tumbler_advance, Tumbler.shift_shift]
  have hlt : ¬ c.tumbler.shift (min (j + pb.run.width) (k + qb.run.width)) ≤
      c.tumbler.shift (max j k) := by
    rw [Tumbler.shift_le_shift]
    omega
  simp only [overlapPair, Block.footAt, hps, hqs, hpr, hqr, max_shift, min_shift, if_neg hlt,
    ordinalGap_shift c.tumbler (le_max_left j k), ordinalGap_shift c.tumbler (le_max_right j k),
    ordinalGap_shift c.tumbler h.le, Outcome.ok_bind, Outcome.pure_eq]
  rfl

/-- An overlap test answers, and its correspondence relates the positions at which the
two blocks hold one address. -/
theorem overlapPair_spec {ε : Type} (pb qb : Block) : ∃ o : Option CorrPair,
    (overlapPair pb qb : Outcome ε (Option CorrPair)) = .ok o ∧
      (overlapPair qb pb : Outcome ε (Option CorrPair)) = .ok (o.map CorrPair.swap) ∧
      ∀ d1 p d2 q, (∃ c ∈ o, c.Relates d1 p d2 q) ↔ ∃ i, pb.Holds d1 p i ∧ qb.Holds d2 q i := by
  by_cases hlt : max pb.iStart qb.iStart < min pb.reach qb.reach
  · obtain ⟨c, j, k, hj, hk⟩ := exists_chain hlt
    have hbound : max j k < min (j + pb.run.width) (k + qb.run.width) := by
      have hshift := hlt
      rw [Block.iStart, Block.iStart, Block.reach, Block.reach, Run.reach, Run.reach, Run.tumblerAt,
        Run.tumblerAt, hj, hk, Address.tumbler_advance, Address.tumbler_advance, Tumbler.shift_shift,
        Tumbler.shift_shift, max_shift, min_shift, Tumbler.shift_lt_shift] at hshift
      exact hshift
    have hbound' : max k j < min (k + qb.run.width) (j + pb.run.width) := by omega
    refine ⟨_, overlapPair_chain hj hk hbound, ?_, fun d1 p d2 q => ?_⟩
    · rw [overlapPair_chain hk hj hbound']
      simp [CorrPair.swap, max_comm, min_comm]
    · simp only [Option.mem_some_iff, exists_eq_left']
      constructor
      · rintro ⟨rfl, rfl, n, hn, rfl, rfl⟩
        simp only at hn
        refine ⟨c.advance (max j k + n), ⟨rfl, max j k - j + n, by omega, ?_, ?_⟩,
          ⟨rfl, max j k - k + n, by omega, ?_, ?_⟩⟩
        · simp [VPos.advance, Nat.add_assoc]
        · rw [Run.addrAt, hj, Address.advance_advance]
          congr 1
          omega
        · simp [VPos.advance, Nat.add_assoc]
        · rw [Run.addrAt, hk, Address.advance_advance]
          congr 1
          omega
      · rintro ⟨i, ⟨rfl, a, ha, rfl, hia⟩, ⟨rfl, b, hb, rfl, hib⟩⟩
        rw [Run.addrAt, hj, Address.advance_advance] at hia
        rw [Run.addrAt, hk, Address.advance_advance] at hib
        have hab : j + a = k + b := Address.advance_inj.1 (hia.symm.trans hib)
        refine ⟨rfl, rfl, j + a - max j k, by simp only; omega, ?_, ?_⟩
        · simp only [VPos.advance, VPos.mk.injEq, true_and]
          omega
        · simp only [VPos.advance, VPos.mk.injEq, true_and]
          omega
  · refine ⟨none, ?_, ?_, fun d1 p d2 q => ?_⟩
    · rw [overlapPair, if_pos (not_lt.1 hlt)]
    · rw [overlapPair, max_comm, min_comm, if_pos (not_lt.1 hlt)]
      rfl
    · simp only [Option.not_mem_none, false_and, exists_false, false_iff, not_exists, not_and]
      rintro i ⟨-, a, ha, -, hia⟩ ⟨-, b, hb, -, hib⟩
      exact hlt (overlap_of_common (Run.mem_addrs_iff.2 ⟨a, ha, hia⟩) (Run.mem_addrs_iff.2 ⟨b, hb, hib⟩))

end Overlap

/-- The correspondence of two blocks as a value. -/
def overlapOf (pb qb : Block) : Option CorrPair :=
  ((overlapPair pb qb : Outcome OverBudget (Option CorrPair)).toOption).join

theorem overlapPair_eq (pb qb : Block) :
    (overlapPair pb qb : Outcome OverBudget (Option CorrPair)) = .ok (overlapOf pb qb) := by
  obtain ⟨o, ho, -⟩ := overlapPair_spec (ε := OverBudget) pb qb
  rw [overlapOf, ho]
  rfl

theorem overlapOf_swap (pb qb : Block) : overlapOf qb pb = (overlapOf pb qb).map CorrPair.swap := by
  obtain ⟨o, ho, hswap, -⟩ := overlapPair_spec (ε := OverBudget) pb qb
  rw [overlapOf, overlapOf, ho, hswap]
  rfl

theorem overlapOf_relates {pb qb : Block} {d1 d2 : Address} {p q : VPos} :
    (∃ c ∈ overlapOf pb qb, c.Relates d1 p d2 q) ↔ ∃ i, pb.Holds d1 p i ∧ qb.Holds d2 q i := by
  obtain ⟨o, ho, -, h⟩ := overlapPair_spec (ε := OverBudget) pb qb
  have heq : overlapOf pb qb = o := by
    rw [overlapOf, ho]
    rfl
  rw [heq]
  exact h d1 p d2 q

/-- Every overlap of a block of one list with one of the other, in the order tested. -/
def overlaps (p q : List Block) : List CorrPair := p.flatMap fun pb => q.filterMap (overlapOf pb)

/-- Pairs counted as they are produced: all of them within the budget, or a refusal. -/
def admitAll (pairs : List CorrPair) (acc : List CorrPair × Count) :
    Outcome OverBudget (List CorrPair × Count) :=
  if h : acc.2.admitted + pairs.length ≤ acc.2.budget then
    .ok (acc.1 ++ pairs, ⟨acc.2.budget, acc.2.admitted + pairs.length, h⟩)
  else .err .overBudget

theorem admitAll_of_le {pairs : List CorrPair} {acc : List CorrPair × Count}
    (h : acc.2.admitted + pairs.length ≤ acc.2.budget) : admitAll pairs acc =
      .ok (acc.1 ++ pairs, ⟨acc.2.budget, acc.2.admitted + pairs.length, h⟩) := dif_pos h

theorem admitAll_of_lt {pairs : List CorrPair} {acc : List CorrPair × Count}
    (h : acc.2.budget < acc.2.admitted + pairs.length) : admitAll pairs acc = .err .overBudget :=
  dif_neg (not_le.2 h)

@[simp] theorem admitAll_nil (acc : List CorrPair × Count) : admitAll [] acc = .ok acc := by
  rw [admitAll_of_le (by simpa using acc.2.within)]
  simp

theorem admitAll_append (pairs pairs' : List CorrPair) (acc : List CorrPair × Count) :
    (admitAll pairs acc >>= admitAll pairs') = admitAll (pairs ++ pairs') acc := by
  by_cases h : acc.2.admitted + pairs.length ≤ acc.2.budget
  · rw [admitAll_of_le h, Outcome.ok_bind]
    by_cases h' : acc.2.admitted + (pairs ++ pairs').length ≤ acc.2.budget
    · have hsum : acc.2.admitted + pairs.length + pairs'.length ≤ acc.2.budget := by
        rw [List.length_append] at h'
        omega
      rw [admitAll_of_le hsum, admitAll_of_le h']
      simp [Nat.add_assoc]
    · have hsum : acc.2.budget < acc.2.admitted + pairs.length + pairs'.length := by
        rw [List.length_append] at h'
        omega
      rw [admitAll_of_lt hsum, admitAll_of_lt (not_le.1 h')]
  · have h' : acc.2.budget < acc.2.admitted + (pairs ++ pairs').length := by
      rw [List.length_append]
      omega
    rw [admitAll_of_lt (not_le.1 h), admitAll_of_lt h', Outcome.err_bind]

theorem joinPair_eq (pb qb : Block) (acc : List CorrPair × Count) :
    joinPair pb acc qb = admitAll (overlapOf pb qb).toList acc := by
  rw [joinPair, overlapPair_eq, Outcome.ok_bind]
  cases overlapOf pb qb with
  | none => simp
  | some c =>
    simp only [Option.toList_some, Count.admitUnits]
    by_cases h : acc.2.admitted + [c].length ≤ acc.2.budget
    · have h' : 1 ≤ acc.2.budget - acc.2.admitted := by
        rw [List.length_singleton] at h
        omega
      rw [dif_pos h', admitAll_of_le h]
      rfl
    · have h' : ¬ 1 ≤ acc.2.budget - acc.2.admitted := by
        rw [List.length_singleton] at h
        omega
      rw [dif_neg h', admitAll_of_lt (not_le.1 h)]
      rfl

theorem foldlM_admitAll {α : Type} {step : List CorrPair × Count → α →
      Outcome OverBudget (List CorrPair × Count)} {pairs : α → List CorrPair}
    (h : ∀ acc a, step acc a = admitAll (pairs a) acc) (l : List α) (acc : List CorrPair × Count) :
    l.foldlM step acc = admitAll (l.flatMap pairs) acc := by
  induction l generalizing acc with
  | nil => simp
  | cons a l ih =>
    have hrest : (fun acc => l.foldlM step acc) = admitAll (l.flatMap pairs) := funext ih
    rw [List.foldlM_cons, h, hrest, admitAll_append, List.flatMap_cons]

theorem intervalJoin_eq (p q : List Block) : intervalJoin p q =
    if (overlaps p q).length ≤ maxComparePairs then .ok (overlaps p q) else .err .overBudget := by
  have hrow : ∀ acc pb, q.foldlM (joinPair pb) acc = admitAll (q.filterMap (overlapOf pb)) acc := by
    intro acc pb
    rw [foldlM_admitAll (fun acc qb => joinPair_eq pb qb acc), List.filterMap_eq_flatMap_toList]
  rw [intervalJoin, foldlM_admitAll hrow, ← overlaps]
  by_cases h : (overlaps p q).length ≤ maxComparePairs
  · have h' : 0 + (overlaps p q).length ≤ maxComparePairs := by omega
    rw [if_pos h, admitAll_of_le h', Outcome.ok_bind]
    simp
  · have h' : maxComparePairs < 0 + (overlaps p q).length := by omega
    rw [if_neg h, admitAll_of_lt h', Outcome.err_bind]

/-- The overlaps the other way round are the overlaps read from the other side. -/
theorem overlaps_swap (p q : List Block) :
    (overlaps q p).Perm ((overlaps p q).map CorrPair.swap) := by
  have hrow : ∀ qb, p.filterMap (overlapOf qb) =
      p.flatMap fun pb => ((overlapOf pb qb).map CorrPair.swap).toList := by
    intro qb
    rw [List.filterMap_eq_flatMap_toList]
    apply List.flatMap_congr
    intro pb _
    rw [overlapOf_swap]
  have hcol : ∀ pb, (q.filterMap (overlapOf pb)).map CorrPair.swap =
      q.flatMap fun qb => ((overlapOf pb qb).map CorrPair.swap).toList := by
    intro pb
    rw [List.map_filterMap, List.filterMap_eq_flatMap_toList]
  rw [← Multiset.coe_eq_coe, overlaps, overlaps, List.map_flatMap]
  simp only [hrow, hcol, ← Multiset.coe_bind]
  exact Multiset.bind_bind _ _

theorem overlaps_relates {p q : List Block} {d1 d2 : Address} {v1 v2 : VPos} :
    (∃ c ∈ overlaps p q, c.Relates d1 v1 d2 v2) ↔
      ∃ i, (∃ pb ∈ p, pb.Holds d1 v1 i) ∧ ∃ qb ∈ q, qb.Holds d2 v2 i := by
  simp only [overlaps, List.mem_flatMap, List.mem_filterMap]
  constructor
  · rintro ⟨c, ⟨pb, hpb, qb, hqb, hc⟩, hrel⟩
    obtain ⟨i, hp, hq⟩ := overlapOf_relates.1 ⟨c, hc, hrel⟩
    exact ⟨i, ⟨pb, hpb, hp⟩, qb, hqb, hq⟩
  · rintro ⟨i, ⟨pb, hpb, hp⟩, qb, hqb, hq⟩
    obtain ⟨c, hc, hrel⟩ := overlapOf_relates.2 ⟨i, hp, hq⟩
    exact ⟨c, ⟨pb, hpb, qb, hqb, hc⟩, hrel⟩

/-- The blocks of runs that tile a document's positions from an ordinal on. -/
def tiled (doc : Address) (subspace : ℕ) : ℕ → List Run → List Block
  | _, [] => []
  | v, run :: runs => ⟨doc, ⟨subspace, v⟩, run⟩ :: tiled doc subspace (v + run.width) runs

theorem tiled_holds {doc d : Address} {subspace v : ℕ} {runs : List Run} {p : VPos} {i : Address} :
    (∃ b ∈ tiled doc subspace v runs, b.Holds d p i) ↔
      d = doc ∧ p.subspace = subspace ∧ v ≤ p.ordinal ∧ (denRuns runs)[p.ordinal - v]? = some i := by
  induction runs generalizing v with
  | nil => simp [tiled]
  | cons run runs ih =>
    simp only [tiled, List.mem_cons, or_and_right, exists_or, exists_eq_left, ih, denRuns_cons]
    have hhead : Block.Holds ⟨doc, ⟨subspace, v⟩, run⟩ d p i ↔ d = doc ∧ p.subspace = subspace ∧
        v ≤ p.ordinal ∧ p.ordinal < v + run.width ∧ i = run.addrAt (p.ordinal - v) := by
      constructor
      · rintro ⟨rfl, k, hk, rfl, rfl⟩
        refine ⟨rfl, rfl, Nat.le_add_right v k, Nat.add_lt_add_left hk v, ?_⟩
        simp [VPos.advance]
      · rintro ⟨rfl, rfl, hle, hlt, rfl⟩
        refine ⟨rfl, p.ordinal - v, by simp only; omega, ?_, rfl⟩
        simp [VPos.advance, Nat.add_sub_cancel' hle]
    rw [hhead]
    by_cases hv : v ≤ p.ordinal
    · by_cases hk : p.ordinal < v + run.width
      · have hrest : ¬ v + run.width ≤ p.ordinal := by omega
        rw [List.getElem?_append_left (by rw [Run.length_addrs]; omega),
          Run.getElem?_addrs (by omega)]
        simp [hv, hk, hrest, eq_comm]
      · rw [List.getElem?_append_right (by rw [Run.length_addrs]; omega), Run.length_addrs,
          show p.ordinal - v - run.width = p.ordinal - (v + run.width) by omega]
        simp [hv, hk, not_lt.1 hk]
    · have hrest : ¬ v + run.width ≤ p.ordinal := by omega
      simp [hv, hrest]

/-- Runs whose addresses stand at the positions from the cursor on are built into the
blocks that tile them, unless the budget refuses. -/
theorem foldlM_buildBlock {m5 : M5State} (doc : Address) {surface : Address} {subspace : ℕ}
    (runs : List Run) {v : ℕ} (out : List Block) (built : Count)
    (h : ∀ k < (denRuns runs).length, m5.point surface ⟨subspace, v + k⟩ = (denRuns runs)[k]?) :
    runs.foldlM (buildBlock m5 doc surface) (⟨subspace, v⟩, out, built) ≠ .fault ∧
      ∀ acc, runs.foldlM (buildBlock m5 doc surface) (⟨subspace, v⟩, out, built) = .ok acc →
        acc.2.1 = out ++ tiled doc subspace v runs := by
  induction runs generalizing v out built with
  | nil =>
    refine ⟨by simp, fun acc hacc => ?_⟩
    rw [List.foldlM_nil, Outcome.pure_eq, Outcome.ok.injEq] at hacc
    rw [← hacc]
    exact (List.append_nil out).symm
  | cons run runs ih =>
    have hfirst : m5.point surface ⟨subspace, v⟩ = some run.iStart := by
      have hlen : 0 < (denRuns (run :: runs)).length := by
        rw [denRuns_cons, List.length_append, Run.length_addrs]
        have := run.pos
        omega
      have hzero := h 0 hlen
      rw [Nat.add_zero, denRuns_cons, List.getElem?_append_left (by rw [Run.length_addrs]; exact run.pos),
        Run.getElem?_addrs run.pos] at hzero
      rw [hzero, Run.addrAt, Address.advance_zero]
    have hrest : ∀ k < (denRuns runs).length,
        m5.point surface ⟨subspace, v + run.width + k⟩ = (denRuns runs)[k]? := by
      intro k hk
      have hlen : run.width + k < (denRuns (run :: runs)).length := by
        rw [denRuns_cons, List.length_append, Run.length_addrs]
        omega
      have hstep := h (run.width + k) hlen
      rw [denRuns_cons, List.getElem?_append_right (by rw [Run.length_addrs]; omega), Run.length_addrs,
        Nat.add_sub_cancel_left] at hstep
      rw [← hstep, Nat.add_assoc]
    rw [List.foldlM_cons]
    simp only [buildBlock, hfirst, Outcome.require, if_true, Outcome.ok_bind, Outcome.pure_eq]
    cases hadmit : built.admitUnits 1 with
    | ok built' =>
      rw [Outcome.ok_bind, Outcome.ok_bind]
      obtain ⟨hfault, hok⟩ := ih (out ++ [⟨doc, ⟨subspace, v⟩, run⟩]) built' hrest
      refine ⟨hfault, fun acc hacc => ?_⟩
      rw [hok acc hacc, List.append_assoc, tiled]
      rfl
    | err e => simp
    | fault => exact absurd hadmit (built.admit_ne_fault 1)

/-- A span past the gate contributes the positions it names that its surface holds. -/
theorem resolveSpan_spec (m3 : M3State) (m5 : M5State) {named : Address × Span}
    (hgate : gateVspan named.2 = .ok ()) (acc : List Block × Count) :
    resolveSpan m3 m5 acc named ≠ .fault ∧
      ∀ acc', resolveSpan m3 m5 acc named = .ok acc' → ∃ bs, acc'.1 = acc.1 ++ bs ∧
        ∀ d p i, (∃ b ∈ bs, b.Holds d p i) ↔ d = named.1 ∧
          named.2.contains p.tumbler = true ∧ m5.point (readingSurface m3 named.1) p = some i := by
  unfold resolveSpan
  cases hshape : asOrdinalVspan named.2 with
  | none =>
    refine ⟨by simp, fun acc' hacc => ⟨[], ?_, fun d p i => ?_⟩⟩
    · cases hacc
      exact (List.append_nil _).symm
    · rw [arranged_iff m5 _ hgate, hshape]
      simp
  | some shape =>
    have hord := ordinal_pos_of_gated hgate hshape
    have hlen := length_denRuns_iterResolve_le m5 (readingSurface m3 named.1) hshape hord
    obtain ⟨hfault, hok⟩ := foldlM_buildBlock named.1
      (m5.iterResolve (readingSurface m3 named.1) named.2) acc.1 acc.2 fun k hk =>
        point_iterResolve m5 _ hshape hord (hk.trans_le hlen)
    refine ⟨Outcome.bind_ne_fault hfault fun _ => by simp, fun acc' hacc => ?_⟩
    obtain ⟨⟨cursor, out, built⟩, hbuilt, hacc⟩ := Outcome.bind_eq_ok_iff.1 hacc
    cases hacc
    refine ⟨_, hok _ hbuilt, fun d p i => ?_⟩
    rw [tiled_holds, arranged_iff m5 _ hgate, hshape]
    simp only [Option.some.injEq, exists_eq_left']
    constructor
    · rintro ⟨rfl, hps, hle, hi⟩
      refine ⟨rfl, p.ordinal - shape.ordinal, ?_, hi⟩
      rw [Nat.add_sub_cancel' hle, ← hps]
    · rintro ⟨rfl, k, rfl, hi⟩
      exact ⟨rfl, rfl, Nat.le_add_right _ _, by simpa using hi⟩

/-- What the gate admits of a spec-set. -/
def Admitted (m3 : M3State) (regions : List RegionSpec) : Prop :=
  ∀ r ∈ regions, m3.isRegisteredDocument r.doc = true ∧
    ∀ span ∈ r.spans, Subspace.ofSpan span = some .content ∧ gateVspan span = .ok ()

theorem gateSpans_spec (operand : Operand) (region index : ℕ) (spans : List Span) :
    gateSpans operand region index spans ≠ .fault ∧
      (gateSpans operand region index spans = .ok () ↔
        ∀ span ∈ spans, Subspace.ofSpan span = some .content ∧ gateVspan span = .ok ()) := by
  induction spans generalizing index with
  | nil => simp [gateSpans]
  | cons span spans ih =>
    obtain ⟨hfault, hok⟩ := ih (index + 1)
    constructor
    · refine Outcome.bind_ne_fault (by simp) fun _ => Outcome.bind_ne_fault ?_ fun _ => hfault
      simp [gateVspan_ne_fault]
    · simp only [gateSpans, Outcome.bind_eq_ok_iff, Outcome.refuseIf_eq_ok_iff, not_not,
        Outcome.mapErr_eq_ok_iff, hok, List.forall_mem_cons]
      constructor
      · rintro ⟨_, hsub, _, hspan, hrest⟩
        exact ⟨⟨hsub, hspan⟩, hrest⟩
      · rintro ⟨⟨hsub, hspan⟩, hrest⟩
        exact ⟨(), hsub, (), hspan, hrest⟩

/-- The gate admits the same spec-sets as either operand. -/
theorem gateSpecSet_spec (m3 : M3State) (operand : Operand) (regions : List RegionSpec) :
    gateSpecSet m3 operand regions ≠ .fault ∧
      (gateSpecSet m3 operand regions = .ok () ↔ Admitted m3 regions) := by
  rw [gateSpecSet, Admitted]
  generalize 0 = region
  induction regions generalizing region with
  | nil => simp [gateRegions]
  | cons r regions ih =>
    obtain ⟨hfault, hok⟩ := ih (region + 1)
    obtain ⟨hspans, hspansok⟩ := gateSpans_spec operand region 0 r.spans
    constructor
    · exact Outcome.bind_ne_fault (by simp) fun _ => Outcome.bind_ne_fault hspans fun _ => hfault
    · simp only [gateRegions, Outcome.bind_eq_ok_iff, Outcome.refuseIf_eq_ok_iff, Bool.not_eq_false,
        hspansok, hok, List.forall_mem_cons]
      constructor
      · rintro ⟨_, hdoc, _, hrow, hrest⟩
        exact ⟨⟨hdoc, hrow⟩, hrest⟩
      · rintro ⟨⟨hdoc, hrow⟩, hrest⟩
        exact ⟨(), hdoc, (), hrow, hrest⟩

theorem admitted_named {m3 : M3State} {regions : List RegionSpec} (h : Admitted m3 regions) :
    ∀ named ∈ namedSpans regions, Subspace.ofSpan named.2 = some .content ∧
      gateVspan named.2 = .ok () := by
  intro named hnamed
  obtain ⟨r, hr, hmem⟩ := List.mem_flatMap.1 hnamed
  obtain ⟨span, hspan, rfl⟩ := List.mem_map.1 hmem
  exact (h r hr).2 span hspan

/-- The blocks of spans past the gate, one span after another. -/
theorem foldlM_resolveSpan (m3 : M3State) (m5 : M5State) (l : List (Address × Span))
    (h : ∀ named ∈ l, Subspace.ofSpan named.2 = some .content ∧ gateVspan named.2 = .ok ())
    (acc : List Block × Count) :
    l.foldlM (resolveSpan m3 m5) acc ≠ .fault ∧
      ∀ acc', l.foldlM (resolveSpan m3 m5) acc = .ok acc' → ∃ bs, acc'.1 = acc.1 ++ bs ∧
        ∀ d p i, (∃ b ∈ bs, b.Holds d p i) ↔ ∃ named ∈ l, d = named.1 ∧
          named.2.contains p.tumbler = true ∧ m5.point (readingSurface m3 named.1) p = some i := by
  induction l generalizing acc with
  | nil =>
    refine ⟨by simp, fun acc' hacc => ⟨[], ?_, by simp⟩⟩
    cases hacc
    exact (List.append_nil _).symm
  | cons named l ih =>
    obtain ⟨-, hgate⟩ := h named List.mem_cons_self
    obtain ⟨hfault, hok⟩ := resolveSpan_spec m3 m5 hgate acc
    have hrest := ih fun x hx => h x (List.mem_cons_of_mem _ hx)
    rw [List.foldlM_cons]
    refine ⟨Outcome.bind_ne_fault hfault fun acc' => (hrest acc').1, fun acc' hacc => ?_⟩
    obtain ⟨mid, hmid, hacc⟩ := Outcome.bind_eq_ok_iff.1 hacc
    obtain ⟨bs, hbs, hholds⟩ := hok mid hmid
    obtain ⟨bs', hbs', hholds'⟩ := (hrest mid).2 acc' hacc
    refine ⟨bs ++ bs', by rw [hbs', hbs, List.append_assoc], fun d p i => ?_⟩
    simp only [List.mem_append, or_and_right, exists_or, hholds, hholds', List.mem_cons,
      exists_eq_left]

/-- The blocks of an operand past the gate hold what its positions' surfaces hold. -/
theorem resolveBlocks_spec {m3 : M3State} (m5 : M5State) {regions : List RegionSpec}
    (h : Admitted m3 regions) :
    resolveBlocks m3 m5 regions ≠ .fault ∧
      ∀ bs, resolveBlocks m3 m5 regions = .ok bs → ∀ d p i, (∃ b ∈ bs, b.Holds d p i) ↔
        Names regions d p ∧ m5.point (readingSurface m3 d) p = some i := by
  obtain ⟨hfault, hok⟩ := foldlM_resolveSpan m3 m5 (namedSpans regions)
    (admitted_named h) ([], Count.against maxCompareOperandBlocks)
  have hprice : (namedSpans regions).foldlM (priceSpan m3 m5)
      (Count.against maxCompareOperandBlocks, Count.against maxWalkSteps) ≠ .fault := by
    generalize (Count.against maxCompareOperandBlocks, Count.against maxWalkSteps) = counts
    induction namedSpans regions generalizing counts with
    | nil => simp
    | cons named l ih =>
      rw [List.foldlM_cons]
      refine Outcome.bind_ne_fault ?_ fun counts' => ih counts'
      refine Outcome.bind_ne_fault (Count.admit_ne_fault _ _) fun _ => ?_
      exact Outcome.bind_ne_fault (Count.admit_ne_fault _ _) fun _ => by simp
  constructor
  · exact Outcome.bind_ne_fault hprice fun _ => Outcome.bind_ne_fault hfault fun _ => by simp
  · intro bs hbs
    obtain ⟨_, -, hbs⟩ := Outcome.bind_eq_ok_iff.1 hbs
    obtain ⟨⟨out, built⟩, hout, hbs⟩ := Outcome.bind_eq_ok_iff.1 hbs
    cases hbs
    obtain ⟨bs', hbs', hholds⟩ := hok _ hout
    rw [List.nil_append] at hbs'
    simp only at hbs'
    subst hbs'
    intro d p i
    rw [hholds, Names, namedSpans]
    constructor
    · rintro ⟨named, hnamed, rfl, hin, hi⟩
      obtain ⟨r, hr, hmem⟩ := List.mem_flatMap.1 hnamed
      obtain ⟨span, hspan, rfl⟩ := List.mem_map.1 hmem
      exact ⟨⟨r, hr, rfl, span, hspan, hin⟩, hi⟩
    · rintro ⟨⟨r, hr, rfl, span, hspan, hin⟩, hi⟩
      exact ⟨(r.doc, span), List.mem_flatMap.2 ⟨r, hr, List.mem_map_of_mem hspan⟩, rfl, hin, hi⟩

/-- The pairs of positions a report stands for. -/
def Reports (report : List CorrPair) (d1 : Address) (p : VPos) (d2 : Address) (q : VPos) : Prop :=
  ∃ c ∈ report, c.Relates d1 p d2 q

/-- One address at a named position of either operand. -/
def Shared (m3 : M3State) (m5 : M5State) (rho1 rho2 : List RegionSpec) (d1 : Address) (p : VPos)
    (d2 : Address) (q : VPos) : Prop :=
  Names rho1 d1 p ∧ Names rho2 d2 q ∧
    ∃ i, m5.point (readingSurface m3 d1) p = some i ∧ m5.point (readingSurface m3 d2) q = some i

theorem compare_eq_ok_iff {m3 : M3State} {m5 : M5State} {rho1 rho2 : List RegionSpec}
    {report : List CorrPair} : compare m3 m5 rho1 rho2 = .ok report ↔
      Admitted m3 rho1 ∧ Admitted m3 rho2 ∧ ∃ p q, resolveBlocks m3 m5 rho1 = .ok p ∧
        resolveBlocks m3 m5 rho2 = .ok q ∧ (overlaps p q).length ≤ maxComparePairs ∧
          report = deterministicPresentation (overlaps p q) := by
  simp only [compare, Outcome.bind_eq_ok_iff, Outcome.mapErr_eq_ok_iff, Outcome.pure_eq,
    Outcome.ok.injEq, intervalJoin_eq]
  constructor
  · rintro ⟨_, h1, _, h2, p, hp, q, hq, pairs, hpairs, rfl⟩
    split at hpairs
    · next hle =>
      cases hpairs
      exact ⟨(gateSpecSet_spec m3 .first rho1).2.1 h1, (gateSpecSet_spec m3 .second rho2).2.1 h2,
        p, q, hp, hq, hle, rfl⟩
    · cases hpairs
  · rintro ⟨h1, h2, p, q, hp, hq, hle, rfl⟩
    exact ⟨(), (gateSpecSet_spec m3 .first rho1).2.2 h1, (), (gateSpecSet_spec m3 .second rho2).2.2 h2,
      p, hp, q, hq, _, if_pos hle, rfl⟩

theorem compare_ne_fault (m3 : M3State) (m5 : M5State) (rho1 rho2 : List RegionSpec) :
    compare m3 m5 rho1 rho2 ≠ .fault := by
  intro h
  obtain ⟨hgate1, hok1⟩ := gateSpecSet_spec m3 .first rho1
  obtain ⟨hgate2, hok2⟩ := gateSpecSet_spec m3 .second rho2
  rcases Outcome.bind_eq_fault_iff.1 h with h | ⟨_, h1, h⟩
  · exact hgate1 h
  rcases Outcome.bind_eq_fault_iff.1 h with h | ⟨_, h2, h⟩
  · exact hgate2 h
  have hp := (resolveBlocks_spec m5 (hok1.1 h1)).1
  have hq := (resolveBlocks_spec m5 (hok2.1 h2)).1
  refine absurd h (Outcome.bind_ne_fault (by simpa using hp) fun p => ?_)
  refine Outcome.bind_ne_fault (by simpa using hq) fun q => ?_
  refine Outcome.bind_ne_fault ?_ fun _ => by simp
  rw [intervalJoin_eq]
  split <;> simp [Outcome.mapErr]

theorem mem_presentation {pairs : List CorrPair} {c : CorrPair} :
    c ∈ deterministicPresentation pairs ↔ c ∈ pairs := List.mem_insertionSort _

theorem presentation_sorted (pairs : List CorrPair) :
    (deterministicPresentation pairs).Pairwise fun a b => corrKey a ≤ corrKey b :=
  List.pairwise_insertionSort _ _

/-- **COMPARE reports exactly the shared identities.** No comparison faults; the report of
one that answers stands for the pairs of named positions at which the two documents'
reading surfaces hold one address, and is sorted by its feet; and the operands exchanged
are answered too, with the feet exchanged. -/
theorem compare_exact (m3 : M3State) (m5 : M5State) (rho1 rho2 : List RegionSpec) :
    compare m3 m5 rho1 rho2 ≠ .fault ∧
      ∀ report, compare m3 m5 rho1 rho2 = .ok report →
        (∀ d1 p d2 q, Reports report d1 p d2 q ↔ Shared m3 m5 rho1 rho2 d1 p d2 q) ∧
        report.Pairwise (fun a b => corrKey a ≤ corrKey b) ∧
        ∃ mirror, compare m3 m5 rho2 rho1 = .ok mirror ∧
          ∀ d1 p d2 q, Reports mirror d2 q d1 p ↔ Reports report d1 p d2 q := by
  have hreports : ∀ {rho1 rho2 report}, compare m3 m5 rho1 rho2 = .ok report →
      ∀ d1 p d2 q, Reports report d1 p d2 q ↔ Shared m3 m5 rho1 rho2 d1 p d2 q := by
    intro rho1 rho2 report h d1 v1 d2 v2
    obtain ⟨h1, h2, p, q, hp, hq, -, rfl⟩ := compare_eq_ok_iff.1 h
    have hleft := (resolveBlocks_spec m5 h1).2 p hp d1 v1
    have hright := (resolveBlocks_spec m5 h2).2 q hq d2 v2
    simp only [Reports, mem_presentation, overlaps_relates, hleft, hright, Shared]
    constructor
    · rintro ⟨i, ⟨hn1, hi1⟩, hn2, hi2⟩
      exact ⟨hn1, hn2, i, hi1, hi2⟩
    · rintro ⟨hn1, hn2, i, hi1, hi2⟩
      exact ⟨i, ⟨hn1, hi1⟩, hn2, hi2⟩
  refine ⟨compare_ne_fault m3 m5 rho1 rho2, fun report h => ⟨hreports h, ?_, ?_⟩⟩
  · obtain ⟨-, -, p, q, -, -, -, rfl⟩ := compare_eq_ok_iff.1 h
    exact presentation_sorted _
  · obtain ⟨h1, h2, p, q, hp, hq, hle, -⟩ := compare_eq_ok_iff.1 h
    have hlen : (overlaps q p).length ≤ maxComparePairs := by
      rw [(overlaps_swap p q).length_eq, List.length_map]
      exact hle
    have hmirror := compare_eq_ok_iff.2 ⟨h2, h1, q, p, hq, hp, hlen, rfl⟩
    refine ⟨_, hmirror, fun d1 v1 d2 v2 => ?_⟩
    rw [hreports hmirror, hreports h, Shared, Shared]
    constructor
    · rintro ⟨hn2, hn1, i, hi2, hi1⟩
      exact ⟨hn1, hn2, i, hi1, hi2⟩
    · rintro ⟨hn1, hn2, i, hi1, hi2⟩
      exact ⟨hn2, hn1, i, hi2, hi1⟩

private def threeAddresses : Run :=
  ⟨⟨⟨[1, 1, 0, 1, 0, 2, 0, 1, 5], by simp⟩, .element, by decide⟩, 3, by decide, by decide⟩

private def placedTwice : M5State :=
  M5State.genesis.applyM5 1 (.contentPlace headDocument 1 [threeAddresses, threeAddresses])

/-- Four positions across the seam of the two placements. -/
private def acrossTheSeam : RegionSpec :=
  ⟨headDocument, [⟨⟨[1, 2], by simp⟩, ⟨[0, 4], by simp⟩, ⟨2, by decide⟩⟩]⟩

theorem compare_exact_across_the_seam :
    ∃ report, compare M3State.genesis placedTwice [acrossTheSeam] [acrossTheSeam] = .ok report ∧
      report.map (fun c => (c.u1.ordinal, c.u2.ordinal, c.width)) =
        [(2, 2, 2), (2, 5, 1), (4, 4, 2), (5, 2, 1)] ∧
      (∀ d1 p d2 q, Reports report d1 p d2 q ↔
        Shared M3State.genesis placedTwice [acrossTheSeam] [acrossTheSeam] d1 p d2 q) := by
  have h : compare M3State.genesis placedTwice [acrossTheSeam] [acrossTheSeam] =
      .ok [⟨headDocument, ⟨1, 2⟩, headDocument, ⟨1, 2⟩, 2⟩,
        ⟨headDocument, ⟨1, 2⟩, headDocument, ⟨1, 5⟩, 1⟩,
        ⟨headDocument, ⟨1, 4⟩, headDocument, ⟨1, 4⟩, 2⟩,
        ⟨headDocument, ⟨1, 5⟩, headDocument, ⟨1, 2⟩, 1⟩] := by decide +kernel
  exact ⟨_, h, rfl, ((compare_exact _ _ _ _).2 _ h).1⟩

end Retrieval
