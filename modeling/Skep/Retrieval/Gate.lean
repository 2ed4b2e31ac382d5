import Skep.Address.SpanPairs
import Skep.Arrangement.Reads

/-!
# Gates and budgets of the retrieval reads

How a read takes one request span: which subspace its start names, whether it is well
formed, and how far its resolution can walk; and the count a request is admitted
against.
-/

namespace Retrieval

def maxCompareOperandBlocks : ℕ := 2 ^ 12

def maxComparePairs : ℕ := 2 ^ 16

def maxWalkSteps : ℕ := maxCompareOperandBlocks * maxCompareOperandBlocks

/-- A request ran past its budget. -/
inductive OverBudget where
  | overBudget
  deriving DecidableEq

/-- Items admitted against a budget. -/
structure Count where
  budget : ℕ
  admitted : ℕ
  within : admitted ≤ budget

namespace Count

def against (budget : ℕ) : Count := ⟨budget, 0, Nat.zero_le _⟩

/-- Admit more items, or refuse them all. -/
def admitUnits (c : Count) (items : ℕ) : Outcome OverBudget Count :=
  if h : items ≤ c.budget - c.admitted then
    .ok ⟨c.budget, c.admitted + items, by have := c.within; omega⟩
  else .err .overBudget

theorem admit_eq_ok_iff {c c' : Count} {items : ℕ} : c.admitUnits items = .ok c' ↔
    c'.budget = c.budget ∧ c'.admitted = c.admitted + items := by
  obtain ⟨budget, admitted, within⟩ := c
  obtain ⟨budget', admitted', within'⟩ := c'
  rw [admitUnits]
  simp only
  split
  · next h =>
    simp only [Outcome.ok.injEq, mk.injEq]
    exact ⟨fun ⟨h1, h2⟩ => ⟨h1.symm, h2.symm⟩, fun ⟨h1, h2⟩ => ⟨h1.symm, h2.symm⟩⟩
  · next h =>
    simp only [reduceCtorEq, false_iff, not_and]
    omega

theorem admit_ne_fault (c : Count) (items : ℕ) : c.admitUnits items ≠ .fault := by
  rw [admitUnits]
  split <;> simp

end Count

/-- One of a document's two subspaces. -/
inductive Subspace where
  | content
  | link
  deriving DecidableEq

namespace Subspace

def all : List Subspace := [content, link]

def numeral : Subspace → ℕ
  | content => contentSubspace
  | link => linkSubspace

/-- Which subspace a numeral names, none for a foreign one. -/
def ofNumeral (s : ℕ) : Option Subspace := all.find? fun sub => sub.numeral == s

/-- The subspace a span's start names. -/
def ofSpan (span : Span) : Option Subspace :=
  ofNumeral (span.start.comps.head span.start.nonempty)

def runCount (sub : Subspace) (m5 : M5State) (doc : Address) : ℕ :=
  match sub with
  | content => m5.contentRunCount doc
  | link => (m5.linkList doc).runs.length

end Subspace

/-- An upper bound on the run-list steps the resolution of a span takes. -/
def walkPrice (m5 : M5State) (doc : Address) (span : Span) : ℕ :=
  let runCount := match Subspace.ofSpan span with
    | some sub => sub.runCount m5 doc
    | none => (Subspace.all.map fun sub => sub.runCount m5 doc).sum
  match asOrdinalVspan span with
  -- A reach past the machine's word prices the whole list.
  | some shape => if shape.ordinal + shape.count < 2 ^ 64 then min (shape.ordinal + shape.count) runCount
      else runCount
  | none => runCount

/-- Why a span is not well formed. -/
inductive SpanFault where
  | notLevelUniform
  | notOrdinalLevel
  | startNotZeroFree
  | startTooShallow
  deriving DecidableEq

/-- The well-formedness of a span, the first fault in order. -/
def gateVspan (span : Span) : Outcome SpanFault Unit := do
  Outcome.refuseIf (span.isLevelUniform = false) .notLevelUniform
  Outcome.refuseIf (actionPoint span.width ≠ some span.width.len) .notOrdinalLevel
  Outcome.refuseIf (span.start.comps.count 0 ≠ 0) .startNotZeroFree
  Outcome.refuseIf (span.start.len < 2) .startTooShallow

theorem gateVspan_ne_fault (span : Span) : gateVspan span ≠ .fault := by
  refine Outcome.bind_ne_fault (by simp) fun _ => Outcome.bind_ne_fault (by simp) fun _ => ?_
  exact Outcome.bind_ne_fault (by simp) fun _ => by simp

/-- A span past the gate runs over the siblings of its start. -/
theorem gateVspan_parts {span : Span} (h : gateVspan span = .ok ()) : ∃ front n c,
    span.start.comps = front ++ [n] ∧ span.width.comps = List.replicate front.length 0 ++ [c] ∧
      span.reach.comps = front ++ [n + c] ∧ front ≠ [] ∧ 0 < n := by
  simp only [gateVspan, Outcome.bind_eq_ok_iff, Outcome.refuseIf_eq_ok_iff, not_not, not_lt,
    Bool.not_eq_false] at h
  obtain ⟨_, huniform, _, haction, _, hzeros, hdepth⟩ := h
  rw [Span.isLevelUniform, beq_iff_eq] at huniform
  obtain ⟨n, front, hstart⟩ : ∃ n front, span.start.comps = front ++ [n] := by
    rcases List.eq_nil_or_concat span.start.comps with hnil | ⟨front, n, hcat⟩
    · exact absurd hnil span.start.nonempty
    · exact ⟨n, front, by simpa using hcat⟩
  have hlen : span.width.comps.length = front.length + 1 := by
    have : span.start.comps.length = span.width.comps.length := huniform
    rw [← this, hstart]
    simp
  have hparts := comps_of_actionPoint haction
  have hwidth : span.width.len = front.length + 1 := hlen
  rw [hwidth, Nat.add_sub_cancel, List.drop_of_length_le hlen.le] at hparts
  obtain ⟨c, hc⟩ : ∃ c, span.width.comps.getD front.length 0 = c := ⟨_, rfl⟩
  rw [hc] at hparts
  have hdomain : addDomain span.start span.width = .ok (front.length + 1) :=
    addDomain_eq_ok_iff.2 ⟨hwidth ▸ haction, huniform.trans hwidth |>.ge⟩
  refine ⟨front, n, c, hstart, hparts, ?_, ?_, ?_⟩
  · rw [Span.reach_eq_sumAt hdomain, sumAt]
    simp [hstart, hparts, List.getD_eq_getElem?_getD]
  · rintro rfl
    simp [Tumbler.len, hstart] at hdepth
  · rw [hstart, List.count_append] at hzeros
    rcases Nat.eq_zero_or_pos n with rfl | hn
    · simp at hzeros
    · exact hn

/-- The two-component positions of a span past the gate are those of its ordinal range. -/
theorem contains_position_iff {span : Span} (h : gateVspan span = .ok ()) (p : VPos) :
    span.contains p.tumbler = true ↔ ∃ shape, asOrdinalVspan span = some shape ∧
      shape.subspace = p.subspace ∧ shape.ordinal ≤ p.ordinal ∧
        p.ordinal < shape.ordinal + shape.count := by
  obtain ⟨front, n, c, hstart, hwidth, hreach, hfront, -⟩ := gateVspan_parts h
  rw [Span.contains, Bool.and_eq_true, decide_eq_true_eq, decide_eq_true_eq,
    Tumbler.between_siblings hstart hreach]
  cases front with
  | nil => exact absurd rfl hfront
  | cons s front =>
    cases front with
    | nil =>
      have hshape : asOrdinalVspan span = some ⟨s, n, c⟩ := by
        simp [asOrdinalVspan, Tumbler.len, Tumbler.get, hstart, hwidth]
      simp only [hshape, Option.some.injEq, exists_eq_left', VPos.tumbler, List.cons_append,
        List.nil_append, List.cons.injEq]
      constructor
      · rintro ⟨k, rest, ⟨rfl, rfl, -⟩, hk⟩
        exact ⟨rfl, hk⟩
      · rintro ⟨rfl, hk⟩
        exact ⟨p.ordinal, [], ⟨rfl, rfl, rfl⟩, hk⟩
    | cons s' front =>
      have hshape : asOrdinalVspan span = none := by
        simp [asOrdinalVspan, Tumbler.len, hstart]
      simp [hshape, VPos.tumbler]

/-- The range of a span past the gate begins at a position. -/
theorem ordinal_pos_of_gated {span : Span} {shape : OrdinalVSpan} (h : gateVspan span = .ok ())
    (hshape : asOrdinalVspan span = some shape) : 1 ≤ shape.ordinal := by
  obtain ⟨front, n, c, hstart, hwidth, -, hfront, hn⟩ := gateVspan_parts h
  cases front with
  | nil => exact absurd rfl hfront
  | cons s front =>
    cases front with
    | nil =>
      simp [asOrdinalVspan, Tumbler.len, Tumbler.get, hstart, hwidth] at hshape
      rw [← hshape]
      exact hn
    | cons s' front => simp [asOrdinalVspan, Tumbler.len, hstart] at hshape

theorem subspace_of_shape {span : Span} {shape : OrdinalVSpan} (h : asOrdinalVspan span = some shape) :
    span.start.comps.head span.start.nonempty = shape.subspace := by
  rw [asOrdinalVspan] at h
  split at h
  · cases h
  · obtain ⟨s, hs, h⟩ := Option.bind_eq_some_iff.1 h
    obtain ⟨ordinal, -, h⟩ := Option.bind_eq_some_iff.1 h
    obtain ⟨count, -, h⟩ := Option.bind_eq_some_iff.1 h
    cases h
    exact (List.head_eq_iff_head?_eq_some span.start.nonempty).2 (List.head?_eq_getElem?.trans hs)

theorem length_denRuns_iterResolve_le (m5 : M5State) (surface : Address) {span : Span}
    {shape : OrdinalVSpan} (hshape : asOrdinalVspan span = some shape) (hord : 1 ≤ shape.ordinal) :
    (denRuns (m5.iterResolve surface span)).length ≤ shape.count := by
  rw [M5State.iterResolve, hshape]
  simp only
  cases (m5.arrangementOf surface).list shape.subspace with
  | none => exact Nat.zero_le _
  | some list =>
    simp only [RunList.den_iterResolveRange, RunList.positions, List.length_drop, List.length_take]
    omega

/-- A position of a resolution arranges what the resolution's runs stand for there. -/
theorem point_iterResolve (m5 : M5State) (surface : Address) {span : Span} {shape : OrdinalVSpan}
    (hshape : asOrdinalVspan span = some shape) (hord : 1 ≤ shape.ordinal) {k : ℕ}
    (hk : k < shape.count) : m5.point surface ⟨shape.subspace, shape.ordinal + k⟩ =
      (denRuns (m5.iterResolve surface span))[k]? := by
  rw [M5State.point, M5State.iterResolve, hshape]
  simp only
  cases (m5.arrangementOf surface).list shape.subspace with
  | none => rfl
  | some list =>
    have hindex : max shape.ordinal 1 - 1 + k = shape.ordinal + k - 1 := by omega
    simp only [Option.bind_some, RunList.point_eq, RunList.den_iterResolveRange, RunList.positions]
    rw [if_neg (by omega), List.getElem?_drop, List.getElem?_take, hindex, ← RunList.length_den]
    split
    · rfl
    · exact List.getElem?_eq_none (by omega)

/-- The arranged positions a span past the gate names are those of its resolution. -/
theorem arranged_iff (m5 : M5State) (surface : Address) {span : Span} (h : gateVspan span = .ok ())
    (p : VPos) (a : Address) :
    (span.contains p.tumbler = true ∧ m5.point surface p = some a) ↔
      ∃ shape, asOrdinalVspan span = some shape ∧ ∃ k, p = ⟨shape.subspace, shape.ordinal + k⟩ ∧
        (denRuns (m5.iterResolve surface span))[k]? = some a := by
  rw [contains_position_iff h]
  constructor
  · rintro ⟨⟨shape, hshape, hsub, hle, hlt⟩, hpoint⟩
    have hord := ordinal_pos_of_gated h hshape
    obtain ⟨k, hk⟩ := Nat.exists_eq_add_of_le hle
    obtain rfl : p = ⟨shape.subspace, shape.ordinal + k⟩ := by
      cases p
      simp only at hsub hk
      rw [hsub, hk]
    refine ⟨shape, hshape, k, rfl, ?_⟩
    rwa [← point_iterResolve m5 surface hshape hord (by simp only at hlt; omega)]
  · rintro ⟨shape, hshape, k, rfl, hk⟩
    have hord := ordinal_pos_of_gated h hshape
    have hlt : k < shape.count :=
      (List.getElem?_eq_some_iff.1 hk).1.trans_le (length_denRuns_iterResolve_le m5 surface hshape hord)
    refine ⟨⟨shape, hshape, rfl, Nat.le_add_right _ _, Nat.add_lt_add_left hlt _⟩, ?_⟩
    rwa [point_iterResolve m5 surface hshape hord hlt]

end Retrieval
