import Skep.Address.Arithmetic
import Skep.Library.HalfOpen

/-!
# Spans

A span is a start and a displacement inside the sum's domain, so its reach
always exists and stands past the start. Every operation on several spans
works on their endpoints and rebuilds a span from endpoints of one length.
-/

/-- The clause of T12 a width breaks. -/
inductive T12Clause where
  | zeroWidth
  | actionPointTooDeep
  deriving DecidableEq, Repr

/-- The clause of well-formedness two endpoints break. -/
inductive WfError where
  | notIncreasing
  | levelMismatch
  deriving DecidableEq, Repr

/-- Operands outside one length class. -/
inductive LevelMismatch where
  | mk
  deriving DecidableEq, Repr

/-- A start and a displacement the sum accepts. -/
structure Span where
  start : Tumbler
  width : Tumbler
  t12 : ∃ k, addDomain start width = .ok k

namespace Span

@[ext] theorem ext {a b : Span} (hs : a.start = b.start) (hw : a.width = b.width) : a = b := by
  cases a
  cases b
  simp_all

instance : DecidableEq Span := fun a b =>
  decidable_of_iff (a.start = b.start ∧ a.width = b.width)
    ⟨fun h => ext h.1 h.2, fun h => h ▸ ⟨rfl, rfl⟩⟩

/-- The constructor, refusing the clause of the sum's domain it breaks. -/
def new (start width : Tumbler) : Outcome T12Clause Span :=
  match h : addDomain start width with
  | .ok k => .ok ⟨start, width, k, h⟩
  | .err .zeroDisplacement => .err .zeroWidth
  | .err .actionPointTooDeep => .err .actionPointTooDeep
  | .fault => .fault

/-- The span between two endpoints. -/
def fromEndpoints (s r : Tumbler) : Outcome WfError Span := do
  Outcome.refuseIf (s.len ≠ r.len) .levelMismatch
  Outcome.refuseIf (r ≤ s) .notIncreasing
  let width ← (sub r s).expect
  (new s width).expect

/-- The first point past the span. -/
def reach (s : Span) : Tumbler :=
  match h : addDomain s.start s.width with
  | .ok k => sumAt k s.start s.width
  | .err _ => absurd s.t12 (by simp [h])
  | .fault => absurd s.t12 (by simp [h])

/-- Whether `t` lies in the span. -/
def contains (s : Span) (t : Tumbler) : Bool := decide (s.start ≤ t) && decide (t < s.reach)

/-- Whether start and width have one length. -/
def isLevelUniform (s : Span) : Bool := s.start.len == s.width.len

theorem new_eq_ok {start width : Tumbler} {k : ℕ} (h : addDomain start width = .ok k) :
    new start width = .ok ⟨start, width, k, h⟩ := by
  rw [new]
  split
  · rfl
  all_goals simp_all

theorem add_eq_reach (s : Span) : add s.start s.width = .ok s.reach := by
  obtain ⟨k, hk⟩ := s.t12
  rw [add_of_addDomain hk, reach]
  split
  · next k' h' =>
    rw [hk] at h'
    cases h'
    rfl
  all_goals simp_all

theorem reach_eq_sumAt {s : Span} {k : ℕ} (h : addDomain s.start s.width = .ok k) :
    s.reach = sumAt k s.start s.width := by
  have := s.add_eq_reach
  rw [add_of_addDomain h] at this
  exact (Outcome.ok.inj this).symm

theorem start_lt_reach (s : Span) : s.start < s.reach := by
  obtain ⟨k, hk⟩ := s.t12
  rw [reach_eq_sumAt hk]
  exact lt_sumAt hk

theorem len_reach (s : Span) : s.reach.len = s.width.len := by
  obtain ⟨k, hk⟩ := s.t12
  rw [reach_eq_sumAt hk]
  exact len_sumAt hk

/-- A span as the half-open interval of its endpoints. -/
def endpoints (s : Span) : HalfOpen Tumbler := ⟨s.start, s.reach, s.start_lt_reach⟩

@[simp] theorem endpoints_lo (s : Span) : s.endpoints.lo = s.start := rfl

@[simp] theorem endpoints_hi (s : Span) : s.endpoints.hi = s.reach := rfl

@[simp] theorem contains_iff {s : Span} {t : Tumbler} :
    s.contains t = true ↔ s.endpoints.Mem t := by
  simp [contains, HalfOpen.Mem]

/-- Both endpoints of the span have length `len`. -/
def AtLength (len : ℕ) (s : Span) : Prop := s.start.len = len ∧ s.reach.len = len

theorem AtLength.len_start {len : ℕ} {s : Span} (h : s.AtLength len) : s.start.len = len := h.1

theorem AtLength.len_reach {len : ℕ} {s : Span} (h : s.AtLength len) : s.reach.len = len := h.2

theorem atLength_iff {len : ℕ} {s : Span} :
    s.AtLength len ↔ s.isLevelUniform = true ∧ s.start.len = len := by
  rw [AtLength, len_reach, isLevelUniform, beq_iff_eq]
  omega

/-- Endpoints of one length, in order, are the endpoints of a span. -/
theorem fromEndpoints_spec {s r : Tumbler} (hlen : s.len = r.len) (hlt : s < r) :
    ∃ span, fromEndpoints s r = .ok span ∧ span.start = s ∧ span.reach = r := by
  obtain ⟨w, k, hsub, hk, hw, hsum⟩ := sub_spec hlen hlt
  refine ⟨⟨s, w, k, hk⟩, ?_, rfl, (reach_eq_sumAt hk).trans hsum⟩
  have hle : ¬ r ≤ s := not_le.2 hlt
  simp [fromEndpoints, Outcome.refuseIf, hlen, hle, hsub, new_eq_ok hk]

theorem exists_subtreeOf (p : Tumbler) :
    ∃ span, fromEndpoints p p.nextAtLength = .ok span ∧ span.start = p ∧ span.reach = p.nextAtLength :=
  fromEndpoints_spec (Tumbler.len_shift p 1).symm p.lt_nextAtLength

/-- The span of a tumbler and everything under it. -/
def subtreeOf (p : Tumbler) : Span :=
  match h : fromEndpoints p p.nextAtLength with
  | .ok span => span
  | .err e => absurd h (by obtain ⟨span, hok, -⟩ := exists_subtreeOf p; simp [hok])
  | .fault => absurd h (by obtain ⟨span, hok, -⟩ := exists_subtreeOf p; simp [hok])

theorem fromEndpoints_subtreeOf (p : Tumbler) :
    fromEndpoints p p.nextAtLength = .ok (subtreeOf p) := by
  obtain ⟨span, hok, -⟩ := exists_subtreeOf p
  rw [subtreeOf]
  split
  · next h => exact h
  · next h => simp [hok] at h
  · next h => simp [hok] at h

@[simp] theorem start_subtreeOf (p : Tumbler) : (subtreeOf p).start = p := by
  obtain ⟨span, hok, hs, -⟩ := exists_subtreeOf p
  rw [fromEndpoints_subtreeOf] at hok
  rw [Outcome.ok.inj hok, hs]

@[simp] theorem reach_subtreeOf (p : Tumbler) : (subtreeOf p).reach = p.nextAtLength := by
  obtain ⟨span, hok, -, hr⟩ := exists_subtreeOf p
  rw [fromEndpoints_subtreeOf] at hok
  rw [Outcome.ok.inj hok, hr]

/-- The span between an interval's endpoints. -/
def ofEndpoints (e : HalfOpen Tumbler) : Outcome WfError Span := fromEndpoints e.lo e.hi

theorem ofEndpoints_spec {e : HalfOpen Tumbler} (h : e.lo.len = e.hi.len) :
    ∃ span, ofEndpoints e = .ok span ∧ span.endpoints = e := by
  obtain ⟨span, hok, hs, hr⟩ := fromEndpoints_spec h e.lt
  exact ⟨span, hok, HalfOpen.ext hs hr⟩

/-- Intervals whose ends all have one length are the endpoints of the spans
the conversion of them returns. -/
theorem mapM_ofEndpoints {ε : Type} {len : ℕ} {l : List (HalfOpen Tumbler)}
    (h : HalfOpen.EndsIn (fun t => t.len = len) l) :
    ∃ spans : List Span, l.mapM (fun e => (ofEndpoints e).expect) = Outcome.ok (ε := ε) spans ∧
      spans.map endpoints = l ∧ ∀ s ∈ spans, s.AtLength len := by
  induction l with
  | nil => exact ⟨[], rfl, rfl, by simp⟩
  | cons e l ih =>
    obtain ⟨hat, hl⟩ := HalfOpen.endsIn_cons.1 h
    obtain ⟨s, hs, he⟩ := ofEndpoints_spec (hat.1.trans hat.2.symm)
    obtain ⟨spans, hspans, hmap, hrest⟩ := ih hl
    refine ⟨s :: spans, ?_, by rw [List.map_cons, he, hmap], fun s' h' => ?_⟩
    · rw [List.mapM_cons, hs, hspans]
      rfl
    · rcases List.mem_cons.1 h' with rfl | h'
      · rw [← he] at hat
        exact hat
      · exact hrest s' h'

end Span

/-- How two spans stand to each other. -/
inductive SpanRel where
  | separated
  | adjacent
  | properOverlap
  | containment
  | equal
  deriving DecidableEq, Repr

/-- How two spans stand to each other, with the side that holds or leads. -/
inductive OrientedRel where
  | separated
  | adjacent
  | equal
  | aContainsB
  | bContainsA
  | overlapAFirst
  | overlapBFirst
  deriving DecidableEq, Repr

/-- The relation of two pairs of endpoints, of any lengths. -/
def relate (a b : HalfOpen Tumbler) : OrientedRel :=
  let maxStart := max a.lo b.lo
  let minReach := min a.hi b.hi
  if maxStart > minReach then .separated
  else if maxStart = minReach then .adjacent
  else if a.lo = b.lo ∧ a.hi = b.hi then .equal
  else if a.lo ≤ b.lo ∧ b.hi ≤ a.hi then .aContainsB
  else if b.lo ≤ a.lo ∧ a.hi ≤ b.hi then .bContainsA
  else if a.lo < b.lo then .overlapAFirst
  else .overlapBFirst

/-- The relation of two spans. -/
def classifySpans (a b : Span) : SpanRel :=
  match relate a.endpoints b.endpoints with
  | .separated => .separated
  | .adjacent => .adjacent
  | .equal => .equal
  | .aContainsB | .bContainsA => .containment
  | .overlapAFirst | .overlapBFirst => .properOverlap

/-- Two spans are classified as separated exactly where a gap stands between them. -/
theorem classifySpans_eq_separated_iff {a b : Span} :
    classifySpans a b = .separated ↔ HalfOpen.Separated a.endpoints b.endpoints := by
  have hrel : relate a.endpoints b.endpoints = .separated ↔
      HalfOpen.Separated a.endpoints b.endpoints := by
    simp only [relate, HalfOpen.Separated, gt_iff_lt]
    split_ifs <;> simp_all
  rw [← hrel, classifySpans]
  split <;> simp_all

/-- The shared part of two pairs of endpoints. -/
def intersection (a b : HalfOpen Tumbler) : Outcome LevelMismatch (Option Span) :=
  if max a.lo b.lo < min a.hi b.hi then do
    let s ← (Span.fromEndpoints (max a.lo b.lo) (min a.hi b.hi)).expect
    return some s
  else return none

/-- The endpoints of two spans of one length class. -/
def gatedEndpoints (a b : Span) :
    Outcome LevelMismatch (HalfOpen Tumbler × HalfOpen Tumbler) :=
  if a.isLevelUniform ∧ b.isLevelUniform ∧ a.start.len = b.start.len then
    return (a.endpoints, b.endpoints)
  else .err .mk

/-- The intersection of two spans of one length class. -/
def intersect (a b : Span) : Outcome LevelMismatch (Option Span) := do
  let (ea, eb) ← gatedEndpoints a b
  intersection ea eb

/-- Within one length class the intersection is there exactly where the spans
share a point, and then holds the shared points. -/
theorem intersect_spec {len : ℕ} {a b : Span} (ha : a.AtLength len) (hb : b.AtLength len) :
    (max a.start b.start < min a.reach b.reach ∧ ∃ s, intersect a b = .ok (some s) ∧
        s.start = max a.start b.start ∧ s.reach = min a.reach b.reach) ∨
      (min a.reach b.reach ≤ max a.start b.start ∧ intersect a b = .ok none) := by
  obtain ⟨hua, hla⟩ := Span.atLength_iff.1 ha
  obtain ⟨hub, hlb⟩ := Span.atLength_iff.1 hb
  have hgate : gatedEndpoints a b = .ok (a.endpoints, b.endpoints) := by
    rw [gatedEndpoints, if_pos ⟨hua, hub, hla.trans hlb.symm⟩]
    rfl
  rw [intersect, hgate, Outcome.ok_bind]
  by_cases hlt : max a.start b.start < min a.reach b.reach
  · have hlen : (max a.start b.start).len = (min a.reach b.reach).len := by
      rcases max_choice a.start b.start with h | h <;>
        rcases min_choice a.reach b.reach with h' | h' <;>
        simp only [h, h', ha.len_start, ha.len_reach, hb.len_start, hb.len_reach]
    obtain ⟨s, hs, h1, h2⟩ := Span.fromEndpoints_spec hlen hlt
    refine .inl ⟨hlt, s, ?_, h1, h2⟩
    simp [intersection, hlt, hs]
  · exact .inr ⟨not_lt.1 hlt, by simp [intersection, hlt]⟩
