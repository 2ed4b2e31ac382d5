import Skep.Address.Address
import Skep.Address.Span

/-!
# Runs

A run is a block of consecutive element addresses: a full element position and
a positive width. It stands for the plain list of its addresses, and covers
exactly the tumblers its I-extent holds.
-/

namespace Run

/-- Whether a run may start at `a`: a full element position. -/
def admitsStart (a : Address) : Bool :=
  match a.elementField with
  | some e => e.length == 2
  | none => false

end Run

/-- A block of `width` consecutive element addresses from `iStart`. -/
structure Run where
  iStart : Address
  width : ℕ
  pos : 0 < width
  full : Run.admitsStart iStart = true

/-- Why a run was refused. -/
inductive RunError where
  | zeroWidth
  | notAnElementPosition
  deriving DecidableEq, Repr

namespace Run

@[ext] theorem ext {r s : Run} (hs : r.iStart = s.iStart) (hw : r.width = s.width) : r = s := by
  cases r
  cases s
  simp_all

instance : DecidableEq Run := fun r s =>
  decidable_of_iff (r.iStart = s.iStart ∧ r.width = s.width)
    ⟨fun h => ext h.1 h.2, fun h => h ▸ ⟨rfl, rfl⟩⟩

/-- The constructor. -/
def new (iStart : Address) (width : ℕ) : Outcome RunError Run :=
  if h : 0 < width then
    if h' : admitsStart iStart = true then .ok ⟨iStart, width, h, h'⟩
    else .err .notAnElementPosition
  else .err .zeroWidth

/-- The tumbler at an offset. -/
def tumblerAt (r : Run) (k : ℕ) : Tumbler := r.iStart.tumbler.shift k

/-- The address at an offset. -/
def addrAt (r : Run) (k : ℕ) : Address := r.iStart.advance k

/-- The first tumbler past the run. -/
def reach (r : Run) : Tumbler := r.tumblerAt r.width

/-- The addresses of the run, in order. -/
def addrs (r : Run) : List Address := (List.range r.width).map r.addrAt

@[simp] theorem tumbler_addrAt (r : Run) (k : ℕ) : (r.addrAt k).tumbler = r.tumblerAt k := rfl

@[simp] theorem length_addrs (r : Run) : r.addrs.length = r.width := by
  simp [addrs]

/-- A full element position is its document, a separator, a subspace and an
ordinal, all of them positive. -/
theorem admitsStart_iff {a : Address} : admitsStart a = true ↔
    ∃ d : Address, d.level = .document ∧ ∃ s n, 0 < s ∧ 0 < n ∧ a.comps = d.comps ++ [0, s, n] := by
  constructor
  · intro h
    have hlv : a.level = .element := by
      by_contra hne
      rw [admitsStart, Address.elementField_eq_none hne] at h
      simp at h
    obtain ⟨d, hd, e, -, hz, hcomps, -, hfield⟩ := Address.exists_document hlv
    rw [admitsStart, hfield] at h
    match e, h with
    | [s, n], _ =>
      simp only [List.mem_cons, List.not_mem_nil, or_false, not_or] at hz
      exact ⟨d, hd, s, n, by omega, by omega, hcomps⟩
  · rintro ⟨d, hd, s, n, hs, hn, hcomps⟩
    obtain ⟨-, -, hfield⟩ := element_of_parts (e := [s, n]) hd (by simp)
      (by simp; omega) hcomps
    rw [admitsStart, hfield]
    rfl

/-- The shift of a full element position moves its ordinal alone. -/
theorem comps_advance_of_parts {a : Address} {p : List ℕ} {n : ℕ} (h : a.comps = p ++ [n]) (k : ℕ) :
    (a.advance k).comps = p ++ [n + k] := by
  have hsnoc : a.tumbler = Tumbler.snoc p n := Tumbler.ext h
  rw [Address.comps, Address.tumbler_advance, hsnoc, Tumbler.shift_snoc, Tumbler.comps_snoc]

theorem admitsStart_advance {a : Address} (h : admitsStart a = true) (k : ℕ) :
    admitsStart (a.advance k) = true := by
  obtain ⟨d, hd, s, n, hs, hn, hcomps⟩ := admitsStart_iff.1 h
  refine admitsStart_iff.2 ⟨d, hd, s, n + k, hs, by omega, ?_⟩
  have hparts : a.comps = (d.comps ++ [0, s]) ++ [n] := by simp [hcomps]
  simpa using comps_advance_of_parts hparts k

/-- The run of `n` addresses from offset `off`. -/
def clip (r : Run) (off n : ℕ) (h : 0 < n) : Run :=
  ⟨r.addrAt off, n, h, admitsStart_advance r.full off⟩

@[simp] theorem iStart_clip (r : Run) (off n : ℕ) (h : 0 < n) :
    (r.clip off n h).iStart = r.iStart.advance off := rfl

@[simp] theorem width_clip (r : Run) (off n : ℕ) (h : 0 < n) : (r.clip off n h).width = n := rfl

theorem getElem?_addrs {r : Run} {k : ℕ} (h : k < r.width) : r.addrs[k]? = some (r.addrAt k) := by
  simp [addrs, h]

/-- A run of `m + n` addresses is one of `m` and the `n` past them. -/
theorem range_map_advance (a : Address) (m n : ℕ) : (List.range (m + n)).map a.advance =
    (List.range m).map a.advance ++ (List.range n).map (a.advance m).advance := by
  rw [List.range_add, List.map_append, List.map_map]
  congr 1
  exact List.map_congr_left fun k _ => (Address.advance_advance a m k).symm

theorem addrs_eq (r : Run) : r.addrs = (List.range r.width).map r.iStart.advance := rfl

theorem addrs_cons (r : Run) : ∃ rest, r.addrs = r.iStart :: rest := by
  obtain ⟨n, hn⟩ := Nat.exists_eq_add_of_lt r.pos
  have hw : r.width = 1 + n := by omega
  refine ⟨(List.range n).map (r.iStart.advance 1).advance, ?_⟩
  rw [addrs_eq, hw, range_map_advance]
  simp

theorem addrs_clip {r : Run} {k n : ℕ} (h : 0 < n) (hle : k + n ≤ r.width) :
    (r.clip k n h).addrs = (r.addrs.drop k).take n := by
  obtain ⟨m, hm⟩ := Nat.exists_eq_add_of_le hle
  rw [addrs_eq, addrs_eq, hm, Nat.add_assoc, range_map_advance, range_map_advance]
  simp

theorem mem_addrs_iff {r : Run} {x : Address} : x ∈ r.addrs ↔ ∃ k < r.width, x = r.addrAt k := by
  simp [addrs, eq_comm]

theorem iStart_lt_reach (r : Run) : r.iStart.tumbler < r.reach := by
  have := Tumbler.shift_lt_shift (t := r.iStart.tumbler).2 r.pos
  rwa [Tumbler.shift_zero] at this

theorem new_eq_ok_iff {a : Address} {n : ℕ} {run : Run} :
    new a n = .ok run ↔ run.iStart = a ∧ run.width = n := by
  rw [new]
  split
  · split
    · rw [Outcome.ok.injEq]
      exact ⟨fun h => h ▸ ⟨rfl, rfl⟩, fun h => ext h.1.symm h.2.symm⟩
    · next h =>
      simp only [reduceCtorEq, false_iff, not_and]
      rintro rfl
      exact absurd run.full h
  · next h =>
    simp only [reduceCtorEq, false_iff, not_and]
    rintro - rfl
    exact h run.pos

theorem fromEndpoints_reach (r : Run) : ∃ s, Span.fromEndpoints r.iStart.tumbler r.reach = .ok s ∧
    s.start = r.iStart.tumbler ∧ s.reach = r.reach :=
  Span.fromEndpoints_spec (r.iStart.tumbler.len_shift r.width).symm r.iStart_lt_reach

/-- The run's extent as a span. -/
def iextent (r : Run) : Span :=
  match h : Span.fromEndpoints r.iStart.tumbler r.reach with
  | .ok s => s
  | .err _ => absurd r.fromEndpoints_reach (by simp [h])
  | .fault => absurd r.fromEndpoints_reach (by simp [h])

theorem iextent_endpoints (r : Run) :
    r.iextent.start = r.iStart.tumbler ∧ r.iextent.reach = r.reach := by
  obtain ⟨s, hs, h1, h2⟩ := r.fromEndpoints_reach
  rw [iextent]
  split
  · next s' hs' =>
    rw [hs] at hs'
    cases hs'
    exact ⟨h1, h2⟩
  all_goals simp_all

theorem iextent_contains_iff {r : Run} {t : Tumbler} :
    r.iextent.contains t = true ↔ r.iStart.tumbler ≤ t ∧ t < r.reach := by
  obtain ⟨h1, h2⟩ := r.iextent_endpoints
  rw [Span.contains, h1, h2, Bool.and_eq_true, decide_eq_true_eq, decide_eq_true_eq]

theorem iextent_atLength (r : Run) : r.iextent.AtLength r.iStart.tumbler.len := by
  obtain ⟨h1, h2⟩ := r.iextent_endpoints
  exact ⟨by rw [h1], by rw [h2]; exact r.iStart.tumbler.len_shift r.width⟩

/-- A full element position lies in the extent exactly when the run stands for it. -/
theorem mem_iextent_iff {r : Run} {x : Address} (hx : admitsStart x = true) :
    r.iextent.contains x.tumbler = true ↔ x ∈ r.addrs := by
  rw [iextent_contains_iff, mem_addrs_iff]
  obtain ⟨d, hd, s, n, -, -, hcomps⟩ := admitsStart_iff.1 r.full
  have hstart : r.iStart.tumbler.comps = (d.comps ++ [0, s]) ++ [n] := by
    rw [← Address.comps, hcomps]
    simp
  have hreach : r.reach.comps = (d.comps ++ [0, s]) ++ [n + r.width] :=
    comps_advance_of_parts hstart r.width
  rw [Tumbler.between_siblings hstart hreach]
  constructor
  · rintro ⟨k, rest, hk, hle, hlt⟩
    -- a full position has no component past its ordinal
    have hparts : x.comps = d.comps ++ 0 :: (s :: k :: rest) := by
      rw [Address.comps, hk]
      simp
    obtain ⟨hne, hz⟩ := zeroFree_of_parts hd hparts
    obtain ⟨-, -, hfield⟩ := element_of_parts hd hne hz hparts
    have hrest : rest = [] := by
      rw [admitsStart, hfield] at hx
      simpa using hx
    refine ⟨k - n, by omega, Address.ext ?_⟩
    have hadv := comps_advance_of_parts (a := r.iStart) hstart (k - n)
    rw [Nat.add_sub_cancel' hle] at hadv
    rw [hk, hrest]
    exact hadv.symm
  · rintro ⟨k, hk, rfl⟩
    exact ⟨n + k, [], comps_advance_of_parts (a := r.iStart) hstart k, by omega, by omega⟩

/-- The offsets `[lo, hi)` of a run. -/
structure OffsetRange where
  lo : ℕ
  hi : ℕ
  deriving DecidableEq, Repr

/-- The binary search of `[lo, hi)` for the first offset at or past `bound`. -/
def lowerBoundFrom (r : Run) (bound : Tumbler) (lo hi : ℕ) : ℕ :=
  if h : lo < hi then
    let mid := (lo + hi) / 2
    if bound ≤ r.tumblerAt mid then lowerBoundFrom r bound lo mid
    else lowerBoundFrom r bound (mid + 1) hi
  else lo
termination_by hi - lo

/-- The first offset at or past `bound`, the width where there is none. -/
def lowerBound (r : Run) (bound : Tumbler) : ℕ := r.lowerBoundFrom bound 0 r.width

/-- The offsets of the run a span covers. Inside the run's length class the
intersection gives them, elsewhere a search over the offsets. -/
def offsetsCoveredBy (r : Run) (span : Span) : Outcome Empty (Option OffsetRange) :=
  if span.isLevelUniform ∧ span.start.len = r.iStart.tumbler.len then do
    match ← (intersect r.iextent span).expect with
    | none => return none
    | some intersection =>
        let startOrdinal := ordinal r.iStart.tumbler
        let lo ← Outcome.natSub (ordinal intersection.start) startOrdinal
        let hi ← Outcome.natSub (ordinal intersection.reach) startOrdinal
        return some ⟨lo, hi⟩
  else
    let kLo := r.lowerBound span.start
    let kHi := r.lowerBound span.reach
    return if kLo < kHi then some ⟨kLo, kHi⟩ else none

theorem tumblerAt_lt_tumblerAt {r : Run} {j k : ℕ} : r.tumblerAt j < r.tumblerAt k ↔ j < k :=
  Tumbler.shift_lt_shift

theorem iStart_le_tumblerAt (r : Run) (k : ℕ) : r.iStart.tumbler ≤ r.tumblerAt k := by
  have := Tumbler.shift_le_shift (t := r.iStart.tumbler).2 (Nat.zero_le k)
  rwa [Tumbler.shift_zero] at this

theorem lowerBoundFrom_spec (r : Run) (bound : Tumbler) (lo hi : ℕ) (h : lo ≤ hi) :
    lo ≤ r.lowerBoundFrom bound lo hi ∧ r.lowerBoundFrom bound lo hi ≤ hi ∧
      (∀ k, lo ≤ k → k < r.lowerBoundFrom bound lo hi → r.tumblerAt k < bound) ∧
      ∀ k, r.lowerBoundFrom bound lo hi ≤ k → k < hi → bound ≤ r.tumblerAt k := by
  induction lo, hi using lowerBoundFrom.induct r bound with
  | case1 lo hi hlt mid hge ih =>
    obtain ⟨h1, h2, h3, h4⟩ := ih (by omega)
    have heq : r.lowerBoundFrom bound lo hi = r.lowerBoundFrom bound lo mid := by
      rw [lowerBoundFrom, dif_pos hlt]
      exact if_pos hge
    rw [heq]
    refine ⟨h1, by omega, h3, fun k hk hk' => ?_⟩
    rcases Nat.lt_or_ge k mid with hm | hm
    · exact h4 k hk hm
    · exact hge.trans (Tumbler.shift_le_shift.2 hm)
  | case2 lo hi hlt mid hge ih =>
    obtain ⟨h1, h2, h3, h4⟩ := ih (by omega)
    have heq : r.lowerBoundFrom bound lo hi = r.lowerBoundFrom bound (mid + 1) hi := by
      rw [lowerBoundFrom, dif_pos hlt]
      exact if_neg hge
    rw [heq]
    refine ⟨by omega, h2, fun k hk hk' => ?_, h4⟩
    rcases Nat.lt_or_ge mid k with hm | hm
    · exact h3 k hm hk'
    · exact (Tumbler.shift_le_shift.2 hm).trans_lt (not_le.1 hge)
  | case3 lo hi hge =>
    rw [lowerBoundFrom, dif_neg hge]
    exact ⟨le_rfl, h, fun k h1 h2 => by omega, fun k h1 h2 => by omega⟩

/-- The search answers where the offsets below `bound` end. -/
theorem lt_lowerBound_iff {r : Run} {bound : Tumbler} {k : ℕ} (hk : k < r.width) :
    k < r.lowerBound bound ↔ r.tumblerAt k < bound := by
  obtain ⟨-, -, h3, h4⟩ := r.lowerBoundFrom_spec bound 0 r.width (Nat.zero_le _)
  refine ⟨h3 k (Nat.zero_le k), fun hlt => ?_⟩
  by_contra hge
  exact not_lt.2 (h4 k (not_lt.1 hge) hk) hlt

theorem lowerBound_le (r : Run) (bound : Tumbler) : r.lowerBound bound ≤ r.width :=
  (r.lowerBoundFrom_spec bound 0 r.width (Nat.zero_le _)).2.1

/-- What the offsets answered for a span say about it. -/
def CoveredOffsets (r : Run) (span : Span) (o : Option OffsetRange) : Prop :=
  (∀ o' ∈ o, o'.lo < o'.hi ∧ o'.hi ≤ r.width) ∧
    ∀ k < r.width, span.contains (r.tumblerAt k) = true ↔ ∃ o' ∈ o, o'.lo ≤ k ∧ k < o'.hi

/-- **The covered offsets are answered without a fault.** -/
theorem offsetsCoveredBy_spec (r : Run) (span : Span) :
    ∃ o, r.offsetsCoveredBy span = .ok o ∧ r.CoveredOffsets span o := by
  rw [offsetsCoveredBy]
  split
  · next hclass =>
    have hspan : span.AtLength r.iStart.tumbler.len := Span.atLength_iff.2 hclass
    obtain ⟨hstart, hreach⟩ := r.iextent_endpoints
    rcases intersect_spec r.iextent_atLength hspan with ⟨hlt, s, hs, h1, h2⟩ | ⟨hge, hs⟩
    · rw [hstart] at hlt h1
      rw [hreach] at hlt h2
      have hslen : s.start.len = r.iStart.tumbler.len := by
        rcases max_choice r.iStart.tumbler span.start with h | h
        · rw [h1, h]
        · rw [h1, h, hspan.len_start]
      have hrlen : s.reach.len = r.iStart.tumbler.len := by
        rcases min_choice r.reach span.reach with h | h
        · rw [h2, h]
          exact r.iStart.tumbler.len_shift r.width
        · rw [h2, h, hspan.len_reach]
      -- both ends of the intersection are siblings of the start
      have hin : r.iStart.tumbler ≤ s.start ∧ s.reach ≤ r.reach :=
        ⟨h1 ▸ le_max_left _ _, h2 ▸ min_le_left _ _⟩
      obtain ⟨lo, -, hslo⟩ := Tumbler.exists_shift_of_between hslen hin.1
        (s.start_lt_reach.le.trans hin.2)
      obtain ⟨hi, hhi, hshi⟩ := Tumbler.exists_shift_of_between hrlen
        (hin.1.trans s.start_lt_reach.le) hin.2
      refine ⟨some ⟨lo, hi⟩, ?_, ?_, fun k hk => ?_⟩
      · simp [hs, hslo, hshi]
      · rintro o ⟨⟩
        have := s.start_lt_reach
        rw [hslo, hshi] at this
        exact ⟨Tumbler.shift_lt_shift.1 this, hhi⟩
      · have hk1 := r.iStart_le_tumblerAt k
        have hk2 : r.tumblerAt k < r.reach := Tumbler.shift_lt_shift.2 hk
        have hboth : span.contains (r.tumblerAt k) = true ↔
            s.start ≤ r.tumblerAt k ∧ r.tumblerAt k < s.reach := by
          rw [h1, h2, max_le_iff, lt_min_iff, Span.contains, Bool.and_eq_true, decide_eq_true_eq,
            decide_eq_true_eq]
          tauto
        rw [hboth, hslo, hshi, tumblerAt, Tumbler.shift_le_shift, Tumbler.shift_lt_shift]
        simp
    · refine ⟨none, by simp [hs], by simp, fun k hk => ?_⟩
      rw [hstart, hreach] at hge
      simp only [Option.mem_def, reduceCtorEq, false_and, exists_false, iff_false, Span.contains,
        Bool.and_eq_true, decide_eq_true_eq, not_and, not_lt]
      intro hle
      by_contra hlt
      exact not_lt.2 (hge.trans (max_le (r.iStart_le_tumblerAt k) hle))
        (lt_min (Tumbler.shift_lt_shift.2 hk) (not_le.1 hlt))
  · next hclass =>
    refine ⟨_, rfl, ?_, fun k hk => ?_⟩
    · have := r.lowerBound_le span.reach
      intro o' ho'
      split at ho'
      · cases ho'
        exact ⟨‹_›, this⟩
      · cases ho'
    · rw [Span.contains, Bool.and_eq_true, decide_eq_true_eq, decide_eq_true_eq,
        ← lt_lowerBound_iff hk, ← not_lt, ← lt_lowerBound_iff hk]
      split
      · simp
      · next h =>
        simp only [Option.mem_def, reduceCtorEq, false_and, exists_false, iff_false]
        omega

end Run
