import Mathlib

/-!
# The merge of ascending streams

Streams of keys, each ascending, are merged into one walk that meets every key once, in
ascending order, with the streams that name it. Each turn takes the least key that heads a
stream and drains every stream of it.
-/

namespace Merge

variable {κ : Type*} [LinearOrder κ]

/-- The least key that heads a stream. -/
def least (streams : List (List κ)) : Option κ := (streams.filterMap List.head?).min?

/-- The streams that a key heads, by their places. -/
def naming (k : κ) (streams : List (List κ)) : List ℕ :=
  (streams.zipIdx.filter fun s => s.1.head? == some k).map Prod.snd

/-- The streams past a key that heads them. -/
def drained (k : κ) (streams : List (List κ)) : List (List κ) :=
  streams.map fun s => s.dropWhile (· == k)

/-- One turn: the least key, what names it, and the streams past it. -/
def next (streams : List (List κ)) : Option (κ × List ℕ × List (List κ)) :=
  (least streams).map fun k => (k, naming k streams, drained k streams)

/-- The turns. Each drops a key of some stream, so as many turns as there are keys are enough. -/
def walkFrom : ℕ → List (List κ) → List (κ × List ℕ)
  | 0, _ => []
  | fuel + 1, streams =>
      match next streams with
      | none => []
      | some (k, named, rest) => (k, named) :: walkFrom fuel rest

def size (streams : List (List κ)) : ℕ := (streams.map List.length).sum

def walk (streams : List (List κ)) : List (κ × List ℕ) := walkFrom (size streams) streams

/-- Every stream ascends. -/
def Ascending (streams : List (List κ)) : Prop := ∀ s ∈ streams, s.Pairwise (· ≤ ·)

/-- A key's stream holds it. -/
def Held (streams : List (List κ)) (i : ℕ) (k : κ) : Prop := ∃ s, streams[i]? = some s ∧ k ∈ s

variable {streams : List (List κ)} {k x : κ} {i : ℕ}

theorem least_le (hasc : Ascending streams) (h : least streams = some k) (hx : Held streams i x) :
    k ≤ x := by
  obtain ⟨s, hs, hx⟩ := hx
  have hmem := List.mem_of_getElem? hs
  cases s with
  | nil => cases hx
  | cons y s =>
    have hky : k ≤ y := (List.min?_eq_some_iff.1 h).2 y (List.mem_filterMap.2 ⟨_, hmem, rfl⟩)
    rcases List.mem_cons.1 hx with rfl | hx
    · exact hky
    · exact hky.trans (List.rel_of_pairwise_cons (hasc _ hmem) hx)

theorem held_least (h : least streams = some k) : ∃ i, Held streams i k := by
  obtain ⟨s, hs, hk⟩ := List.mem_filterMap.1 (List.min?_eq_some_iff.1 h).1
  obtain ⟨i, hi⟩ := List.mem_iff_getElem?.1 hs
  exact ⟨i, s, hi, List.mem_of_head? hk⟩

theorem least_eq_none (h : least streams = none) : ¬ Held streams i x := by
  rintro ⟨s, hs, hx⟩
  have hmem := List.mem_of_getElem? hs
  rw [least, List.min?_eq_none_iff] at h
  cases s with
  | nil => cases hx
  | cons y s =>
    have hy : y ∈ streams.filterMap List.head? := List.mem_filterMap.2 ⟨_, hmem, rfl⟩
    rw [h] at hy
    cases hy

theorem mem_naming : i ∈ naming k streams ↔ ∃ s, streams[i]? = some s ∧ s.head? = some k := by
  simp only [naming, List.mem_map, List.mem_filter, Prod.exists, List.mem_zipIdx_iff_getElem?,
    beq_iff_eq, exists_eq_right]

/-- In an ascending stream the least key is at the head. -/
theorem mem_naming_of_least (hasc : Ascending streams) (h : least streams = some k) :
    i ∈ naming k streams ↔ Held streams i k := by
  rw [mem_naming]
  constructor
  · rintro ⟨s, hs, hk⟩
    exact ⟨s, hs, List.mem_of_head? hk⟩
  · rintro ⟨s, hs, hk⟩
    refine ⟨s, hs, ?_⟩
    cases s with
    | nil => cases hk
    | cons y s =>
      have hky : k ≤ y := least_le hasc h ⟨_, hs, List.mem_cons_self⟩
      rcases List.mem_cons.1 hk with rfl | hk
      · rfl
      · have hyk := List.rel_of_pairwise_cons (hasc _ (List.mem_of_getElem? hs)) hk
        rw [List.head?_cons, le_antisymm hyk hky]

theorem ascending_drained (hasc : Ascending streams) (k : κ) : Ascending (drained k streams) := by
  intro s hs
  obtain ⟨s', hs', rfl⟩ := List.mem_map.1 hs
  exact (hasc s' hs').sublist (List.dropWhile_sublist _)

/-- What is left of a stream of keys no less than `k` once `k` is drained. -/
theorem mem_dropWhile_iff {s : List κ} (hs : s.Pairwise (· ≤ ·)) (hle : ∀ y ∈ s, k ≤ y) :
    x ∈ s.dropWhile (· == k) ↔ x ∈ s ∧ x ≠ k := by
  induction s with
  | nil => simp
  | cons y s ih =>
    obtain ⟨hy, hrest⟩ := List.pairwise_cons.1 hs
    rw [List.dropWhile_cons]
    by_cases hyk : y = k
    · subst hyk
      rw [if_pos (beq_self_eq_true y), ih hrest hy]
      constructor
      · exact fun h => ⟨List.mem_cons_of_mem _ h.1, h.2⟩
      · exact fun h => ⟨(List.mem_cons.1 h.1).resolve_left h.2, h.2⟩
    · rw [if_neg (by simpa using hyk)]
      have hlt : k < y := lt_of_le_of_ne (hle y List.mem_cons_self) (Ne.symm hyk)
      refine ⟨fun h => ⟨h, ?_⟩, And.left⟩
      rcases List.mem_cons.1 h with rfl | h
      · exact hyk
      · exact ne_of_gt (hlt.trans_le (hy x h))

theorem held_drained (hasc : Ascending streams) (h : least streams = some k) :
    Held (drained k streams) i x ↔ Held streams i x ∧ x ≠ k := by
  have hstep : ∀ s, streams[i]? = some s → (x ∈ s.dropWhile (· == k) ↔ x ∈ s ∧ x ≠ k) := fun s hs =>
    mem_dropWhile_iff (hasc s (List.mem_of_getElem? hs)) fun y hy => least_le hasc h ⟨s, hs, hy⟩
  simp only [Held, drained, List.getElem?_map, Option.map_eq_some_iff]
  constructor
  · rintro ⟨-, ⟨s, hs, rfl⟩, hx⟩
    obtain ⟨hx, hne⟩ := (hstep s hs).1 hx
    exact ⟨⟨s, hs, hx⟩, hne⟩
  · rintro ⟨⟨s, hs, hx⟩, hne⟩
    exact ⟨_, ⟨s, hs, rfl⟩, (hstep s hs).2 ⟨hx, hne⟩⟩

theorem size_drained_lt (h : least streams = some k) : size (drained k streams) < size streams := by
  have hle : ∀ s : List κ, (s.dropWhile (· == k)).length ≤ s.length := fun s =>
    (List.dropWhile_sublist _).length_le
  obtain ⟨s, hs, hk⟩ := List.mem_filterMap.1 (List.min?_eq_some_iff.1 h).1
  rw [size, size, drained, List.map_map]
  refine List.sum_lt_sum _ _ (fun t _ => hle t) ⟨s, hs, ?_⟩
  cases s with
  | nil => cases hk
  | cons y s =>
    obtain rfl : y = k := Option.some.inj hk
    rw [Function.comp_apply, List.dropWhile_cons, if_pos (beq_self_eq_true y)]
    exact Nat.lt_succ_of_le (hle s)

/-- The walk meets the keys of the streams, each once and in order, named by what holds it. -/
theorem walkFrom_spec (fuel : ℕ) (hfuel : size streams ≤ fuel) (hasc : Ascending streams) :
    (∀ k named, (k, named) ∈ walkFrom fuel streams → (∃ i, Held streams i k) ∧
      ∀ i, i ∈ named ↔ Held streams i k) ∧
    (∀ i k, Held streams i k → ∃ named, (k, named) ∈ walkFrom fuel streams) ∧
    ((walkFrom fuel streams).map Prod.fst).Pairwise (· < ·) := by
  induction fuel generalizing streams with
  | zero =>
    have hnone : ∀ i k, ¬ Held streams i k := by
      rintro i k ⟨s, hs, hk⟩
      have hzero : s.length = 0 := by
        have := List.single_le_sum (fun _ _ => Nat.zero_le _) s.length
          (List.mem_map_of_mem (f := List.length) (List.mem_of_getElem? hs))
        exact Nat.le_zero.1 (this.trans hfuel)
      rw [List.length_eq_zero_iff] at hzero
      rw [hzero] at hk
      cases hk
    exact ⟨fun _ _ h => (nomatch h), fun i k h => absurd h (hnone i k), List.Pairwise.nil⟩
  | succ fuel ih =>
    cases hleast : least streams with
    | none =>
      have hwalk : walkFrom (fuel + 1) streams = [] := by rw [walkFrom, next, hleast, Option.map_none]
      rw [hwalk]
      exact ⟨fun _ _ h => (nomatch h), fun i k h => absurd h (least_eq_none hleast), List.Pairwise.nil⟩
    | some least =>
      have hwalk : walkFrom (fuel + 1) streams =
          (least, naming least streams) :: walkFrom fuel (drained least streams) := by
        rw [walkFrom, next, hleast, Option.map_some]
      have hsize := size_drained_lt hleast
      obtain ⟨hsound, hcomplete, hlt⟩ := ih (by omega) (ascending_drained hasc least)
      rw [hwalk]
      refine ⟨fun k named hmem => ?_, fun i k hk => ?_, ?_⟩
      · rcases List.mem_cons.1 hmem with heq | hmem
        · cases heq
          exact ⟨held_least hleast, fun i => mem_naming_of_least hasc hleast⟩
        · obtain ⟨⟨i, hi⟩, hnamed⟩ := hsound k named hmem
          have hne : k ≠ least := ((held_drained hasc hleast).1 hi).2
          refine ⟨⟨i, ((held_drained hasc hleast).1 hi).1⟩, fun j => ?_⟩
          rw [hnamed, held_drained hasc hleast, and_iff_left hne]
      · by_cases hne : k = least
        · subst hne
          exact ⟨_, List.mem_cons_self⟩
        · obtain ⟨named, hmem⟩ := hcomplete i k ((held_drained hasc hleast).2 ⟨hk, hne⟩)
          exact ⟨named, List.mem_cons_of_mem _ hmem⟩
      · rw [List.map_cons, List.pairwise_cons]
        refine ⟨fun k hk => ?_, hlt⟩
        obtain ⟨⟨k, named⟩, hmem, rfl⟩ := List.mem_map.1 hk
        obtain ⟨⟨i, hi⟩, -⟩ := hsound k named hmem
        obtain ⟨hi, hne⟩ := (held_drained hasc hleast).1 hi
        exact lt_of_le_of_ne (least_le hasc hleast hi) (Ne.symm hne)

variable (hasc : Ascending streams)

include hasc

theorem walk_ascending : ((walk streams).map Prod.fst).Pairwise (· < ·) :=
  (walkFrom_spec _ le_rfl hasc).2.2

theorem exists_mem_walk (h : Held streams i k) : ∃ named, (k, named) ∈ walk streams ∧ i ∈ named := by
  obtain ⟨hsound, hcomplete, -⟩ := walkFrom_spec _ le_rfl hasc
  obtain ⟨named, hmem⟩ := hcomplete i k h
  exact ⟨named, hmem, ((hsound k named hmem).2 i).2 h⟩

theorem mem_of_mem_walk {named : List ℕ} (h : (k, named) ∈ walk streams) :
    (∃ i, i ∈ named) ∧ ∀ i ∈ named, Held streams i k := by
  obtain ⟨⟨i, hi⟩, hnamed⟩ := (walkFrom_spec _ le_rfl hasc).1 k named h
  exact ⟨⟨i, (hnamed i).2 hi⟩, fun j hj => (hnamed j).1 hj⟩

end Merge
