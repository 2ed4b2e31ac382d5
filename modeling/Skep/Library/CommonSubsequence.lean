import Skep.Library.ListOrder
import Skep.Library.Patience

/-!
# A longest common subsequence of lists without repeats

The elements of one list, keyed by their places in another, go through patience sorting:
the positions of a longest increasing subsequence are those of a longest list that both
hold in order.
-/

namespace CommonSubsequence

open ListOrder

variable {α : Type} [DecidableEq α]

/-- The places in the first list of the second's elements. -/
def keys (l l' : List α) : List (Option ℕ) := l'.map (place l)

/-- The elements of the second list that are kept. -/
def longest (l l' : List α) : List α := (Patience.longest (keys l l')).filterMap fun i => l'[i]?

variable {l l' : List α}

theorem keyAt_keys (i : ℕ) : Patience.keyAt (keys l l') i = l'[i]?.bind (place l) := by
  rw [Patience.keyAt, keys, List.getElem?_map]
  cases l'[i]? <;> rfl

theorem mem_longest {x : α} : x ∈ longest l l' ↔ ∃ i ∈ Patience.longest (keys l l'), l'[i]? = some x := by
  rw [longest, List.mem_filterMap]

/-- Every position kept is an element's, in both lists. -/
theorem exists_of_mem {i : ℕ} (hi : i ∈ Patience.longest (keys l l')) :
    ∃ x k, l'[i]? = some x ∧ place l x = some k := by
  obtain ⟨k, hk⟩ := (Patience.rises_longest (keys l l')).1 i hi
  rw [keyAt_keys] at hk
  obtain ⟨x, hx, hk⟩ := Option.bind_eq_some_iff.1 hk
  exact ⟨x, k, hx, hk⟩

theorem length_longest : (longest l l').length = (Patience.longest (keys l l')).length := by
  have hsome : ∀ i ∈ Patience.longest (keys l l'), (l'[i]?).isSome := fun i hi => by
    obtain ⟨x, -, hx, -⟩ := exists_of_mem hi
    rw [hx]
    rfl
  rw [longest, List.length_filterMap_eq_countP]
  exact List.countP_eq_length.2 hsome

variable (hl : l.Nodup) (hl' : l'.Nodup)

include hl hl'

/-- The elements kept stand in the order of both lists. -/
theorem pairwise_longest : (longest l l').Pairwise fun x y => Before l x y ∧ Before l' x y := by
  rw [longest, List.pairwise_filterMap]
  refine (Patience.rises_longest (keys l l')).2.imp fun {i j} hij x hx y hy => ?_
  obtain ⟨hlt, n, m, hn, hm, hnm⟩ := hij
  rw [keyAt_keys, hx, Option.bind_some] at hn
  rw [keyAt_keys, hy, Option.bind_some] at hm
  refine ⟨(place_lt_iff hl hn hm).1 hnm, ?_⟩
  exact (place_lt_iff hl' ((place_eq_some_iff hl').2 hx) ((place_eq_some_iff hl').2 hy)).1 hlt

theorem nodup_longest : (longest l l').Nodup :=
  (pairwise_longest hl hl').imp fun h => h.1.ne hl

theorem sublist_left : (longest l l').Sublist l := by
  refine sublist_of_before (nodup_longest hl hl') hl (fun x hx => ?_) fun x y hxy =>
    (hxy.of_pairwise (pairwise_longest hl hl')).1
  obtain ⟨i, hi, hx⟩ := mem_longest.1 hx
  obtain ⟨x', k, hx', hk⟩ := exists_of_mem hi
  rw [hx, Option.some.injEq] at hx'
  subst hx'
  exact List.mem_of_getElem? ((place_eq_some_iff hl).1 hk)

theorem sublist_right : (longest l l').Sublist l' := by
  refine sublist_of_before (nodup_longest hl hl') hl' (fun x hx => ?_) fun x y hxy =>
    (hxy.of_pairwise (pairwise_longest hl hl')).2
  obtain ⟨i, -, hx⟩ := mem_longest.1 hx
  exact List.mem_of_getElem? hx

theorem length_le_longest {c : List α} (hc : c.Sublist l) (hc' : c.Sublist l') :
    c.length ≤ (longest l l').length := by
  have hget : ∀ x ∈ c, l'[l'.idxOf x]? = some x := fun x hx => List.getElem?_idxOf (hc'.subset hx)
  have hrises : Patience.Rises (keys l l') (c.map l'.idxOf) := by
    constructor
    · intro i hi
      obtain ⟨x, hx, rfl⟩ := List.mem_map.1 hi
      rw [keyAt_keys, hget x hx]
      exact exists_place hl (hc.subset hx)
    · rw [List.pairwise_map]
      refine List.pairwise_iff_forall_sublist.2 fun {x y} hxy => ?_
      have hx := hget x (Before.mem_left hxy)
      have hy := hget y (Before.mem_right hxy)
      obtain ⟨n, hn⟩ := exists_place hl (hc.subset (Before.mem_left hxy))
      obtain ⟨m, hm⟩ := exists_place hl (hc.subset (Before.mem_right hxy))
      constructor
      · rw [place_lt_iff hl' ((place_eq_some_iff hl').2 hx) ((place_eq_some_iff hl').2 hy)]
        exact hxy.trans hc'
      · refine ⟨n, m, ?_, ?_, (place_lt_iff hl hn hm).2 (hxy.trans hc)⟩
        · rw [keyAt_keys, hx, Option.bind_some, hn]
        · rw [keyAt_keys, hy, Option.bind_some, hm]
  have hlen := Patience.length_le_longest hrises
  rwa [List.length_map, ← length_longest] at hlen

theorem longest_eq_of_sublist (h : l'.Sublist l) : longest l l' = l' :=
  (sublist_right hl hl').eq_of_length_le (length_le_longest hl hl' h (List.Sublist.refl l'))

end CommonSubsequence
