import Skep.Composition.Refinement
import Skep.Library.CommonSubsequence

/-!
# The edit script between two run lists

The script that turns a draft arranged one way into another: what stands in a longest
common part is kept, every other stretch of the first is deleted, last to first, and then
every other stretch of the second is placed, first to last.

## Main results

- `Composition.Refined.apply` — the ops take the one address sequence to the other
- `Composition.script_exact` — and touch nothing of a longest common part
-/

namespace Composition

open ListOrder

/-- One edit of a draft, at positions counted from 1. -/
inductive InPlaceOp where
  | delete (p width : ℕ)
  | reinstate (place : ℕ) (runs : List Run)
  deriving DecidableEq

/-- The widths of fragments added to a position. -/
def Refinement.past (r : Refinement) (p : ℕ) (frags : List ℕ) : ℕ :=
  frags.foldl (fun p f => saturatingAdd p (r.width f)) p

section

variable (r : Refinement) (kept : List ℕ)

def isKept (f : ℕ) : Bool := kept.contains f

/-- The first stretch of a sequence that is not kept, and what follows it. -/
def stretch (seq : List ℕ) : List ℕ := seq.takeWhile fun f => !isKept kept f

def afterStretch (seq : List ℕ) : List ℕ := seq.dropWhile fun f => !isKept kept f

/-- The stretches that are not kept, each at the position it begins. -/
def stretchesFrom : ℕ → List ℕ → ℕ → List (ℕ × List ℕ)
  | fuel + 1, f :: rest, p =>
      if isKept kept f then stretchesFrom fuel rest (saturatingAdd p (r.width f))
      else
        (p, stretch kept (f :: rest)) ::
          stretchesFrom fuel (afterStretch kept (f :: rest)) (r.past p (stretch kept (f :: rest)))
  | _, _, _ => []

/-- One delete for each stretch of the first sequence that is not kept, last to first. -/
def deletes (seq : List ℕ) : List InPlaceOp :=
  ((stretchesFrom r kept seq.length seq 1).map fun s => .delete s.1 (r.past 0 s.2)).reverse

/-- One reinstate for each stretch of the second that is not kept, at the position it takes. -/
def reinstates (seq : List ℕ) : List InPlaceOp :=
  (stretchesFrom r kept seq.length seq 1).map fun s => .reinstate s.1 (r.coalesce s.2)

end

/-- The edit script from a draft arranged as `current` to `target`. -/
def script (current target : List Run) : List InPlaceOp :=
  let r := Refinement.of current [target]
  let tgt := r.sides.headD []
  let kept := CommonSubsequence.longest tgt r.base
  deletes r kept r.base ++ reinstates r kept tgt

/-- An op on an address sequence, none out of bounds. -/
def InPlaceOp.apply (seq : List Position) : InPlaceOp → Option (List Position)
  | .delete p width =>
      if 1 ≤ p ∧ 1 ≤ width ∧ p - 1 + width ≤ seq.length then
        some (seq.take (p - 1) ++ seq.drop (p - 1 + width))
      else none
  | .reinstate p runs =>
      if 1 ≤ p ∧ p - 1 ≤ seq.length then some (seq.take (p - 1) ++ positions runs ++ seq.drop (p - 1)) else none

theorem apply_delete (low gone high : List Position) (hgone : gone ≠ []) :
    (InPlaceOp.delete (1 + low.length) gone.length).apply (low ++ gone ++ high) = some (low ++ high) := by
  have hpos := List.length_pos_iff.2 hgone
  rw [InPlaceOp.apply, if_pos]
  · rw [Nat.add_sub_cancel_left, ← List.length_append, List.drop_left, List.append_assoc, List.take_left]
  · rw [List.length_append, List.length_append]
    omega

theorem apply_reinstate (low high : List Position) (runs : List Run) :
    (InPlaceOp.reinstate (1 + low.length) runs).apply (low ++ high) = some (low ++ positions runs ++ high) := by
  rw [InPlaceOp.apply, if_pos]
  · rw [Nat.add_sub_cancel_left, List.take_left, List.drop_left]
  · rw [List.length_append]
    omega

namespace Refinement

variable {r : Refinement}

/-- Fragments within the range. -/
def AllFit (r : Refinement) (seq : List ℕ) : Prop := ∀ f ∈ seq, ∃ run, r.run? f = some run ∧ run.Fits

@[simp] theorem positions_nil : r.positions [] = [] := rfl

theorem positions_append (seq seq' : List ℕ) : r.positions (seq ++ seq') = r.positions seq ++ r.positions seq' :=
  List.flatMap_append

theorem positions_cons (f : ℕ) (seq : List ℕ) : r.positions (f :: seq) = r.positions [f] ++ r.positions seq :=
  positions_append [f] seq

theorem width_eq {f : ℕ} {run : Run} (h : r.run? f = some run) : r.width f = (r.positions [f]).length := by
  obtain ⟨frag, hfrag, hrun⟩ := Option.bind_eq_some_iff.1 h
  obtain ⟨origin, -, hrun⟩ := Option.bind_eq_some_iff.1 hrun
  cases hrun
  rw [positions, List.flatMap_singleton, h, width, hfrag, Option.elim_some, Run.positions, List.length_map,
    List.length_range']
  rfl

theorem AllFit.cons {f : ℕ} {seq : List ℕ} (h : r.AllFit (f :: seq)) :
    0 < r.width f ∧ r.width f = (r.positions [f]).length ∧ r.AllFit seq := by
  obtain ⟨run, hrun, hfits⟩ := h f List.mem_cons_self
  refine ⟨?_, width_eq hrun, fun f' h' => h f' (List.mem_cons_of_mem _ h')⟩
  obtain ⟨frag, hfrag, hrun⟩ := Option.bind_eq_some_iff.1 hrun
  obtain ⟨origin, -, hrun⟩ := Option.bind_eq_some_iff.1 hrun
  cases hrun
  rw [width, hfrag]
  exact hfits.1

theorem past_eq {p : ℕ} (hp : p ≤ ordinalMax) {seq : List ℕ} (hseq : r.AllFit seq) :
    r.past p seq = min (p + (r.positions seq).length) ordinalMax := by
  induction seq generalizing p with
  | nil =>
    rw [past, List.foldl_nil, positions_nil, List.length_nil, Nat.add_zero, min_eq_left hp]
  | cons f seq ih =>
    obtain ⟨-, hwidth, hseq⟩ := hseq.cons
    have hih := ih (p := saturatingAdd p (r.width f)) (min_le_right _ _) hseq
    rw [past, List.foldl_cons, ← past, hih, positions_cons, List.length_append, saturatingAdd, hwidth]
    omega

end Refinement

section

variable {r : Refinement} {kept : List ℕ}

theorem stretch_append (seq : List ℕ) : stretch kept seq ++ afterStretch kept seq = seq :=
  List.takeWhile_append_dropWhile

theorem stretch_not_kept {seq : List ℕ} {f : ℕ} (hf : f ∈ stretch kept seq) : isKept kept f = false := by
  simpa using List.mem_takeWhile_imp hf

/-- A sequence as the kept fragments and the stretches between them, where each begins. -/
inductive Parted (r : Refinement) (kept : List ℕ) : List ℕ → ℕ → List (ℕ × List ℕ) → Prop
  | nil {n : ℕ} : Parted r kept [] n []
  | kept {f n : ℕ} {rest : List ℕ} {stretches : List (ℕ × List ℕ)} (hf : isKept kept f = true)
      (h : Parted r kept rest (n + (r.positions [f]).length) stretches) : Parted r kept (f :: rest) n stretches
  | lost {n : ℕ} {gone rest : List ℕ} {stretches : List (ℕ × List ℕ)} (hgone : ∀ f ∈ gone, isKept kept f = false)
      (hfit : r.AllFit gone) (hne : r.positions gone ≠ []) (hlt : (r.positions gone).length ≤ ordinalMax)
      (h : Parted r kept rest (n + (r.positions gone).length) stretches) :
      Parted r kept (gone ++ rest) n ((1 + n, gone) :: stretches)

theorem parted_stretchesFrom (fuel : ℕ) {seq : List ℕ} {n : ℕ} (hfuel : seq.length ≤ fuel) (hfit : r.AllFit seq)
    (htotal : n + (r.positions seq).length ≤ ordinalMax) :
    Parted r kept seq n (stretchesFrom r kept fuel seq (min (1 + n) ordinalMax)) := by
  induction fuel generalizing seq n with
  | zero =>
    rw [List.length_eq_zero_iff.1 (Nat.le_zero.1 hfuel)]
    exact .nil
  | succ fuel ih =>
    cases seq with
    | nil => exact .nil
    | cons f rest =>
      rw [List.length_cons] at hfuel
      obtain ⟨hpos, hwidth, hrest⟩ := hfit.cons
      rw [stretchesFrom]
      by_cases hkept : isKept kept f = true
      · rw [if_pos hkept]
        rw [Refinement.positions_cons, List.length_append] at htotal
        have hnext : saturatingAdd (min (1 + n) ordinalMax) (r.width f) =
            min (1 + (n + (r.positions [f]).length)) ordinalMax := by
          rw [saturatingAdd, hwidth]
          omega
        rw [hnext]
        exact .kept hkept (ih (by omega) hrest (by omega))
      · have hsplit : stretch kept (f :: rest) ++ afterStretch kept (f :: rest) = f :: rest := stretch_append _
        have hopens : stretch kept (f :: rest) = f :: stretch kept rest :=
          List.takeWhile_cons_of_pos (by simp [hkept])
        have hshorter : (afterStretch kept (f :: rest)).length ≤ rest.length := by
          have hlen := congrArg List.length hsplit
          rw [hopens, List.length_append, List.length_cons, List.length_cons] at hlen
          omega
        have hgonefit : r.AllFit (stretch kept (f :: rest)) := fun g hg =>
          hfit g (hsplit ▸ List.mem_append_left _ hg)
        have hlaterfit : r.AllFit (afterStretch kept (f :: rest)) := fun g hg =>
          hfit g (hsplit ▸ List.mem_append_right _ hg)
        have hlen : (r.positions (f :: rest)).length = (r.positions (stretch kept (f :: rest))).length +
            (r.positions (afterStretch kept (f :: rest))).length := by
          rw [← List.length_append, ← Refinement.positions_append, hsplit]
        have hgonepos : 0 < (r.positions (stretch kept (f :: rest))).length := by
          rw [hopens, Refinement.positions_cons, List.length_append, ← hwidth]
          omega
        have hnext : r.past (1 + n) (stretch kept (f :: rest)) =
            min (1 + (n + (r.positions (stretch kept (f :: rest))).length)) ordinalMax := by
          rw [Refinement.past_eq (by omega) hgonefit]
          omega
        rw [if_neg hkept, min_eq_left (by omega), hnext]
        have hlost : Parted r kept (stretch kept (f :: rest) ++ afterStretch kept (f :: rest)) n _ :=
          .lost (fun g hg => stretch_not_kept hg) hgonefit (List.length_pos_iff.1 hgonepos) (by omega)
            (ih (hshorter.trans (by omega)) hlaterfit (by omega))
        rwa [hsplit] at hlost

theorem filter_lost {gone : List ℕ} (hgone : ∀ f ∈ gone, isKept kept f = false) : gone.filter (isKept kept) = [] := by
  rw [List.filter_eq_nil_iff]
  intro f hf
  rw [hgone f hf]
  exact Bool.false_ne_true

/-- Applied last to first, the deletes leave what is kept. -/
theorem Parted.deletes {seq : List ℕ} {n : ℕ} {stretches : List (ℕ × List ℕ)} (h : Parted r kept seq n stretches)
    {low : List Position} (hlow : low.length = n) :
    ((stretches.map fun s => InPlaceOp.delete s.1 (r.past 0 s.2)).reverse).foldlM InPlaceOp.apply
        (low ++ r.positions seq) =
      some (low ++ r.positions (seq.filter (isKept kept))) := by
  induction h generalizing low with
  | nil => rfl
  | @kept f n rest stretches hf _ ih =>
    rw [List.filter_cons_of_pos hf, Refinement.positions_cons f rest, Refinement.positions_cons f (rest.filter _),
      ← List.append_assoc, ← List.append_assoc]
    exact ih (by rw [List.length_append, hlow])
  | @lost n gone rest stretches hgone hfit hne hlt _ ih =>
    have hpast : r.past 0 gone = (r.positions gone).length := by
      rw [Refinement.past_eq (Nat.zero_le _) hfit, Nat.zero_add, min_eq_left hlt]
    rw [List.map_cons, List.reverse_cons, List.foldlM_append, Refinement.positions_append, ← List.append_assoc,
      ih (by rw [List.length_append, hlow]), List.filter_append, filter_lost hgone, List.nil_append, hpast, ← hlow]
    exact (bind_pure _).trans (apply_delete low _ _ hne)

/-- Applied first to last, the reinstates build the rest of the target. -/
theorem Parted.reinstates {seq : List ℕ} {n : ℕ} {stretches : List (ℕ × List ℕ)}
    (h : Parted r kept seq n stretches) {low : List Position} (hlow : low.length = n) :
    (stretches.map fun s => InPlaceOp.reinstate s.1 (r.coalesce s.2)).foldlM InPlaceOp.apply
        (low ++ r.positions (seq.filter (isKept kept))) =
      some (low ++ r.positions seq) := by
  induction h generalizing low with
  | nil => rfl
  | @kept f n rest stretches hf _ ih =>
    rw [List.filter_cons_of_pos hf, Refinement.positions_cons f rest, Refinement.positions_cons f (rest.filter _),
      ← List.append_assoc, ← List.append_assoc]
    exact ih (by rw [List.length_append, hlow])
  | @lost n gone rest stretches hgone hfit _ _ _ ih =>
    rw [List.map_cons, List.foldlM_cons, List.filter_append, filter_lost hgone, List.nil_append, ← hlow,
      apply_reinstate, Refinement.positions_coalesce r hfit, Refinement.positions_append, ← List.append_assoc]
    exact ih (by rw [List.length_append, hlow])

/-- Of a sequence without repeats, what is kept is the part kept of it. -/
theorem filter_isKept {seq : List ℕ} (hseq : seq.Nodup) (hkept : kept.Sublist seq) :
    seq.filter (isKept kept) = kept := by
  have hself : kept.filter (isKept kept) = kept := List.filter_eq_self.2 fun f hf => List.contains_iff_mem.2 hf
  have hsub : kept.Sublist (seq.filter (isKept kept)) := by
    have hfilter := hkept.filter (isKept kept)
    rwa [hself] at hfilter
  refine (hsub.eq_of_length_le ?_).symm
  refine (List.subperm_of_subset (hseq.filter _) fun f hf => ?_).length_le
  exact List.contains_iff_mem.1 (List.mem_filter.1 hf).2

theorem Parted.eq_nil {seq : List ℕ} {n : ℕ} {stretches : List (ℕ × List ℕ)} (h : Parted r kept seq n stretches)
    (hseq : ∀ f ∈ seq, isKept kept f = true) : stretches = [] := by
  induction h with
  | nil => rfl
  | kept _ _ ih => exact ih fun f hf => hseq f (List.mem_cons_of_mem _ hf)
  | @lost n gone rest stretches hgone _ hne _ _ _ =>
    exfalso
    cases gone with
    | nil => exact hne rfl
    | cons f gone =>
      have hkept := hseq f (by simp)
      rw [hgone f List.mem_cons_self] at hkept
      cases hkept

end

/-- A delete takes out the position, as the draft stood before the script. -/
def DeletedAt (ops : List InPlaceOp) (n : ℕ) : Prop :=
  ∃ p width, InPlaceOp.delete p width ∈ ops ∧ p ≤ n ∧ n < p + width

/-- A reinstate places the position, as the draft stands after the script. -/
def ReinstatedAt (ops : List InPlaceOp) (n : ℕ) : Prop :=
  ∃ p runs, InPlaceOp.reinstate p runs ∈ ops ∧ p ≤ n ∧ n < p + (positions runs).length

/-- The fragment that each position of a sequence is in. -/
def Refinement.labels (r : Refinement) (seq : List ℕ) : List ℕ :=
  seq.flatMap fun f => List.replicate (r.positions [f]).length f

section

variable {r : Refinement} {kept : List ℕ}

theorem labels_append (seq seq' : List ℕ) : r.labels (seq ++ seq') = r.labels seq ++ r.labels seq' :=
  List.flatMap_append

theorem length_labels (seq : List ℕ) : (r.labels seq).length = (r.positions seq).length := by
  induction seq with
  | nil => rfl
  | cons f seq ih =>
    rw [Refinement.positions_cons, List.length_append, ← ih, Refinement.labels, List.flatMap_cons,
      List.length_append, List.length_replicate]
    rfl

theorem mem_of_labels {seq : List ℕ} {n f : ℕ} (h : (r.labels seq)[n]? = some f) : f ∈ seq := by
  obtain ⟨g, hg, hf⟩ := List.mem_flatMap.1 (List.mem_of_getElem? h)
  rwa [List.eq_of_mem_replicate hf]

/-- The position at the offset is of a fragment that is not kept. -/
def LostAt (r : Refinement) (kept seq : List ℕ) (n : ℕ) : Prop :=
  ∃ f, (r.labels seq)[n]? = some f ∧ f ∉ kept

theorem isKept_eq_false_iff {f : ℕ} : isKept kept f = false ↔ f ∉ kept := by
  rw [isKept, ← Bool.not_eq_true, List.contains_iff_mem]

theorem lostAt_append {seq seq' : List ℕ} {n : ℕ} : LostAt r kept (seq ++ seq') n ↔
    (n < (r.positions seq).length ∧ LostAt r kept seq n) ∨
      ((r.positions seq).length ≤ n ∧ LostAt r kept seq' (n - (r.positions seq).length)) := by
  rw [LostAt, labels_append, ← length_labels]
  by_cases hn : n < (r.labels seq).length
  · rw [List.getElem?_append_left hn]
    simp only [hn, true_and, not_le.2 hn, false_and, or_false, LostAt]
  · rw [List.getElem?_append_right (not_lt.1 hn)]
    simp only [hn, not_lt.1 hn, true_and, false_and, false_or, LostAt]

/-- The stretches cover the positions of what is not kept. -/
theorem Parted.covers {seq : List ℕ} {n : ℕ} {stretches : List (ℕ × List ℕ)} (h : Parted r kept seq n stretches)
    (m : ℕ) : (∃ s ∈ stretches, s.1 ≤ m ∧ m < s.1 + (r.positions s.2).length) ↔
      ∃ i, m = 1 + n + i ∧ LostAt r kept seq i := by
  induction h with
  | nil =>
    constructor
    · rintro ⟨s, hs, -⟩
      cases hs
    · rintro ⟨i, -, f, hf, -⟩
      cases mem_of_labels hf
  | @kept f n rest stretches hf _ ih =>
    rw [ih]
    have hnot : ∀ i, ¬ LostAt r kept [f] i := by
      rintro i ⟨g, hg, hlost⟩
      rw [List.mem_singleton.1 (mem_of_labels hg)] at hlost
      exact hlost (List.contains_iff_mem.1 hf)
    constructor
    · rintro ⟨i, rfl, hi⟩
      refine ⟨(r.positions [f]).length + i, by omega, ?_⟩
      rw [← List.singleton_append, lostAt_append, Nat.add_sub_cancel_left]
      exact .inr ⟨Nat.le_add_right _ _, hi⟩
    · rintro ⟨i, rfl, hi⟩
      rw [← List.singleton_append, lostAt_append] at hi
      rcases hi with ⟨-, hi⟩ | ⟨hle, hi⟩
      · exact absurd hi (hnot i)
      · exact ⟨_, by omega, hi⟩
  | @lost n gone rest stretches hgone _ _ _ _ ih =>
    have hall : ∀ i, i < (r.positions gone).length → LostAt r kept gone i := by
      intro i hi
      rw [← length_labels] at hi
      have hget : (r.labels gone)[i]? = some (r.labels gone)[i] := List.getElem?_eq_getElem hi
      exact ⟨_, hget, isKept_eq_false_iff.1 (hgone _ (mem_of_labels hget))⟩
    simp only [List.mem_cons, or_and_right, exists_or, exists_eq_left, ih, lostAt_append, and_or_left]
    refine or_congr ?_ ?_
    · constructor
      · rintro ⟨hle, hlt⟩
        exact ⟨m - (1 + n), by omega, by omega, hall _ (by omega)⟩
      · rintro ⟨i, rfl, hi, -⟩
        omega
    · constructor
      · rintro ⟨i, rfl, hi⟩
        refine ⟨(r.positions gone).length + i, by omega, Nat.le_add_right _ _, ?_⟩
        rwa [Nat.add_sub_cancel_left]
      · rintro ⟨i, rfl, hle, hi⟩
        exact ⟨_, by omega, hi⟩

end

/-- Runs of some positions that end within the range, and together are within it. -/
structure Admitted (runs : List Run) : Prop where
  fits : ∀ run ∈ runs, 0 < run.width ∧ run.iStart + run.width < 2 ^ 64
  total : (runs.map Run.width).sum < 2 ^ 64

theorem length_positions (runs : List Run) : (positions runs).length = (runs.map Run.width).sum := by
  rw [positions, List.length_flatMap]
  congr 1
  refine List.map_congr_left fun run _ => ?_
  rw [Run.positions, List.length_map, List.length_range']

theorem Admitted.all_fit {runs : List Run} (h : Admitted runs) : ∀ run ∈ runs, run.Fits := fun run hrun =>
  ⟨(h.fits run hrun).1, Nat.le_pred_of_lt (h.fits run hrun).2⟩

theorem Admitted.length_le {runs : List Run} (h : Admitted runs) : (positions runs).length ≤ ordinalMax := by
  rw [length_positions]
  exact Nat.le_pred_of_lt h.total

/-- What a script keeps of the draft and of the target. -/
structure Keeps (r : Refinement) (cur tgt : List ℕ) (ops : List InPlaceOp) (kept : List ℕ) : Prop where
  sublist_cur : kept.Sublist cur
  sublist_tgt : kept.Sublist tgt
  longest : ∀ common : List ℕ, common.Sublist cur → common.Sublist tgt → common.length ≤ kept.length
  deleted_iff : ∀ n, DeletedAt ops n ↔ ∃ i, n = 1 + i ∧ LostAt r kept cur i
  reinstated_iff : ∀ n, ReinstatedAt ops n ↔ ∃ i, n = 1 + i ∧ LostAt r kept tgt i

/-- The refinement of the two lists: sequences without repeats that stand for them, and an id in both
for the copies that both hold. -/
structure Refined (r : Refinement) (current target : List Run) (cur tgt : List ℕ) : Prop where
  cur_positions : r.positions cur = positions current
  tgt_positions : r.positions tgt = positions target
  nodup_cur : cur.Nodup
  nodup_tgt : tgt.Nodup
  fit_cur : r.AllFit cur
  fit_tgt : r.AllFit tgt
  copy_iff : ∀ i j f g : ℕ, cur[i]? = some f → tgt[j]? = some g →
    (f = g ↔ (r.copies cur)[i]? = (r.copies tgt)[j]?)
  eq_of_eq : current = target → cur = tgt

theorem refined {current target : List Run} (hcurrent : Admitted current) (htarget : Admitted target) :
    Refined (Refinement.of current [target]) current target (Refinement.of current [target]).base
      ((Refinement.of current [target]).sides.headD []) := by
  have hall : ∀ run ∈ current ++ [target].flatten, run.Fits := by
    intro run hrun
    rw [List.flatten_singleton] at hrun
    rcases List.mem_append.1 hrun with hrun | hrun
    · exact hcurrent.all_fit run hrun
    · exact htarget.all_fit run hrun
  have h := Refinement.of_refines hall
  have hcur : (current, (Refinement.of current [target]).base) ∈
      (current, (Refinement.of current [target]).base) :: [target].zip (Refinement.of current [target]).sides :=
    List.mem_cons_self
  have htgt : (target, (Refinement.of current [target]).sides.headD []) ∈
      (current, (Refinement.of current [target]).base) :: [target].zip (Refinement.of current [target]).sides :=
    List.mem_cons_of_mem _ List.mem_cons_self
  exact ⟨h.positions_eq _ hcur, h.positions_eq _ htgt, h.nodup _ hcur, h.nodup _ htgt, h.fits _ hcur,
    h.fits _ htgt, h.copy_iff _ hcur _ htgt, h.eq_of_eq _ hcur _ htgt⟩

section

variable {r : Refinement} {current target : List Run} {cur tgt : List ℕ} (h : Refined r current target cur tgt)
  (hcurrent : Admitted current) (htarget : Admitted target)

include h hcurrent htarget

theorem Refined.parted (kept : List ℕ) : Parted r kept cur 0 (stretchesFrom r kept cur.length cur 1) ∧
    Parted r kept tgt 0 (stretchesFrom r kept tgt.length tgt 1) := by
  constructor
  · refine parted_stretchesFrom _ le_rfl h.fit_cur ?_
    rw [h.cur_positions, Nat.zero_add]
    exact hcurrent.length_le
  · refine parted_stretchesFrom _ le_rfl h.fit_tgt ?_
    rw [h.tgt_positions, Nat.zero_add]
    exact htarget.length_le

/-- The ops take the one address sequence to the other. -/
theorem Refined.apply {kept : List ℕ} (hcur : kept.Sublist cur) (htgt : kept.Sublist tgt) :
    (deletes r kept cur ++ reinstates r kept tgt).foldlM InPlaceOp.apply (positions current) =
      some (positions target) := by
  obtain ⟨hparted, hparted'⟩ := h.parted hcurrent htarget kept
  have hdeletes := hparted.deletes (List.length_nil (α := Position))
  have hreinstates := hparted'.reinstates (List.length_nil (α := Position))
  rw [List.nil_append, List.nil_append] at hdeletes hreinstates
  rw [filter_isKept h.nodup_cur hcur, h.cur_positions] at hdeletes
  rw [filter_isKept h.nodup_tgt htgt, h.tgt_positions] at hreinstates
  rw [List.foldlM_append, deletes, hdeletes]
  exact hreinstates

theorem Refined.keeps {kept : List ℕ} (hcur : kept.Sublist cur) (htgt : kept.Sublist tgt)
    (hlongest : ∀ common : List ℕ, common.Sublist cur → common.Sublist tgt → common.length ≤ kept.length) :
    Keeps r cur tgt (deletes r kept cur ++ reinstates r kept tgt) kept := by
  obtain ⟨hparted, hparted'⟩ := h.parted hcurrent htarget kept
  have hfit : ∀ {seq : List ℕ} {n stretches}, Parted r kept seq n stretches → ∀ s ∈ stretches,
      r.AllFit s.2 ∧ (r.positions s.2).length ≤ ordinalMax := by
    intro seq n stretches hparts
    induction hparts with
    | nil => exact fun s hs => nomatch hs
    | kept _ _ ih => exact ih
    | lost _ hfit _ hlt _ ih =>
      intro s hs
      rcases List.mem_cons.1 hs with rfl | hs
      · exact ⟨hfit, hlt⟩
      · exact ih s hs
  refine ⟨hcur, htgt, hlongest, fun n => ?_, fun n => ?_⟩
  · rw [← hparted.covers n]
    simp only [DeletedAt, deletes, reinstates, List.mem_append, List.mem_reverse, List.mem_map]
    constructor
    · rintro ⟨p, width, ⟨s, hs, heq⟩ | ⟨s, -, heq⟩, hle, hlt⟩
      · obtain ⟨hsfit, hslt⟩ := hfit hparted s hs
        injection heq with hp hwidth
        rw [Refinement.past_eq (Nat.zero_le _) hsfit, Nat.zero_add, min_eq_left hslt] at hwidth
        exact ⟨s, hs, hp ▸ hle, by omega⟩
      · cases heq
    · rintro ⟨s, hs, hle, hlt⟩
      obtain ⟨hsfit, hslt⟩ := hfit hparted s hs
      refine ⟨_, _, .inl ⟨s, hs, rfl⟩, hle, ?_⟩
      rwa [Refinement.past_eq (Nat.zero_le _) hsfit, Nat.zero_add, min_eq_left hslt]
  · rw [← hparted'.covers n]
    simp only [ReinstatedAt, deletes, reinstates, List.mem_append, List.mem_reverse, List.mem_map]
    constructor
    · rintro ⟨p, runs, ⟨s, -, heq⟩ | ⟨s, hs, heq⟩, hle, hlt⟩
      · cases heq
      · obtain ⟨hsfit, -⟩ := hfit hparted' s hs
        injection heq with hp hruns
        rw [← hruns, Refinement.positions_coalesce r hsfit] at hlt
        exact ⟨s, hs, hp ▸ hle, by omega⟩
    · rintro ⟨s, hs, hle, hlt⟩
      obtain ⟨hsfit, -⟩ := hfit hparted' s hs
      refine ⟨_, _, .inr ⟨s, hs, rfl⟩, hle, ?_⟩
      rwa [Refinement.positions_coalesce r hsfit]

end

/-- The edit script reaches its target, and touches nothing of a longest common part. -/
theorem script_exact {current target : List Run} (hcurrent : Admitted current) (htarget : Admitted target) :
    (script current target).foldlM InPlaceOp.apply (positions current) = some (positions target) ∧
      Refined (Refinement.of current [target]) current target (Refinement.of current [target]).base
        ((Refinement.of current [target]).sides.headD []) ∧
      (∃ kept, Keeps (Refinement.of current [target]) (Refinement.of current [target]).base
        ((Refinement.of current [target]).sides.headD []) (script current target) kept) ∧
      script current current = [] := by
  have h := refined hcurrent htarget
  have hcur := CommonSubsequence.sublist_right h.nodup_tgt h.nodup_cur
  have htgt := CommonSubsequence.sublist_left h.nodup_tgt h.nodup_cur
  refine ⟨h.apply hcurrent htarget hcur htgt, h, ⟨_, h.keeps hcurrent htarget hcur htgt ?_⟩, ?_⟩
  · exact fun common hc hc' => CommonSubsequence.length_le_longest h.nodup_tgt h.nodup_cur hc' hc
  · have h := refined hcurrent hcurrent
    have hsame := h.eq_of_eq rfl
    have hall : ∀ f ∈ (Refinement.of current [current]).base, isKept
        (CommonSubsequence.longest ((Refinement.of current [current]).sides.headD [])
          (Refinement.of current [current]).base) f = true := by
      intro f hf
      rw [← hsame, CommonSubsequence.longest_eq_of_sublist h.nodup_cur h.nodup_cur (List.Sublist.refl _)]
      exact List.contains_iff_mem.2 hf
    obtain ⟨hparted, hparted'⟩ := h.parted hcurrent hcurrent
      (CommonSubsequence.longest ((Refinement.of current [current]).sides.headD [])
        (Refinement.of current [current]).base)
    rw [script, deletes, reinstates, hparted.eq_nil hall, hparted'.eq_nil (hsame ▸ hall)]
    rfl

/-- A passage moved over another and placed a second time. -/
theorem script_exact_moved :
    let document : Address := ⟨⟨[1, 1, 0, 1, 0, 2], by simp⟩, .document, by decide⟩
    let current := [⟨document, 1, 3⟩, ⟨document, 7, 2⟩]
    let target := [⟨document, 7, 2⟩, ⟨document, 2, 2⟩, ⟨document, 7, 2⟩]
    (script current target).foldlM InPlaceOp.apply (positions current) = some (positions target) :=
  (script_exact ⟨by decide, by decide⟩ ⟨by decide, by decide⟩).1

/-- Not when a run ends at the top of the range: its reach saturates and the position is lost. -/
theorem script_saturates :
    let document : Address := ⟨⟨[1, 1, 0, 1, 0, 2], by simp⟩, .document, by decide⟩
    let target := [⟨document, 2 ^ 64 - 1, 1⟩]
    (∀ run ∈ target, 0 < run.width) ∧ (target.map Run.width).sum < 2 ^ 64 ∧
      (script [] target).foldlM InPlaceOp.apply (positions []) = some [] ∧ positions target ≠ [] := by
  decide +kernel

end Composition
