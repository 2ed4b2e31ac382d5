import Mathlib.Data.List.Basic
import Mathlib.Tactic

/-!
# Stretches of consecutive numbers

A stretch is some consecutive numbers under an origin. Stretches taken one after another are
joined where one adjoins the last. What is joined is a function of the numbers alone, however
they were cut.
-/

/-- Consecutive numbers under an origin. -/
structure Stretch (κ : Type) where
  origin : κ
  start : ℕ
  width : ℕ
  deriving DecidableEq

namespace Stretch

variable {κ : Type} {s t : Stretch κ} {l ss : List (Stretch κ)}

/-- The numbers of a stretch, each under its origin. -/
def numbers (s : Stretch κ) : List (κ × ℕ) := (List.range' s.start s.width).map fun n => (s.origin, n)

/-- The numbers of some stretches, in order. -/
def positions (l : List (Stretch κ)) : List (κ × ℕ) := l.flatMap numbers

/-- The second begins where the first ends. -/
def Adjoins (s t : Stretch κ) : Prop := s.origin = t.origin ∧ s.start + s.width = t.start

/-- No two neighbours adjoin. -/
def Parted (l : List (Stretch κ)) : Prop := l.IsChain fun s t => ¬ s.Adjoins t

def widen (s : Stretch κ) (width : ℕ) : Stretch κ := { s with width := s.width + width }

@[simp] theorem length_numbers (s : Stretch κ) : s.numbers.length = s.width := by
  simp [numbers]

theorem mem_numbers {p : κ × ℕ} : p ∈ s.numbers ↔ p.1 = s.origin ∧ s.start ≤ p.2 ∧ p.2 < s.start + s.width := by
  obtain ⟨o, n⟩ := p
  simp only [numbers, List.mem_map, List.mem_range'_1, Prod.mk.injEq]
  constructor
  · rintro ⟨m, hm, rfl, rfl⟩
    exact ⟨rfl, hm⟩
  · rintro ⟨rfl, hn⟩
    exact ⟨n, hn, rfl, rfl⟩

/-- Two stretches of one width are related where their numbers are, one for one. -/
theorem forall₂_numbers {R : κ × ℕ → κ × ℕ → Prop} {o o' : κ} {a b n : ℕ}
    (h : ∀ k < n, R (o, a + k) (o', b + k)) : List.Forall₂ R (numbers ⟨o, a, n⟩) (numbers ⟨o', b, n⟩) := by
  induction n generalizing a b with
  | zero => exact .nil
  | succ n ih =>
    have hcons : ∀ (o : κ) a, numbers ⟨o, a, n + 1⟩ = (o, a) :: numbers ⟨o, a + 1, n⟩ := fun o a => by
      simp [numbers, List.range'_succ]
    rw [hcons, hcons]
    refine .cons (h 0 n.succ_pos) (ih fun k hk => ?_)
    rw [Nat.add_right_comm, Nat.add_right_comm b]
    exact h (k + 1) (by omega)

@[simp] theorem positions_nil : positions ([] : List (Stretch κ)) = [] := rfl

@[simp] theorem positions_cons (s : Stretch κ) (l : List (Stretch κ)) : positions (s :: l) = s.numbers ++ positions l :=
  List.flatMap_cons

@[simp] theorem positions_append (l l' : List (Stretch κ)) : positions (l ++ l') = positions l ++ positions l' :=
  List.flatMap_append

theorem length_positions (l : List (Stretch κ)) : (positions l).length = (l.map width).sum := by
  induction l with
  | nil => rfl
  | cons s l ih => rw [positions_cons, List.length_append, length_numbers, ih, List.map_cons, List.sum_cons]

theorem numbers_append (s : Stretch κ) (n : ℕ) :
    (s.widen n).numbers = s.numbers ++ numbers ⟨s.origin, s.start + s.width, n⟩ := by
  simp only [numbers, widen]
  rw [← List.map_append, ← List.range'_append_1]

theorem numbers_widen (h : s.Adjoins t) : (s.widen t.width).numbers = s.numbers ++ t.numbers := by
  obtain ⟨origin, start, width⟩ := t
  obtain ⟨rfl, rfl⟩ := h
  exact numbers_append s width

variable [DecidableEq κ]

instance : Decidable (s.Adjoins t) := inferInstanceAs (Decidable (_ ∧ _))

/-- One more stretch, joined to the last where it adjoins it. -/
def join (l : List (Stretch κ)) (s : Stretch κ) : List (Stretch κ) :=
  match l.getLast? with
  | some last => if last.Adjoins s then l.dropLast ++ [last.widen s.width] else l ++ [s]
  | none => l ++ [s]

/-- The stretches of some numbers in order. -/
def ofPositions (ps : List (κ × ℕ)) : List (Stretch κ) := (ps.map fun p => ⟨p.1, p.2, 1⟩).foldl join []

@[simp] theorem join_nil (s : Stretch κ) : join [] s = [s] := rfl

theorem join_concat_of_adjoins (h : s.Adjoins t) : join (l ++ [s]) t = l ++ [s.widen t.width] := by
  rw [join, List.getLast?_concat]
  show (if s.Adjoins t then _ else _) = _
  rw [if_pos h, List.dropLast_concat]

theorem join_concat_of_not_adjoins (h : ¬ s.Adjoins t) : join (l ++ [s]) t = l ++ [s, t] := by
  rw [join, List.getLast?_concat]
  show (if s.Adjoins t then _ else _) = _
  rw [if_neg h, List.append_assoc]
  rfl

theorem positions_join (l : List (Stretch κ)) (s : Stretch κ) : positions (join l s) = positions l ++ s.numbers := by
  obtain rfl | ⟨front, last, rfl⟩ := List.eq_nil_or_concat' l
  · simp
  · by_cases h : last.Adjoins s
    · rw [join_concat_of_adjoins h]
      simp [numbers_widen h]
    · rw [join_concat_of_not_adjoins h]
      simp

theorem parted_join (h : Parted l) (s : Stretch κ) : Parted (join l s) := by
  obtain rfl | ⟨front, last, rfl⟩ := List.eq_nil_or_concat' l
  · exact List.isChain_singleton s
  · by_cases hadj : last.Adjoins s
    · rw [join_concat_of_adjoins hadj]
      -- the widened stretch begins where the last one did
      rw [Parted, List.isChain_append] at h ⊢
      refine ⟨h.1, List.isChain_singleton _, fun x hx y hy => ?_⟩
      cases hy
      exact h.2.2 x hx last rfl
    · rw [join_concat_of_not_adjoins hadj]
      rw [Parted, List.append_cons, List.isChain_append]
      refine ⟨h, List.isChain_singleton _, fun x hx y hy => ?_⟩
      cases hy
      rw [List.getLast?_concat] at hx
      cases hx
      exact hadj

theorem positions_foldl_join (ss l : List (Stretch κ)) :
    positions (ss.foldl join l) = positions l ++ positions ss := by
  induction ss generalizing l with
  | nil => simp
  | cons s ss ih => rw [List.foldl_cons, ih, positions_join, positions_cons, List.append_assoc]

theorem parted_foldl_join (ss : List (Stretch κ)) (h : Parted l) : Parted (ss.foldl join l) := by
  induction ss generalizing l with
  | nil => exact h
  | cons s ss ih => exact ih (parted_join h s)

/-- A stretch is joined as its numbers are, one after another. -/
theorem join_widen (l : List (Stretch κ)) (s : Stretch κ) (n : ℕ) :
    join l (s.widen n) = (numbers ⟨s.origin, s.start + s.width, n⟩).foldl (fun l p => join l ⟨p.1, p.2, 1⟩) (join l s) := by
  induction n generalizing s with
  | zero => rfl
  | succ n ih =>
    have hwiden : s.widen (n + 1) = (s.widen 1).widen n := by
      simp only [widen, mk.injEq, true_and]
      omega
    have hadj : ∀ s : Stretch κ, s.Adjoins ⟨s.origin, s.start + s.width, 1⟩ := fun s => ⟨rfl, rfl⟩
    have hone : join (join l s) ⟨s.origin, s.start + s.width, 1⟩ = join l (s.widen 1) := by
      obtain rfl | ⟨front, last, rfl⟩ := List.eq_nil_or_concat' l
      · exact join_concat_of_adjoins (l := []) (hadj s)
      · by_cases h : last.Adjoins s
        · have h' : last.Adjoins (s.widen 1) := h
          have hlast : (last.widen s.width).Adjoins ⟨s.origin, s.start + s.width, 1⟩ := by
            refine ⟨h.1, ?_⟩
            show last.start + (last.width + s.width) = s.start + s.width
            rw [← h.2, Nat.add_assoc]
          rw [join_concat_of_adjoins h, join_concat_of_adjoins h', join_concat_of_adjoins hlast]
          simp only [widen, Nat.add_assoc]
        · have h' : ¬ last.Adjoins (s.widen 1) := h
          rw [join_concat_of_not_adjoins h, join_concat_of_not_adjoins h', List.append_cons,
            join_concat_of_adjoins (hadj s)]
          simp
    have hnumbers : numbers ⟨s.origin, s.start + s.width, n + 1⟩ =
        (s.origin, s.start + s.width) :: numbers ⟨s.origin, s.start + s.width + 1, n⟩ := by
      simp [numbers, List.range'_succ]
    rw [hwiden, ih, hnumbers, List.foldl_cons, hone]
    rfl

theorem foldl_join_eq (h : ∀ s ∈ ss, 0 < s.width) (l : List (Stretch κ)) :
    ss.foldl join l = ((positions ss).map fun p => ⟨p.1, p.2, 1⟩).foldl join l := by
  induction ss generalizing l with
  | nil => rfl
  | cons s ss ih =>
    obtain ⟨hs, hss⟩ := List.forall_mem_cons.1 h
    obtain ⟨n, hn⟩ := Nat.exists_eq_add_of_lt hs
    have hsplit : s = widen ⟨s.origin, s.start, 1⟩ n := by
      obtain ⟨origin, start, width⟩ := s
      simp only [widen, mk.injEq, true_and]
      simp only at hn
      omega
    have hjoin : join l s = (s.numbers.map fun p => (⟨p.1, p.2, 1⟩ : Stretch κ)).foldl join l := by
      rw [hsplit, join_widen, numbers_append, List.map_append, List.foldl_append, List.foldl_map]
      simp [numbers, List.foldl_map]
    rw [List.foldl_cons, ih hss, positions_cons, List.map_append, List.foldl_append, hjoin]

theorem foldl_join_nil (h : ∀ s ∈ ss, 0 < s.width) : ss.foldl join [] = ofPositions (positions ss) :=
  foldl_join_eq h []

end Stretch
