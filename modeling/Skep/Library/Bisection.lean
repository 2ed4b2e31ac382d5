import Mathlib

/-!
# Intervals at the nodes of the binary partition

An interval of numbers is kept at the node of the binary partition that holds it whole and
whose midpoint parts it: at its level, the position of the highest bit in which its two
ends differ. A point meets one node of each level, and at a node above level zero one
comparison, with the ends on the point's side, says which intervals hold the point.
-/

namespace Bisection

/-- The level of the interval `[x, y)`. -/
def level (x y : ℕ) : ℕ := (x ^^^ (y - 1)).size

/-- The node of a number at a level. -/
def node (level x : ℕ) : ℕ := x >>> level

theorem node_eq_div (l x : ℕ) : node l x = x / 2 ^ l := Nat.shiftRight_eq_div_pow x l

theorem node_mono (l : ℕ) {x y : ℕ} (h : x ≤ y) : node l x ≤ node l y := by
  rw [node_eq_div, node_eq_div]
  exact Nat.div_le_div_right h

theorem node_le_iff {l x m : ℕ} : m ≤ node l x ↔ m <<< l ≤ x := by
  rw [node_eq_div, Nat.shiftLeft_eq, Nat.le_div_iff_mul_le (Nat.two_pow_pos l)]

theorem node_lt_iff {l x m : ℕ} : node l x < m ↔ x < m <<< l := by
  rw [node_eq_div, Nat.shiftLeft_eq, Nat.div_lt_iff_lt_mul (Nat.two_pow_pos l)]

theorem node_pred {l : ℕ} (hl : 0 < l) (x : ℕ) :
    node (l - 1) x = 2 * node l x + if x.testBit (l - 1) then 1 else 0 := by
  obtain ⟨l, rfl⟩ := Nat.exists_eq_succ_of_ne_zero hl.ne'
  have hhalf : node (l + 1) x = node l x / 2 := by
    rw [node_eq_div, node_eq_div, Nat.div_div_eq_div_mul, pow_succ]
  have hbit : x.testBit l = decide (node l x % 2 = 1) := by
    rw [Nat.testBit_eq_decide_div_mod_eq, node_eq_div]
  show node l x = 2 * node (l + 1) x + if x.testBit l then 1 else 0
  rw [hhalf, hbit]
  by_cases hodd : node l x % 2 = 1
  · simp only [hodd, decide_true, if_true]
    omega
  · simp only [hodd, decide_false, Bool.false_eq_true, if_false]
    omega

variable {x y c : ℕ}

theorem node_end : node (level x y) (y - 1) = node (level x y) x := by
  have hlt : x ^^^ (y - 1) < 2 ^ level x y := Nat.size_le.1 le_rfl
  have hzero : (x ^^^ (y - 1)) >>> level x y = 0 := by
    rw [Nat.shiftRight_eq_div_pow]
    exact Nat.div_eq_of_lt hlt
  rw [Nat.shiftRight_xor_distrib] at hzero
  exact (Nat.xor_eq_zero_iff.1 hzero).symm

/-- The node of an interval is that of each of its points. -/
theorem node_eq_of_mem (hlo : x ≤ c) (hhi : c < y) : node (level x y) c = node (level x y) x :=
  le_antisymm ((node_mono _ (Nat.le_sub_one_of_lt hhi)).trans node_end.le) (node_mono _ hlo)

variable (h : x < y)

include h

/-- The ends of an interval above level zero lie in the two halves of its node. -/
theorem testBit_ends (hl : 0 < level x y) :
    x.testBit (level x y - 1) = false ∧ (y - 1).testBit (level x y - 1) = true := by
  have hle : 2 ^ (level x y - 1) ≤ x ^^^ (y - 1) := Nat.lt_size.1 (by rw [← level]; omega)
  have hne : node (level x y - 1) x ≠ node (level x y - 1) (y - 1) := by
    intro heq
    have hzero : (x ^^^ (y - 1)) >>> (level x y - 1) = 0 := by
      rw [Nat.shiftRight_xor_distrib]
      exact Nat.xor_eq_zero_iff.2 heq
    rw [Nat.shiftRight_eq_div_pow] at hzero
    have := Nat.div_pos hle (Nat.two_pow_pos _)
    omega
  have hlt := lt_of_le_of_ne (node_mono (level x y - 1) (Nat.le_sub_one_of_lt h)) hne
  rw [node_pred hl, node_pred hl, node_end] at hlt
  cases hx : x.testBit (level x y - 1) <;> cases hy : (y - 1).testBit (level x y - 1) <;>
    simp only [hx, hy, Bool.false_eq_true, if_true, if_false] at hlt <;> simp at hlt ⊢

theorem mem_iff_of_level_zero (hl : level x y = 0) : x ≤ c ∧ c < y ↔ c ≤ x ∧ x < c + 1 := by
  have hend := node_end (x := x) (y := y)
  rw [hl, node_eq_div, node_eq_div, pow_zero, Nat.div_one, Nat.div_one] at hend
  omega

/-- Past the midpoint, an interval of the node holds the point where it ends past it. -/
theorem mem_iff_of_testBit {l : ℕ} (hlevel : level x y = l) (hl : 0 < l)
    (hbit : c.testBit (l - 1) = true) :
    x ≤ c ∧ c < y ↔ c + 1 ≤ y ∧ y < (node l c + 1) <<< l + 1 := by
  subst hlevel
  constructor
  · rintro ⟨hlo, hhi⟩
    have hnode : node (level x y) (y - 1) < node (level x y) c + 1 := by
      rw [node_end, node_eq_of_mem hlo hhi]
      omega
    have := node_lt_iff.1 hnode
    omega
  · rintro ⟨hlo, hhi⟩
    refine ⟨?_, hlo⟩
    have hle : node (level x y) c ≤ node (level x y) (y - 1) := node_mono _ (by omega)
    have hge : node (level x y) (y - 1) < node (level x y) c + 1 := node_lt_iff.2 (by omega)
    have hhalf : node (level x y - 1) x < node (level x y - 1) c := by
      rw [node_pred hl, node_pred hl, (testBit_ends h hl).1, hbit, ← node_end]
      simp only [Bool.false_eq_true, if_false, if_true]
      omega
    exact (lt_of_not_ge fun hge => absurd (node_mono (level x y - 1) hge) (not_le.2 hhalf)).le

/-- Before the midpoint, an interval of the node holds the point where it starts before it. -/
theorem mem_iff_of_not_testBit {l : ℕ} (hlevel : level x y = l) (hl : 0 < l)
    (hbit : c.testBit (l - 1) = false) :
    x ≤ c ∧ c < y ↔ node l c <<< l ≤ x ∧ x < c + 1 := by
  subst hlevel
  constructor
  · rintro ⟨hlo, hhi⟩
    exact ⟨node_le_iff.1 (node_eq_of_mem hlo hhi).le, by omega⟩
  · rintro ⟨hlo, hhi⟩
    refine ⟨by omega, ?_⟩
    have hle : node (level x y) x ≤ node (level x y) c := node_mono _ (by omega)
    have hge : node (level x y) c ≤ node (level x y) x := node_le_iff.2 hlo
    have hhalf : node (level x y - 1) c < node (level x y - 1) (y - 1) := by
      rw [node_pred hl, node_pred hl, (testBit_ends h hl).2, hbit, node_end]
      simp only [Bool.false_eq_true, if_false, if_true]
      omega
    have hlt : c < y - 1 := lt_of_not_ge fun hge =>
      absurd (node_mono (level x y - 1) hge) (not_le.2 hhalf)
    omega

end Bisection
