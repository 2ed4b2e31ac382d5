import Mathlib.Data.Finset.Card
import Mathlib.Data.Finset.Filter
import Mathlib.Order.Defs.LinearOrder

/-!
# Rotations

A round goes through finitely many slots from a cursor on and leaves the cursor past
the slot it takes. A turn goes through ordered keys past the last one taken, and wraps.
Each take of another leaves a slot, or a key, with fewer ahead of it.
-/

namespace Rotation

section

variable {n cursor slot : ℕ}

theorem exists_offset (cursor : ℕ) (h : slot < n) : ∃ d < n, (cursor + d) % n = slot := by
  have hn : 0 < n := Nat.zero_lt_of_lt h
  have hc : cursor % n < n := Nat.mod_lt _ hn
  refine ⟨(slot + (n - cursor % n)) % n, Nat.mod_lt _ hn, ?_⟩
  calc (cursor + (slot + (n - cursor % n)) % n) % n
      = (cursor % n + (slot + (n - cursor % n))) % n := by rw [Nat.add_mod_mod, Nat.mod_add_mod]
    _ = (slot + n) % n := by rw [show cursor % n + (slot + (n - cursor % n)) = slot + n by omega]
    _ = slot := by rw [Nat.add_mod_right, Nat.mod_eq_of_lt h]

theorem offset_drops {d i : ℕ} (hd : (cursor + d) % n = slot) (hi : i < d) :
    (((cursor + i) % n + 1) % n + (d - i - 1)) % n = slot := by
  rw [Nat.mod_add_mod, Nat.add_assoc, Nat.mod_add_mod, ← hd]
  congr 1
  omega

end

variable {κ : Type*} [LinearOrder κ]

/-- The key lies past the last one taken, if one was. -/
def Past (last : Option κ) (k : κ) : Prop := ∀ l ∈ last, l < k

instance (last : Option κ) (k : κ) : Decidable (Past last k) :=
  inferInstanceAs (Decidable (∀ l ∈ last, l < k))

/-- A turn takes the least ready key past the last one taken, or the least ready key where
none lies past. -/
def Takes (last : Option κ) (ready : κ → Prop) (k : κ) : Prop :=
  ready k ∧ ((Past last k ∧ ∀ e, ready e → Past last e → k ≤ e) ∨
    (∀ e, ready e → ¬ Past last e) ∧ ∀ e, ready e → k ≤ e)

/-- The keys that turns may take before they take `x`. -/
def ahead (keys : Finset κ) (x : κ) (last : Option κ) : Finset κ :=
  keys.filter fun k => if Past last x then Past last k ∧ k < x else Past last k ∨ k < x

variable {keys : Finset κ} {x k : κ} {last : Option κ} {ready : κ → Prop}

@[simp] theorem past_some {l : κ} : Past (some l) k ↔ l < k := by
  simp [Past]

theorem not_past_iff : ¬ Past last k ↔ ∃ l ∈ last, k ≤ l := by
  simp [Past]

theorem Past.trans (h : Past last k) (hx : k < x) : Past last x := fun l hl => (h l hl).trans hx

theorem not_mem_ahead : x ∉ ahead keys x last := by
  intro h
  obtain ⟨-, h⟩ := Finset.mem_filter.1 h
  split at h
  · exact lt_irrefl _ h.2
  · rename_i hpast
    exact h.elim hpast (lt_irrefl _)

theorem card_ahead_lt_card (hx : x ∈ keys) : (ahead keys x last).card < keys.card :=
  Finset.card_lt_card ((Finset.filter_subset _ _).ssubset_of_mem_notMem hx not_mem_ahead)

/-- A turn that takes another key than a ready one leaves fewer ahead of it. -/
theorem card_ahead_lt (h : Takes last ready k) (hx : ready x) (hne : k ≠ x) (hk : k ∈ keys) :
    (ahead keys x (some k)).card < (ahead keys x last).card := by
  obtain ⟨-, ⟨hpast, hleast⟩ | ⟨hnone, hleast⟩⟩ := h
  · by_cases hpx : Past last x
    · have hkx : k < x := lt_of_le_of_ne (hleast x hx hpx) hne
      refine Finset.card_lt_card (Finset.ssubset_iff_of_subset ?_ |>.2 ⟨k, ?_, ?_⟩)
      · intro e he
        simp only [ahead, Finset.mem_filter, past_some, if_pos hkx, if_pos hpx] at he ⊢
        exact ⟨he.1, hpast.trans he.2.1, he.2.2⟩
      · simp only [ahead, Finset.mem_filter, if_pos hpx]
        exact ⟨hk, hpast, hkx⟩
      · simp [ahead, hkx]
    · have hxk : x < k := by
        obtain ⟨l, hl, hxl⟩ := not_past_iff.1 hpx
        exact lt_of_le_of_lt hxl (hpast l hl)
      refine Finset.card_lt_card (Finset.ssubset_iff_of_subset ?_ |>.2 ⟨k, ?_, ?_⟩)
      · intro e he
        simp only [ahead, Finset.mem_filter, past_some, if_neg hxk.not_gt, if_neg hpx] at he ⊢
        exact ⟨he.1, he.2.imp_left hpast.trans⟩
      · simp only [ahead, Finset.mem_filter, if_neg hpx]
        exact ⟨hk, .inl hpast⟩
      · simp [ahead, hxk.not_gt]
  · have hkx : k < x := lt_of_le_of_ne (hleast x hx) hne
    have hpx : ¬ Past last x := hnone x hx
    refine Finset.card_lt_card (Finset.ssubset_iff_of_subset ?_ |>.2 ⟨k, ?_, ?_⟩)
    · intro e he
      simp only [ahead, Finset.mem_filter, past_some, if_pos hkx, if_neg hpx] at he ⊢
      exact ⟨he.1, .inr he.2.2⟩
    · simp only [ahead, Finset.mem_filter, if_neg hpx]
      exact ⟨hk, .inr hkx⟩
    · simp [ahead, hkx]

end Rotation
