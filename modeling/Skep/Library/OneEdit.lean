import Mathlib.Data.List.Basic
import Mathlib.Tactic

/-!
# One edit of a list

One element inserted, deleted or replaced by a different one, or two different neighbours
exchanged. What two lists share at their front plays no part in an edit between them, though
it may hold the very element the edit is made of; past it, an edit is at the front.
-/

variable {α : Type}

/-- One edit turns one list into another. -/
inductive OneEdit : List α → List α → Prop
  | insert (p s : List α) (c : α) : OneEdit (p ++ s) (p ++ c :: s)
  | delete (p s : List α) (c : α) : OneEdit (p ++ c :: s) (p ++ s)
  | substitute (p s : List α) {c d : α} (h : c ≠ d) : OneEdit (p ++ c :: s) (p ++ d :: s)
  | transpose (p s : List α) {c d : α} (h : c ≠ d) : OneEdit (p ++ c :: d :: s) (p ++ d :: c :: s)

/-- What is left of two lists past what they share at their front. -/
def apart [DecidableEq α] : List α → List α → List α × List α
  | x :: a, y :: b => if x = y then apart a b else (x :: a, y :: b)
  | a, b => (a, b)

namespace OneEdit

variable {a b p : List α} {x y : α}

theorem symm (h : OneEdit a b) : OneEdit b a := by
  cases h with
  | insert p s c => exact .delete p s c
  | delete p s c => exact .insert p s c
  | substitute p s h => exact .substitute p s h.symm
  | transpose p s h => exact .transpose p s h.symm

theorem ne (h : OneEdit a b) : a ≠ b := by
  intro hab
  cases h with
  | insert p s c =>
    apply absurd (congrArg List.length hab)
    simp
  | delete p s c =>
    apply absurd (congrArg List.length hab)
    simp
  | substitute p s h => exact h (List.cons.inj (List.append_cancel_left hab)).1
  | transpose p s h => exact h (List.cons.inj (List.append_cancel_left hab)).1

theorem length_le (h : OneEdit a b) : b.length ≤ a.length + 1 := by
  cases h <;> simp only [List.length_append, List.length_cons] <;> omega

/-- An edit is at the front, or past a shared first element. -/
theorem cases_front (h : OneEdit a b) :
    (∃ c, b = c :: a) ∨ (∃ c, a = c :: b) ∨ (∃ c d s, c ≠ d ∧ a = c :: s ∧ b = d :: s) ∨
      (∃ c d s, c ≠ d ∧ a = c :: d :: s ∧ b = d :: c :: s) ∨
        ∃ z a' b', a = z :: a' ∧ b = z :: b' ∧ OneEdit a' b' := by
  cases h with
  | insert p s c =>
    cases p with
    | nil => exact .inl ⟨c, rfl⟩
    | cons z p => exact .inr (.inr (.inr (.inr ⟨z, _, _, rfl, rfl, .insert p s c⟩)))
  | delete p s c =>
    cases p with
    | nil => exact .inr (.inl ⟨c, rfl⟩)
    | cons z p => exact .inr (.inr (.inr (.inr ⟨z, _, _, rfl, rfl, .delete p s c⟩)))
  | @substitute p s c d h =>
    cases p with
    | nil => exact .inr (.inr (.inl ⟨c, d, s, h, rfl, rfl⟩))
    | cons z p => exact .inr (.inr (.inr (.inr ⟨z, _, _, rfl, rfl, .substitute p s h⟩)))
  | @transpose p s c d h =>
    cases p with
    | nil => exact .inr (.inr (.inr (.inl ⟨c, d, s, h, rfl, rfl⟩)))
    | cons z p => exact .inr (.inr (.inr (.inr ⟨z, _, _, rfl, rfl, .transpose p s h⟩)))

theorem cons (z : α) (h : OneEdit a b) : OneEdit (z :: a) (z :: b) := by
  cases h with
  | insert p s c => exact .insert (z :: p) s c
  | delete p s c => exact .delete (z :: p) s c
  | substitute p s h => exact .substitute (z :: p) s h
  | transpose p s h => exact .transpose (z :: p) s h

/-- A shared first element plays no part. Inserting or deleting one more of it at the front
does the same there as behind it. -/
theorem cons_cons_iff : OneEdit (x :: a) (x :: b) ↔ OneEdit a b := by
  refine ⟨fun h => ?_, cons x⟩
  obtain ⟨c, hb⟩ | ⟨c, ha⟩ | ⟨c, d, s, hne, ha, hb⟩ | ⟨c, d, s, hne, ha, hb⟩ | ⟨z, a', b', ha, hb, h⟩ :=
    h.cases_front
  · obtain ⟨-, rfl⟩ := List.cons.inj hb
    exact .insert [] a x
  · obtain ⟨-, rfl⟩ := List.cons.inj ha
    exact .delete [] b x
  · exact absurd ((List.cons.inj ha).1.symm.trans (List.cons.inj hb).1) hne
  · exact absurd ((List.cons.inj ha).1.symm.trans (List.cons.inj hb).1) hne
  · obtain ⟨-, rfl⟩ := List.cons.inj ha
    obtain ⟨-, rfl⟩ := List.cons.inj hb
    exact h

theorem append_append_iff : OneEdit (p ++ a) (p ++ b) ↔ OneEdit a b := by
  induction p with
  | nil => rfl
  | cons x p ih => rw [List.cons_append, List.cons_append, cons_cons_iff, ih]

variable (hpart : ∀ z, a.head? = some z → b.head? ≠ some z)

include hpart

/-- Between lists that part at their first elements, the longer loses its own first. -/
theorem iff_of_longer (hlen : a.length = b.length + 1) : OneEdit a b ↔ a.tail = b := by
  constructor
  · intro h
    obtain ⟨c, rfl⟩ | ⟨c, rfl⟩ | ⟨c, d, s, -, rfl, rfl⟩ | ⟨c, d, s, -, rfl, rfl⟩ | ⟨z, a', b', rfl, rfl, -⟩ :=
      h.cases_front
    · rw [List.length_cons] at hlen
      omega
    · rfl
    · exact absurd hlen (by simp)
    · exact absurd hlen (by simp)
    · exact absurd rfl (hpart z rfl)
  · rintro rfl
    cases a with
    | nil => cases hlen
    | cons c a => exact .delete [] a c

/-- Between lists of one length that part at their first elements, the first is replaced or
is exchanged with the second. -/
theorem iff_of_length_eq (hlen : a.length = b.length) : OneEdit a b ↔
    a ≠ [] ∧ (a.tail = b.tail ∨ a.head? = b.tail.head? ∧ a.tail.head? = b.head? ∧ a.tail.tail = b.tail.tail) := by
  constructor
  · intro h
    obtain ⟨c, rfl⟩ | ⟨c, rfl⟩ | ⟨c, d, s, -, rfl, rfl⟩ | ⟨c, d, s, -, rfl, rfl⟩ | ⟨z, a', b', rfl, rfl, -⟩ :=
      h.cases_front
    · exact absurd hlen (by simp)
    · exact absurd hlen (by simp)
    · exact ⟨by simp, .inl rfl⟩
    · exact ⟨by simp, .inr ⟨rfl, rfl, rfl⟩⟩
    · exact absurd rfl (hpart z rfl)
  · rintro ⟨hne, h⟩
    match a, b, hne with
    | c :: s, d :: t, _ =>
      have hcd : c ≠ d := fun heq => hpart c rfl (congrArg some heq.symm)
      obtain rfl | ⟨hfirst, hsecond, hrest⟩ := h
      · exact .substitute [] s hcd
      · match s, t with
        | [], _ => cases hsecond
        | _, [] => cases hfirst
        | d' :: s, c' :: t =>
          obtain rfl : c = c' := Option.some.inj hfirst
          obtain rfl : d' = d := Option.some.inj hsecond
          obtain rfl : s = t := hrest
          exact .transpose [] s hcd

end OneEdit

/-- Two lists are what they share at their front and what is left, which parts at once. -/
theorem apart_spec [DecidableEq α] (a b : List α) : ∃ p, a = p ++ (apart a b).1 ∧ b = p ++ (apart a b).2 ∧
    ∀ z, (apart a b).1.head? = some z → (apart a b).2.head? ≠ some z := by
  induction a generalizing b with
  | nil => exact ⟨[], by simp [apart], by simp [apart], by simp [apart]⟩
  | cons x a ih =>
    cases b with
    | nil => exact ⟨[], by simp [apart], by simp [apart], by simp [apart]⟩
    | cons y b =>
      by_cases h : x = y
      · obtain ⟨p, ha, hb, hpart⟩ := ih b
        rw [apart, if_pos h]
        refine ⟨x :: p, ?_, ?_, hpart⟩
        · rw [List.cons_append, ← ha]
        · rw [List.cons_append, ← hb, h]
      · rw [apart, if_neg h]
        refine ⟨[], rfl, rfl, fun z hx hy => ?_⟩
        exact h ((Option.some.inj hx).trans (Option.some.inj hy).symm)
