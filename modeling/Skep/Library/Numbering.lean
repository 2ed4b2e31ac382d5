import Mathlib

/-!
# Repeats by number

Each element of a list with how often the list held it before, so that no two places of
the list are alike.
-/

namespace Numbering

variable {α : Type} [DecidableEq α]

/-- Each element, with how often it came before. -/
def numbered (l : List α) : List (α × ℕ) := l.zipIdx.map fun e => (e.1, (l.take e.2).count e.1)

@[simp] theorem numbered_nil : numbered ([] : List α) = [] := rfl

@[simp] theorem length_numbered (l : List α) : (numbered l).length = l.length := by
  rw [numbered, List.length_map, List.length_zipIdx]

theorem getElem?_numbered (l : List α) (i : ℕ) :
    (numbered l)[i]? = l[i]?.map fun a => (a, (l.take i).count a) := by
  rw [numbered, List.getElem?_map, List.getElem?_zipIdx, Option.map_map]
  simp [Function.comp_def]

theorem numbered_append_singleton (l : List α) (a : α) :
    numbered (l ++ [a]) = numbered l ++ [(a, l.count a)] := by
  apply List.ext_getElem?
  intro i
  rw [getElem?_numbered]
  rcases lt_trichotomy i l.length with hlt | rfl | hgt
  · rw [List.getElem?_append_left hlt, List.getElem?_append_left (by rwa [length_numbered]),
      getElem?_numbered, List.take_append_of_le_length hlt.le]
  · rw [List.getElem?_append_right le_rfl, List.getElem?_append_right (by rw [length_numbered]), length_numbered,
      Nat.sub_self, List.take_left]
    rfl
  · rw [List.getElem?_eq_none (by simp; omega), List.getElem?_eq_none (by simp; omega)]
    rfl

theorem mem_numbered {l : List α} {a : α} {k : ℕ} (h : (a, k) ∈ numbered l) : a ∈ l ∧ k < l.count a := by
  obtain ⟨i, hi⟩ := List.mem_iff_getElem?.1 h
  rw [getElem?_numbered, Option.map_eq_some_iff] at hi
  obtain ⟨b, hb, heq⟩ := hi
  obtain ⟨rfl, rfl⟩ := Prod.mk.inj heq
  have hlt := (List.getElem?_eq_some_iff.1 hb).1
  refine ⟨List.mem_of_getElem? hb, ?_⟩
  have hsplit : l.count b = (l.take i).count b + (l.drop i).count b := by
    rw [← List.count_append, List.take_append_drop]
  have hpos : 0 < (l.drop i).count b := by
    refine List.count_pos_iff.2 (List.mem_of_getElem? (i := 0) ?_)
    rw [List.getElem?_drop, Nat.add_zero, hb]
  omega

theorem nodup_numbered (l : List α) : (numbered l).Nodup := by
  induction l using List.reverseRecOn with
  | nil => exact List.nodup_nil
  | append_singleton l a ih =>
    rw [numbered_append_singleton, List.nodup_append]
    refine ⟨ih, List.nodup_singleton _, fun p hp q hq => ?_⟩
    rintro rfl
    rw [List.mem_singleton] at hq
    subst hq
    exact lt_irrefl _ (mem_numbered hp).2

theorem numbered_map {β : Type} [DecidableEq β] {f : α → β} {l : List α}
    (hf : ∀ a ∈ l, ∀ b ∈ l, f a = f b → a = b) : numbered (l.map f) = (numbered l).map fun p => (f p.1, p.2) := by
  apply List.ext_getElem?
  intro i
  rw [List.getElem?_map, getElem?_numbered, getElem?_numbered, List.getElem?_map, Option.map_map, Option.map_map]
  cases hi : l[i]? with
  | none => rfl
  | some a =>
    have ha := List.mem_of_getElem? hi
    have hcount : (List.take i (l.map f)).count (f a) = (l.take i).count a := by
      rw [← List.map_take, List.count, List.countP_map, List.count]
      refine List.countP_congr fun b hb => ?_
      have hb := List.mem_of_mem_take hb
      simp only [Function.comp_apply, beq_iff_eq]
      exact ⟨fun h => hf b hb a ha h, fun h => h ▸ rfl⟩
    simp [hcount]

end Numbering
