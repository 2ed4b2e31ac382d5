import Mathlib

/-!
# Successions

Records with a name each, where a record gives the name of the one it follows. A list
of them is a succession when the first follows none and every later one follows the
record just before it. Where the names are distinct no record of a succession follows
its last: a record once taken is not taken again.
-/

namespace Succession

variable {α κ : Type*} (name : α → κ) (follows : α → Option κ)

/-- The name of the last record, none of no records. -/
def current (l : List α) : Option κ := l.getLast?.map name

/-- Every record follows the one just before it, the first none. -/
def Succeeding (l : List α) : Prop :=
  ∀ before a after, l = before ++ a :: after → follows a = current name before

variable {name follows}

@[simp] theorem current_nil : current name [] = none := rfl

theorem current_eq_none {l : List α} : current name l = none ↔ l = [] := by
  simp [current]

theorem current_append (l : List α) {l' : List α} (h : l' ≠ []) :
    current name (l ++ l') = current name l' := by
  rw [current, List.getLast?_append_of_ne_nil _ h, current]

theorem current_mem {l : List α} {k : κ} (h : current name l = some k) : k ∈ l.map name := by
  obtain ⟨a, ha, rfl⟩ := Option.map_eq_some_iff.1 h
  exact List.mem_map_of_mem (List.mem_of_getLast? ha)

theorem Succeeding.nil : Succeeding name follows [] := by
  intro before a after h
  simp at h

theorem Succeeding.left {l l' : List α} (h : Succeeding name follows (l ++ l')) :
    Succeeding name follows l := by
  intro before a after hl
  apply h before a (after ++ l')
  rw [hl, List.append_assoc, List.cons_append]

theorem succeeding_concat {l : List α} {a : α} :
    Succeeding name follows (l ++ [a]) ↔
      Succeeding name follows l ∧ follows a = current name l := by
  constructor
  · intro h
    exact ⟨h.left, h l a [] rfl⟩
  · rintro ⟨hl, ha⟩ before b after heq
    rcases List.eq_nil_or_concat after with rfl | ⟨mid, c, rfl⟩
    · obtain ⟨rfl, rfl⟩ : l = before ∧ a = b := by simpa using heq
      exact ha
    · have hcut : l ++ [a] = (before ++ b :: mid) ++ [c] := by simpa using heq
      obtain ⟨rfl, -⟩ := List.append_inj' hcut rfl
      exact hl before b mid rfl

/-- The name a record follows is read off the record before it, so two records of a
succession never follow one name; the last record's name none follows yet. -/
theorem Succeeding.ne_current {l : List α} (h : Succeeding name follows l)
    (hnodup : (l.map name).Nodup) {a : α} (ha : a ∈ l) : follows a ≠ current name l := by
  obtain ⟨before, after, rfl⟩ := List.append_of_mem ha
  have hne : a :: after ≠ [] := List.cons_ne_nil a after
  rw [h before a after rfl, current_append before hne]
  intro heq
  rw [List.map_append, List.nodup_append] at hnodup
  cases hk : current name before with
  | none => exact hne (current_eq_none.1 (heq.symm.trans hk))
  | some k =>
    have hbefore : k ∈ before.map name := current_mem hk
    have hafter : k ∈ (a :: after).map name := current_mem (heq.symm.trans hk)
    exact hnodup.2.2 k hbefore k hafter rfl

end Succession
