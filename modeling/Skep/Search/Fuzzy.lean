import Skep.Library.OneEdit

/-!
# One edit apart

A word is corrected to the terms that one edit of a character gives. The scan drops what the
two share at the front and decides by what is left of each.

## Main results

- `Search.oneEditApart_iff` — it answers whether one edit gives the one from the other
- `Search.one_edit_exact` — it is symmetric too, and no word is one edit from itself
-/

namespace Search

/-- Whether one edit of `a` gives `b`. -/
def oneEditApart (a b : String) : Bool :=
  let la := a.toList.length
  let lb := b.toList.length
  if 1 < max la lb - min la lb then false
  else
    let ra := (apart a.toList b.toList).1
    let rb := (apart a.toList b.toList).2
    if ra.isEmpty && rb.isEmpty then false
    else if la = lb then
      let xa := ra.tail
      let xb := rb.tail
      if xa = xb then true
      else ra.head? == xb.head? && xa.head? == rb.head? && xa.tail == xb.tail
    else
      let longer := if lb < la then ra else rb
      let shorter := if lb < la then rb else ra
      longer.tail == shorter

/-- The scan answers whether one edit gives the one string from the other. -/
theorem oneEditApart_iff (a b : String) : oneEditApart a b = true ↔ OneEdit a.toList b.toList := by
  obtain ⟨p, ha, hb, hpart⟩ := apart_spec a.toList b.toList
  rw [oneEditApart]
  generalize (apart a.toList b.toList).1 = ra at *
  generalize (apart a.toList b.toList).2 = rb at *
  rw [ha, hb, OneEdit.append_append_iff]
  simp only [List.length_append]
  have hlonger := OneEdit.length_le (a := ra) (b := rb)
  have hshorter := fun h : OneEdit ra rb => h.symm.length_le
  by_cases hfar : 1 < max (p.length + ra.length) (p.length + rb.length) -
      min (p.length + ra.length) (p.length + rb.length)
  · simp only [if_pos hfar, Bool.false_eq_true, false_iff]
    intro h
    have := hlonger h
    have := hshorter h
    omega
  simp only [if_neg hfar]
  by_cases hboth : ra = [] ∧ rb = []
  · obtain ⟨rfl, rfl⟩ := hboth
    simpa using fun h : OneEdit ([] : List Char) [] => h.ne rfl
  have hsome : (ra.isEmpty && rb.isEmpty) = false := by
    rw [Bool.and_eq_false_iff, List.isEmpty_eq_false_iff, List.isEmpty_eq_false_iff]
    exact not_and_or.1 hboth
  simp only [hsome, Bool.false_eq_true, if_false]
  by_cases hlen : ra.length = rb.length
  · have hne : ra ≠ [] := by
      rintro rfl
      exact hboth ⟨rfl, List.length_eq_zero_iff.1 hlen.symm⟩
    rw [if_pos (by omega), OneEdit.iff_of_length_eq hpart hlen]
    by_cases hrest : ra.tail = rb.tail
    · simp [hrest, hne]
    · simp [hrest, hne, and_assoc]
  · rw [if_neg (by omega)]
    by_cases hlt : rb.length < ra.length
    · rw [if_pos (by omega), if_pos (by omega), beq_iff_eq, OneEdit.iff_of_longer hpart (by omega)]
    · have hpart' : ∀ z, rb.head? = some z → ra.head? ≠ some z := fun z hz hz' => hpart z hz' hz
      rw [if_neg (by omega), if_neg (by omega), beq_iff_eq, ← OneEdit.iff_of_longer hpart' (by omega)]
      exact ⟨OneEdit.symm, OneEdit.symm⟩

/-- One edit is one edit: exactly what one insertion, deletion, substitution or exchange of
neighbours gives, either way round, and never the string itself. -/
theorem one_edit_exact (a b : String) : (oneEditApart a b = true ↔ OneEdit a.toList b.toList) ∧
    oneEditApart a b = oneEditApart b a ∧ oneEditApart a a = false := by
  refine ⟨oneEditApart_iff a b, ?_, ?_⟩
  · rw [Bool.eq_iff_iff, oneEditApart_iff, oneEditApart_iff]
    exact ⟨OneEdit.symm, OneEdit.symm⟩
  · rw [Bool.eq_false_iff, Ne, oneEditApart_iff]
    exact fun h => h.ne rfl

end Search
