import Skep.Library.Outcome

/-!
# Which errors a call may answer

A bound on the errors of a sequence of calls, from bounds on those of its parts.
-/

namespace Outcome

universe u v

variable {ε ε' : Type v} {α β : Type u} {P : ε → Prop}

/-- Every error of the call is one of some. -/
def ErrsIn (P : ε → Prop) (x : Outcome ε α) : Prop := ∀ e, x = err e → P e

theorem ErrsIn.bind {x : Outcome ε α} {f : α → Outcome ε β} (hx : x.ErrsIn P)
    (hf : ∀ a, x = ok a → (f a).ErrsIn P) : (x >>= f).ErrsIn P := by
  intro e he
  rcases bind_eq_err_iff.1 he with he | ⟨a, ha, he⟩
  · exact hx e he
  · exact hf a ha e he

theorem errsIn_ok (a : α) : (ok a : Outcome ε α).ErrsIn P := fun _ he => nomatch he

theorem errsIn_of_ok {x : Outcome ε α} (h : ∃ a, x = ok a) : x.ErrsIn P := by
  obtain ⟨a, rfl⟩ := h
  exact errsIn_ok a

theorem errsIn_err {e : ε} (h : P e) : (err e : Outcome ε α).ErrsIn P := by
  rintro e' he
  cases he
  exact h

theorem errsIn_refuseIf {bad : Prop} [Decidable bad] {e : ε} (h : P e) : (refuseIf bad e).ErrsIn P := by
  intro e' he
  rw [← (refuseIf_eq_err_iff.1 he).2]
  exact h

theorem errsIn_refuseSome {γ : Type*} {x : Option γ} {e : γ → ε} (h : ∀ a, P (e a)) : (refuseSome x e).ErrsIn P := by
  intro e' he
  obtain ⟨a, -, rfl⟩ := refuseSome_eq_err_iff.1 he
  exact h a

theorem errsIn_okOr {x : Option α} {e : ε} (h : P e) : (okOr x e).ErrsIn P := by
  intro e' he
  rw [← (okOr_eq_err_iff.1 he).2]
  exact h

theorem errsIn_mapErr {x : Outcome ε' α} {f : ε' → ε} (h : ∀ e, P (f e)) : (x.mapErr f).ErrsIn P := by
  intro e' he
  obtain ⟨e, -, rfl⟩ := mapErr_eq_err_iff.1 he
  exact h e

theorem errsIn_expect {x : Outcome ε' α} : (x.expect : Outcome ε α).ErrsIn P := fun _ he => absurd he expect_ne_err

end Outcome
