import Mathlib

/-!
# Runs of a step function

The state a list of events leads to, one step an event. What one step keeps a run
keeps; what one step relates a run relates, where the relation is a preorder; and
a property that does not hold at the start and holds at the end begins to hold at
some step.
-/

namespace Runs

variable {σ ε : Type*} {step : σ → ε → σ}

/-- The state the events lead to. -/
def after (step : σ → ε → σ) (s : σ) (events : List ε) : σ := events.foldl step s

@[simp] theorem after_nil (s : σ) : after step s [] = s := rfl

@[simp] theorem after_cons (s : σ) (e : ε) (events : List ε) :
    after step s (e :: events) = after step (step s e) events := rfl

theorem after_append (s : σ) (before later : List ε) :
    after step s (before ++ later) = after step (after step s before) later :=
  List.foldl_append

@[simp] theorem after_concat (s : σ) (before : List ε) (e : ε) :
    after step s (before ++ [e]) = step (after step s before) e := by
  rw [after_append, after_cons, after_nil]

theorem after_invariant {P : σ → Prop} {events : List ε}
    (hstep : ∀ s, ∀ e ∈ events, P s → P (step s e)) {s : σ} (h : P s) :
    P (after step s events) := by
  induction events generalizing s with
  | nil => exact h
  | cons e events ih =>
    apply ih
    · intro s' e' he'
      exact hstep s' e' (List.mem_cons_of_mem _ he')
    · exact hstep s e List.mem_cons_self h

/-- A preorder that relates the ends of every step relates the ends of the run. -/
theorem after_relates {R : σ → σ → Prop} (hrefl : ∀ s, R s s)
    (htrans : ∀ {a b c}, R a b → R b c → R a c) {events : List ε}
    (hstep : ∀ s, ∀ e ∈ events, R s (step s e)) (s : σ) : R s (after step s events) := by
  induction events generalizing s with
  | nil => exact hrefl s
  | cons e events ih =>
    apply htrans (hstep s e List.mem_cons_self)
    apply ih
    intro s' e' he'
    exact hstep s' e' (List.mem_cons_of_mem _ he')

/-- A property that holds at the end and not at the start begins to hold at a step. -/
theorem exists_turn {P : σ → Prop} {s : σ} {events : List ε} (hstart : ¬ P s)
    (hend : P (after step s events)) : ∃ before e later, events = before ++ e :: later ∧
      ¬ P (after step s before) ∧ P (step (after step s before) e) := by
  induction events generalizing s with
  | nil => exact absurd hend hstart
  | cons e events ih =>
    by_cases hp : P (step s e)
    · exact ⟨[], e, events, rfl, hstart, hp⟩
    · obtain ⟨before, e', later, rfl, hbefore, hturn⟩ := ih hp hend
      exact ⟨e :: before, e', later, rfl, hbefore, hturn⟩

end Runs
