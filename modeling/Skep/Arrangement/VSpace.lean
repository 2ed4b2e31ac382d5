import Skep.Address.Span
import Skep.Address.Increment

/-!
# V-positions

A position of an arrangement is a subspace and an ordinal. A request names a
range of them by a span of two-component tumblers.
-/

/-- A position of an arrangement. -/
structure VPos where
  subspace : ℕ
  ordinal : ℕ
  deriving DecidableEq, Repr

namespace VPos

/-- A position of the content subspace. -/
def content (ordinal : ℕ) : VPos := ⟨contentSubspace, ordinal⟩

def isContent (p : VPos) : Bool := p.subspace == contentSubspace

/-- The position as a tumbler. -/
def tumbler (p : VPos) : Tumbler := ⟨[p.subspace, p.ordinal], by simp⟩

end VPos

/-- A range of a source's arrangement. -/
structure VSpec where
  source : Address
  span : Span

/-- `count` positions from an ordinal on. -/
structure OrdinalVSpan where
  subspace : ℕ
  ordinal : ℕ
  count : ℕ
  deriving DecidableEq, Repr

def OrdinalVSpan.isContent (v : OrdinalVSpan) : Bool := v.subspace == contentSubspace

/-- The range a span names, none where it names none. -/
def asOrdinalVspan (span : Span) : Option OrdinalVSpan :=
  if span.start.len ≠ 2 ∨ span.width.len ≠ 2 ∨ span.width.get 1 ≠ some 0 then none
  else do
    let subspace ← span.start.get 1
    let ordinal ← span.start.get 2
    let count ← span.width.get 2
    return ⟨subspace, ordinal, count⟩

/-- The span of `count` positions from `pos` on, none for no position. -/
def ordinalVspan {ε : Type} (pos : VPos) (count : ℕ) : Outcome ε (Option Span) :=
  if count = 0 then return none
  else do
    let span ← (Span.new pos.tumbler ⟨[0, count], by simp⟩).expect
    return some span

/-- The span of a nonempty range runs between its two end positions. -/
theorem ordinalVspan_spec {ε : Type} (pos : VPos) {count : ℕ} (h : 0 < count) :
    ∃ span, (ordinalVspan pos count : Outcome ε (Option Span)) = .ok (some span) ∧
      span.start = pos.tumbler ∧ span.reach = VPos.tumbler ⟨pos.subspace, pos.ordinal + count⟩ ∧
      span.isLevelUniform = true := by
  have hdom : addDomain pos.tumbler ⟨[0, count], by simp⟩ = .ok 2 :=
    addDomain_eq_ok_iff.2
      ⟨actionPoint_of_parts (show [0, count] = List.replicate 1 0 ++ [count] from rfl) h.ne', le_rfl⟩
  refine ⟨⟨pos.tumbler, ⟨[0, count], by simp⟩, 2, hdom⟩, ?_, rfl, ?_, rfl⟩
  · rw [ordinalVspan, if_neg h.ne', Span.new_eq_ok hdom]
    rfl
  · exact (Span.reach_eq_sumAt hdom).trans (Tumbler.ext rfl)
