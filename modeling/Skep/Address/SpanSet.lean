import Skep.Address.Span
import Skep.Library.OrdMap

/-!
# Span sets

A span set is a list of spans, read as the union of what its members hold. The
set operations are defined inside one length class: they normalize their
operands, sweep the two endpoint lists, and rebuild spans from the endpoints
the sweep leaves, each rebuild asserted.
-/

/-- A list of spans. -/
structure SpanSet where
  spans : List Span
  deriving DecidableEq

namespace SpanSet

/-- The set with no span. -/
def empty : SpanSet := ⟨[]⟩

/-- The set of one span. -/
def singleton (s : Span) : SpanSet := ⟨[s]⟩

/-- The number of component spans. -/
def len (a : SpanSet) : ℕ := a.spans.length

/-- Whether some component span holds `t`. -/
def denotes (a : SpanSet) (t : Tumbler) : Bool := a.spans.any fun s => s.contains t

/-- The shared length of every endpoint, none for the empty set. -/
def levelClass (a : SpanSet) : Outcome LevelMismatch (Option ℕ) :=
  match a.spans with
  | [] => return none
  | first :: rest =>
      if (first :: rest).any fun s => !s.isLevelUniform || s.start.len != first.start.len then
        .err .mk
      else return some first.start.len

/-- The component spans by the length of their start, in length order. -/
def byLevelClass (a : SpanSet) : OrdMap ℕ SpanSet :=
  a.spans.foldl (fun classes s =>
    classes.insert s.start.len ⟨((classes.get s.start.len).getD empty).spans ++ [s]⟩) OrdMap.empty

/-- The endpoints of the component spans. -/
def endpoints (a : SpanSet) : List (HalfOpen Tumbler) := a.spans.map Span.endpoints

/-- The spans of the endpoints a sweep leaves, each asserted to be one. -/
def spansFrom (l : List (HalfOpen Tumbler)) : Outcome LevelMismatch SpanSet := do
  let spans ← l.mapM fun e => (Span.ofEndpoints e).expect
  return ⟨spans⟩

/-- The maximally coalesced form, in start order. -/
def normalize (a : SpanSet) : Outcome LevelMismatch SpanSet := do
  match ← a.levelClass with
  | none => return empty
  | some _ => spansFrom (HalfOpen.normalize a.endpoints)

/-- Whether the set is its own normal form. -/
def isNormalized (a : SpanSet) : Outcome LevelMismatch Bool :=
  match a.normalize with
  | .ok n => return n == a
  | .err _ => return false
  | .fault => .fault

end SpanSet

/-- The joined set, uncoalesced. -/
def union (a b : SpanSet) : SpanSet := ⟨a.spans ++ b.spans⟩

/-- The endpoints of both normal forms, gated on one length class. -/
def normalizedEndpoints (a b : SpanSet) :
    Outcome LevelMismatch (List (HalfOpen Tumbler) × List (HalfOpen Tumbler)) := do
  let na ← a.normalize
  let nb ← b.normalize
  match ← na.levelClass, ← nb.levelClass with
  | some la, some lb => if la ≠ lb then .err .mk else return (na.endpoints, nb.endpoints)
  | _, _ => return (na.endpoints, nb.endpoints)

/-- The points of both sets. -/
def intersectSets (a b : SpanSet) : Outcome LevelMismatch SpanSet := do
  let (aSpans, bSpans) ← normalizedEndpoints a b
  SpanSet.spansFrom (HalfOpen.meet aSpans bSpans)

/-- The points of the first set outside the second. -/
def differenceSets (a b : SpanSet) : Outcome LevelMismatch SpanSet := do
  let (aSpans, bSpans) ← normalizedEndpoints a b
  SpanSet.spansFrom (HalfOpen.diff aSpans bSpans)

/-- Whether the normal forms are equal. -/
def equiv (a b : SpanSet) : Outcome LevelMismatch Bool := do
  let na ← a.normalize
  let nb ← b.normalize
  return na == nb

/-- A span set known to be in normal form. -/
structure CanonicalForm where
  asSet : SpanSet
  deriving DecidableEq

/-- The normal form as a key. -/
def canonicalKey (set : SpanSet) : Outcome LevelMismatch CanonicalForm := do
  let n ← set.normalize
  return ⟨n⟩

namespace SpanSet

/-- Every component span is level-uniform with endpoints of length `len`. -/
def AtLength (len : ℕ) (a : SpanSet) : Prop :=
  ∀ s ∈ a.spans, s.isLevelUniform = true ∧ s.start.len = len

/-- The set is level-uniform at some one length. -/
def InClass (a : SpanSet) : Prop := ∃ len, a.AtLength len

/-- The two sets are level-uniform at one length. -/
def SharedClass (a b : SpanSet) : Prop := ∃ len, a.AtLength len ∧ b.AtLength len

theorem AtLength.inClass {len : ℕ} {a : SpanSet} (h : a.AtLength len) : a.InClass := ⟨len, h⟩

@[simp] theorem length_endpoints (a : SpanSet) : a.endpoints.length = a.len := List.length_map _

theorem denotes_iff {a : SpanSet} {t : Tumbler} :
    a.denotes t = true ↔ HalfOpen.Covers a.endpoints t := by
  simp [denotes, endpoints, HalfOpen.Covers]

/-- Two sets denote alike at a point exactly where their endpoints cover alike. -/
theorem denotes_eq_iff {a b : SpanSet} {t : Tumbler} :
    a.denotes t = b.denotes t ↔ (HalfOpen.Covers a.endpoints t ↔ HalfOpen.Covers b.endpoints t) := by
  rw [Bool.eq_iff_iff, denotes_iff, denotes_iff]

theorem AtLength.endsAt {len : ℕ} {a : SpanSet} (h : a.AtLength len) :
    HalfOpen.EndsIn (fun t => t.len = len) a.endpoints := by
  intro e he
  obtain ⟨s, hs, rfl⟩ := List.mem_map.1 he
  exact Span.atLength_iff.2 (h s hs)

/-- The class a nonempty set answers is the length of all its endpoints. -/
theorem levelClass_of_atLength {len : ℕ} {a : SpanSet} (h : a.AtLength len) :
    a.levelClass = .ok (if a.spans = [] then none else some len) := by
  rw [levelClass]
  split
  · next heq => simp [heq]
  · next first rest heq =>
    have hfirst : first.start.len = len := (h first (by simp [heq])).2
    rw [if_neg, heq, hfirst]
    · simp
    · simp only [List.any_eq_true, not_exists, not_and]
      intro s hs
      obtain ⟨hu, hl⟩ := h s (heq ▸ hs)
      simp [hu, hl, hfirst]

theorem levelClass_of_not_inClass {a : SpanSet} (h : ¬ a.InClass) : a.levelClass = .err .mk := by
  rw [levelClass]
  split
  · next heq => exact absurd ⟨0, fun s hs => by simp [heq] at hs⟩ h
  · next first rest heq =>
    rw [if_pos]
    by_contra hall
    refine h ⟨first.start.len, fun s hs => ?_⟩
    simp only [List.any_eq_true, not_exists, not_and, Bool.or_eq_true, not_or,
      Bool.not_eq_true', Bool.not_eq_false, bne_iff_ne, ne_eq, not_not] at hall
    exact hall s (heq ▸ hs)

/-- A class holds the component spans of its length. -/
theorem get_byLevelClass (a : SpanSet) (len : ℕ) : a.byLevelClass.get len =
    if (a.spans.filter fun s => s.start.len == len) = [] then none
    else some ⟨a.spans.filter fun s => s.start.len == len⟩ := by
  suffices h : ∀ (l done : List Span) (classes : OrdMap ℕ SpanSet),
      (∀ len, classes.get len = if (done.filter fun s => s.start.len == len) = [] then none
        else some ⟨done.filter fun s => s.start.len == len⟩) →
      ∀ len, (l.foldl (fun classes s => classes.insert s.start.len
          ⟨((classes.get s.start.len).getD empty).spans ++ [s]⟩) classes).get len =
        if ((done ++ l).filter fun s => s.start.len == len) = [] then none
        else some ⟨(done ++ l).filter fun s => s.start.len == len⟩ from
    h a.spans [] OrdMap.empty (fun _ => rfl) len
  intro l
  induction l with
  | nil =>
    intro done classes h len
    rw [List.append_nil]
    exact h len
  | cons s l ih =>
    intro done classes h len
    rw [List.foldl_cons, List.append_cons done]
    refine ih (done ++ [s]) _ (fun k => ?_) len
    rw [OrdMap.get_insert, List.filter_append]
    by_cases hk : k = s.start.len
    · subst hk
      have hget : ((classes.get s.start.len).getD empty).spans =
          done.filter fun x => x.start.len == s.start.len := by
        rw [h]
        split <;> simp [*, empty]
      simp [hget]
    · have hne : (s.start.len == k) = false := beq_eq_false_iff_ne.2 (Ne.symm hk)
      simp [hk, hne, h]

/-- What a sweep leaves at one length rebuilds to spans with those endpoints. -/
theorem spansFrom_spec {len : ℕ} {l : List (HalfOpen Tumbler)}
    (h : HalfOpen.EndsIn (fun t => t.len = len) l) :
    ∃ a, spansFrom l = .ok a ∧ a.endpoints = l ∧ a.AtLength len := by
  obtain ⟨spans, hok, hmap, hat⟩ := Span.mapM_ofEndpoints (ε := LevelMismatch) h
  refine ⟨⟨spans⟩, ?_, hmap, fun s hs => Span.atLength_iff.1 (hat s hs)⟩
  rw [spansFrom, hok]
  rfl

end SpanSet
