import Skep.Links.Supersession

/-!
# The members of a class

A class denotes the subjects of its tuples. The default view leaves out what a retired
address stands over, save of the retired class itself.
-/

theorem OrdMap.filter_keys_ascending {κ ν : Type} [LinearOrder κ] (m : OrdMap κ ν) (p : κ × ν → Bool) :
    ((m.entries.filter p).map Prod.fst).Pairwise (· < ·) :=
  List.pairwise_map.2 (m.ascending.filter p)

namespace LinkState

/-- Every slot a deposit path builds starts at addresses, at both ends. -/
def DenotesAddresses (s : LinkState) : Prop :=
  ∀ a l, s.readlink a = some l → ∀ t ∈ l.fromSlot.addrs ++ l.toSlot.addrs, ∃ b : Address, b.tumbler = t

variable (reg : TypeRegistry) (s : LinkState)

/-- Every link that a view meets. -/
def viewSlice (view : View) : List Address :=
  (s.links.entries.filter fun e => !(view.isActive && s.nullified reg e.1.tumbler)).map Prod.fst

/-- The links of a type that a view meets. -/
def typeSliceOf {ε : Type} (ty : Endset) (view : View) : Outcome ε (List Address) := do
  let c ← (coverageClass ty).expect
  return (s.typedLinks reg c view).map Prod.fst

/-- Whether some root is a prefix of the probe. -/
def underAny (roots : List Tumbler) (probe : Tumbler) : Bool := roots.any fun root => isPrefix root probe

def retiredRoots : List Tumbler :=
  (s.typedLinks reg (reg.shippedClass .retired) .active).flatMap fun e => e.2.fromSlot.addrs

/-- A denoted set as addresses, under the default view without what is retired. -/
def subtractFiltered {ε : Type} (c : CoverageClass) (view : View) (denoted : OrdSet Tumbler) :
    Outcome ε (List Address) :=
  let subtract := decide (view = .default ∧ c ≠ reg.shippedClass .retired)
  let roots := if subtract then s.retiredRoots reg else []
  (denoted.elems.filter fun t => !(subtract && underAny roots t)).mapM liftDenoted

/-- The subjects of the class's tuples. -/
def members {ε : Type} (ty : Endset) (view : View) : Outcome ε (List Address) := do
  let c ← (coverageClass ty).expect
  s.subtractFiltered reg c view (.ofList ((s.typedLinks reg c view).flatMap fun e => e.2.fromSlot.addrs))

/-- The operative successors of a link. -/
def succs (ty : Endset) (x : Address) : Outcome Empty (List Address) := do
  if ← servesWalk reg ty then (s.succsOperative reg x.tumbler).elems.mapM liftDenoted
  else return []

variable {reg s}

theorem mem_viewSlice {view : View} {a : Address} : a ∈ s.viewSlice reg view ↔
    (∃ l, s.readlink a = some l) ∧ (view.isActive = true → s.nullified reg a.tumbler = false) := by
  simp only [viewSlice, List.mem_map, List.mem_filter, Prod.exists, exists_eq_right, readlink,
    OrdMap.get_eq_some_iff, exists_and_right]
  refine and_congr_right fun _ => ?_
  cases view.isActive <;> simp

theorem viewSlice_ascending (view : View) : (s.viewSlice reg view).Pairwise (· < ·) :=
  s.links.filter_keys_ascending _

theorem typedLinks_ascending (c : CoverageClass) (view : View) :
    ((s.typedLinks reg c view).map Prod.fst).Pairwise (· < ·) := by
  rw [typedLinks, typeSlice, List.filter_filter]
  exact s.links.filter_keys_ascending _

/-- Tumblers that are addresses are lifted in their order. -/
theorem exists_lifted {ε : Type} {denoted : List Tumbler} (hasc : denoted.Pairwise (· < ·))
    (h : ∀ t ∈ denoted, ∃ b : Address, b.tumbler = t) :
    ∃ addrs : List Address, (denoted.mapM liftDenoted : Outcome ε (List Address)) = .ok addrs ∧
      addrs.Pairwise (· < ·) ∧ ∀ a, a ∈ addrs ↔ a.tumbler ∈ denoted := by
  obtain ⟨addrs, rfl⟩ := exists_lift h
  refine ⟨addrs, mapM_liftDenoted rfl, (List.pairwise_map (f := Address.tumbler)).1 hasc, fun a => ?_⟩
  rw [List.mem_map_of_injective Address.tumbler_injective]

/-- The subjects under a view that subtracts nothing, in their order. -/
theorem members_spec {ε : Type} (hs : s.DenotesAddresses) {ty : Endset} {c : CoverageClass}
    (hc : coverageClass ty = .ok c) {view : View} (hview : view ≠ .default) :
    ∃ found, (s.members reg ty view : Outcome ε (List Address)) = .ok found ∧ found.Pairwise (· < ·) ∧
      ∀ a, a ∈ found ↔ ∃ e ∈ s.typedLinks reg c view, a.tumbler ∈ e.2.fromSlot.addrs := by
  obtain ⟨found, hfound, hasc, hiff⟩ := exists_lifted (ε := ε) (OrdSet.ofList
    ((s.typedLinks reg c view).flatMap fun e => e.2.fromSlot.addrs)).ascending fun t ht => by
      obtain ⟨e, he, ht⟩ := List.mem_flatMap.1 (OrdSet.mem_ofList.1 ht)
      exact hs e.1 e.2 (mem_typedLinks.1 he).1 t (List.mem_append_left _ ht)
  refine ⟨found, ?_, hasc, fun a => ?_⟩
  · rw [members, hc, Outcome.expect, Outcome.ok_bind, subtractFiltered]
    simpa [hview] using hfound
  · rw [hiff, OrdSet.mem_elems, OrdSet.mem_ofList, List.mem_flatMap]

/-- The successors by operative claims, in their order. -/
theorem succs_spec (hs : s.DenotesAddresses) {ty : Endset}
    (hc : coverageClass ty = .ok (reg.shippedClass .supersedes)) (x : Address) :
    ∃ found, s.succs reg ty x = .ok found ∧ found.Pairwise (· < ·) ∧
      ∀ a, a ∈ found ↔ s.Supersedes reg x.tumbler a.tumbler := by
  have hmem : ∀ t, t ∈ s.succsOperative reg x.tumbler ↔ s.Supersedes reg x.tumbler t := fun t => step_iff
  obtain ⟨found, hfound, hasc, hiff⟩ := exists_lifted (ε := Empty)
    (s.succsOperative reg x.tumbler).ascending fun t ht => by
      obtain ⟨claim, l, ⟨hl, -⟩, -, hto⟩ := (hmem t).1 ht
      exact hs claim l hl t (List.mem_append_right _ hto)
  refine ⟨found, ?_, hasc, fun a => (hiff a).trans (hmem _)⟩
  rw [succs, servesWalk_of_class hc, Outcome.ok_bind, if_pos rfl, hfound]

end LinkState
