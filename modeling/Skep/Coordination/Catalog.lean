import Skep.Coordination.Ast

/-!
# The type catalog

The coordination layer's projection of the type registry: what the checker
authorizes a type for and which classes the reads join over. The program copies
it out of the registry once; here each part is read off the registry.
-/

namespace Coordination

/-- What the catalog holds of a type. -/
structure CatalogEntry where
  coverage : CoverageClass
  registration : Registration

def CatalogEntry.declares (e : CatalogEntry) (behavior : Behavior) : Bool :=
  e.registration.behaviors.contains behavior

def CatalogEntry.isUnary (e : CatalogEntry) : Bool := e.registration.shape == .unary

def CatalogEntry.isIdem (e : CatalogEntry) : Bool := e.registration.idem

/-- The projection of a registry. -/
structure TypeCatalog where
  registry : TypeRegistry

namespace TypeCatalog

variable (cat : TypeCatalog)

def entry (ty : ShippedType) : CatalogEntry :=
  ⟨cat.registry.shippedClass ty, cat.registry.registered ty⟩

def get (k : TypeKey) : Option CatalogEntry :=
  (ShippedType.all.find? fun ty => cat.registry.reservedType ty == k).map cat.entry

/-- The class of an authorized key. -/
def classOf (k : TypeKey) : Outcome Empty CoverageClass :=
  Outcome.expectSome ((cat.get k).map CatalogEntry.coverage)

def classes : List TypeKey := ShippedType.all.map cat.registry.reservedType

def readFilterClasses : List (CoverageClass × Endset) :=
  (ShippedType.all.filter fun ty => cat.registry.declares (cat.registry.shippedClass ty) .readFilter).map
    fun ty => (cat.registry.shippedClass ty, cat.registry.reservedType ty)

def reverseLookupClasses : List (CoverageClass × Endset) :=
  (ShippedType.all.filter fun ty =>
    cat.registry.reverseLookupClasses.contains (cat.registry.shippedClass ty)).map
      fun ty => (cat.registry.shippedClass ty, cat.registry.reservedType ty)

def hasReverseLookupClass : Bool := !cat.reverseLookupClasses.isEmpty

def isPredLayer (c : CoverageClass) : Bool :=
  c == cat.registry.shippedClass .predDef || c == cat.registry.shippedClass .predStable

def retractionClass : CoverageClass := cat.registry.shippedClass .retraction

def supersedesKey : TypeKey := cat.registry.reservedType .supersedes

variable {cat}

theorem get_eq_some {k : TypeKey} {e : CatalogEntry} (h : cat.get k = some e) :
    ∃ ty, k = cat.registry.reservedType ty ∧ e = cat.entry ty := by
  obtain ⟨ty, hfind, rfl⟩ := Option.map_eq_some_iff.1 h
  have hk := List.find?_some hfind
  exact ⟨ty, (beq_iff_eq.1 hk).symm, rfl⟩

theorem coverageClass_of_get {k : TypeKey} {e : CatalogEntry} (h : cat.get k = some e) :
    coverageClass k = .ok e.coverage := by
  obtain ⟨ty, rfl, rfl⟩ := get_eq_some h
  exact cat.registry.coverageClass_reservedType ty

@[simp] theorem get_reservedType (ty : ShippedType) :
    cat.get (cat.registry.reservedType ty) = some (cat.entry ty) := by
  have hsome : (cat.get (cat.registry.reservedType ty)).isSome = true := by
    rw [get, Option.isSome_map, List.find?_isSome]
    exact ⟨ty, ty.mem_all, by simp⟩
  obtain ⟨e, he⟩ := Option.isSome_iff_exists.1 hsome
  obtain ⟨ty', hk, rfl⟩ := get_eq_some he
  have hclass := cat.registry.coverageClass_reservedType ty
  rw [hk, cat.registry.coverageClass_reservedType, Outcome.ok.injEq] at hclass
  rw [he, cat.registry.shippedClass_injective hclass]

theorem classOf_eq_ok_iff {k : TypeKey} {c : CoverageClass} :
    cat.classOf k = .ok c ↔ ∃ e, cat.get k = some e ∧ e.coverage = c := by
  simp [classOf]

theorem coverageClass_of_classOf {k : TypeKey} {c : CoverageClass} (h : cat.classOf k = .ok c) :
    coverageClass k = .ok c := by
  obtain ⟨e, he, rfl⟩ := classOf_eq_ok_iff.1 h
  exact coverageClass_of_get he

theorem exists_get_of_mem_classes {k : TypeKey} (h : k ∈ cat.classes) :
    ∃ e, cat.get k = some e := by
  obtain ⟨ty, -, rfl⟩ := List.mem_map.1 h
  exact ⟨_, get_reservedType ty⟩

theorem coverageClass_of_readFilter {j : CoverageClass × Endset} (h : j ∈ cat.readFilterClasses) :
    coverageClass j.2 = .ok j.1 := by
  obtain ⟨ty, -, rfl⟩ := List.mem_map.1 h
  exact cat.registry.coverageClass_reservedType ty

theorem coverageClass_of_reverseLookup {j : CoverageClass × Endset}
    (h : j ∈ cat.reverseLookupClasses) : coverageClass j.2 = .ok j.1 := by
  obtain ⟨ty, -, rfl⟩ := List.mem_map.1 h
  exact cat.registry.coverageClass_reservedType ty

end TypeCatalog

/-- The type of a reference. The trees that are read hold no class variable. -/
def TypeRef.key : TypeRef → Outcome Empty TypeKey
  | .concrete k => return k
  | .classVar _ => .fault

end Coordination
