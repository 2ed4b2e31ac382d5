import Skep.Links.Endset
import Skep.Namespace.State

/-!
# The type registry

Five types are shipped, each at a reserved address. A registration says a
type's shape, whether equal links of it are one, and how reads behave at it.
-/

/-- How many spans a type's slots hold. -/
inductive Shape where
  | unary
  | binary
  | multi
  deriving DecidableEq, Repr

def holdsOneSpan (e : Endset) : Bool :=
  match e.spans with
  | [] => false
  | first :: rest => rest.all (· == first)

/-- Whether a value's slots have the shape. -/
def shConf (shape : Shape) (value : Link) : Bool :=
  holdsOneSpan value.fromSlot &&
    match shape with
    | .unary => value.toSlot.isEmpty
    | .binary => holdsOneSpan value.toSlot
    | .multi => true

/-- What reads may do at a type. -/
inductive Behavior where
  | readFilter
  | walk
  | reverseLookup
  | age
  deriving DecidableEq, Repr

structure Registration where
  shape : Shape
  idem : Bool
  behaviors : List Behavior
  deriving DecidableEq, Repr

inductive ShippedType where
  | retired
  | supersedes
  | retraction
  | predDef
  | predStable
  deriving DecidableEq, Repr

/-- The shipped types in the order the catalog lists them. -/
def ShippedType.all : List ShippedType := [.retired, .supersedes, .retraction, .predDef, .predStable]

theorem ShippedType.mem_all (ty : ShippedType) : ty ∈ ShippedType.all := by
  cases ty <;> simp [ShippedType.all]

/-- The registered types: five reserved addresses, pairwise class-distinct, and
the registration of each. -/
structure TypeRegistry where
  reserved : ShippedType → Address
  registered : ShippedType → Registration
  distinct : Function.Injective reserved

namespace TypeRegistry

variable (reg : TypeRegistry)

/-- The endset that names a shipped type. -/
def reservedType (ty : ShippedType) : Endset := enc [reg.reserved ty]

def shippedClass (ty : ShippedType) : CoverageClass :=
  .addrs (OrdSet.ofList [(reg.reserved ty).tumbler])

def registration (c : CoverageClass) : Option Registration :=
  (ShippedType.all.find? fun ty => reg.shippedClass ty == c).map reg.registered

def declares (c : CoverageClass) (behavior : Behavior) : Bool :=
  (reg.registration c).any fun r => r.behaviors.contains behavior

def isIdempotent (c : CoverageClass) : Bool := (reg.registration c).any Registration.idem

/-- The binary classes that are read backwards. -/
def reverseLookupClasses : List CoverageClass :=
  (ShippedType.all.filter fun ty =>
    (reg.registered ty).shape == .binary && (reg.registered ty).behaviors.contains .reverseLookup).map
      reg.shippedClass

end TypeRegistry

/-- An element of the ghost home document's content chain. -/
def ghostPosition : ShippedType → Address
  | .predDef => ⟨⟨[1, 1, 0, 1, 0, 1, 0, 1, 1], by simp⟩, .element, by decide⟩
  | .predStable => ⟨⟨[1, 1, 0, 1, 0, 1, 0, 1, 2], by simp⟩, .element, by decide⟩
  | .retired => ⟨⟨[1, 1, 0, 1, 0, 1, 0, 1, 3], by simp⟩, .element, by decide⟩
  | .supersedes => ⟨⟨[1, 1, 0, 1, 0, 1, 0, 1, 4], by simp⟩, .element, by decide⟩
  | .retraction => ⟨⟨[1, 1, 0, 1, 0, 1, 0, 1, 5], by simp⟩, .element, by decide⟩

theorem ghostPosition_injective : Function.Injective ghostPosition := by
  intro ty ty' h
  have hcomps := congrArg Address.comps h
  cases ty <;> cases ty' <;> simp_all [ghostPosition, Address.comps]

/-- The registry the program runs. -/
def TypeRegistry.build : TypeRegistry where
  reserved := ghostPosition
  registered
    | .retired => ⟨.unary, true, [.readFilter]⟩
    | .supersedes => ⟨.binary, true, [.walk]⟩
    | .retraction => ⟨.binary, true, []⟩
    | .predDef | .predStable => ⟨.unary, true, []⟩
  distinct := ghostPosition_injective

namespace TypeRegistry

variable (reg : TypeRegistry)

@[simp] theorem coverageClass_reservedType (ty : ShippedType) :
    coverageClass (reg.reservedType ty) = .ok (reg.shippedClass ty) :=
  coverageClass_enc _

theorem shippedClass_injective : Function.Injective reg.shippedClass := by
  intro ty ty' h
  simp only [shippedClass, CoverageClass.addrs.injEq] at h
  have hmem : (reg.reserved ty).tumbler ∈ OrdSet.ofList [(reg.reserved ty').tumbler] := by
    rw [← h]
    simp
  exact reg.distinct (Address.tumbler_injective (by simpa using hmem))

@[simp] theorem registration_shippedClass (ty : ShippedType) :
    reg.registration (reg.shippedClass ty) = some (reg.registered ty) := by
  have hfind : ShippedType.all.find? (fun ty' => reg.shippedClass ty' == reg.shippedClass ty) =
      some ty := by
    refine List.find?_eq_some_iff_append.2 ⟨by simp, ?_⟩
    have h : ∀ a b, reg.shippedClass a = reg.shippedClass b ↔ a = b := fun _ _ =>
      reg.shippedClass_injective.eq_iff
    cases ty with
    | retired => exact ⟨[], _, rfl, by simp⟩
    | supersedes => exact ⟨[.retired], _, rfl, by simp [h]⟩
    | retraction => exact ⟨[.retired, .supersedes], _, rfl, by simp [h]⟩
    | predDef => exact ⟨[.retired, .supersedes, .retraction], _, rfl, by simp [h]⟩
    | predStable => exact ⟨[.retired, .supersedes, .retraction, .predDef], _, rfl, by simp [h]⟩
  rw [registration, hfind, Option.map_some]

end TypeRegistry
