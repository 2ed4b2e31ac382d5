import Skep.Library.Outcome
import Skep.Links.Registry

/-!
# The link store

Links by address, and what reads derive from them: the links of a type, which
links are nullified, how many each document homes. The program keeps these as
indices that the fold of a deposit maintains; here each is read off the links.
-/

/-- Which links a read meets. -/
inductive View where
  | audit
  | active
  | default
  deriving DecidableEq, Repr

/-- A typed read leaves nullified links out unless it asks for the record. -/
def View.isActive : View → Bool
  | .audit => false
  | .active | .default => true

/-- A link as a typed read answers it. -/
structure Tuple where
  addr : Address
  fromSlot : Endset
  toSlot : Endset
  deriving DecidableEq

/-- The probes that a link's slots have to cover. -/
structure Pattern where
  fromProbes : List Tumbler := []
  toProbes : List Tumbler := []

def Pattern.admits (pat : Pattern) (l : Link) : Bool :=
  pat.fromProbes.all (fun probe => l.fromSlot.covers probe) &&
    pat.toProbes.all fun probe => l.toSlot.covers probe

/-- The record of the link slice. -/
inductive LinkRec where
  | deposit (addr : Address) (value : Link)

/-- What makes two links of an idempotent class one. -/
structure DedupKey where
  ty : CoverageClass
  fromClass : CoverageClass
  toClass : CoverageClass
  deriving DecidableEq

def DedupKey.of (value : Link) : Outcome Empty DedupKey := do
  let ty ← coverageClass value.typeSlot
  let fromClass ← coverageClass value.fromSlot
  let toClass ← coverageClass value.toSlot
  return ⟨ty, fromClass, toClass⟩

/-- The class has no age. -/
inductive NotBh4 where
  | mk
  deriving DecidableEq, Repr

/-- The link slice. -/
@[ext] structure LinkState where
  links : OrdMap Address Link

namespace LinkState

def genesis : LinkState := ⟨OrdMap.empty⟩

variable (reg : TypeRegistry)

/-- The dedup index holds the links of idempotent classes under their keys. -/
def indexDedup {ε : Type} (c : CoverageClass) (value : Link) : Outcome ε Unit :=
  if reg.isIdempotent c then (DedupKey.of value).expect.bind fun _ => .ok () else .ok ()

/-- Fold a deposit. The indices need the value's class, its dedup key where the
class is idempotent, and the document of the address. -/
def applyLink {ε : Type} (s : LinkState) : LinkRec → Outcome ε LinkState
  | .deposit addr value => do
      Outcome.require (s.links.contains addr = false)
      let c ← (coverageClass value.typeSlot).expect
      indexDedup reg c value
      let _ ← Outcome.expectSome (documentOf addr)
      return ⟨s.links.insert addr value⟩

variable (s : LinkState)

def readlink (a : Address) : Option Link := s.links.get a

def resident (a : Address) : Bool := s.links.contains a

/-- The links of a class, in address order. -/
def typeSlice (c : CoverageClass) : List (Address × Link) :=
  s.links.entries.filter fun e => decide (coverageClass e.2.typeSlot = .ok c)

/-- Whether some retraction denotes the tumbler. -/
def nullified (t : Tumbler) : Bool :=
  (s.typeSlice (reg.shippedClass .retraction)).any fun e => e.2.toSlot.addrs.contains t

/-- How many links a document homes. -/
def homeFrontier (home : Address) : ℕ :=
  (s.links.entries.filter fun e => documentOf e.1 == some home).length

/-- Where the next link of a document will stand. -/
def nextLinkAddress (home : Address) : Outcome Empty Address :=
  (elemAddr ⟨home, linkSubspace, 1 + s.homeFrontier home⟩).expect

/-- The links of a class that a view meets. -/
def typedLinks (c : CoverageClass) (view : View) : List (Address × Link) :=
  (s.typeSlice c).filter fun e => !(view.isActive && s.nullified reg e.1.tumbler)

/-- The typed read. -/
def observe (ty : Endset) (pat : Pattern) (view : View) : Outcome Empty (List Tuple) := do
  let c ← coverageClass ty
  return ((s.typedLinks reg c view).filter fun e => pat.admits e.2).map fun e =>
    ⟨e.1, e.2.fromSlot, e.2.toSlot⟩

/-- How many links its home has deposited since. -/
def age {ε : Type} (a : Address) : Outcome ε (Option ℕ) :=
  if s.resident a = false then return none
  else do
    let home ← Outcome.expectSome (documentOf a)
    let age ← Outcome.natSub (s.homeFrontier home) (ordinal a.tumbler)
    return some age

/-- The active links of a class older than a horizon. -/
def stale (ty : Endset) (horizon : ℕ) : Outcome NotBh4 (List Address) := do
  let c ← (coverageClass ty).expect
  Outcome.refuseIf (reg.declares c .age = false) .mk
  Outcome.keepM (fun a => do
      let age ← (s.age a).bind Outcome.expectSome
      return decide (horizon < age))
    ((s.typedLinks reg c .active).map Prod.fst)

/-- The first active link of a dedup key whose home is readable. -/
def activeIncumbent (key : DedupKey) (readableHome : Address → Bool) :
    Outcome Empty (Option Address) :=
  ((s.links.entries.filter fun e =>
      reg.isIdempotent key.ty && decide (DedupKey.of e.2 = .ok key) &&
        !s.nullified reg e.1.tumbler).map Prod.fst).findM? fun a => do
    let home ← Outcome.expectSome (documentOf a)
    return readableHome home

end LinkState

/-- A link as a tuple. -/
def Link.tuple (addr : Address) (l : Link) : Tuple := ⟨addr, l.fromSlot, l.toSlot⟩

namespace LinkState

variable {reg : TypeRegistry} {s : LinkState} {c : CoverageClass}

theorem mem_typeSlice {e : Address × Link} : e ∈ s.typeSlice c ↔
    s.readlink e.1 = some e.2 ∧ coverageClass e.2.typeSlot = .ok c := by
  rw [typeSlice, List.mem_filter, decide_eq_true_eq, readlink, OrdMap.get_eq_some_iff]

theorem mem_typedLinks {view : View} {e : Address × Link} : e ∈ s.typedLinks reg c view ↔
    s.readlink e.1 = some e.2 ∧ coverageClass e.2.typeSlot = .ok c ∧
      (view.isActive = true → s.nullified reg e.1.tumbler = false) := by
  rw [typedLinks, List.mem_filter, mem_typeSlice, and_assoc]
  cases view.isActive <;> simp

theorem nullified_iff {t : Tumbler} : s.nullified reg t = true ↔
    ∃ a l, s.readlink a = some l ∧ coverageClass l.typeSlot = .ok (reg.shippedClass .retraction) ∧
      t ∈ l.toSlot.addrs := by
  simp only [nullified, List.any_eq_true, List.contains_iff_mem, mem_typeSlice, Prod.exists]
  constructor
  · rintro ⟨a, l, ⟨h, hc⟩, ht⟩
    exact ⟨a, l, h, hc, ht⟩
  · rintro ⟨a, l, h, hc, ht⟩
    exact ⟨a, l, ⟨h, hc⟩, ht⟩

/-- A typed read answers the links of its class that its view and its probes admit. -/
theorem mem_observe {ty : Endset} {pat : Pattern} {view : View} {tuples : List Tuple}
    (hc : coverageClass ty = .ok c) (h : s.observe reg ty pat view = .ok tuples) {t : Tuple} :
    t ∈ tuples ↔ ∃ l, s.readlink t.addr = some l ∧ coverageClass l.typeSlot = .ok c ∧
      (view.isActive = true → s.nullified reg t.addr.tumbler = false) ∧ pat.admits l = true ∧
      t = l.tuple t.addr := by
  simp only [observe, hc, Outcome.ok_bind, Outcome.pure_eq, Outcome.ok.injEq] at h
  subst h
  simp only [List.mem_map, List.mem_filter, mem_typedLinks, Prod.exists]
  constructor
  · rintro ⟨a, l, ⟨⟨hl, hty, hv⟩, hp⟩, rfl⟩
    exact ⟨l, hl, hty, hv, hp, rfl⟩
  · rintro ⟨l, hl, hty, hv, hp, ht⟩
    exact ⟨t.addr, l, ⟨⟨hl, hty, hv⟩, hp⟩, ht.symm⟩

theorem observe_eq_ok (hty : ∃ c, coverageClass ty = .ok c) (pat : Pattern) (view : View) :
    ∃ tuples, s.observe reg ty pat view = .ok tuples := by
  obtain ⟨c, hc⟩ := hty
  rw [observe, hc]
  exact ⟨_, rfl⟩

end LinkState
