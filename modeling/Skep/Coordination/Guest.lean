import Skep.Coordination.Ast
import Skep.Links.Steps

/-!
# The look at guest class

Every verdict reads the links through one look: a link is seen where the guest
class may read the document that homes it.
-/

/-- A committed world, with what the guest class may read at it. -/
structure CoordinationWorld extends LinkWorld where
  guest : Address → Bool

namespace Coordination

/-- The address a stored slot's unit-depth span denotes. -/
def lift (t : Tumbler) : Outcome Empty Address := (validate t).expect

/-- What a forward walk met, and where it ended if at a sink. -/
structure Walk where
  path : List Address
  sink : Option Address

/-- The tip of a chain. -/
inductive Tip where
  | sink (a : Address)
  | indeterminate
  deriving DecidableEq

/-- The look at guest class. -/
structure GuestLinks where
  unfiltered : LinkState
  guest : Address → Bool

namespace GuestLinks

variable (reg : TypeRegistry) (g : GuestLinks)

def homeReadable (link : Address) : Bool := (documentOf link).any g.guest

def admitsTuple (t : Tuple) : Bool := g.homeReadable t.addr

def candidates (ty : Endset) (pat : Pattern) (slice : Slice) : Outcome Empty (List Tuple) :=
  g.unfiltered.observe reg ty pat slice.view

def observe (ty : Endset) (pat : Pattern) (slice : Slice) : Outcome Empty (List Tuple) := do
  let out ← g.candidates reg ty pat slice
  return out.filter g.admitsTuple

def isK (ty : Endset) (probe : Tumbler) (slice : Slice) : Outcome Empty Bool := do
  let candidates ← g.candidates reg ty { fromProbes := [probe] } slice
  return candidates.any g.admitsTuple

def denoteSlot (tuples : List Tuple) (slot : Tuple → Endset) : Outcome Empty (OrdSet Address) := do
  let addrs ← (tuples.flatMap fun t => (slot t).addrs).mapM lift
  return OrdSet.ofList addrs

def denoted (ty : Endset) (pat : Pattern) (slice : Slice) (slot : Tuple → Endset) :
    Outcome Empty (OrdSet Address) := do
  let tuples ← g.observe reg ty pat slice
  denoteSlot tuples slot

def tuplesDenoting (ty : Endset) (x : Address) (slice : Slice) : Outcome Empty (List Tuple) := do
  let out ← g.observe reg ty { fromProbes := [x.tumbler] } slice
  return out.filter fun t => t.fromSlot.addrs.contains x.tumbler

def members (ty : Endset) (slice : Slice) : Outcome Empty (OrdSet Address) :=
  g.denoted reg ty {} slice Tuple.fromSlot

def targetsOf (ty : Endset) (x : Address) (slice : Slice) : Outcome Empty (OrdSet Address) :=
  g.denoted reg ty { fromProbes := [x.tumbler] } slice Tuple.toSlot

def targetsOfDenoting (ty : Endset) (x : Address) : Outcome Empty (OrdSet Address) := do
  let tuples ← g.tuplesDenoting reg ty x .audit
  denoteSlot tuples Tuple.toSlot

/-- Enter one tuple's claims: each address it is from, to all it is to. -/
def enterClaims (fwd : OrdMap Address (OrdSet Address)) (t : Tuple) :
    Outcome Empty (OrdMap Address (OrdSet Address)) :=
  t.fromSlot.addrs.foldlM (fun fwd old => do
    let a ← lift old
    let news ← t.toSlot.addrs.mapM lift
    return fwd.insert a (((fwd.get a).getD ∅).union (OrdSet.ofList news))) fwd

def forwardClaims (ty : Endset) : Outcome Empty (OrdMap Address (OrdSet Address)) := do
  let tuples ← g.observe reg ty {} .active
  tuples.foldlM enterClaims OrdMap.empty

def succsOperative (fwd : OrdMap Address (OrdSet Address)) (x : Address) : OrdSet Address :=
  (fwd.get x).getD ∅

/-- The walk's loop. Each turn but the last leaves an unvisited address of the map, so
as many turns as it has addresses, and one, are enough. -/
def walkFrom (fwd : OrdMap Address (OrdSet Address)) :
    ℕ → List Address → Address → Outcome Empty Walk
  | 0, _, _ => .fault
  | fuel + 1, path, node =>
      match (succsOperative fwd node).elems with
      | [] => return ⟨path, some node⟩
      | [next] =>
          if next ∈ path then return ⟨path, none⟩
          else walkFrom fwd fuel (path ++ [next]) next
      | _ => return ⟨path, none⟩

/-- The forward walk: up to a sink, a branch or an address it has met. -/
def walkClaims (fwd : OrdMap Address (OrdSet Address)) (x : Address) : Outcome Empty Walk :=
  walkFrom fwd (fwd.entries.length + 1) [x] x

def succs (ty : Endset) (x : Address) : Outcome Empty (OrdSet Address) := do
  let fwd ← g.forwardClaims reg ty
  return succsOperative fwd x

def chain (ty : Endset) (x : Address) : Outcome Empty (List Address) := do
  let walk ← walkClaims (← g.forwardClaims reg ty) x
  return walk.path

def tip (ty : Endset) (x : Address) : Outcome Empty Tip := do
  let walk ← walkClaims (← g.forwardClaims reg ty) x
  return match walk.sink with
    | some sink => .sink sink
    | none => .indeterminate

def isInChain (ty : Endset) (addr target : Address) : Outcome Empty Bool := do
  let walk ← walkClaims (← g.forwardClaims reg ty) addr
  return walk.path.contains target

def sourcesTo (ty : Endset) (target : Address) : Outcome Empty (OrdSet Address) :=
  g.denoted reg ty { toProbes := [target.tumbler] } .active Tuple.fromSlot

def targetOf (ty : Endset) (source : Address) : Outcome Empty (Option Address) := do
  let matching ← g.tuplesDenoting reg ty source .active
  match matching with
  | [t] => t.toSlot.singleDenoted.mapM lift
  | _ => return none

def isActiveTuple (ty : Endset) (a : Address) : Outcome Empty Bool := do
  let candidates ← g.candidates reg ty {} .active
  return candidates.any fun t => t.addr == a && g.admitsTuple t

def age (a : Address) : Outcome Empty (Option ℕ) :=
  if g.homeReadable a = false then return none else g.unfiltered.age a

def stale (ty : Endset) (horizon : ℕ) : Outcome NotBh4 (OrdSet Address) := do
  let stale ← g.unfiltered.stale reg ty horizon
  return OrdSet.ofList (stale.filter g.homeReadable)

/-- The tuples of a class that the look sees. -/
def slice (c : CoverageClass) (s : Slice) : List Tuple :=
  (((g.unfiltered.typedLinks reg c s.view).map fun e => e.2.tuple e.1)).filter g.admitsTuple

/-- The probes that a tuple's slots have to cover. -/
def probed (pat : Pattern) (t : Tuple) : Bool :=
  pat.fromProbes.all (fun probe => t.fromSlot.covers probe) &&
    pat.toProbes.all fun probe => t.toSlot.covers probe

variable {reg g} {g' : GuestLinks} {ty : Endset} {c : CoverageClass} {s : Slice}

theorem candidates_eq (hc : coverageClass ty = .ok c) (pat : Pattern) :
    g.candidates reg ty pat s = .ok (((g.unfiltered.typedLinks reg c s.view).map
      fun e => e.2.tuple e.1).filter (probed pat)) := by
  rw [candidates, LinkState.observe, hc, List.filter_map]
  rfl

theorem observe_eq (hc : coverageClass ty = .ok c) (pat : Pattern) :
    g.observe reg ty pat s = .ok ((g.slice reg c s).filter (probed pat)) := by
  rw [observe, candidates_eq hc, slice, List.filter_filter, Outcome.ok_bind, List.filter_filter]
  exact congrArg Outcome.ok (List.filter_congr fun t _ => Bool.and_comm _ _)

theorem isK_eq (hc : coverageClass ty = .ok c) (probe : Tumbler) :
    g.isK reg ty probe s = .ok ((g.slice reg c s).any fun t => t.fromSlot.covers probe) := by
  rw [isK, candidates_eq hc, Outcome.ok_bind, slice, List.any_filter, List.any_filter]
  simp [probed, Bool.and_comm]

theorem isActiveTuple_eq (hc : coverageClass ty = .ok c) (a : Address) :
    g.isActiveTuple reg ty a = .ok ((g.slice reg c .active).any fun t => t.addr == a) := by
  rw [isActiveTuple, candidates_eq hc, Outcome.ok_bind, slice, List.any_filter, List.any_filter]
  simp [probed, Bool.and_comm, Slice.view]

theorem slice_addrs : (g.slice reg c s).map Tuple.addr =
    ((g.unfiltered.typedLinks reg c s.view).map Prod.fst).filter g.homeReadable := by
  rw [slice, List.filter_map, List.map_map, List.filter_map]
  rfl

/-- Whoever sees the same slice of a class reads the same of it. -/
theorem observe_congr (hc : coverageClass ty = .ok c) (h : g.slice reg c s = g'.slice reg c s) :
    (fun pat => g.observe reg ty pat s) = fun pat => g'.observe reg ty pat s := by
  funext pat
  rw [observe_eq hc, observe_eq hc, h]

end GuestLinks

end Coordination
