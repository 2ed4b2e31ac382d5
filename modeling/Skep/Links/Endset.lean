import Skep.Address.Address
import Skep.Address.SpanSet
import Skep.Library.OrdSet

/-!
# Endsets and links

A link is three endsets: what it is from, what it is to, and its type. An endset
is a list of spans; a span of unit depth denotes the address at its start. Two
type endsets are one type when their coverage classes are equal.
-/

/-- A list of spans. -/
@[ext] structure Endset where
  spans : List Span
  deriving DecidableEq

/-- A span that covers its start and everything under it. -/
def isUnitDepth (s : Span) : Bool := s == Span.subtreeOf s.start

namespace Endset

def empty : Endset := ⟨[]⟩

def isEmpty (e : Endset) : Bool := e.spans.isEmpty

def covers (e : Endset) (t : Tumbler) : Bool := e.spans.any fun s => s.contains t

/-- The addresses the unit-depth spans denote. -/
def addrs (e : Endset) : List Tumbler := (e.spans.filter isUnitDepth).map Span.start

def isAddressDenoting (e : Endset) : Bool := e.spans.all isUnitDepth

/-- The one address the endset denotes. -/
def singleDenoted (e : Endset) : Option Tumbler :=
  if e.isAddressDenoting = false then none
  else
    match e.addrs with
    | [] => none
    | first :: rest => if rest.any (· != first) then none else some first

def toSpanset (e : Endset) : SpanSet := ⟨e.spans⟩

end Endset

/-- The endset denoting the addresses. -/
def enc (addrs : List Address) : Endset := ⟨addrs.map fun a => Span.subtreeOf a.tumbler⟩

/-- A link's value. The store holds links of three slots only. -/
@[ext] structure Link where
  fromSlot : Endset
  toSlot : Endset
  typeSlot : Endset
  deriving DecidableEq

/-- Which class of types an endset names: its minimal denoted addresses, or its
extents by level where some span denotes no address. -/
inductive CoverageClass where
  | addrs (minimal : OrdSet Tumbler)
  | extents (forms : OrdMap ℕ CanonicalForm)
  deriving DecidableEq

/-- One turn of the walk that keeps the addresses extending no kept one. -/
def retainMinimal (acc : OrdSet Tumbler × Option Tumbler) (t : Tumbler) :
    OrdSet Tumbler × Option Tumbler :=
  if acc.2.any fun y => isPrefix y t then acc else (acc.1.insert t, some t)

/-- The coverage class of an endset. A span that is not level-uniform faults. -/
def coverageClass (e : Endset) : Outcome Empty CoverageClass :=
  if e.isAddressDenoting then
    return .addrs ((OrdSet.ofList (e.spans.map Span.start)).elems.foldl retainMinimal (∅, none)).1
  else do
    let extents ← e.toSpanset.byLevelClass.entries.foldlM (fun extents part => do
      let canonical ← (canonicalKey part.2).expect
      return extents.insert part.1 canonical) OrdMap.empty
    return .extents extents

@[simp] theorem isUnitDepth_subtreeOf (p : Tumbler) : isUnitDepth (Span.subtreeOf p) = true := by
  simp [isUnitDepth]

@[simp] theorem contains_subtreeOf_self (p : Tumbler) : (Span.subtreeOf p).contains p = true := by
  simp [Span.contains, p.lt_nextAtLength]

@[simp] theorem addrs_enc (addrs : List Address) : (enc addrs).addrs = addrs.map Address.tumbler := by
  rw [Endset.addrs, enc, List.filter_eq_self.2, List.map_map]
  · exact List.map_congr_left fun a _ => Span.start_subtreeOf a.tumbler
  · simp

@[simp] theorem isAddressDenoting_enc (addrs : List Address) :
    (enc addrs).isAddressDenoting = true := by
  simp [Endset.isAddressDenoting, enc]

theorem covers_enc_self {addrs : List Address} {a : Address} (h : a ∈ addrs) :
    (enc addrs).covers a.tumbler = true :=
  List.any_eq_true.2 ⟨_, List.mem_map_of_mem h, contains_subtreeOf_self _⟩

theorem coverageClass_enc (a : Address) :
    coverageClass (enc [a]) = .ok (.addrs (OrdSet.ofList [a.tumbler])) := by
  rw [coverageClass, if_pos (isAddressDenoting_enc _)]
  simp [enc, OrdSet.ofList, OrdSet.insert]
  rfl
