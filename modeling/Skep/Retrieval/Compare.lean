import Skep.Namespace.Chain
import Skep.Retrieval.Gate

/-!
# Compare

The comparison of two spec-sets: an interval join on the I-addresses the two operands'
documents arrange. Each operand is gated, resolved to the blocks of its region against
each document's reading surface, and every overlap of two blocks is reported once, each
foot asked whole of the block it belongs to.
-/

namespace Retrieval

/-- A document and spans of its positions. -/
structure RegionSpec where
  doc : Address
  spans : List Span

inductive Operand where
  | first
  | second
  deriving DecidableEq

inductive CompareError where
  | docNotRegistered (doc : Address)
  | notContentSubspace (operand : Operand) (region index : ℕ)
  | malformedSpan (operand : Operand) (region index : ℕ) (fault : SpanFault)
  | tooManyBlocks (operand : Operand)
  | tooManyPairs
  deriving DecidableEq

/-- `width` positions of one document beside as many of another, address by address. -/
structure CorrPair where
  d1 : Address
  u1 : VPos
  d2 : Address
  u2 : VPos
  width : ℕ
  deriving DecidableEq

/-- Every span of a region starts in the content subspace and is well formed. -/
def gateSpans (operand : Operand) (region : ℕ) : ℕ → List Span → Outcome CompareError Unit
  | _, [] => .ok ()
  | index, span :: spans => do
      Outcome.refuseIf (Subspace.ofSpan span ≠ some .content) (.notContentSubspace operand region index)
      (gateVspan span).mapErr (.malformedSpan operand region index)
      gateSpans operand region (index + 1) spans

def gateRegions (m3 : M3State) (operand : Operand) : ℕ → List RegionSpec → Outcome CompareError Unit
  | _, [] => .ok ()
  | region, r :: regions => do
      Outcome.refuseIf (m3.isRegisteredDocument r.doc = false) (.docNotRegistered r.doc)
      gateSpans operand region 0 r.spans
      gateRegions m3 operand (region + 1) regions

/-- One operand's admissibility, the first fault in submitted order. -/
def gateSpecSet (m3 : M3State) (operand : Operand) (regions : List RegionSpec) :
    Outcome CompareError Unit := gateRegions m3 operand 0 regions

/-- One resolved run of one region's span, and where it begins in its document. -/
structure Block where
  doc : Address
  vStart : VPos
  run : Run

/-- The subtraction of ordinals, which the overlap of two blocks makes total. -/
def ordinalGap {ε : Type} (hi lo : Tumbler) : Outcome ε ℕ := Outcome.natSub (ordinal hi) (ordinal lo)

namespace Block

def reach (b : Block) : Tumbler := b.run.reach

def iStart (b : Block) : Tumbler := b.run.iStart.tumbler

/-- The foot a block contributes at an address of its interval. -/
def footAt {ε : Type} (b : Block) (i : Tumbler) : Outcome ε (Address × VPos) := do
  let gap ← ordinalGap i b.iStart
  return (b.doc, ⟨b.vStart.subspace, b.vStart.ordinal + gap⟩)

end Block

/-- The spans an operand names, each with its region's document. -/
def namedSpans (regions : List RegionSpec) : List (Address × Span) :=
  regions.flatMap fun r => r.spans.map fun span => (r.doc, span)

/-- One more span counted and priced. -/
def priceSpan (m3 : M3State) (m5 : M5State) (counts : Count × Count) (named : Address × Span) :
    Outcome OverBudget (Count × Count) := do
  let spansHanded ← counts.1.admitUnits 1
  let stepsPriced ← counts.2.admitUnits (walkPrice m5 (readingSurface m3 named.1) named.2)
  return (spansHanded, stepsPriced)

/-- The next run of a resolution: its block begins where the one before it ended. -/
def buildBlock (m5 : M5State) (doc surface : Address) (acc : VPos × List Block × Count) (run : Run) :
    Outcome OverBudget (VPos × List Block × Count) := do
  let (cursor, out, blocksBuilt) := acc
  let blocksBuilt ← blocksBuilt.admitUnits 1
  -- The assertion that a run begins at the position its address is arranged at.
  Outcome.require (m5.point surface cursor = some run.iStart)
  return (⟨cursor.subspace, cursor.ordinal + run.width⟩, out ++ [⟨doc, cursor, run⟩], blocksBuilt)

/-- The blocks of one span after those built. -/
def resolveSpan (m3 : M3State) (m5 : M5State) (acc : List Block × Count) (named : Address × Span) :
    Outcome OverBudget (List Block × Count) :=
  let surface := readingSurface m3 named.1
  match asOrdinalVspan named.2 with
  | none => .ok acc
  | some shape => do
      let (_, out, blocksBuilt) ← (m5.iterResolve surface named.2).foldlM
        (buildBlock m5 named.1 surface) (⟨shape.subspace, shape.ordinal⟩, acc.1, acc.2)
      return (out, blocksBuilt)

/-- The operand region a spec-set denotes, as blocks. -/
def resolveBlocks (m3 : M3State) (m5 : M5State) (regions : List RegionSpec) :
    Outcome OverBudget (List Block) := do
  let _ ← (namedSpans regions).foldlM (priceSpan m3 m5)
    (Count.against maxCompareOperandBlocks, Count.against maxWalkSteps)
  let (out, _) ← (namedSpans regions).foldlM (resolveSpan m3 m5)
    ([], Count.against maxCompareOperandBlocks)
  return out

/-- The correspondence of two blocks, none where their intervals are disjoint. -/
def overlapPair {ε : Type} (pb qb : Block) : Outcome ε (Option CorrPair) :=
  let start := max pb.iStart qb.iStart
  let reach := min pb.reach qb.reach
  if reach ≤ start then .ok none
  else do
    let (d1, u1) ← pb.footAt start
    let (d2, u2) ← qb.footAt start
    let width ← ordinalGap reach start
    return some ⟨d1, u1, d2, u2, width⟩

/-- One more pair of blocks tested. -/
def joinPair (pb : Block) (acc : List CorrPair × Count) (qb : Block) :
    Outcome OverBudget (List CorrPair × Count) := do
  match ← overlapPair pb qb with
  | none => return acc
  | some c => do
      let pairsProduced ← acc.2.admitUnits 1
      return (acc.1 ++ [c], pairsProduced)

/-- Every overlap of a block of one operand with a block of the other. -/
def intervalJoin (p q : List Block) : Outcome OverBudget (List CorrPair) := do
  let (out, _) ← p.foldlM (fun acc pb => q.foldlM (joinPair pb) acc)
    ([], Count.against maxComparePairs)
  return out

/-- A position as its tumbler's components, in their order. -/
def VPos.key (p : VPos) : ℕ ×ₗ ℕ := toLex (p.subspace, p.ordinal)

/-- What the presentation is sorted by: the two feet. -/
def corrKey (c : CorrPair) : Address ×ₗ (ℕ ×ₗ ℕ) ×ₗ Address ×ₗ (ℕ ×ₗ ℕ) :=
  toLex (c.d1, toLex (VPos.key c.u1, toLex (c.d2, VPos.key c.u2)))

/-- The pairs in the order of their feet, equal ones as they were produced. -/
def deterministicPresentation (pairs : List CorrPair) : List CorrPair :=
  pairs.insertionSort fun a b => corrKey a ≤ corrKey b

/-- COMPARE of two spec-sets: both gated, both resolved, joined, and sorted. -/
def compare (m3 : M3State) (m5 : M5State) (rho1 rho2 : List RegionSpec) :
    Outcome CompareError (List CorrPair) := do
  gateSpecSet m3 .first rho1
  gateSpecSet m3 .second rho2
  let p ← (resolveBlocks m3 m5 rho1).mapErr fun _ => .tooManyBlocks .first
  let q ← (resolveBlocks m3 m5 rho2).mapErr fun _ => .tooManyBlocks .second
  let pairs ← (intervalJoin p q).mapErr fun _ => .tooManyPairs
  return deterministicPresentation pairs

end Retrieval
