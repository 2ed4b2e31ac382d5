import Skep.Address.Increment
import Skep.Address.SpanPairs
import Skep.Library.Bisection
import Skep.Library.OrdMap
import Skep.Links.Endset

/-!
# The spanfilade

What the link store derives from the spans of its links: for each slot, which links
of a home have a span that shares a tumbler with a query's, and which homes may have
one. A span whose ends are siblings is a sibling run: it is filed by its start, and at
the node of its interval of last components. The other spans are the residue.

A range of an ordered set is the filter on the coordinates its bounds fix.
-/

/-- Whether two spans share a tumbler. -/
def overlaps (a b : Span) : Bool :=
  match classifySpans a b with
  | .properOverlap | .containment | .equal => true
  | .separated | .adjacent => false

/-- The slots of a link, in order. -/
def Link.slots (l : Link) : List Endset := [l.fromSlot, l.toSlot, l.typeSlot]

/-- A slot by its number, from 1. -/
def Link.slot (l : Link) (slot : ℕ) : Option Endset :=
  if slot = 0 then none else l.slots[slot - 1]?

def FROM : ℕ := 1
def TO : ℕ := 2
def TYPE : ℕ := 3

/-- A span between siblings: their parent's components and their last ones. -/
structure SiblingRun where
  axis : List ℕ
  first : ℕ
  stop : ℕ
  deriving DecidableEq, Repr

/-- The sibling run of a span: start and width have one length, and the width is zero
before its last component. -/
def SiblingRun.of (span : Span) : Option SiblingRun :=
  if span.start.len ≠ span.width.len then none
  else if span.width.comps.dropLast.any (· != 0) then none
  else some ⟨span.start.comps.dropLast, ordinal span.start, ordinal span.start + ordinal span.width⟩

def SiblingRun.level (run : SiblingRun) : ℕ := Bisection.level run.first run.stop

/-- A run by its start. -/
structure Start where
  home : Address
  start : Tumbler
  link : Address
  deriving DecidableEq

/-- A run by its node and one of its ends. -/
structure Filing where
  home : Address
  axis : List ℕ
  level : ℕ
  coord : ℕ
  link : Address
  deriving DecidableEq

/-- A level of the runs of an axis. -/
structure AxisLevel where
  axis : List ℕ
  level : ℕ
  deriving DecidableEq

/-- A span that is no run, by its place in its link's slot. -/
structure Residual where
  home : Address
  link : Address
  index : ℕ
  deriving DecidableEq

/-- A home with a run that starts in a block of an axis. -/
structure InBlock where
  axis : List ℕ
  block : ℕ
  home : Address
  deriving DecidableEq

/-- A home with a run at a node of an axis. -/
structure AtNode where
  axis : List ℕ
  level : ℕ
  node : ℕ
  home : Address
  deriving DecidableEq

instance : LinearOrder Start :=
  LinearOrder.lift' (fun e => toLex (e.home, toLex (e.start, e.link))) fun a b h => by
    cases a
    cases b
    cases h
    rfl

instance : LinearOrder Filing :=
  LinearOrder.lift' (fun e => toLex (e.home, toLex (e.axis, toLex (e.level, toLex (e.coord, e.link)))))
    fun a b h => by
      cases a
      cases b
      cases h
      rfl

instance : LinearOrder AxisLevel :=
  LinearOrder.lift' (fun e => toLex (e.axis, e.level)) fun a b h => by
    cases a
    cases b
    cases h
    rfl

instance : LinearOrder Residual :=
  LinearOrder.lift' (fun e => toLex (e.home, toLex (e.link, e.index))) fun a b h => by
    cases a
    cases b
    cases h
    rfl

instance : LinearOrder InBlock :=
  LinearOrder.lift' (fun e => toLex (toLex (e.axis, e.block), e.home)) fun a b h => by
    cases a
    cases b
    cases h
    rfl

instance : LinearOrder AtNode :=
  LinearOrder.lift' (fun e => toLex (toLex (e.axis, toLex (e.level, e.node)), e.home)) fun a b h => by
    cases a
    cases b
    cases h
    rfl

/-- The runs and the residue of one slot, and the homes they stand in. -/
structure SlotIndex where
  starts : OrdSet Start
  axes : OrdSet (List ℕ)
  levels : OrdSet AxisLevel
  byFirst : OrdSet Filing
  byEnd : OrdSet Filing
  residue : OrdMap Residual Span
  startingHomes : OrdSet InBlock
  containingHomes : OrdSet AtNode

/-- The index of each slot some link has had, and the homes of the links. -/
structure Spanfilade where
  slots : List SlotIndex
  homes : OrdSet Address

def blockBits : ℕ := 6

/-- The block of a coordinate: a run of positions on an axis of content, else the
coordinate itself. -/
def blockOf (axis : List ℕ) (c : ℕ) : ℕ :=
  if [0, contentSubspace].isSuffixOf axis then c >>> blockBits else c

namespace SlotIndex

def empty : SlotIndex := ⟨∅, ∅, ∅, ∅, ∅, .empty, ∅, ∅⟩

/-- File a span of a link's slot. -/
def file (idx : SlotIndex) (home link : Address) (index : ℕ) (span : Span) : SlotIndex :=
  match SiblingRun.of span with
  | none => { idx with residue := idx.residue.insert ⟨home, link, index⟩ span }
  | some run => { idx with
      starts := idx.starts.insert ⟨home, span.start, link⟩
      axes := idx.axes.insert run.axis
      levels := idx.levels.insert ⟨run.axis, run.level⟩
      startingHomes := idx.startingHomes.insert ⟨run.axis, blockOf run.axis run.first, home⟩
      containingHomes :=
        idx.containingHomes.insert ⟨run.axis, run.level, Bisection.node run.level run.first, home⟩
      byEnd :=
        if 0 < run.level then idx.byEnd.insert ⟨home, run.axis, run.level, run.stop, link⟩ else idx.byEnd
      byFirst := idx.byFirst.insert ⟨home, run.axis, run.level, run.first, link⟩ }

/-- File the spans of a slot from a place on. -/
def fileFrom (idx : SlotIndex) (home link : Address) : ℕ → List Span → SlotIndex
  | _, [] => idx
  | index, span :: spans => (idx.file home link index span).fileFrom home link (index + 1) spans

end SlotIndex

namespace Spanfilade

def empty : Spanfilade := ⟨[], ∅⟩

/-- File a slot, the index of its position made where there is none. -/
def fileSlot (slots : List SlotIndex) (home link : Address) (position : ℕ) (endset : Endset) :
    List SlotIndex :=
  (if position = slots.length then slots ++ [.empty] else slots).modify position
    fun idx => idx.fileFrom home link 0 endset.spans

def fileSlots (slots : List SlotIndex) (home link : Address) : ℕ → List Endset → List SlotIndex
  | _, [] => slots
  | position, endset :: rest =>
      fileSlots (fileSlot slots home link position endset) home link (position + 1) rest

/-- File a link. -/
def file (sf : Spanfilade) (addr home : Address) (value : Link) : Spanfilade where
  homes := sf.homes.insert home
  slots := fileSlots sf.slots home addr 0 value.slots

/-- The index of a slot by its number, from 1. -/
def slot (sf : Spanfilade) (slot : ℕ) : Option SlotIndex :=
  if slot = 0 then none else sf.slots[slot - 1]?

end Spanfilade

/-- The ways a home's spans can share a tumbler with a query span: a run that starts
in it, a run that started before it, a span of the residue. -/
structure Parts where
  starting : Bool
  containing : Bool
  residue : Bool
  deriving DecidableEq, Repr

namespace Parts

def NONE : Parts := ⟨false, false, false⟩
def STARTING : Parts := ⟨true, false, false⟩
def CONTAINING : Parts := ⟨false, true, false⟩
def RESIDUE : Parts := ⟨false, false, true⟩
def ALL : Parts := ⟨true, true, true⟩

/-- The parts of either. -/
def join (a b : Parts) : Parts :=
  ⟨a.starting || b.starting, a.containing || b.containing, a.residue || b.residue⟩

end Parts

/-- The links of the filings at a node whose ends lie from one coordinate up to another. -/
def collect (filings : OrdSet Filing) (home : Address) (axis : List ℕ) (level lo hi : ℕ) : List Address :=
  (filings.elems.filter fun e =>
    decide (e.home = home ∧ e.axis = axis ∧ e.level = level ∧ lo ≤ e.coord ∧ e.coord < hi)).map Filing.link

namespace SlotIndex

variable (idx : SlotIndex)

def levelsOf (axis : List ℕ) : List ℕ :=
  (idx.levels.elems.filter fun e => decide (e.axis = axis)).map AxisLevel.level

/-- The links with a run that starts in the query span. -/
def startingInside (home : Address) (q : Span) : List Address :=
  (idx.starts.elems.filter fun e =>
    decide (e.home = home ∧ q.start ≤ e.start ∧ e.start < q.reach)).map Start.link

/-- The links with a run of an axis that holds the coordinate `c` of a tumbler and starts
before the tumbler. Where the coordinate is the tumbler's last, a run that starts at it
does not start before. -/
def containingAt (home : Address) (axis : List ℕ) (c : ℕ) (ownAxis : Bool) (level : ℕ) : List Address :=
  if level = 0 then
    if ownAxis then [] else collect idx.byFirst home axis 0 c (c + 1)
  else if c.testBit (level - 1) then
    collect idx.byEnd home axis level (c + 1) ((c >>> level + 1) <<< level + 1)
  else
    collect idx.byFirst home axis level ((c >>> level) <<< level) (if ownAxis then c else c + 1)

/-- The links with a run that starts before a tumbler and holds it. -/
def containing (home : Address) (start : Tumbler) : List Address :=
  start.comps.zipIdx.flatMap fun e =>
    let axis := start.comps.take e.2
    if axis ∈ idx.axes then
      (idx.levelsOf axis).flatMap fun level =>
        idx.containingAt home axis e.1 (decide (e.2 + 1 = start.len)) level
    else []

/-- The links of a home with a span of the residue that shares a tumbler with the query's. -/
def residueHits (home : Address) (q : Span) : List Address :=
  (idx.residue.entries.filter fun e => decide (e.1.home = home) && overlaps q e.2).map fun e => e.1.link

/-- The links of a home that a query span hits in the given ways. -/
def stabInParts (home : Address) (q : Span) (parts : Parts) : List Address :=
  (if parts.starting then idx.startingInside home q else []) ++
    (if parts.containing then idx.containing home q.start else []) ++
    if parts.residue then idx.residueHits home q else []

def stabIn (home : Address) (q : Span) : List Address := idx.stabInParts home q .ALL

end SlotIndex

/-- The coordinates of an axis that lie below a bound. -/
inductive Past where
  | every
  | at (c : ℕ)
  deriving DecidableEq, Repr

/-- Which children of an axis lie below a tumbler. -/
def coordinatesBelow (axis r : List ℕ) : Option Past :=
  match (if axis.isPrefixOf r then r.drop axis.length else []) with
  | at' :: rest => some (.at (if rest.isEmpty then at' else at' + 1))
  | [] => if axis < r then some .every else none

/-- Homes that may have a link a query span hits: the pair of the query, the span's place
in it where the stream is one span's, and the ways the homes were found. -/
structure HomeStream where
  pair : ℕ
  span : Option ℕ
  parts : Parts
  homes : List Address

namespace SlotIndex

variable (idx : SlotIndex)

/-- The homes with a run that starts in a block. -/
def blockHomes (axis : List ℕ) (block : ℕ) : List Address :=
  (idx.startingHomes.elems.filter fun e => decide (e.axis = axis ∧ e.block = block)).map InBlock.home

/-- The homes with a run at a node. -/
def nodeHomes (axis : List ℕ) (level node : ℕ) : List Address :=
  (idx.containingHomes.elems.filter fun e =>
    decide (e.axis = axis ∧ e.level = level ∧ e.node = node)).map AtNode.home

/-- The streams of the blocks of an axis from one on, up to the last. Each turn goes to the
next block some home stands in, so as many turns as there are such homes are enough. -/
def blockStreamsFrom (axis : List ℕ) (last : Option ℕ) (pair span : ℕ) : ℕ → ℕ → List HomeStream
  | 0, _ => []
  | turns + 1, block =>
      match idx.startingHomes.elems.find? fun e => decide (toLex (axis, block) ≤ toLex (e.axis, e.block)) with
      | none => []
      | some e =>
          if e.axis ≠ axis ∨ last.any (· < e.block) then []
          else ⟨pair, some span, .STARTING, idx.blockHomes axis e.block⟩ ::
            blockStreamsFrom axis last pair span turns (e.block + 1)

/-- The streams of the blocks that meet the coordinates from the lowest up to a bound. -/
def blockStreams (axis : List ℕ) (lowest : ℕ) (past : Past) (pair span : ℕ) : List HomeStream :=
  match past with
  | .every =>
      idx.blockStreamsFrom axis none pair span idx.startingHomes.elems.length (blockOf axis lowest)
  | .at past =>
      if past ≤ lowest then []
      else
        idx.blockStreamsFrom axis (some (blockOf axis (past - 1))) pair span
          idx.startingHomes.elems.length (blockOf axis lowest)

/-- The homes with a run that starts in the query span: the runs on an axis over its start,
then those on the axes between its start and its reach. -/
def startingStreams (q : Span) (pair span : ℕ) : List HomeStream :=
  (q.start.comps.zipIdx.flatMap fun e =>
    let axis := q.start.comps.take e.2
    if axis ∈ idx.axes then
      match coordinatesBelow axis q.reach.comps with
      | none => []
      | some past =>
          idx.blockStreams axis (if e.2 + 1 = q.start.len then e.1 else e.1 + 1) past pair span
    else []) ++
  (idx.axes.elems.filter fun axis => decide (q.start.comps ≤ axis ∧ axis < q.reach.comps)).flatMap
    fun axis =>
      match coordinatesBelow axis q.reach.comps with
      | none => []
      | some past => idx.blockStreams axis 0 past pair span

/-- The homes with a run that started before the query span and reaches into it. A run that
starts at the span's start is the other half's. -/
def containingStreams (q : Span) (pair span : ℕ) : List HomeStream :=
  q.start.comps.zipIdx.flatMap fun e =>
    let axis := q.start.comps.take e.2
    if axis ∈ idx.axes then
      ((idx.levelsOf axis).filter fun level => !(level == 0 && e.2 + 1 == q.start.len)).map fun level =>
        ⟨pair, some span, .CONTAINING, idx.nodeHomes axis level (e.1 >>> level)⟩
    else []

def streams (q : Span) (pair span : ℕ) : List HomeStream :=
  idx.startingStreams q pair span ++ idx.containingStreams q pair span

/-- The homes of the residue, for every span of a query. -/
def residueStream (pair : ℕ) : Option HomeStream :=
  if idx.residue.entries.isEmpty then none
  else some ⟨pair, none, .RESIDUE, idx.residue.entries.map fun e => e.1.home⟩

end SlotIndex
