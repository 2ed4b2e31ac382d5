import Skep.Journal.Frame

/-!
# The scan of a journal

Recovery's read side. One walk over the segments above a base resynchronises past
bad frames by the sync word, groups record frames by transaction, takes the groups
an intact marker closes, verifies the commit chain, and keeps what each caller halts
on: corrupt runs, an edited transaction, a broken link, a tail that is not a crash's.
-/

namespace Journal

/-- A segment file, named by the first position it was begun for. -/
structure Segment where
  firstSeq : ℕ
  bytes : List UInt8
  deriving DecidableEq

namespace Segment

def name (seg : Segment) : String := "seg-" ++ toString seg.firstSeq ++ ".wal"

end Segment

/-- A closed segment's last position, off its successor's name. -/
def inferredLastSeq (segs : List Segment) (i : ℕ) : Option ℕ :=
  segs[i + 1]?.map fun next => next.firstSeq - 1

/-- The segments a scan above a base reads, each with its index. -/
def scannedAbove (segs : List Segment) (sLoad : ℕ) : List (ℕ × Segment) :=
  (segs.zipIdx.filter fun (_, i) => (inferredLastSeq segs i).all fun last => decide (sLoad < last)).map
    Prod.swap

/-- How a corrupt run ended: on an intact frame, or at the journal's end. -/
inductive RunEnd where
  | landed (inferredMax pos : ℕ)
  | eof
  deriving DecidableEq

namespace RunEnd

def landedOnRecord (seq : ℕ) : RunEnd := landed (seq - 1) seq

/-- At the order's ceiling there is no position past the marker's. -/
def landedOnMarker (lastSeq : ℕ) : RunEnd := landed lastSeq (min (lastSeq + 1) (2 ^ 64 - 1))

end RunEnd

/-- Where a corrupt run's bytes lie. -/
structure RunPlace where
  segments : List String
  fromByte : ℕ
  toByte : Option ℕ
  next : Option String
  deriving DecidableEq

/-- The place of a run that began at a byte of a segment and ended on the frame at
`landing`, or with the journal. -/
def RunPlace.of (segs : List Segment) (began : ℕ × ℕ) (landing : Option (ℕ × ℕ)) : RunPlace :=
  let (last, toByte) := match landing with
    | some (segment, 0) => (segment - 1, none)
    | some (segment, byte) => (segment, some byte)
    | none => (segs.length - 1, none)
  ⟨((segs.take (last + 1)).drop began.1).map Segment.name, began.2, toByte,
    segs[last + 1]?.map Segment.name⟩

structure CorruptRun where
  ending : RunEnd
  place : RunPlace
  deriving DecidableEq

/-- What shows that a tail is not a crash's. -/
inductive DamagedTailTell where
  | markerCommitsNothing (segment : String) (byte position : ℕ)
  | frameDoesNotDecode (segment : String) (byte : ℕ)
  | longerThanOneAppend (bound : ℕ)
  deriving DecidableEq

/-- Where the tail begins, how long it is, and the segments wholly past it. -/
structure TailCut where
  segment : ℕ
  offset : ℕ
  discard : List ℕ
  bytes : ℕ
  fromByte : Option (String × ℕ)
  deriving DecidableEq

/-- What a scan collects: the records up to a bound, or the boundaries. -/
inductive Collect where
  | records (bound : Option ℕ)
  | boundaries
  deriving DecidableEq

/-- Why a segment could not be taken in. -/
inductive UnscannableCause where
  | oversized (segment : String) (len : ℕ)
  | unenumerable (segment : String)
  deriving DecidableEq

/-- The scan's refusal: the base's position, and the segment. -/
structure ScanFail where
  pos : ℕ
  cause : UnscannableCause
  deriving DecidableEq

/-- A record as the fold reads it, and the position its transaction committed at. -/
structure CommittedRecord where
  seq : ℕ
  bytes : List UInt8
  committedAt : ℕ
  deriving DecidableEq

/-- The record frames of the one transaction a scan has open. -/
structure PendingTxn where
  txn : Txn
  checksum : ℕ
  lastSeq : Option ℕ
  ordered : Bool
  accounted : ℕ
  oversize : Bool
  records : List CommittedRecord
  link : ChainLink
  clean : Bool
  deriving DecidableEq

namespace PendingTxn

/-- A group with nothing in it, its link opened on the running chain value. -/
def start (txn : Txn) (prevChain : Bytes32) : PendingTxn :=
  ⟨txn, 0, none, true, markerFrameLen, false, [], .start prevChain, true⟩

/-- The chain value a marker must carry to close the group. -/
def recomputedChain (H : Hashes) (group : PendingTxn) (marker : Marker) : Bytes32 :=
  group.link.close H marker.txn marker.lastSeq marker.recordsChecksum marker.salt
    (slotDigest H marker.sigAlg marker.sig)

/-- Take one record frame; a group that can no longer commit releases its records. -/
def push (H : Hashes) (group : PendingTxn) (record : LogRecord) (payload : List UInt8) : PendingTxn :=
  let ordered := group.ordered && group.lastSeq.all fun prev => decide (prev < record.seq)
  let accounted := group.accounted + frameLen payload.length
  let oversize := group.oversize || decide (maxTxnBytes < accounted)
  { group with
    lastSeq := some record.seq
    ordered := ordered
    checksum := H.crc32cAppend group.checksum payload
    link := group.link.addPayload payload
    accounted := accounted
    oversize := oversize
    records :=
      if ordered && !oversize then group.records ++ [⟨record.seq, record.bytes, record.seq⟩] else [] }

/-- Whether a marker commits the group. -/
def commits (group : PendingTxn) (marker : Marker) : Bool :=
  group.ordered && !group.oversize && (group.lastSeq == some marker.lastSeq) &&
    (group.checksum == marker.recordsChecksum)

end PendingTxn

/-- What the marker closing a scan's bound carries. -/
structure ClosingMarker where
  chain : Bytes32
  attestation : Option Attestation
  deriving DecidableEq

/-- What a scan derives of the region above its base. -/
structure ScanOutcome where
  sLoad : ℕ
  chainAtBase : Bytes32
  collect : Collect
  committedHead : ℕ
  commitsAboveBase : ℕ
  committedRecords : List CommittedRecord
  nearestBelowBound : ℕ
  runs : List CorruptRun
  tailIntact : ℕ
  tailTell : Option DamagedTailTell
  tailClaimed : Option ℕ
  tail : Option TailCut
  chainHead : Bytes32
  chainBreak : Option ℕ
  baseMismatch : Option ℕ
  uncommittedIntact : Option ℕ
  closingAtBound : Option ClosingMarker
  boundaries : List (ℕ × Option Attestation)

/-- A decoded marker's slot. The decoder has asked the slot rule already. -/
def admittedSlot (sigAlg : ℕ) (sig : List UInt8) : Option Attestation :=
  match slot sigAlg sig with
  | .ok a => a
  | .err _ | .fault => none

namespace ScanOutcome

def start (sLoad : ℕ) (collect : Collect) (chainAtBase : Bytes32) : ScanOutcome where
  sLoad := sLoad
  chainAtBase := chainAtBase
  collect := collect
  committedHead := sLoad
  commitsAboveBase := 0
  committedRecords := []
  nearestBelowBound := sLoad
  runs := []
  tailIntact := 0
  tailTell := none
  tailClaimed := none
  tail := none
  chainHead := chainAtBase
  chainBreak := none
  baseMismatch := none
  uncommittedIntact := none
  closingAtBound := none
  boundaries := []

/-- The link of a committed transaction, judged against the chain it found. -/
def judgeLink (H : Hashes) (out : ScanOutcome) (marker : Marker) (group : PendingTxn) : ScanOutcome :=
  if out.sLoad < marker.lastSeq then
    { out with
      chainBreak :=
        if group.recomputedChain H marker ≠ marker.chain then
          out.chainBreak <|> some marker.lastSeq
        else out.chainBreak
      chainHead := marker.chain
      commitsAboveBase := out.commitsAboveBase + 1
      closingAtBound :=
        if out.collect = .records (some marker.lastSeq) then
          some ⟨marker.chain, admittedSlot marker.sigAlg marker.sig⟩
        else out.closingAtBound
      boundaries :=
        if out.collect = .boundaries then
          out.boundaries ++ [(marker.lastSeq, admittedSlot marker.sigAlg marker.sig)]
        else out.boundaries }
  else if marker.lastSeq = out.sLoad ∧ marker.chain ≠ out.chainAtBase then
    { out with baseMismatch := out.baseMismatch <|> some out.sLoad }
  else out

/-- Take what a committed transaction contributes. -/
def collectCommit (H : Hashes) (out : ScanOutcome) (marker : Marker) (group : PendingTxn) : ScanOutcome :=
  let out := { out.judgeLink H marker group with
    tailIntact := 0
    tailClaimed := none
    tailTell := none
    committedHead := max (out.judgeLink H marker group).committedHead marker.lastSeq }
  match out.collect with
  | .boundaries => out
  | .records bound =>
      { out with
        nearestBelowBound :=
          if bound.any fun b => decide (marker.lastSeq < b) then
            max out.nearestBelowBound marker.lastSeq
          else out.nearestBelowBound
        committedRecords := out.committedRecords ++
          (group.records.filter fun entry => bound.all fun b => decide (entry.seq ≤ b)).map
            fun entry => { entry with committedAt := marker.lastSeq } }

/-- An intact frame no writer leaves where it stands: counted, and the first named. -/
def countTail (out : ScanOutcome) (tell : DamagedTailTell) : ScanOutcome :=
  { out with tailIntact := out.tailIntact + 1, tailTell := out.tailTell <|> some tell }

/-- A marker that commits nothing. -/
def refuseMarker (out : ScanOutcome) (segment : String) (byte : ℕ) (marker : Marker) : ScanOutcome :=
  { out.countTail (.markerCommitsNothing segment byte marker.lastSeq) with
    tailClaimed := some ((out.tailClaimed.getD 0).max marker.lastSeq) }

end ScanOutcome

/-- A committed transaction: the marker that closed it and its records. -/
structure CommittedTxn where
  marker : Marker
  records : List (ℕ × List UInt8)
  deriving DecidableEq

/-- What the walk has in hand: the outcome so far, where the tail begins, the open
group and the open run. `commits` are the transactions committed above the base, for
statements about them: the source keeps their number. -/
structure Walk where
  outcome : ScanOutcome
  cut : Option (ℕ × ℕ)
  pending : Option PendingTxn
  runBegan : Option (ℕ × ℕ)
  commits : List CommittedTxn

/-- A place in the journal: a segment, by index and name, and a byte of it. -/
structure Place where
  index : ℕ
  name : String
  byte : ℕ

namespace Walk

/-- The open run, if any, ended on an intact frame. -/
def land (segs : List Segment) (w : Walk) (place : Place) (ending : RunEnd) : Walk :=
  match w.runBegan with
  | none => w
  | some began =>
      { w with
        runBegan := none
        outcome.runs := w.outcome.runs ++
          [⟨ending, .of segs began (some (place.index, place.byte))⟩] }

/-- Take a record frame. A record a run landed on cannot vouch for its group. -/
def onRecord (H : Hashes) (segs : List Segment) (w : Walk) (place : Place) (record : LogRecord)
    (payload : List UInt8) : Walk :=
  let group := (w.pending.filter fun group => group.txn == record.txn).getD
    (.start record.txn w.outcome.chainHead)
  let group := { group with clean := group.clean && w.runBegan.isNone }
  { w.land segs place (.landedOnRecord record.seq) with pending := some (group.push H record payload) }

/-- Take a marker, `next` being the byte past its frame. -/
def onMarker (H : Hashes) (segs : List Segment) (w : Walk) (place : Place) (next : ℕ)
    (marker : Marker) : Walk :=
  let w := w.land segs place (.landedOnMarker marker.lastSeq)
  match w.pending.filter fun group => group.txn == marker.txn with
  | some group =>
      if group.commits marker then
        { w with
          outcome := w.outcome.collectCommit H marker group
          pending := none
          cut := some (place.index, next)
          commits :=
            if w.outcome.sLoad < marker.lastSeq then
              w.commits ++ [⟨marker, group.records.map fun entry => (entry.seq, entry.bytes)⟩]
            else w.commits }
      else
        let outcome := w.outcome.refuseMarker place.name place.byte marker
        { w with
          pending := none
          outcome :=
            if group.clean then
              { outcome with
                uncommittedIntact :=
                  outcome.uncommittedIntact <|> some (group.lastSeq.getD marker.lastSeq) }
            else outcome }
  | none =>
      let outcome := w.outcome.refuseMarker place.name place.byte marker
      { w with
        outcome :=
          match w.pending.filter fun group => group.clean with
          | some group =>
              { outcome with uncommittedIntact := outcome.uncommittedIntact <|> group.lastSeq }
          | none => outcome }

/-- A run is open from here, where none was, and the open group has met it. -/
def beginRun (w : Walk) (place : Place) : Walk :=
  { w with
    runBegan := w.runBegan <|> some (place.index, place.byte)
    pending := w.pending.map fun group => { group with clean := false } }

/-- Take an intact frame. -/
def onFrame (H : Hashes) (segs : List Segment) (w : Walk) (place : Place) (payload : List UInt8) : Walk :=
  match decodePayload payload with
  | some (.record record) => w.onRecord H segs place record payload
  | some (.marker marker) => w.onMarker H segs place (place.byte + frameLen payload.length) marker
  | none =>
      let w := w.beginRun place
      { w with outcome := w.outcome.countTail (.frameDoesNotDecode place.name place.byte) }

/-- Walk a segment's bytes from `place` on, the first `skip` of them being read already
and `spent` having been spent on rejected candidates. -/
def overBytes (H : Hashes) (segs : List Segment) (budget : ℕ) :
    ℕ → Place → ℕ → List UInt8 → Walk → Outcome ScanFail Walk
  | _, _, _, [], w => .ok w
  | spent, place, skip + 1, _ :: bs, w =>
      overBytes H segs budget spent { place with byte := place.byte + 1 } skip bs w
  | spent, place, 0, b :: bs, w =>
      match parseFrame H (b :: bs) with
      | .intact payload =>
          overBytes H segs budget spent { place with byte := place.byte + 1 }
            (frameLen payload.length - 1) bs (w.onFrame H segs place payload)
      | .bad crcBytes =>
          if budget < spent + crcBytes then
            .err ⟨w.outcome.sLoad, .unenumerable place.name⟩
          else
            overBytes H segs budget (spent + crcBytes) { place with byte := place.byte + 1 }
              ((findMagic bs).getD bs.length) bs (w.beginRun place)

/-- Walk one segment. -/
def overSegment (H : Hashes) (segs : List Segment) (w : Walk) (index : ℕ) (seg : Segment) :
    Outcome ScanFail Walk :=
  if maxSegmentLen < seg.bytes.length then
    .err ⟨w.outcome.sLoad, .oversized seg.name seg.bytes.length⟩
  else
    overBytes H segs (seg.bytes.length * resyncBudgetPasses) 0 ⟨index, seg.name, 0⟩ 0 seg.bytes w

/-- The walk at a base, before any segment. -/
def start (sLoad : ℕ) (collect : Collect) (chainAtBase : Bytes32) : Walk :=
  ⟨.start sLoad collect chainAtBase, none, none, none, []⟩

/-- The run still open at the journal's end. -/
def endRun (segs : List Segment) (w : Walk) : Walk :=
  match w.runBegan with
  | none => w
  | some began => { w with outcome.runs := w.outcome.runs ++ [⟨.eof, .of segs began none⟩] }

/-- The length of a segment, as read. -/
def lenOf (scanned : List (ℕ × Segment)) (index : ℕ) : ℕ :=
  match scanned.find? fun s => s.1 == index with
  | some s => s.2.bytes.length
  | none => 0

/-- The tail from a byte of a segment on, measured off the segments read. -/
def tailFrom (segs : List Segment) (scanned : List (ℕ × Segment)) (index offset : ℕ) : TailCut :=
  let later := (segs.zipIdx.drop (index + 1)).map fun s => (s.1.name, lenOf scanned s.2)
  let here := lenOf scanned index - offset
  { segment := index
    offset := offset
    discard := (segs.zipIdx.drop (index + 1)).map Prod.snd
    bytes := here + (later.map Prod.snd).sum
    fromByte :=
      if 0 < here then segs[index]?.map fun seg => (seg.name, offset)
      else (later.find? fun s => decide (0 < s.2)).map fun s => (s.1, 0) }

/-- The tail past the last committed marker: everything scanned, where none is. -/
def tailCut (segs : List Segment) (scanned : List (ℕ × Segment)) (w : Walk) : Option TailCut :=
  match w.cut, scanned with
  | some cut, _ => some (tailFrom segs scanned cut.1 cut.2)
  | none, first :: _ => some (tailFrom segs scanned first.1 0)
  | none, [] => none

/-- The outcome once every segment is walked. -/
def finish (segs : List Segment) (scanned : List (ℕ × Segment)) (w : Walk) : Walk :=
  { w.endRun segs with outcome.tail := w.tailCut segs scanned }

end Walk

/-- The pass both scans run, with what it has in hand at the end. -/
def walk (H : Hashes) (segs : List Segment) (sLoad : ℕ) (collect : Collect) (chainAtBase : Bytes32) :
    Outcome ScanFail Walk := do
  let scanned := scannedAbove segs sLoad
  let w ← scanned.foldlM (fun w s => Walk.overSegment H segs w s.1 s.2)
    (Walk.start sLoad collect chainAtBase)
  return w.finish segs scanned

/-- Scan the journal above `sLoad`, collecting the records up to `bound`. -/
def scan (H : Hashes) (segs : List Segment) (sLoad : ℕ) (bound : Option ℕ) (chainAtBase : Bytes32) :
    Outcome ScanFail ScanOutcome :=
  Walk.outcome <$> walk H segs sLoad (.records bound) chainAtBase

/-- The account a halt travels with. -/
inductive HaltCause where
  | corruptRun (place : RunPlace)
  | baseMismatch
  | uncommittedIntact
  | chainBreak
  deriving DecidableEq

namespace ScanOutcome

/-- The first of the chain's verdicts, in the order they speak. -/
def chainVerdict (out : ScanOutcome) : Option (ℕ × HaltCause) :=
  (out.baseMismatch.map fun pos => (pos, .baseMismatch)) <|>
    (out.uncommittedIntact.map fun pos => (pos, .uncommittedIntact)) <|>
    out.chainBreak.map fun pos => (pos, .chainBreak)

/-- The first run a fold to `bound` cannot answer around. -/
def fatalRun (out : ScanOutcome) (bound : Option ℕ) : Option (ℕ × RunPlace) :=
  out.runs.findSome? fun run => match run.ending with
    | .landed inferredMax pos =>
        if out.sLoad < inferredMax ∧ (bound.all fun b => decide (inferredMax ≤ b)) = true then
          some (pos, run.place)
        else none
    | .eof => none

def haltOn (out : ScanOutcome) (fatalRun : Option (ℕ × RunPlace)) : Option (ℕ × HaltCause) :=
  (fatalRun.map fun run => (run.1, .corruptRun run.2)) <|> out.chainVerdict

/-- Why a recovery cannot answer from the scan. -/
def haltToHead (out : ScanOutcome) : Option (ℕ × HaltCause) :=
  out.haltOn (out.fatalRun (some out.committedHead))

/-- Why a history read cannot answer from the scan. -/
def haltAnywhere (out : ScanOutcome) : Option (ℕ × HaltCause) := out.haltOn (out.fatalRun none)

/-- Whether a fold to `bound` can be answered. -/
def covers (out : ScanOutcome) (bound : ℕ) : Bool :=
  match out.collect with
  | .records collected => collected.all fun c => decide (bound ≤ c)
  | .boundaries => false

end ScanOutcome

end Journal
