import Skep.Library.Codec
import Skep.Library.Outcome

/-!
# The journal's frames

The format both sides of the journal read. A frame is a sync word, the length of
its payload, a checksum over both, and the payload: a record of a transaction or
the marker that commits it. The two digests the format rests on are parameters.
-/

namespace Journal

/-- The digests: CRC32C, continued from a running value, and SHA-256. -/
structure Hashes where
  crc32cAppend : ℕ → List UInt8 → ℕ
  crc32cAppend_lt : ∀ crc bs, crc32cAppend crc bs < 256 ^ 4
  sha256 : List UInt8 → Bytes32

namespace Hashes

def crc32c (H : Hashes) (bs : List UInt8) : ℕ := H.crc32cAppend 0 bs

end Hashes

/-- The per-frame sync word, `SKJ4`. -/
def magic : List UInt8 := [0x53, 0x4B, 0x4A, 0x34]

/-- The frame header's length: sync word, length, checksum. -/
def frameHeaderLen : ℕ := 12

/-- The bound on one frame's payload. -/
def maxFrameLen : ℕ := 64 * 1024 * 1024

/-- The most bytes one transaction may occupy, its slot's blob excepted. -/
def maxTxnBytes : ℕ := maxFrameLen

/-- The longest segment a scan reads. -/
def maxSegmentLen : ℕ := 2 * maxTxnBytes

/-- The widest signature blob. -/
def maxSigBytes : ℕ := 64 * 1024

/-- How many passes over a segment a scan spends on rejected candidates. -/
def resyncBudgetPasses : ℕ := 8

/-- What a record's payload has besides its bytes: tag, seq, txn, length. -/
def recordPayloadOverhead : ℕ := 28

def frameLen (payloadLen : ℕ) : ℕ := frameHeaderLen + payloadLen

/-- The marker frame's size with its slot empty. -/
def markerFrameLen : ℕ := frameLen 97

def recordPayloadLen (recordLen : ℕ) : ℕ := recordPayloadOverhead + recordLen

/-- The tag of the empty slot. -/
def sigAlgUnsigned : ℕ := 0

/-- A signature under a pair: a tag that is not the empty slot's, and a blob. -/
structure Attestation where
  sigAlg : ℕ
  sig : List UInt8
  signed : sigAlg ≠ sigAlgUnsigned
  tag : sigAlg < 256
  filled : sig ≠ []
  narrow : sig.length ≤ maxSigBytes

instance : DecidableEq Attestation := fun a b =>
  decidable_of_iff (a.sigAlg = b.sigAlg ∧ a.sig = b.sig)
    ⟨fun h => by cases a; cases b; cases h.1; cases h.2; rfl, fun h => h ▸ ⟨rfl, rfl⟩⟩

inductive AttestationError where
  | unsignedTag
  | emptyBlob
  | tooWide (len : ℕ)
  deriving DecidableEq

/-- The slot rule: empty has one spelling. -/
def slot (sigAlg : ℕ) (sig : List UInt8) : Outcome AttestationError (Option Attestation) :=
  if hsigned : sigAlg = sigAlgUnsigned then
    if sig = [] then .ok none else .err .unsignedTag
  else if hfilled : sig = [] then .err .emptyBlob
  else if hwide : maxSigBytes < sig.length then .err (.tooWide sig.length)
  else if htag : sigAlg < 256 then .ok (some ⟨sigAlg, sig, hsigned, htag, hfilled, not_lt.1 hwide⟩)
  else .fault

/-- The two fields a slot is written as. -/
def slotParts : Option Attestation → ℕ × List UInt8
  | none => (sigAlgUnsigned, [])
  | some a => (a.sigAlg, a.sig)

/-- A transaction's identity: its first position. -/
structure Txn where
  first : ℕ
  deriving DecidableEq

structure LogRecord where
  seq : ℕ
  txn : Txn
  bytes : List UInt8
  deriving DecidableEq

/-- The terminal frame of a transaction. -/
structure Marker where
  txn : Txn
  lastSeq : ℕ
  recordsChecksum : ℕ
  salt : Bytes32
  chain : Bytes32
  sigAlg : ℕ
  sig : List UInt8
  deriving DecidableEq

inductive FramePayload where
  | record (r : LogRecord)
  | marker (m : Marker)
  deriving DecidableEq

/-- The codec of a record: `seq`, `txn`, and the bytes behind their length. -/
def LogRecord.codec : Codec LogRecord :=
  ((Codec.nat 8).prod ((Codec.nat 8).prod (Codec.bytes 8))).iso
    { toFun := fun p => ⟨p.1, ⟨p.2.1⟩, p.2.2⟩
      invFun := fun r => (r.seq, r.txn.first, r.bytes)
      left_inv := fun _ => rfl
      right_inv := fun _ => rfl }

/-- A marker's fields as they are laid out, before the slot rule is asked. -/
def Marker.shadowCodec : Codec Marker :=
  ((Codec.nat 8).prod ((Codec.nat 8).prod ((Codec.nat 4).prod ((Codec.fixed 32).prod
    ((Codec.fixed 32).prod ((Codec.nat 1).prod (Codec.bytes 8))))))).iso
    { toFun := fun p => ⟨⟨p.1⟩, p.2.1, p.2.2.1, p.2.2.2.1, p.2.2.2.2.1, p.2.2.2.2.2.1, p.2.2.2.2.2.2⟩
      invFun := fun m =>
        (m.txn.first, m.lastSeq, m.recordsChecksum, m.salt, m.chain, m.sigAlg, m.sig)
      left_inv := fun _ => rfl
      right_inv := fun _ => rfl }

/-- Whether a marker's slot is one an attestation, or none, spells. -/
def Marker.slotAdmitted (m : Marker) : Bool := (slot m.sigAlg m.sig).isOk

/-- The codec of a marker: its fields, the slot held to its rule. -/
def Marker.codec : Codec Marker := Marker.shadowCodec.only Marker.slotAdmitted

/-- The codec of a frame's payload: the tag, then the record or the marker. -/
def FramePayload.codec : Codec FramePayload :=
  (Codec.tagged 4 (by decide) LogRecord.codec Marker.codec).iso
    { toFun := fun
        | .inl r => .record r
        | .inr m => .marker m
      invFun := fun
        | .record r => .inl r
        | .marker m => .inr m
      left_inv := fun v => by cases v <;> rfl
      right_inv := fun v => by cases v <;> rfl }

/-- The payload bytes of a frame. -/
def FramePayload.serialize (p : FramePayload) : List UInt8 := FramePayload.codec.encode p

/-- The payload of a record's frame. -/
def LogRecord.payload (r : LogRecord) : List UInt8 := (FramePayload.record r).serialize

/-- The payload of a marker's frame. -/
def Marker.payload (m : Marker) : List UInt8 := (FramePayload.marker m).serialize

/-- A frame's payload read back, trailing bytes refused. -/
def decodePayload (bs : List UInt8) : Option FramePayload := FramePayload.codec.readAll bs

/-- The value the first transaction chains from: thirty-two zero bytes. -/
def chainGenesis : Bytes32 := ⟨List.replicate 32 0, rfl⟩

/-- One link of the commit chain under construction: the bytes streamed so far. -/
structure ChainLink where
  streamed : List UInt8
  deriving DecidableEq

namespace ChainLink

/-- The link that follows `prev`. -/
def start (prev : Bytes32) : ChainLink := ⟨prev.1⟩

/-- Stream one record frame's payload. -/
def addPayload (link : ChainLink) (payload : List UInt8) : ChainLink := ⟨link.streamed ++ payload⟩

/-- The bytes a link hashes: what is streamed, then the marker's fields, its salt and
the digest of its slot. -/
def preimage (link : ChainLink) (txn : Txn) (lastSeq recordsChecksum : ℕ)
    (salt slotDigest : Bytes32) : List UInt8 :=
  link.streamed ++ leBytes 8 txn.first ++ leBytes 8 lastSeq ++ leBytes 4 recordsChecksum ++ salt.1 ++
    slotDigest.1

/-- Close the link. -/
def close (H : Hashes) (link : ChainLink) (txn : Txn) (lastSeq recordsChecksum : ℕ)
    (salt slotDigest : Bytes32) : Bytes32 :=
  H.sha256 (link.preimage txn lastSeq recordsChecksum salt slotDigest)

end ChainLink

/-- The slot as the marker frame encodes it. -/
def slotBytes (sigAlg : ℕ) (sig : List UInt8) : List UInt8 :=
  leBytes 1 sigAlg ++ leBytes 8 sig.length ++ sig

/-- The slot's digest, the chain's last input. -/
def slotDigest (H : Hashes) (sigAlg : ℕ) (sig : List UInt8) : Bytes32 := H.sha256 (slotBytes sigAlg sig)

/-- The checksum of a frame, over its length field and its payload. -/
def frameCrc (H : Hashes) (lenBytes payload : List UInt8) : ℕ :=
  H.crc32cAppend (H.crc32c lenBytes) payload

/-- One framed payload. -/
def frame (H : Hashes) (payload : List UInt8) : List UInt8 :=
  magic ++ leBytes 4 payload.length ++ leBytes 4 (frameCrc H (leBytes 4 payload.length) payload) ++
    payload

/-- A payload past the frame cap. -/
inductive FrameError where
  | tooLong
  deriving DecidableEq

/-- Append one framed payload. -/
def pushFrame (H : Hashes) (buf payload : List UInt8) : Outcome FrameError (List UInt8) :=
  if maxFrameLen < payload.length then .err .tooLong else .ok (buf ++ frame H payload)

/-- What `encodeTxn` has built of a transaction: its frames, the checksum of its record
payloads and its link. -/
structure TxnSoFar where
  buf : List UInt8
  checksum : ℕ
  link : ChainLink

/-- Frame the records from position `seq` on. -/
def encodeRecords (H : Hashes) (txn : Txn) :
    ℕ → List (List UInt8) → TxnSoFar → Outcome FrameError TxnSoFar
  | _, [], acc => .ok acc
  | seq, bytes :: rest, acc => do
      let payload := (⟨seq, txn, bytes⟩ : LogRecord).payload
      let buf ← pushFrame H acc.buf payload
      encodeRecords H txn (seq + 1) rest
        ⟨buf, H.crc32cAppend acc.checksum payload, acc.link.addPayload payload⟩

/-- Encode one whole transaction: its record frames, then its commit marker. -/
def encodeTxn (H : Hashes) (firstSeq : ℕ) (recordBytes : List (List UInt8)) (prevChain salt : Bytes32)
    (attestation : Option Attestation) : Outcome FrameError (List UInt8 × Bytes32) := do
  Outcome.require (recordBytes ≠ [])
  let txn : Txn := ⟨firstSeq⟩
  let recs ← encodeRecords H txn firstSeq recordBytes ⟨[], 0, .start prevChain⟩
  let lastSeq := firstSeq + (recordBytes.length - 1)
  let (sigAlg, sig) := slotParts attestation
  let chain := recs.link.close H txn lastSeq recs.checksum salt (slotDigest H sigAlg sig)
  let buf ← pushFrame H recs.buf
    (⟨txn, lastSeq, recs.checksum, salt, chain, sigAlg, sig⟩ : Marker).payload
  return (buf, chain)

/-- A frame read back off the front of the bytes from its start on. -/
inductive Parsed where
  | intact (payload : List UInt8)
  | bad (crcBytes : ℕ)
  deriving DecidableEq

/-- Read back the frame the bytes start with. -/
def parseFrame (H : Hashes) (bs : List UInt8) : Parsed :=
  if bs.length < frameHeaderLen ∨ bs.take 4 ≠ magic then .bad 0
  else
    let lenBytes := (bs.drop 4).take 4
    let len := leNat lenBytes
    let crc := leNat ((bs.drop 8).take 4)
    if maxFrameLen < len then .bad 0
    else if bs.length < frameHeaderLen + len then .bad 0
    else
      let payload := (bs.drop frameHeaderLen).take len
      if frameCrc H lenBytes payload ≠ crc then .bad len else .intact payload

/-- How far ahead the next sync word stands. -/
def findMagic : List UInt8 → Option ℕ
  | [] => none
  | b :: bs => if magic <+: b :: bs then some 0 else (findMagic bs).map (· + 1)

/-- Whether a payload's numbers are inside their widths, and its slot admitted. -/
def FramePayload.Fits (p : FramePayload) : Prop := FramePayload.codec.Fits p

/-- The decoder accepts exactly the encoder's output. -/
theorem decodePayload_eq_some_iff {bs : List UInt8} {p : FramePayload} :
    decodePayload bs = some p ↔ p.Fits ∧ bs = p.serialize :=
  FramePayload.codec.readAll_eq_some_iff

theorem FramePayload.fits_marker {m : Marker} : (FramePayload.marker m).Fits ↔
    (m.txn.first < 256 ^ 8 ∧ m.lastSeq < 256 ^ 8 ∧ m.recordsChecksum < 256 ^ 4 ∧ True ∧ True ∧
      m.sigAlg < 256 ^ 1 ∧ m.sig.length < 256 ^ 8) ∧ m.slotAdmitted = true := Iff.rfl

@[simp] theorem LogRecord.length_payload (r : LogRecord) :
    r.payload.length = recordPayloadLen r.bytes.length := by
  show (leBytes 4 0 ++ (leBytes 8 r.seq ++ (leBytes 8 r.txn.first ++
    (leBytes 8 r.bytes.length ++ r.bytes)))).length = 28 + r.bytes.length
  simp only [List.length_append, length_leBytes]
  omega

@[simp] theorem Marker.length_payload (m : Marker) : m.payload.length = 97 + m.sig.length := by
  show (leBytes 4 1 ++ (leBytes 8 m.txn.first ++ (leBytes 8 m.lastSeq ++
    (leBytes 4 m.recordsChecksum ++ (m.salt.1 ++ (m.chain.1 ++ (leBytes 1 m.sigAlg ++
      (leBytes 8 m.sig.length ++ m.sig)))))))).length = 97 + m.sig.length
  simp only [List.length_append, length_leBytes, m.salt.2, m.chain.2]
  omega

theorem length_magic : magic.length = 4 := rfl

@[simp] theorem length_frame (H : Hashes) (payload : List UInt8) :
    (frame H payload).length = frameLen payload.length := by
  simp only [frame, List.length_append, length_leBytes, length_magic, frameLen, frameHeaderLen]

theorem frameCrc_lt (H : Hashes) (lenBytes payload : List UInt8) :
    frameCrc H lenBytes payload < 256 ^ 4 := H.crc32cAppend_lt _ _

/-- A frame written is read back, whatever follows it. -/
theorem parseFrame_frame (H : Hashes) {payload : List UInt8} (h : payload.length ≤ maxFrameLen)
    (rest : List UInt8) : parseFrame H (frame H payload ++ rest) = .intact payload := by
  have hmax : maxFrameLen < 256 ^ 4 := by decide
  have hlen : leNat (leBytes 4 payload.length) = payload.length := leNat_leBytes (by omega)
  have hcrc := leNat_leBytes (frameCrc_lt H (leBytes 4 payload.length) payload)
  -- the header, field by field
  have hword : (frame H payload ++ rest).take 4 = magic := by
    simp only [frame, List.append_assoc]
    exact List.take_left' length_magic
  have hlenBytes : ((frame H payload ++ rest).drop 4).take 4 = leBytes 4 payload.length := by
    simp only [frame, List.append_assoc]
    rw [List.drop_left' length_magic, List.take_left' (length_leBytes _ _)]
  have hcrcBytes : ((frame H payload ++ rest).drop 8).take 4 =
      leBytes 4 (frameCrc H (leBytes 4 payload.length) payload) := by
    have : (magic ++ leBytes 4 payload.length).length = 8 := by simp [length_magic]
    rw [frame, List.append_assoc, List.append_assoc, List.drop_left' this,
      List.take_left' (length_leBytes _ _)]
  have hpayload : ((frame H payload ++ rest).drop frameHeaderLen).take payload.length = payload := by
    have : (magic ++ leBytes 4 payload.length ++
        leBytes 4 (frameCrc H (leBytes 4 payload.length) payload)).length = frameHeaderLen := by
      simp [length_magic, frameHeaderLen]
    rw [frame, List.append_assoc, List.drop_left' this, List.take_left]
  have hlong : (frame H payload ++ rest).length = frameHeaderLen + payload.length + rest.length := by
    rw [List.length_append, length_frame, frameLen]
  rw [parseFrame, if_neg (by rw [hword, hlong]; simp; omega)]
  simp only [hlenBytes, hlen, hcrcBytes, hcrc, hpayload]
  rw [if_neg (by omega), if_neg (by omega), if_neg (by simp)]

end Journal
