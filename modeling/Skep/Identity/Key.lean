import Skep.Library.Codec
import Skep.Library.Outcome

/-!
# Keys and their fingerprints

A public key is a post-quantum key and an Ed25519 key under one algorithm of a fixed
table. It is named by its fingerprint, the digest of a tagged and length-prefixed
frame of its algorithm token and its raw bytes. The digest is a parameter.
-/

namespace Identity

/-- The bytes of a text. -/
def utf8 (s : String) : List UInt8 := s.toByteArray.data.toList

/-- A domain tag. -/
inductive Tag where
  | key
  | session
  | sessionV2
  | nodeHello
  | entry
  deriving DecidableEq

def Tag.asBytes : Tag → List UInt8
  | key => utf8 "skep-key-v1"
  | session => utf8 "skep-session-v1"
  | sessionV2 => utf8 "skep-session-v2"
  | nodeHello => utf8 "skep-node-hello-v1"
  | entry => utf8 "skep-entry-v1"

/-- A field behind its four-byte length. -/
def delimited (bs : List UInt8) : List UInt8 := beBytes 4 bs.length ++ bs

/-- The bytes of a frame. -/
def frameBytes (tag : Tag) (fields : List (List UInt8)) : List UInt8 :=
  tag.asBytes ++ fields.flatMap delimited

/-- Frame the fields under the tag. A field whose length four bytes do not count is a
fault. -/
def framed (tag : Tag) (fields : List (List UInt8)) : Outcome Empty (List UInt8) := do
  Outcome.require (∀ f ∈ fields, f.length < 2 ^ 32)
  return frameBytes tag fields

/-- A nibble's lowercase digit. -/
def hexDigit (n : ℕ) : Char := Char.ofNat (if n < 10 then 48 + n else 87 + n)

def hexChars (bs : List UInt8) : List Char :=
  bs.flatMap fun b => [hexDigit (b.toNat / 16), hexDigit (b.toNat % 16)]

def hexEncode (bs : List UInt8) : String := String.ofList (hexChars bs)

/-- The nibble a digit of either case spells. -/
def nibble (c : UInt8) : Option ℕ :=
  if 48 ≤ c.toNat ∧ c.toNat ≤ 57 then some (c.toNat - 48)
  else if 97 ≤ c.toNat ∧ c.toNat ≤ 102 then some (c.toNat - 97 + 10)
  else if 65 ≤ c.toNat ∧ c.toNat ≤ 70 then some (c.toNat - 65 + 10)
  else none

/-- The bytes a string of digit pairs spells. -/
def hexPairs : List UInt8 → Option (List UInt8)
  | [] => some []
  | [_] => none
  | a :: b :: rest => do
      let high ← nibble a
      let low ← nibble b
      let bytes ← hexPairs rest
      return UInt8.ofNat (high * 16 + low) :: bytes

def hexDecode (s : String) : Option (List UInt8) := hexPairs (utf8 s)

def ed25519KeyLen : ℕ := 32

def mldsa65KeyLen : ℕ := 1952

def fndsa512PreviewKeyLen : ℕ := 897

/-- A signature algorithm: its marker tag, its token, the length of its post-quantum key
and of its post-quantum signature. -/
structure SigAlgRow where
  tag : ℕ
  token : String
  pqKeyLen : ℕ
  pqSigLen : ℕ
  deriving DecidableEq

namespace SigAlgRow

/-- The length of a signature: the post-quantum one and the Ed25519 one. -/
def sigLen (row : SigAlgRow) : ℕ := row.pqSigLen + 64

def keyLen (row : SigAlgRow) : ℕ := row.pqKeyLen + ed25519KeyLen

end SigAlgRow

def mldsa65Ed25519Row : SigAlgRow := ⟨1, "mldsa65-ed25519", mldsa65KeyLen, 3309⟩

def fndsa512PreviewEd25519Row : SigAlgRow :=
  ⟨3, "fndsa512-preview-ed25519", fndsa512PreviewKeyLen, 666⟩

def sigAlgs : List SigAlgRow := [mldsa65Ed25519Row, fndsa512PreviewEd25519Row]

/-- A hybrid public key, its raw bytes at its algorithm's length. -/
inductive PublicKey where
  | mlDsa65Ed25519 (raw : {bs : List UInt8 // bs.length = mldsa65KeyLen + ed25519KeyLen})
  | fnDsa512PreviewEd25519
      (raw : {bs : List UInt8 // bs.length = fndsa512PreviewKeyLen + ed25519KeyLen})
  deriving DecidableEq

inductive ParseKeyError where
  | unknownAlg
  | badHex
  | badLength
  deriving DecidableEq

namespace PublicKey

def sigAlgRow : PublicKey → SigAlgRow
  | mlDsa65Ed25519 _ => mldsa65Ed25519Row
  | fnDsa512PreviewEd25519 _ => fndsa512PreviewEd25519Row

def alg (key : PublicKey) : String := key.sigAlgRow.token

def raw : PublicKey → List UInt8
  | mlDsa65Ed25519 raw => raw.1
  | fnDsa512PreviewEd25519 raw => raw.1

/-- A key of an algorithm from raw bytes of its length. -/
def fromRaw (alg : String) (raw : List UInt8) : Outcome ParseKeyError PublicKey :=
  if alg = mldsa65Ed25519Row.token then
    if h : raw.length = mldsa65KeyLen + ed25519KeyLen then .ok (.mlDsa65Ed25519 ⟨raw, h⟩)
    else .err .badLength
  else if alg = fndsa512PreviewEd25519Row.token then
    if h : raw.length = fndsa512PreviewKeyLen + ed25519KeyLen then
      .ok (.fnDsa512PreviewEd25519 ⟨raw, h⟩)
    else .err .badLength
  else .err .unknownAlg

def toHex (key : PublicKey) : String := hexEncode key.raw

/-- A key read from its algorithm's token and its hex. -/
def parse (alg hex : String) : Outcome ParseKeyError PublicKey := do
  Outcome.refuseIf (sigAlgs.all fun row => row.token != alg) .unknownAlg
  let bytes ← Outcome.okOr (hexDecode hex) .badHex
  fromRaw alg bytes

end PublicKey

/-- The name of a key. -/
structure Fingerprint where
  bytes : Bytes32
  deriving DecidableEq

namespace Fingerprint

@[ext] theorem ext {a b : Fingerprint} (h : a.bytes = b.bytes) : a = b := by
  cases a
  cases b
  cases h
  rfl

theorem toNats_injective : Function.Injective fun fp : Fingerprint => fp.bytes.1.map UInt8.toNat := by
  intro a b h
  have hmap : Function.Injective (List.map UInt8.toNat) :=
    List.map_injective_iff.2 fun x y hxy => UInt8.toNat_inj.1 hxy
  exact ext (Subtype.ext (hmap h))

/-- Fingerprints stand in the order of their bytes. -/
instance : LinearOrder Fingerprint :=
  LinearOrder.lift' (fun fp : Fingerprint => fp.bytes.1.map UInt8.toNat) toNats_injective

/-- The frame a fingerprint digests. -/
def preimage (key : PublicKey) : List UInt8 := frameBytes .key [utf8 key.alg, key.raw]

/-- The fingerprint of a key. -/
def of (sha256 : List UInt8 → Bytes32) (key : PublicKey) : Fingerprint := ⟨sha256 (preimage key)⟩

def toHex (fp : Fingerprint) : String := hexEncode fp.bytes.1

def parseHex (s : String) : Option Fingerprint :=
  if s.utf8ByteSize ≠ 64 then none
  else (hexDecode s).bind fun bs => if h : bs.length = 32 then some ⟨⟨bs, h⟩⟩ else none

end Fingerprint

/-- A hybrid signature: bytes as long as some algorithm's signature. -/
structure HybridBlob where
  bytes : List UInt8
  deriving DecidableEq

/-- A signature read from its hex. -/
def HybridBlob.parseHex (s : String) : Option HybridBlob :=
  if sigAlgs.any fun row => row.sigLen * 2 == s.utf8ByteSize then (hexDecode s).map HybridBlob.mk
  else none

theorem PublicKey.length_raw (key : PublicKey) : key.raw.length = key.sigAlgRow.keyLen := by
  cases key with
  | mlDsa65Ed25519 raw => exact raw.2
  | fnDsa512PreviewEd25519 raw => exact raw.2

theorem PublicKey.sigAlgRow_mem (key : PublicKey) : key.sigAlgRow ∈ sigAlgs := by
  cases key <;> simp [PublicKey.sigAlgRow, sigAlgs]

end Identity
