import Skep.Journal.Frame

/-!
# The digests the format uses

CRC32C and SHA-256, as they are computed. The theorems about the journal hold of any
digests; these are the ones a run on given bytes evaluates.
-/

namespace Journal

namespace Crc32c

/-- One bit of the reflected Castagnoli polynomial division. -/
def step (crc : ℕ) : ℕ := if crc % 2 = 1 then (crc / 2) ^^^ 0x82F63B78 else crc / 2

/-- One byte into the register. -/
def byte (crc : ℕ) (b : UInt8) : ℕ :=
  step (step (step (step (step (step (step (step (crc ^^^ b.toNat))))))))

/-- CRC32C continued from a running value. -/
def append (crc : ℕ) (bs : List UInt8) : ℕ :=
  (bs.foldl byte ((crc ^^^ 0xFFFFFFFF) % 2 ^ 32) ^^^ 0xFFFFFFFF) % 2 ^ 32

end Crc32c

namespace Sha256

/-- The round constants. -/
def constants : List ℕ :=
  [0x428a2f98, 0x71374491, 0xb5c0fbcf, 0xe9b5dba5, 0x3956c25b, 0x59f111f1, 0x923f82a4, 0xab1c5ed5,
    0xd807aa98, 0x12835b01, 0x243185be, 0x550c7dc3, 0x72be5d74, 0x80deb1fe, 0x9bdc06a7, 0xc19bf174,
    0xe49b69c1, 0xefbe4786, 0x0fc19dc6, 0x240ca1cc, 0x2de92c6f, 0x4a7484aa, 0x5cb0a9dc, 0x76f988da,
    0x983e5152, 0xa831c66d, 0xb00327c8, 0xbf597fc7, 0xc6e00bf3, 0xd5a79147, 0x06ca6351, 0x14292967,
    0x27b70a85, 0x2e1b2138, 0x4d2c6dfc, 0x53380d13, 0x650a7354, 0x766a0abb, 0x81c2c92e, 0x92722c85,
    0xa2bfe8a1, 0xa81a664b, 0xc24b8b70, 0xc76c51a3, 0xd192e819, 0xd6990624, 0xf40e3585, 0x106aa070,
    0x19a4c116, 0x1e376c08, 0x2748774c, 0x34b0bcb5, 0x391c0cb3, 0x4ed8aa4a, 0x5b9cca4f, 0x682e6ff3,
    0x748f82ee, 0x78a5636f, 0x84c87814, 0x8cc70208, 0x90befffa, 0xa4506ceb, 0xbef9a3f7, 0xc67178f2]

/-- The eight words of the running hash. -/
structure Words where
  a : ℕ
  b : ℕ
  c : ℕ
  d : ℕ
  e : ℕ
  f : ℕ
  g : ℕ
  h : ℕ

def initial : Words :=
  ⟨0x6a09e667, 0xbb67ae85, 0x3c6ef372, 0xa54ff53a, 0x510e527f, 0x9b05688c, 0x1f83d9ab, 0x5be0cd19⟩

def rotr (n x : ℕ) : ℕ := ((x >>> n) ||| (x <<< (32 - n))) % 2 ^ 32

/-- One round, with the next sixteen words of the schedule in hand. -/
def round (s : Words × List ℕ) (k : ℕ) : Words × List ℕ :=
  let (v, window) := s
  let w := window.headD 0
  let choice := (v.e &&& v.f) ^^^ ((v.e ^^^ 0xFFFFFFFF) &&& v.g)
  let majority := (v.a &&& v.b) ^^^ (v.a &&& v.c) ^^^ (v.b &&& v.c)
  let t1 := v.h + (rotr 6 v.e ^^^ rotr 11 v.e ^^^ rotr 25 v.e) + choice + k + w
  let t2 := (rotr 2 v.a ^^^ rotr 13 v.a ^^^ rotr 22 v.a) + majority
  let w1 := window.getD 1 0
  let w14 := window.getD 14 0
  let next := (w + (rotr 7 w1 ^^^ rotr 18 w1 ^^^ (w1 >>> 3)) + window.getD 9 0 +
    (rotr 17 w14 ^^^ rotr 19 w14 ^^^ (w14 >>> 10))) % 2 ^ 32
  (⟨(t1 + t2) % 2 ^ 32, v.a, v.b, v.c, (v.d + t1) % 2 ^ 32, v.e, v.f, v.g⟩, window.tail ++ [next])

/-- Sixteen words into the running hash. -/
def compress (v : Words) (block : List ℕ) : Words :=
  let (r, _) := constants.foldl round (v, block)
  ⟨(v.a + r.a) % 2 ^ 32, (v.b + r.b) % 2 ^ 32, (v.c + r.c) % 2 ^ 32, (v.d + r.d) % 2 ^ 32,
    (v.e + r.e) % 2 ^ 32, (v.f + r.f) % 2 ^ 32, (v.g + r.g) % 2 ^ 32, (v.h + r.h) % 2 ^ 32⟩

/-- A word's four bytes, the most significant first. -/
def wordBytes (w : ℕ) : List UInt8 := (leBytes 4 w).reverse

/-- The words of a byte string, four bytes each. -/
def wordsOf : List UInt8 → List ℕ
  | a :: b :: c :: d :: bs => leNat [d, c, b, a] :: wordsOf bs
  | _ => []

/-- The message, a set bit, zeros up to a block less eight bytes, and its length in bits. -/
def pad (bs : List UInt8) : List UInt8 :=
  bs ++ [0x80] ++ List.replicate ((119 - bs.length % 64) % 64) 0 ++ (leBytes 8 (8 * bs.length)).reverse

def blocks : ℕ → Words → List ℕ → Words
  | 0, v, _ => v
  | n + 1, v, words => blocks n (compress v (words.take 16)) (words.drop 16)

def digest (bs : List UInt8) : Bytes32 :=
  let words := wordsOf (pad bs)
  let v := blocks (words.length / 16) initial words
  ⟨wordBytes v.a ++ wordBytes v.b ++ wordBytes v.c ++ wordBytes v.d ++ wordBytes v.e ++ wordBytes v.f ++
    wordBytes v.g ++ wordBytes v.h, by simp [wordBytes]⟩

end Sha256

/-- The digests the format uses. -/
def Hashes.standard : Hashes where
  crc32cAppend := Crc32c.append
  crc32cAppend_lt _ _ := Nat.mod_lt _ (by decide)
  sha256 := Sha256.digest

end Journal
