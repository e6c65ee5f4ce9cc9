import Hamster.CodeLib.BigEndian
import Hamster.CodeLib.Blocks
import Hamster.CodeLib.Uvarint

/-!
# Checksums and hashes

What the Go library has in `hash/crc32`, `crypto/sha256`, `crypto/hmac` and
`crypto/md5`, each with a test vector.
-/

namespace Hamster.CodeLib

/-! ## CRC-32C -/

/-- One bit of the reflected Castagnoli polynomial. -/
def crcBit (c : UInt32) : UInt32 :=
  if c &&& 1 = 1 then (c >>> 1) ^^^ 0x82F63B78 else c >>> 1

def crcByte (c : UInt32) (b : UInt8) : UInt32 := crcBit^[8] (c ^^^ b.toUInt32)

/-- `crc32.Checksum` over the Castagnoli table. -/
def checksum (b : Bytes) : UInt32 := ~~~ b.foldl crcByte 0xFFFFFFFF

example : checksum [49, 50, 51, 52, 53, 54, 55, 56, 57] = 0xE3069283 := by decide +kernel

/-! ## SHA-256

The message is padded to blocks of 64 bytes, and every block goes through 64
rounds.  The words of the message schedule are a window of sixteen that moves
on by one with every round. -/

/-- The constants of the rounds. -/
def sha256K : List UInt32 := [
  0x428a2f98, 0x71374491, 0xb5c0fbcf, 0xe9b5dba5, 0x3956c25b, 0x59f111f1, 0x923f82a4, 0xab1c5ed5,
  0xd807aa98, 0x12835b01, 0x243185be, 0x550c7dc3, 0x72be5d74, 0x80deb1fe, 0x9bdc06a7, 0xc19bf174,
  0xe49b69c1, 0xefbe4786, 0x0fc19dc6, 0x240ca1cc, 0x2de92c6f, 0x4a7484aa, 0x5cb0a9dc, 0x76f988da,
  0x983e5152, 0xa831c66d, 0xb00327c8, 0xbf597fc7, 0xc6e00bf3, 0xd5a79147, 0x06ca6351, 0x14292967,
  0x27b70a85, 0x2e1b2138, 0x4d2c6dfc, 0x53380d13, 0x650a7354, 0x766a0abb, 0x81c2c92e, 0x92722c85,
  0xa2bfe8a1, 0xa81a664b, 0xc24b8b70, 0xc76c51a3, 0xd192e819, 0xd6990624, 0xf40e3585, 0x106aa070,
  0x19a4c116, 0x1e376c08, 0x2748774c, 0x34b0bcb5, 0x391c0cb3, 0x4ed8aa4a, 0x5b9cca4f, 0x682e6ff3,
  0x748f82ee, 0x78a5636f, 0x84c87814, 0x8cc70208, 0x90befffa, 0xa4506ceb, 0xbef9a3f7, 0xc67178f2]

/-- The eight working words. -/
structure Sha256State where
  a : UInt32
  b : UInt32
  c : UInt32
  d : UInt32
  e : UInt32
  f : UInt32
  g : UInt32
  h : UInt32

def sha256Init : Sha256State :=
  ⟨0x6a09e667, 0xbb67ae85, 0x3c6ef372, 0xa54ff53a,
    0x510e527f, 0x9b05688c, 0x1f83d9ab, 0x5be0cd19⟩

def rotateRight (x n : UInt32) : UInt32 := (x >>> n) ||| (x <<< (32 - n))

/-- The next word of the schedule, from the window of the last sixteen. -/
def sha256Next (w : List UInt32) : UInt32 :=
  let w₁ := w.getD 1 0
  let w₁₄ := w.getD 14 0
  let s₀ := rotateRight w₁ 7 ^^^ rotateRight w₁ 18 ^^^ (w₁ >>> 3)
  let s₁ := rotateRight w₁₄ 17 ^^^ rotateRight w₁₄ 19 ^^^ (w₁₄ >>> 10)
  w.getD 0 0 + s₀ + w.getD 9 0 + s₁

/-- One round with the constant `k` and the first word of the window. -/
def sha256Round (s : Sha256State × List UInt32) (k : UInt32) : Sha256State × List UInt32 :=
  let (⟨a, b, c, d, e, f, g, h⟩, w) := s
  let s₁ := rotateRight e 6 ^^^ rotateRight e 11 ^^^ rotateRight e 25
  let ch := (e &&& f) ^^^ (~~~e &&& g)
  let t₁ := h + s₁ + ch + k + w.getD 0 0
  let s₀ := rotateRight a 2 ^^^ rotateRight a 13 ^^^ rotateRight a 22
  let maj := (a &&& b) ^^^ (a &&& c) ^^^ (b &&& c)
  (⟨t₁ + (s₀ + maj), a, b, c, d + t₁, e, f, g⟩, w.drop 1 ++ [sha256Next w])

def sha256Block (s : Sha256State) (block : Bytes) : Sha256State :=
  let words := (blocks 4 block).map (fun b => UInt32.ofNat (beNat b))
  let (t, _) := sha256K.foldl sha256Round (s, words)
  ⟨s.a + t.a, s.b + t.b, s.c + t.c, s.d + t.d, s.e + t.e, s.f + t.f, s.g + t.g, s.h + t.h⟩

/-- The message, a one bit, zeros, and the length in bits. -/
def sha256Pad (msg : Bytes) : Bytes :=
  msg ++ [128] ++ List.replicate ((119 - msg.length % 64) % 64) 0 ++
    putUint64 (UInt64.ofNat (8 * msg.length))

def putUint32 (x : UInt32) : Bytes :=
  [(x >>> 24).toUInt8, (x >>> 16).toUInt8, (x >>> 8).toUInt8, x.toUInt8]

/-- `sha256.Sum256` -/
def sha256 (msg : Bytes) : Bytes :=
  let s := (blocks 64 (sha256Pad msg)).foldl sha256Block sha256Init
  [s.a, s.b, s.c, s.d, s.e, s.f, s.g, s.h].flatMap putUint32

example : sha256 [97, 98, 99] = [
  186, 120, 22, 191, 143, 1, 207, 234, 65, 65, 64, 222, 93, 174, 34, 35,
  176, 3, 97, 163, 150, 23, 122, 156, 180, 16, 255, 97, 242, 0, 21, 173] := by
  decide +kernel

/-! ## HMAC-SHA-256 -/

/-- The key, padded to one block.  A longer key is hashed first. -/
def hmacKey (key : Bytes) : Bytes :=
  let key := if 64 < key.length then sha256 key else key
  key ++ List.replicate (64 - key.length) 0

def hmacSHA256 (key msg : Bytes) : Bytes :=
  let k := hmacKey key
  sha256 (k.map (· ^^^ 0x5c) ++ sha256 (k.map (· ^^^ 0x36) ++ msg))

/-- Test case 2 of RFC 4231: the key `Jefe`. -/
example : hmacSHA256 [74, 101, 102, 101]
    [119, 104, 97, 116, 32, 100, 111, 32, 121, 97, 32, 119, 97, 110, 116, 32, 102, 111, 114, 32,
      110, 111, 116, 104, 105, 110, 103, 63] = [
  91, 220, 193, 70, 191, 96, 117, 78, 106, 4, 36, 38, 8, 149, 117, 199,
  90, 0, 63, 8, 157, 39, 57, 131, 157, 236, 88, 185, 100, 236, 56, 67] := by
  decide +kernel

/-! ## MD5

Blocks of 64 bytes as for SHA-256, with little-endian words, and 64 rounds in
four groups of sixteen. -/

/-- The constants of the rounds. -/
def md5K : List UInt32 := [
  0xd76aa478, 0xe8c7b756, 0x242070db, 0xc1bdceee, 0xf57c0faf, 0x4787c62a, 0xa8304613, 0xfd469501,
  0x698098d8, 0x8b44f7af, 0xffff5bb1, 0x895cd7be, 0x6b901122, 0xfd987193, 0xa679438e, 0x49b40821,
  0xf61e2562, 0xc040b340, 0x265e5a51, 0xe9b6c7aa, 0xd62f105d, 0x02441453, 0xd8a1e681, 0xe7d3fbc8,
  0x21e1cde6, 0xc33707d6, 0xf4d50d87, 0x455a14ed, 0xa9e3e905, 0xfcefa3f8, 0x676f02d9, 0x8d2a4c8a,
  0xfffa3942, 0x8771f681, 0x6d9d6122, 0xfde5380c, 0xa4beea44, 0x4bdecfa9, 0xf6bb4b60, 0xbebfbc70,
  0x289b7ec6, 0xeaa127fa, 0xd4ef3085, 0x04881d05, 0xd9d4d039, 0xe6db99e5, 0x1fa27cf8, 0xc4ac5665,
  0xf4292244, 0x432aff97, 0xab9423a7, 0xfc93a039, 0x655b59c3, 0x8f0ccc92, 0xffeff47d, 0x85845dd1,
  0x6fa87e4f, 0xfe2ce6e0, 0xa3014314, 0x4e0811a1, 0xf7537e82, 0xbd3af235, 0x2ad7d2bb, 0xeb86d391]

/-- The four working words. -/
structure Md5State where
  a : UInt32
  b : UInt32
  c : UInt32
  d : UInt32

def md5Init : Md5State := ⟨0x67452301, 0xefcdab89, 0x98badcfe, 0x10325476⟩

def rotateLeft (x n : UInt32) : UInt32 := (x <<< n) ||| (x >>> (32 - n))

/-- The mixing function of round `i`, and which word of the block it takes. -/
def md5Mix (s : Md5State) (i : Nat) : UInt32 × Nat :=
  match i / 16 with
  | 0 => ((s.b &&& s.c) ||| (~~~s.b &&& s.d), i)
  | 1 => ((s.d &&& s.b) ||| (~~~s.d &&& s.c), (5 * i + 1) % 16)
  | 2 => (s.b ^^^ s.c ^^^ s.d, (3 * i + 5) % 16)
  | _ => (s.c ^^^ (s.b ||| ~~~s.d), 7 * i % 16)

/-- The rotations: four for each group of rounds. -/
def md5Shift (i : Nat) : UInt32 :=
  let shifts : List UInt32 := [7, 12, 17, 22, 5, 9, 14, 20, 4, 11, 16, 23, 6, 10, 15, 21]
  shifts.getD (4 * (i / 16) + i % 4) 0

def md5Round (words : List UInt32) (s : Md5State) (k : UInt32 × Nat) : Md5State :=
  let (f, g) := md5Mix s k.2
  ⟨s.d, s.b + rotateLeft (s.a + f + k.1 + words.getD g 0) (md5Shift k.2), s.b, s.c⟩

def md5Block (s : Md5State) (block : Bytes) : Md5State :=
  let words := (blocks 4 block).map uint32LE
  let t := md5K.zipIdx.foldl (md5Round words) s
  ⟨s.a + t.a, s.b + t.b, s.c + t.c, s.d + t.d⟩

/-- The message, a one bit, zeros, and the length in bits, low word first. -/
def md5Pad (msg : Bytes) : Bytes :=
  let bits := 8 * msg.length
  msg ++ [128] ++ List.replicate ((119 - msg.length % 64) % 64) 0 ++
    putUint32LE (UInt32.ofNat bits) ++ putUint32LE (UInt32.ofNat (bits / 2 ^ 32))

/-- `md5.Sum` -/
def md5 (msg : Bytes) : Bytes :=
  let s := (blocks 64 (md5Pad msg)).foldl md5Block md5Init
  [s.a, s.b, s.c, s.d].flatMap putUint32LE

example : md5 [97, 98, 99] = [
  144, 1, 80, 152, 60, 210, 79, 176, 214, 150, 63, 125, 40, 225, 127, 114] := by
  decide +kernel

end Hamster.CodeLib
