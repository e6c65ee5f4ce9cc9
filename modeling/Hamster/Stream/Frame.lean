import Hamster.CodeLib.BigEndian
import Hamster.CodeLib.Hash
import Hamster.CodeLib.ReaderAt
import Hamster.CodeLib.Uvarint

/-!
# Frames of objects

The format of `internal/stream`: a header, the chunks of the object as they are
stored, and a trailer with the length and the CRC of every chunk.  Chunks are
stored as they are, or sealed with AES-GCM under the object's key; the nonce of
a chunk is its index.

`frame` is the frame of an object, without a writer.  `parseHeader_append`
reads back the header that `appendHeader` wrote.

AES-GCM is a parameter, `Gcm`.  `LawfulGcm` is all that is used about it: a tag
is sixteen bytes, and opening undoes sealing.
-/

namespace Hamster.Stream

open CodeLib

/-! ## AES-GCM -/

class Gcm where
  aeadSeal : (key nonce plaintext : Bytes) → Bytes
  aeadOpen : (key nonce ciphertext : Bytes) → Option Bytes

def dekLen : Nat := 32

def gcmNonceLen : Nat := 12

def gcmTagLen : Nat := 16

def defaultChunkSize : Nat := 1048576

class LawfulGcm [Gcm] : Prop where
  length_aeadSeal : ∀ {key nonce : Bytes} (p : Bytes), key.length = dekLen →
    nonce.length = gcmNonceLen → (Gcm.aeadSeal key nonce p).length = p.length + gcmTagLen
  aeadOpen_aeadSeal : ∀ {key nonce : Bytes} (p : Bytes), key.length = dekLen →
    nonce.length = gcmNonceLen → Gcm.aeadOpen key nonce (Gcm.aeadSeal key nonce p) = some p

/-- The nonce of chunk `i`: its index, big-endian, after four zero bytes. -/
def chunkNonce (i : Int) : Bytes := [0, 0, 0, 0] ++ putUint64 (uint64 i)

theorem length_chunkNonce (i : Int) : (chunkNonce i).length = gcmNonceLen := rfl

/-! ## The header -/

/-- The errors of a reader.  `ε` are the errors of the reader below it.
`panicked` and `endless` are no errors of the source: a run-time panic, and a
loop that never ends. -/
inductive StreamError (ε : Type) where
  | reading (cause : Option ε)
  | badMagic
  | badFormatVersion
  | badFlags
  | badChunkSize
  | badPlaintextSize
  | newerVersion (version : Nat)
  | unsupportedFlags (flags : UInt64)
  | implausibleSizes
  | zeroChunkSize (plaintextSize : Int)
  | noKey
  | keyLength (n : Nat)
  | tooShort (frameSize : Int)
  | trailerDoesNotFit (trailerLen : Int)
  | cannotIndex (trailerLen n : Int)
  | badLength (i : Int)
  | chunkStores (i : Int) (stored : Nat) (want : Int)
  | crcsLeft (n : Nat)
  | chunksEnd (stop start : Int)
  | chunkCRC (i : Int)
  | chunkAuthentication (i : Int)
  | negativeOffset (off : Int)
  | panicked
  | endless
deriving DecidableEq

def formatVersion : UInt64 := 1

def flagEncrypted : UInt64 := 2

def supportedFlags : UInt64 := flagEncrypted

def magic : Bytes := [72, 77, 70, 49]

def maxHeaderLen : Nat := 44

def maxInt64 : Nat := 9223372036854775807

structure Header where
  flags : UInt64
  chunkSize : Int
  plaintextSize : Int
  /-- The bytes that the header takes. -/
  len : Int
deriving DecidableEq

def appendHeader (flags : UInt64) (chunkSize plaintextSize : Int) : Bytes :=
  magic ++ (appendUvarint formatVersion ++ (appendUvarint flags ++
    (appendUvarint (uint64 chunkSize) ++ appendUvarint (uint64 plaintextSize))))

theorem length_appendHeader_le (flags : UInt64) (c n : Int) :
    (appendHeader flags c n).length ≤ 44 := by
  have h₁ := length_appendUvarint_le formatVersion
  have h₂ := length_appendUvarint_le flags
  have h₃ := length_appendUvarint_le (uint64 c)
  have h₄ := length_appendUvarint_le (uint64 n)
  have hmagic : magic.length = 4 := rfl
  simp only [appendHeader, List.length_append, hmagic]
  omega

variable {ε : Type}

/-- One number of the header, and what follows it. -/
def nextUvarint (bad : StreamError ε) (b : Bytes) : Except (StreamError ε) (Nat × Bytes) :=
  match uvarint b with
  | none => .error bad
  | some (v, n) => .ok (v, b.drop n)

def parseHeader (b : Bytes) : Except (StreamError ε) Header :=
  if b.take 4 ≠ magic then .error .badMagic
  else do
    let (version, rest) ← nextUvarint .badFormatVersion (b.drop 4)
    if version ≠ formatVersion.toNat then .error (.newerVersion version)
    else
      let (flags, rest) ← nextUvarint .badFlags rest
      if UInt64.ofNat flags &&& ~~~supportedFlags ≠ 0 then
        .error (.unsupportedFlags (UInt64.ofNat flags))
      else
        let (chunkSize, rest) ← nextUvarint .badChunkSize rest
        let (plaintextSize, rest) ← nextUvarint .badPlaintextSize rest
        if chunkSize > maxInt64 ∨ plaintextSize > maxInt64 then .error .implausibleSizes
        else if chunkSize = 0 ∧ plaintextSize > 0 then .error (.zeroChunkSize plaintextSize)
        else .ok ⟨UInt64.ofNat flags, chunkSize, plaintextSize, (b.length - rest.length : Nat)⟩

theorem nextUvarint_append (bad : StreamError ε) (x : UInt64) (rest : Bytes) :
    nextUvarint bad (appendUvarint x ++ rest) = .ok (x.toNat, rest) := by
  rw [nextUvarint, uvarint_appendUvarint]
  dsimp only
  rw [List.drop_left]

theorem parseHeader_append {flags : UInt64} (hflags : flags &&& ~~~supportedFlags = 0) {c n : Nat}
    (hc : 0 < c) (hcmax : c < 2 ^ 63) (hnmax : n < 2 ^ 63) (rest : Bytes) :
    parseHeader (appendHeader flags c n ++ rest) =
      (.ok ⟨flags, c, n, (appendHeader flags c n).length⟩ : Except (StreamError ε) _) := by
  have htake : ¬ (appendHeader flags c n ++ rest).take 4 ≠ magic := not_not.mpr rfl
  have hdrop : (appendHeader flags c n ++ rest).drop 4 = appendUvarint formatVersion ++
      (appendUvarint flags ++
        (appendUvarint (uint64 c) ++ (appendUvarint (uint64 n) ++ rest))) := by
    simp only [appendHeader, List.append_assoc]
    rfl
  have hcu : (uint64 c).toNat = c := toNat_uint64_natCast (by omega)
  have hnu : (uint64 n).toNat = n := toNat_uint64_natCast (by omega)
  have hsizes : ¬ (c > maxInt64 ∨ n > maxInt64) := by
    unfold maxInt64
    omega
  have hlen : (appendHeader flags c n ++ rest).length - rest.length =
      (appendHeader flags c n).length := by
    rw [List.length_append, Nat.add_sub_cancel]
  rw [parseHeader, if_neg htake, hdrop, nextUvarint_append, bind_ok]
  dsimp only
  rw [if_neg (not_not.mpr rfl), nextUvarint_append, bind_ok]
  dsimp only
  rw [UInt64.ofNat_toNat, if_neg (not_not.mpr hflags), nextUvarint_append, bind_ok]
  dsimp only
  rw [nextUvarint_append, bind_ok]
  dsimp only
  rw [hcu, hnu, if_neg hsizes, if_neg (by omega), hlen]

def chunkCount (size chunkSize : Int) : Int :=
  if size = 0 then 0 else (size - 1).tdiv chunkSize + 1

theorem chunkCount_natCast {c : Nat} (hc : 0 < c) (xs : Bytes) :
    chunkCount xs.length c = ((blocks c xs).length : Int) := by
  rw [chunkCount, length_blocks hc]
  rcases Nat.eq_zero_or_pos xs.length with hzero | hpos
  · rw [hzero, if_pos Int.natCast_zero, Nat.zero_add, Nat.div_eq_of_lt (by omega)]
    rfl
  · have hcast : ((xs.length : Int) - 1) = (xs.length - 1 : Nat) := by omega
    have hsplit : xs.length + c - 1 = xs.length - 1 + c := by omega
    rw [if_neg (by omega), hcast, hsplit, Nat.add_div_right _ hc,
      Int.tdiv_eq_ediv_of_nonneg (Int.natCast_nonneg _), ← Int.natCast_ediv]
    rfl

/-- `FrameSize`: the size of a frame, from its dimensions.  Sums wrap as `int64`
does. -/
def frameSize (plaintextSize chunkSize : Int) (encrypted : Bool) : Int :=
  let tag : Int := if encrypted then gcmTagLen else 0
  let flags := if encrypted then flagEncrypted else 0
  let header : Int := (appendHeader flags chunkSize plaintextSize).length
  let n := chunkCount plaintextSize chunkSize
  let lengths : Int :=
    if 0 < n then
      (n - 1) * (appendUvarint (uint64 (chunkSize + tag))).length +
        (appendUvarint (uint64 (plaintextSize - (n - 1) * chunkSize + tag))).length
    else 0
  wrap64 (header + plaintextSize + tag * n + lengths + 4 * n + 4)

/-! ## The frame of an object -/

section Frame

variable [Gcm]

def storedChunk (dek : Option Bytes) (i : Nat) (chunk : Bytes) : Bytes :=
  match dek with
  | none => chunk
  | some key => Gcm.aeadSeal key (chunkNonce i) chunk

/-- The chunks of an object as they are stored. -/
def storedChunks (dek : Option Bytes) (chunks : List Bytes) : List Bytes :=
  chunks.mapIdx (storedChunk dek)

def trailer (stored : List Bytes) : Bytes :=
  stored.flatMap (fun b => appendUvarint (uint64 b.length)) ++
    stored.flatMap (fun b => putUint32LE (checksum b))

def flagsOf (dek : Option Bytes) : UInt64 := if dek.isSome then flagEncrypted else 0

def tagLenOf (dek : Option Bytes) : Nat := if dek.isSome then gcmTagLen else 0

/-- The frame of the object `P` in chunks of `c` bytes. -/
def frame (dek : Option Bytes) (c : Nat) (P : Bytes) : Bytes :=
  let stored := storedChunks dek (blocks c P)
  appendHeader (flagsOf dek) c P.length ++ (stored.flatten ++
    (trailer stored ++ putUint32LE (UInt32.ofNat (trailer stored).length)))

theorem length_storedChunk [LawfulGcm] {dek : Option Bytes}
    (hdek : ∀ key ∈ dek, key.length = dekLen) (i : Nat) (chunk : Bytes) :
    (storedChunk dek i chunk).length = chunk.length + tagLenOf dek := by
  match dek, hdek with
  | none, _ => rfl
  | some key, hdek => exact LawfulGcm.length_aeadSeal chunk (hdek key rfl) (length_chunkNonce i)

theorem length_storedChunks (dek : Option Bytes) (chunks : List Bytes) :
    (storedChunks dek chunks).length = chunks.length := List.length_mapIdx

end Frame

end Hamster.Stream
