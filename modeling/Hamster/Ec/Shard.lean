import Hamster.CodeLib.ReaderAt
import Hamster.CodeLib.Wire
import Hamster.Meta.VersionID

/-!
# Shard files

The front of a shard file and the stripe arithmetic of `internal/ec/shard.go`.
A shard file is a magic, the length of the header, the header as a message, and
the payload: one slice of every stripe.

`decodeShard_of_holds` reads back what `encodeShard` wrote.  The arithmetic is
on `int64` and wraps, because a header may come from a damaged file; for the
geometry of a written object `Geometry.ofNat` and its lemmas give the numbers.
-/

namespace Hamster.Ec

open CodeLib Meta

inductive ParamsError where
  | invalid (k m : Int)
  | stripingWithoutParity (k : Int)
deriving DecidableEq

/-- The errors of the readers of the package.  `ε` are the errors of a reader
of one shard.  `panicked` and `endless` are no errors of the source: a run-time
panic, and a loop that never ends. -/
inductive EcError (ε : Type) where
  | reading (cause : Option ε)
  | badMagic
  | implausibleHeader (length : Nat)
  | badTag
  | badDataID
  | badField (num : Nat)
  | noFormatVersion
  | params (e : ParamsError)
  | badHeader (index k m sliceSize frameSize : Int)
  | shard (i : Nat) (e : EcError ε)
  | misplaced (i : Nat) (index : Int)
  | shardSlots (n : Nat) (k m : Int)
  | mixedShardSets (i : Nat)
  | noShards
  | tooFewShards (present : Nat) (k m : Int)
  | noDecoder (k m : Int)
  | negativeOffset (off : Int)
  | reconstructing (si : Int)
  | panicked
  | endless
deriving DecidableEq

variable {ε ρ : Type}

def readFull [ReaderAt ρ ε] (r : ρ) (n : Nat) (off : Int) : Except (EcError ε) Bytes :=
  match (ReaderAt.readAt r n off).full n with
  | .error cause => .error (.reading cause)
  | .ok b => .ok b

theorem readFull_of_holds [ReaderAt ρ ε] {r : ρ} {xs : Bytes} (hr : Holds r xs) {n off : Nat}
    (h : off + n ≤ xs.length) : readFull r n off = .ok ((xs.drop off).take n) := by
  rw [readFull, hr n off h]

def shardMagic : Bytes := [72, 77, 83, 49]

def shardFormatVersion : UInt64 := 1

/-- `1 << 20`, the longest header that is plausible. -/
def maxHeader : Nat := 1048576

structure ShardHeader where
  id : VersionID := VersionID.zero
  index : Int := 0
  k : Int := 0
  m : Int := 0
  sliceSize : Int := 0
  frameSize : Int := 0
deriving DecidableEq

def validateParams (k m : Int) : Except ParamsError Unit :=
  if k < 1 ∨ m < 0 ∨ wrap64 (k + m) > 256 then .error (.invalid k m)
  else if m = 0 ∧ k ≠ 1 then .error (.stripingWithoutParity k)
  else .ok ()

structure ValidParams (k m : Nat) : Prop where
  k_pos : 0 < k
  le : k + m ≤ 256
  striping : m = 0 → k = 1

theorem validateParams_eq_ok_iff {k m : Nat} (hrange : k + m < 2 ^ 63) :
    validateParams k m = .ok () ↔ ValidParams k m := by
  have hwrap : wrap64 ((k : Int) + m) = (k + m : Nat) := by
    rw [← Int.natCast_add, wrap64_natCast hrange]
  rw [validateParams, hwrap]
  constructor
  · intro h
    split at h
    · cases h
    · split at h
      · cases h
      · exact ⟨by omega, by omega, by omega⟩
  · rintro ⟨hpos, hle, hstriping⟩
    rw [if_neg (by omega), if_neg (by omega)]

section Header

variable [Protowire]

/-- The complete front of a file: magic, length, header. -/
def encodeShard (h : ShardHeader) : Bytes :=
  let p := appendVarint (appendTag [] 1 varintType) shardFormatVersion
  let p := appendBytes (appendTag p 2 bytesType) h.id.bytes
  let p := appendVarint (appendTag p 3 varintType) (uint64 h.index)
  let p := appendVarint (appendTag p 4 varintType) (uint64 h.k)
  let p := appendVarint (appendTag p 5 varintType) (uint64 h.m)
  let p := appendVarint (appendTag p 6 varintType) (uint64 h.sliceSize)
  let p := appendVarint (appendTag p 7 varintType) (uint64 h.frameSize)
  shardMagic ++ putUint32LE (UInt32.ofNat p.length) ++ p

/-- The switch on the number of a varint field, with the version read so far. -/
def setVarint (acc : UInt64 × ShardHeader) (num : Nat) (v : UInt64) : UInt64 × ShardHeader :=
  match num with
  | 1 => (v, acc.2)
  | 3 => (acc.1, { acc.2 with index := int64 v })
  | 4 => (acc.1, { acc.2 with k := int64 v })
  | 5 => (acc.1, { acc.2 with m := int64 v })
  | 6 => (acc.1, { acc.2 with sliceSize := int64 v })
  | 7 => (acc.1, { acc.2 with frameSize := int64 v })
  | _ => acc

def setDataID (acc : UInt64 × ShardHeader) (b : Bytes) :
    Except (EcError ε) (UInt64 × ShardHeader) :=
  if hlen : b.length = 16 then .ok (acc.1, { acc.2 with id := ⟨b, hlen⟩ }) else .error .badDataID

def decodeShardField (acc : UInt64 × ShardHeader) (num typ : Nat) (p : Bytes) :
    Except (EcError ε) ((UInt64 × ShardHeader) × Nat) :=
  if num = 2 ∧ typ = bytesType then
    match consumeBytes p with
    | none => .error .badDataID
    | some (b, n) => (setDataID acc b).map (·, n)
  else if typ = varintType then
    match consumeVarint p with
    | none => .error (.badField num)
    | some (v, n) => .ok (setVarint acc num v, n)
  else
    match consumeFieldValue num typ p with
    | none => .error (.badField num)
    | some n => .ok (acc, n)

def checkHeader (version : UInt64) (h : ShardHeader) : Except (EcError ε) Unit :=
  if version = 0 then .error .noFormatVersion
  else
    match validateParams h.k h.m with
    | .error e => .error (.params e)
    | .ok () =>
      if h.index < 0 ∨ h.index ≥ wrap64 (h.k + h.m) ∨ h.sliceSize ≤ 0 ∨ h.frameSize ≤ 0 then
        .error (.badHeader h.index h.k h.m h.sliceSize h.frameSize)
      else .ok ()

/-- The header of a shard file and the offset of its payload. -/
def decodeShard [ReaderAt ρ ε] (r : ρ) : Except (EcError ε) (ShardHeader × Int) := do
  let front ← readFull r 8 0
  if front.take 4 ≠ shardMagic then .error .badMagic
  else
    let hdrLen := (uint32LE (front.drop 4)).toNat
    if hdrLen > maxHeader then .error (.implausibleHeader hdrLen)
    else
      let p ← readFull r hdrLen 8
      let (version, h) ← readMessage .badTag decodeShardField (0, {}) p
      checkHeader version h
      .ok (h, 8 + hdrLen)

def shardFields (h : ShardHeader) : List Field :=
  [⟨1, .varint shardFormatVersion⟩, ⟨2, .bytes h.id.bytes⟩, ⟨3, .varint (uint64 h.index)⟩,
    ⟨4, .varint (uint64 h.k)⟩, ⟨5, .varint (uint64 h.m)⟩, ⟨6, .varint (uint64 h.sliceSize)⟩,
    ⟨7, .varint (uint64 h.frameSize)⟩]

section RoundTrip

variable [LawfulProtowire]

theorem encodeShard_eq (h : ShardHeader) :
    encodeShard h = shardMagic ++
      (putUint32LE (UInt32.ofNat (encodeFields (shardFields h)).length) ++
      encodeFields (shardFields h)) := by
  have hfields : appendVarint (appendTag (appendVarint (appendTag (appendVarint (appendTag
      (appendVarint (appendTag (appendVarint (appendTag (appendBytes (appendTag
      (appendVarint (appendTag [] 1 varintType) shardFormatVersion) 2 bytesType) h.id.bytes)
      3 varintType) (uint64 h.index)) 4 varintType) (uint64 h.k)) 5 varintType) (uint64 h.m))
      6 varintType) (uint64 h.sliceSize)) 7 varintType) (uint64 h.frameSize) =
      encodeFields (shardFields h) := by
    simp only [appendVarint_appendTag, appendBytes_appendTag, List.nil_append,
      ← encodeFields_append]
    rfl
  rw [encodeShard]
  simp only [hfields, List.append_assoc]

/-- What one field of a header does to the header read so far. -/
def updHeader (acc : UInt64 × ShardHeader) (f : Field) :
    Except (EcError ε) (UInt64 × ShardHeader) :=
  match f.value with
  | .varint v => .ok (setVarint acc f.num v)
  | .bytes b => setDataID acc b

theorem decodeShardField_payload {h : ShardHeader} (acc : UInt64 × ShardHeader) {f : Field}
    (hf : f ∈ shardFields h) (rest : Bytes) :
    decodeShardField acc f.num f.type (f.payload ++ rest) =
      (updHeader acc f : Except (EcError ε) _).map (·, f.payload.length) := by
  obtain ⟨num, v | b⟩ := f
  · have htype : Field.type ⟨num, .varint v⟩ = varintType := rfl
    rw [htype, decodeShardField, if_neg (by simp [varintType, bytesType]), if_pos rfl,
      consumeVarint_payload]
    rfl
  · obtain ⟨rfl, rfl⟩ : num = 2 ∧ b = h.id.bytes := by simpa [shardFields] using hf
    have hlen : h.id.bytes.length < 2 ^ 63 := by
      rw [h.id.length_eq]
      decide
    have htype : Field.type ⟨2, .bytes h.id.bytes⟩ = bytesType := rfl
    rw [htype, decodeShardField, if_pos ⟨rfl, rfl⟩, consumeBytes_payload 2 hlen]
    rfl

omit [Protowire] [LawfulProtowire] in
theorem numbered_shardFields (h : ShardHeader) : ∀ f ∈ shardFields h, f.Numbered := by
  intro f hf
  simp only [shardFields, List.mem_cons, List.not_mem_nil, or_false] at hf
  rcases hf with rfl | rfl | rfl | rfl | rfl | rfl | rfl <;>
    exact Field.numbered_mk (by decide) _

structure ShardHeader.InRange (h : ShardHeader) : Prop where
  index : int64 (uint64 h.index) = h.index
  k : int64 (uint64 h.k) = h.k
  m : int64 (uint64 h.m) = h.m
  sliceSize : int64 (uint64 h.sliceSize) = h.sliceSize
  frameSize : int64 (uint64 h.frameSize) = h.frameSize

omit [Protowire] [LawfulProtowire] in
theorem foldlM_updHeader {h : ShardHeader} (hrange : h.InRange) :
    (shardFields h).foldlM updHeader (0, {}) = (.ok (1, h) : Except (EcError ε) _) := by
  have hid : ∀ acc : UInt64 × ShardHeader, setDataID acc h.id.bytes =
      (.ok (acc.1, { acc.2 with id := h.id }) : Except (EcError ε) _) := fun acc =>
    dif_pos h.id.length_eq
  simp only [shardFields, List.foldlM_cons, List.foldlM_nil, updHeader, hid, setVarint,
    hrange.index,
    hrange.k, hrange.m, hrange.sliceSize, hrange.frameSize]
  rfl

omit [LawfulProtowire] in
theorem length_shardFields_le [BoundedProtowire] (h : ShardHeader) :
    (encodeFields (shardFields h)).length ≤ 156 := by
  refine (length_encodeFields_le _).trans (Nat.le_of_eq ?_)
  simp [shardFields, FieldValue.size, h.id.length_eq]

theorem decodeShard_of_holds [BoundedProtowire] [ReaderAt ρ ε] {r : ρ} {h : ShardHeader}
    (hrange : h.InRange) (hcheck : checkHeader 1 h = (.ok () : Except (EcError ε) _))
    {payload : Bytes} (hr : Holds r (encodeShard h ++ payload)) :
    decodeShard r = .ok (h, ((encodeShard h).length : Int)) := by
  have hsmall := length_shardFields_le h
  have heq := encodeShard_eq h
  generalize hp : encodeFields (shardFields h) = p at hsmall heq
  have hword : (UInt32.ofNat p.length).toNat = p.length := by
    rw [UInt32.toNat_ofNat']
    omega
  have hlen : (encodeShard h).length = 8 + p.length := by
    rw [heq]
    simp [shardMagic]
    omega
  have hall : encodeShard h ++ payload =
      (shardMagic ++ putUint32LE (UInt32.ofNat p.length)) ++ (p ++ payload) := by
    rw [heq, List.append_assoc, List.append_assoc, List.append_assoc]
  have hfront : readFull r 8 0 = .ok (shardMagic ++ putUint32LE (UInt32.ofNat p.length)) := by
    have hlen : 0 + 8 ≤ (encodeShard h ++ payload).length := by
      simp
      omega
    have h8 := readFull_of_holds hr hlen
    rw [hall, List.drop_zero, List.take_left' (by simp [shardMagic])] at h8
    exact h8
  have hbody : readFull r p.length 8 = .ok p := by
    have hlen : 8 + p.length ≤ (encodeShard h ++ payload).length := by
      simp
      omega
    have h8 := readFull_of_holds hr hlen
    rw [hall, List.drop_left' (by simp [shardMagic]), List.take_left] at h8
    exact h8
  have hword' : (uint32LE ((shardMagic ++ putUint32LE (UInt32.ofNat p.length)).drop 4)).toNat =
      p.length := by
    rw [List.drop_left' (by simp [shardMagic]), ← List.append_nil (putUint32LE _),
      uint32LE_putUint32LE, hword]
  have hmessage : readMessage .badTag decodeShardField (0, {}) p =
      (.ok (1, h) : Except (EcError ε) _) := by
    rw [← hp, readMessage_encodeFields (numbered_shardFields h)
      (fun acc f hf rest => decodeShardField_payload acc hf rest), foldlM_updHeader hrange]
  have htake : ¬ (shardMagic ++ putUint32LE (UInt32.ofNat p.length)).take 4 ≠ shardMagic := by
    rw [List.take_left' (by simp [shardMagic])]
    exact fun hne => hne rfl
  have hplausible : ¬ p.length > maxHeader := Nat.not_lt.mpr (hsmall.trans (by decide))
  rw [decodeShard, hfront, bind_ok, if_neg htake]
  dsimp only
  rw [hword', if_neg hplausible, hbody, bind_ok, hmessage, bind_ok]
  dsimp only
  rw [hcheck, bind_ok, hlen, Int.natCast_add]
  rfl

end RoundTrip

end Header

/-! ## Stripes -/

/-- How a frame of `frameSize` bytes lies in stripes of `k` slices.  A division
by a product that wrapped to zero is a panic of the caller. -/
structure Geometry where
  k : Int
  m : Int
  sliceSize : Int
  frameSize : Int
deriving DecidableEq

namespace Geometry

def stripeBytes (g : Geometry) : Int := wrap64 (g.k * g.sliceSize)

def fullStripes (g : Geometry) : Int := g.frameSize.tdiv g.stripeBytes

/-- The length of the slices of the last, short stripe, or `0`. -/
def lastLen (g : Geometry) : Int :=
  let rem := g.frameSize.tmod g.stripeBytes
  if rem = 0 then 0 else (rem - 1).tdiv g.k + 1

/-- The length of a slice of stripe `si`, and its offset in the payload. -/
def stripeSlice (g : Geometry) (si : Int) : Int × Int :=
  if si < g.fullStripes then (g.sliceSize, wrap64 (si * g.sliceSize))
  else (g.lastLen, wrap64 (g.fullStripes * g.sliceSize))

/-- How many bytes of the frame stripe `si` holds. -/
def stripeData (g : Geometry) (si : Int) : Int :=
  if si < g.fullStripes then g.stripeBytes
  else wrap64 (g.frameSize - wrap64 (wrap64 (g.fullStripes * g.k) * g.sliceSize))

def ofNat (k m s n : Nat) : Geometry := ⟨k, m, s, n⟩

section OfNat

variable {k m s n : Nat} (hstripe : k * s < 2 ^ 63)

include hstripe

theorem stripeBytes_ofNat : (ofNat k m s n).stripeBytes = (k * s : Nat) := by
  show wrap64 ((k : Int) * s) = _
  rw [← Int.natCast_mul, wrap64_natCast hstripe]

theorem fullStripes_ofNat : (ofNat k m s n).fullStripes = (n / (k * s) : Nat) := by
  rw [fullStripes, stripeBytes_ofNat hstripe, Int.natCast_div]
  exact Int.tdiv_eq_ediv_of_nonneg (Int.natCast_nonneg n)

theorem lastLen_ofNat (hk : 0 < k) :
    (ofNat k m s n).lastLen = ((n % (k * s) + k - 1) / k : Nat) := by
  have hrem : (ofNat k m s n).frameSize.tmod (ofNat k m s n).stripeBytes = (n % (k * s) : Nat) := by
    rw [stripeBytes_ofNat hstripe, Int.natCast_emod]
    exact Int.tmod_eq_emod_of_nonneg (Int.natCast_nonneg n)
  rw [lastLen, hrem]
  generalize n % (k * s) = r
  rcases Nat.eq_zero_or_pos r with rfl | hr
  · rw [if_pos Int.natCast_zero, Nat.zero_add, Nat.div_eq_of_lt (by omega)]
    rfl
  · have hcast : ((r : Int) - 1) = (r - 1 : Nat) := by omega
    have hsplit : r + k - 1 = r - 1 + k := by omega
    rw [if_neg (by omega), hcast, hsplit, Nat.add_div_right _ hk]
    show (((r - 1 : Nat) : Int).tdiv (k : Int)) + 1 = _
    rw [Int.tdiv_eq_ediv_of_nonneg (Int.natCast_nonneg _), ← Int.natCast_ediv]
    rfl

end OfNat

end Geometry

end Hamster.Ec
