import Hamster.Ec.Reader
import Hamster.Stream.Reader

/-!
# The data path of an object

A PUT writes the object through `stream.Writer` into `ec.Writer`; a GET reads
it through `stream.Reader` over `ec.Reader`.  This module puts the two together.

`reads_written` is the result: when both writers closed, any `k` of the shards
give every window of the object back, in any order of reads.
-/

namespace Hamster.Coord

open CodeLib Meta

instance : Stream.Sink Ec.Writer Ec.WriteError := ⟨Ec.Writer.write⟩

section Path

variable [Protowire] [ReedSolomon] [Stream.Gcm]

/-- Write an object in `pieces` and close both writers: the shards, or nothing
if a step failed. -/
def writeObject (sliceSize : Nat) (id : VersionID) (k m frameSize plaintextSize chunkSize : Int)
    (dek : Option Bytes) (pieces : List Bytes) : Option (List Bytes) := do
  let shards ← (Ec.newWriter sliceSize id k m frameSize (k + m).toNat).toOption
  let w ← (Stream.newWriter shards plaintextSize chunkSize dek).toOption
  let w ← (pieces.foldlM Stream.Writer.write w).toOption
  let w ← w.close.toOption
  let shards ← w.w.close.toOption
  return shards.shards

/-- The shards that `present` selects.  The others are absent. -/
def keep (present : Nat → Bool) (shards : List Bytes) : List (Option BytesReader) :=
  shards.mapIdx (fun i b => if present i then some ⟨b⟩ else none)

def openObject (shards : List (Option BytesReader)) (dek : Option Bytes) :
    Option (Stream.Reader (Ec.Reader BytesReader)) := do
  let r ← (Ec.newReader shards).toOption
  (Stream.newReader r r.frameSize dek).toOption

/-- One read after the other, of a length at an offset. -/
def readAll (fr : Stream.Reader (Ec.Reader BytesReader)) :
    List (Nat × Nat) → List (ReadResult (Stream.StreamError (Ec.EcError BytesReaderError)))
  | [] => []
  | (n, off) :: reads =>
    let (res, fr') := fr.readAt n off
    res :: readAll fr' reads

end Path

theorem toOption_eq_some_iff {ε α : Type} {x : Except ε α} {a : α} :
    x.toOption = some a ↔ x = .ok a := by
  cases x with
  | error e | ok b => simp [Except.toOption]

theorem countP_keep (present : Nat → Bool) (shards : List Bytes) :
    (keep present shards).countP Option.isSome = (List.range shards.length).countP present := by
  have hkeep : keep present shards =
      (List.range shards.length).map (fun i => if present i then shards[i]?.map .mk else none) := by
    refine List.ext_getElem (by simp [keep]) (fun i hi _ => ?_)
    have hlt : i < shards.length := by simpa [keep] using hi
    simp [keep, List.getElem?_eq_getElem hlt]
  rw [hkeep, List.countP_map]
  refine List.countP_congr (fun i hi => ?_)
  simp only [Function.comp_apply, List.getElem?_eq_getElem (List.mem_range.mp hi), Option.map_some]
  cases present i with
  | false | true => simp

theorem getElem?_keep {present : Nat → Bool} {shards : List Bytes} {j : Nat} {r : BytesReader}
    (hr : (keep present shards)[j]? = some (some r)) : shards[j]? = some r.content := by
  rw [keep, List.getElem?_mapIdx] at hr
  obtain ⟨b, hb, hsome⟩ := Option.map_eq_some_iff.mp hr
  split at hsome
  · rw [hb, ← Option.some.inj hsome]
  · cases hsome

theorem shardSet_keep [Protowire] {rs : Option Encoder} {id : VersionID} {k m s : Nat}
    {frame : Bytes} {shards : List Bytes}
    (hshards : shards = (List.range (k + m)).map (Ec.shardFile rs id k m s frame))
    (hfiles : ∀ b ∈ shards, b.length < 2 ^ 63) {present : Nat → Bool}
    (hpresent : k ≤ (List.range (k + m)).countP present) :
    Ec.ShardSet (keep present shards) rs id k m s frame := by
  have hlen : shards.length = k + m := by rw [hshards, List.length_map, List.length_range]
  have hfile : ∀ (j : Nat) (r : BytesReader), (keep present shards)[j]? = some (some r) →
      r = ⟨Ec.shardFile rs id k m s frame j⟩ ∧ r.content ∈ shards := by
    intro j r hr
    have hget := getElem?_keep hr
    refine ⟨?_, List.mem_of_getElem? hget⟩
    obtain ⟨hlt, hval⟩ := List.getElem?_eq_some_iff.mp hget
    simp only [hshards, List.getElem_map, List.getElem_range] at hval
    rw [hval]
  exact {
    length_eq := by rw [keep, List.length_mapIdx, hlen]
    holds := fun j r hr => by
      rw [(hfile j r hr).1]
      exact bytesReader_holds _
    file_lt := fun j r hr => by
      obtain ⟨heq, hmem⟩ := hfile j r hr
      have h := hfiles _ hmem
      rwa [heq] at h
    enough := by rw [countP_keep, hlen]; exact hpresent }

/-- A reader that serves an object gives every window of it, one read after the
other. -/
theorem readAll_eq [Stream.Gcm] {I : Stream.Reader (Ec.Reader BytesReader) → Prop} {P : Bytes}
    (hserves : Serves I P) {fr : Stream.Reader (Ec.Reader BytesReader)} (hfr : I fr)
    (reads : List (Nat × Nat)) :
    readAll fr reads = reads.map (fun read => window P read.1 read.2) := by
  induction reads generalizing fr with
  | nil => rfl
  | cons read reads ih =>
    obtain ⟨n, off⟩ := read
    obtain ⟨fr', hread, hfr'⟩ := hserves fr hfr n off
    have hread' : fr.readAt n off = (window P n off, fr') := hread
    rw [readAll, hread']
    exact congrArg (window P n off :: ·) (ih hfr')

section Correct

variable [Protowire] [ReedSolomon] [Stream.Gcm] {k m s c n frameSize : Nat} {id : VersionID}
    {dek : Option Bytes}
  {pieces shards : List Bytes}

theorem writeObject_eq_some (hlaw : 0 < m → Reconstructs k m) (hk : k < 2 ^ 63) (hm : m < 2 ^ 63)
    (hs : 0 < s) (hslice : s < 2 ^ 55) (hc : c < 2 ^ 63) (hn : n < 2 ^ 63)
    (hframe : frameSize < 2 ^ 63)
    (hwrite : writeObject s id k m frameSize n c dek pieces = some shards) :
    Stream.Written dek c pieces.flatten ∧
      Ec.Sizes k m s (Stream.frame dek c pieces.flatten) ∧
      shards = (List.range (k + m)).map
        (Ec.shardFile (Ec.codec k m) id k m s (Stream.frame dek c pieces.flatten)) := by
  simp only [writeObject, Option.bind_eq_bind, Option.bind_eq_some_iff, toOption_eq_some_iff,
    Option.pure_def, Option.some.injEq] at hwrite
  obtain ⟨ecw, hecNew, sw, hswNew, sw₁, hswWrites, sw₂, hswClose, ecw', hecClose, rfl⟩ := hwrite
  obtain ⟨hcpos, hkey, hlen, htrailer, sent, hsent, hflat⟩ :=
    Stream.writes_close_eq hswNew hswWrites hswClose
  have hparams := (Ec.newWriter_eq_ok hlaw hk hm hecNew).1
  have hle := hparams.le
  have hstripe : k * s < 2 ^ 63 :=
    Nat.lt_of_le_of_lt (Nat.mul_le_mul_right s (by omega : k ≤ 256)) (by omega)
  obtain ⟨-, hframePos, hframeLen, hshards⟩ :=
    Ec.writes_close_eq hlaw hk hm hs hstripe hecNew hsent hecClose
  rw [hflat] at hframeLen hshards
  exact ⟨⟨hcpos, hc, hlen ▸ hn, hkey, htrailer, hframeLen ▸ hframe⟩,
    ⟨hparams, hs, hstripe, hframeLen ▸ hframePos, hframeLen ▸ hframe⟩, hshards⟩

/-- Any `k` shards of an object whose writers closed give every window of it
back.  The sizes are those that an `int` can have. -/
theorem reads_written [LawfulProtowire] [BoundedProtowire] [Stream.LawfulGcm]
    (hlaw : 0 < m → Reconstructs k m) (hk : k < 2 ^ 63) (hm : m < 2 ^ 63)
    (hs : 0 < s) (hslice : s < 2 ^ 55) (hc : c < 2 ^ 63) (hn : n < 2 ^ 63)
    (hframe : frameSize < 2 ^ 63)
    (hwrite : writeObject s id k m frameSize n c dek pieces = some shards)
    (hfiles : ∀ b ∈ shards, b.length < 2 ^ 63) (present : Nat → Bool)
    (hpresent : k ≤ (List.range (k + m)).countP present) :
    ∃ fr, openObject (keep present shards) dek = some fr ∧
      ∀ reads : List (Nat × Nat), readAll fr reads =
        reads.map (fun read => window pieces.flatten read.1 read.2) := by
  obtain ⟨hwritten, hsizes, hshards⟩ :=
    writeObject_eq_some hlaw hk hm hs hslice hc hn hframe hwrite
  have hcode := Ec.codes_codec hsizes.params hlaw
  have hset := shardSet_keep hshards hfiles hpresent
  obtain ⟨r, hopen, hreading⟩ := Ec.newReader_eq hlaw hsizes hset
  have hserves : Serves (fun r : Ec.Reader BytesReader => Ec.Reading r (Ec.codec k m) id k m s
      (Stream.frame dek c pieces.flatten)) (Stream.frame dek c pieces.flatten) :=
    Ec.serves_frame hsizes hcode
  obtain ⟨fr, hnew, hframed⟩ := Stream.newReader_eq hwritten hserves hreading
  refine ⟨fr, ?_, readAll_eq (Stream.serves_object hwritten hserves) hframed⟩
  have hsize : r.frameSize = (Stream.frame dek c pieces.flatten).length := by
    rw [Ec.Reader.frameSize, hreading.geo]
    rfl
  simp only [openObject, hopen, Option.bind_eq_bind, Except.toOption, Option.bind_some, hsize, hnew]

end Correct

section Concrete

local instance : Protowire := wireFormat

local instance : LawfulProtowire := wireFormat_lawful

local instance : BoundedProtowire := wireFormat_bounded

/-- The library for one data shard. -/
local instance : ReedSolomon := ⟨fun k m => if k = 1 then some (replication m) else none⟩

/-- A stand-in for AES-GCM: the objects below have no key, and nothing is
sealed. -/
local instance : Stream.Gcm where
  aeadSeal _ _ p := p ++ List.replicate 16 0
  aeadOpen _ _ b := some (b.take (b.length - 16))

local instance : Stream.LawfulGcm where
  length_aeadSeal p _ _ := by simp [Stream.Gcm.aeadSeal, Stream.gcmTagLen]
  aeadOpen_aeadSeal p _ _ := by simp [Stream.Gcm.aeadOpen, Stream.Gcm.aeadSeal]

/-- Five bytes in two writes, in chunks of two, with one copy. -/
def smallObject : Option (List Bytes) :=
  writeObject Ec.defaultSliceSize (VersionID.ofByte 1) 1 1 32 5 2 none [[1, 2, 3], [4, 5]]

/-- The copy alone gives the object back. -/
theorem reads_copy : ∃ shards, smallObject = some shards ∧
    ∃ fr, openObject (keep (· = 1) shards) none = some fr ∧
      ∀ reads : List (Nat × Nat), readAll fr reads =
        reads.map (fun read => window [1, 2, 3, 4, 5] read.1 read.2) := by
  obtain ⟨shards, hshards, hfiles⟩ : ∃ shards, smallObject = some shards ∧
      ∀ b ∈ shards, b.length < 2 ^ 63 := by
    refine ⟨smallObject.getD [], by decide +kernel, by decide +kernel⟩
  exact ⟨shards, hshards,
    reads_written (k := 1) (m := 1) (s := Ec.defaultSliceSize) (c := 2) (n := 5)
    (fun _ => ⟨replication 1, rfl, replication_lawful 1⟩) (by decide) (by decide) (by decide)
    (by decide) (by decide) (by decide) (by decide) hshards hfiles (· = 1) (by decide)⟩

end Concrete

end Hamster.Coord
