import Hamster.CodeLib.Hash
import Hamster.CodeLib.Uvarint
import Mathlib.Tactic.Common

/-!
# Frames of the write-ahead log

The framing of `internal/wal/wal.go`: the length of the record as a varint,
its CRC-32C, the record.  `parseFrame` reads one frame from the head of a
buffer and refuses a length above `math.MaxInt32`.

A log file is a sequence of frames with a torn tail at most.  `scanFrames_frames`
is what `Open` finds in one: all records, up to a tail that is no frame.  No
proper part of a frame parses (`parseFrame_of_isPrefix`), and the checksum is
not needed for that: the length alone tells that bytes are missing.
-/

namespace Hamster.Wal

open CodeLib

/-! ## Frames -/

def maxInt32 : Nat := 2 ^ 31 - 1

def frame (record : Bytes) : Bytes :=
  appendUvarint (UInt64.ofNat record.length) ++ (putUint32LE (checksum record) ++ record)

/-- Read one frame from the head of a buffer: the record and the length of
the frame. -/
def parseFrame (b : Bytes) : Option (Bytes × Nat) :=
  match uvarint b with
  | none => none
  | some (length, ln) =>
    if length > maxInt32 then none
    else
      let stop := ln + 4 + length
      if stop > b.length then none
      else
        let payload := (b.drop (ln + 4)).take length
        if checksum payload ≠ uint32LE (b.drop ln) then none else some (payload, stop)

def frames (records : List Bytes) : Bytes := records.flatMap frame

@[simp] theorem frames_nil : frames [] = [] := rfl

@[simp] theorem frames_cons (r : Bytes) (rs : List Bytes) :
    frames (r :: rs) = frame r ++ frames rs := rfl

@[simp] theorem frames_append (rs rs' : List Bytes) :
    frames (rs ++ rs') = frames rs ++ frames rs' := List.flatMap_append

variable {rs : List Bytes} {t : Bytes}

section Parse

variable {r : Bytes}

theorem toNat_ofNat_length (hr : r.length < 2 ^ 64) : (UInt64.ofNat r.length).toNat = r.length := by
  rw [UInt64.toNat_ofNat']
  omega

theorem length_frame :
    (frame r).length = (appendUvarint (UInt64.ofNat r.length)).length + 4 + r.length := by
  simp [frame]
  omega

theorem frame_ne_nil : frame r ≠ [] := by
  intro h
  have hlen := congrArg List.length h
  rw [length_frame, List.length_nil] at hlen
  omega

theorem frames_eq_nil_iff : frames rs = [] ↔ rs = [] := by
  cases rs with
  | nil => simp
  | cons r rs =>
    have hne : frame r ≠ [] := frame_ne_nil
    simp [hne]

theorem parseFrame_frame (hr : r.length < 2 ^ 31) (rest : Bytes) :
    parseFrame (frame r ++ rest) = some (r, (frame r).length) := by
  have hread : uvarint (frame r ++ rest) =
      some (r.length, (appendUvarint (UInt64.ofNat r.length)).length) := by
    rw [frame, List.append_assoc, uvarint_appendUvarint, toNat_ofNat_length (by omega)]
  have hsum : (frame r ++ rest).drop (appendUvarint (UInt64.ofNat r.length)).length =
      putUint32LE (checksum r) ++ (r ++ rest) := by
    rw [frame, List.append_assoc, List.drop_left, List.append_assoc]
  have hpayload : ((frame r ++ rest).drop
      ((appendUvarint (UInt64.ofNat r.length)).length + 4)).take r.length = r := by
    rw [← List.drop_drop, hsum]
    have hfour : (putUint32LE (checksum r) ++ (r ++ rest)).drop 4 = r ++ rest :=
      List.drop_left' (length_putUint32LE _)
    rw [hfour, List.take_left]
  have hmax : ¬ r.length > maxInt32 := by
    unfold maxInt32
    omega
  have hstop : ¬ (appendUvarint (UInt64.ofNat r.length)).length + 4 + r.length >
      (frame r ++ rest).length := by
    rw [List.length_append, length_frame]
    omega
  rw [parseFrame, hread]
  simp only [hmax, hstop, if_false, hpayload, hsum, uint32LE_putUint32LE, ne_eq,
    not_true_eq_false, length_frame]

theorem parseFrame_frame_of_long (hlong : 2 ^ 31 ≤ r.length) (hr : r.length < 2 ^ 64)
    (rest : Bytes) : parseFrame (frame r ++ rest) = none := by
  have hread : uvarint (frame r ++ rest) =
      some (r.length, (appendUvarint (UInt64.ofNat r.length)).length) := by
    rw [frame, List.append_assoc, uvarint_appendUvarint, toNat_ofNat_length hr]
  have hmax : r.length > maxInt32 := by
    unfold maxInt32
    omega
  rw [parseFrame, hread]
  simp only [hmax, if_true]

theorem parseFrame_of_isPrefix (hr : r.length < 2 ^ 64) (ht : t <+: frame r) (hne : t ≠ frame r) :
    parseFrame t = none := by
  have hhead : appendUvarint (UInt64.ofNat r.length) <+: frame r := List.prefix_append _ _
  -- the part ends after the length, or inside it
  by_cases hlong : appendUvarint (UInt64.ofNat r.length) <+: t
  · obtain ⟨t', rfl⟩ := hlong
    have hread := uvarint_appendUvarint (UInt64.ofNat r.length) t'
    rw [toNat_ofNat_length hr] at hread
    have hlt : (appendUvarint (UInt64.ofNat r.length) ++ t').length < (frame r).length :=
      lt_of_le_of_ne ht.length_le (fun h => hne (ht.eq_of_length h))
    rw [length_frame] at hlt
    simp only [parseFrame, hread, gt_iff_lt, hlt, if_true, ite_self]
  · have hshort := (List.prefix_or_prefix_of_prefix ht hhead).resolve_right hlong
    have hpart : t ≠ appendUvarint (UInt64.ofNat r.length) := by
      rintro rfl
      exact hlong (List.prefix_refl _)
    rw [parseFrame, uvarint_eq_none_of_isPrefix hshort hpart]

@[simp] theorem parseFrame_nil : parseFrame [] = none := rfl

end Parse

/-! ## A whole file -/

/-- The loop of `Open`: the length of the intact frames and their records.
Every frame takes a byte at least, so the length of the data is fuel
enough. -/
def scanFrames (data : Bytes) : Nat → Nat → List Bytes → Nat × List Bytes
  | 0, good, records => (good, records)
  | fuel + 1, good, records =>
    if good < data.length then
      match parseFrame (data.drop good) with
      | none => (good, records)
      | some (payload, n) => scanFrames data fuel (good + n) (records ++ [payload])
    else (good, records)

theorem scanFrames_from (hrs : ∀ r ∈ rs, r.length < 2 ^ 31) (ht : parseFrame t = none)
    {done : Bytes} {fuel : Nat} (hfuel : (frames rs).length ≤ fuel) (records : List Bytes)
    : scanFrames (done ++ (frames rs ++ t)) fuel done.length records =
      (done.length + (frames rs).length, records ++ rs) := by
  induction rs generalizing done fuel records with
  | nil =>
    have hdrop : (done ++ (frames [] ++ t)).drop done.length = t := by
      rw [List.drop_left]
      rfl
    cases fuel with
    | zero => simp [scanFrames]
    | succ fuel =>
      rw [scanFrames, hdrop, ht]
      split <;> simp
  | cons r rs ih =>
    have hr := hrs r List.mem_cons_self
    have hpos : 0 < (frame r).length := List.length_pos_iff.mpr frame_ne_nil
    rw [frames_cons, List.length_append] at hfuel
    cases fuel with
    | zero => omega
    | succ fuel =>
      have hmore : done.length < (done ++ (frames (r :: rs) ++ t)).length := by
        rw [frames_cons]
        simp only [List.length_append]
        omega
      have hdrop : (done ++ (frames (r :: rs) ++ t)).drop done.length =
          frame r ++ (frames rs ++ t) := by
        rw [List.drop_left, frames_cons, List.append_assoc]
      have hassoc : done ++ (frames (r :: rs) ++ t) = (done ++ frame r) ++ (frames rs ++ t) := by
        rw [frames_cons]
        simp only [List.append_assoc]
      rw [scanFrames, if_pos hmore, hdrop, parseFrame_frame hr]
      dsimp only
      rw [hassoc, ← List.length_append,
        ih (fun r' hr' => hrs r' (List.mem_cons_of_mem r hr')) (by omega)]
      simp only [List.length_append, frames_cons, List.append_assoc, List.singleton_append,
        Nat.add_assoc]

theorem scanFrames_frames (hrs : ∀ r ∈ rs, r.length < 2 ^ 31) (ht : parseFrame t = none) :
    scanFrames (frames rs ++ t) (frames rs ++ t).length 0 [] = ((frames rs).length, rs) := by
  have hfuel : (frames rs).length ≤ (frames rs ++ t).length := by
    rw [List.length_append]
    omega
  have h : scanFrames ([] ++ (frames rs ++ t)) _ 0 [] = _ := scanFrames_from hrs ht hfuel []
  simpa using h

end Hamster.Wal
