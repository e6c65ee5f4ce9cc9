import Hamster.CodeLib.Lists
import Hamster.CodeLib.Wire
import Hamster.Raftnode.Raft

/-!
# Records of the raft log

`record`, `encodeRecord` and `decodeRecord` of `internal/raftnode/record.go`:
one record of the write-ahead log for each Ready, as a message that wraps the
library's own messages.

The record that comes back is the one that went in, up to a snapshot that the
library calls empty (`decodeRecord_encodeRecord`).
-/

namespace Hamster.Raftnode

open CodeLib

structure Record where
  hs : HardState := {}
  entries : List Entry := []
  snap : Snapshot := {}
deriving DecidableEq

/-- The errors of `decodeRecord`: the bytes are no message, or a field holds
no message of the library. -/
inductive RecordError where
  | parse
  | field (num : Nat)
deriving DecidableEq

variable [Protowire] [Raft]

/-- One message of the library, framed as a field. -/
def appendMessage (b : Bytes) (num : Nat) (data : Bytes) : Bytes :=
  appendBytes (appendTag b num bytesType) data

def recordFormatVersion : UInt64 := 1

def encodeRecord (rec : Record) : Bytes :=
  let b := appendVarint (appendTag [] 1 varintType) recordFormatVersion
  let b :=
    if Raft.isEmptyHardState rec.hs then b
    else appendMessage b 2 (Raft.marshalHardState rec.hs)
  let b := rec.entries.foldl (fun b e => appendMessage b 3 (Raft.marshalEntry e)) b
  if Raft.isEmptySnap rec.snap then b else appendMessage b 4 (Raft.marshalSnapshot rec.snap)

/-- The switch on the number of a bytes field. -/
def decodeRecordField (rec : Record) (num : Nat) (v : Bytes) : Except RecordError Record :=
  match num with
  | 2 =>
    match Raft.unmarshalHardState rec.hs v with
    | none => .error (.field 2)
    | some hs => .ok { rec with hs := hs }
  | 3 =>
    match Raft.unmarshalEntry v with
    | none => .error (.field 3)
    | some e => .ok { rec with entries := rec.entries ++ [e] }
  | 4 =>
    match Raft.unmarshalSnapshot rec.snap v with
    | none => .error (.field 4)
    | some snap => .ok { rec with snap := snap }
  | _ => .ok rec

/-- The loop of `decodeRecord`: a field of another type is skipped. -/
def readRecord : FieldReader RecordError Record where
  varint rec _ _ := .ok rec
  bytes := decodeRecordField

def decodeRecord (b : Bytes) : Except RecordError Record := readRecord.read .parse {} b

/-! ## The fields of a record -/

def recordFields (rec : Record) : List Field :=
  [⟨1, .varint recordFormatVersion⟩] ++
    ((if Raft.isEmptyHardState rec.hs then [] else [⟨2, .bytes (Raft.marshalHardState rec.hs)⟩]) ++
    (rec.entries.map (fun e => ⟨3, .bytes (Raft.marshalEntry e)⟩) ++
    (if Raft.isEmptySnap rec.snap then [] else [⟨4, .bytes (Raft.marshalSnapshot rec.snap)⟩])))

omit [Protowire] in
theorem numbered_recordFields (rec : Record) : ∀ f ∈ recordFields rec, f.Numbered := by
  intro f hf
  simp only [recordFields, List.mem_append, List.mem_singleton, List.mem_map] at hf
  rcases hf with rfl | hf | ⟨e, -, rfl⟩ | hf
  · exact Field.numbered_mk (by decide) _
  · split at hf
    · cases hf
    · rw [List.mem_singleton.mp hf]
      exact Field.numbered_mk (by decide) _
  · exact Field.numbered_mk (by decide) _
  · split at hf
    · cases hf
    · rw [List.mem_singleton.mp hf]
      exact Field.numbered_mk (by decide) _

section RoundTrip

variable [LawfulProtowire]

omit [Raft] in
theorem appendMessage_eq (b : Bytes) (num : Nat) (data : Bytes) :
    appendMessage b num data = b ++ encodeFields [⟨num, .bytes data⟩] :=
  appendBytes_appendTag b num data

theorem encodeRecord_eq (rec : Record) : encodeRecord rec = encodeFields (recordFields rec) := by
  unfold encodeRecord recordFields
  simp only [foldl_appendField (fun b e => appendMessage_eq b 3 (Raft.marshalEntry e))]
  simp only [appendVarint_appendTag, appendMessage_eq, encodeFields_append, List.nil_append]
  by_cases hhs : Raft.isEmptyHardState rec.hs = true
  · by_cases hsnap : Raft.isEmptySnap rec.snap = true
    · simp [hhs, hsnap]
    · simp [hhs, hsnap]
  · by_cases hsnap : Raft.isEmptySnap rec.snap = true
    · simp [hhs, hsnap]
    · simp [hhs, hsnap]

/-- A record as it comes back: the empty snapshot is not written. -/
def Record.written (rec : Record) : Record :=
  { rec with snap := if Raft.isEmptySnap rec.snap then {} else rec.snap }

variable [LawfulRaft]

omit [Protowire] [LawfulProtowire] in
theorem foldlM_entries (es : List Entry)
    (hsize : ∀ e ∈ es, (Raft.marshalEntry e).length < 2 ^ 63) (rec : Record) :
    (es.map (fun e => (⟨3, .bytes (Raft.marshalEntry e)⟩ : Field))).foldlM readRecord.field rec =
      .ok { rec with entries := rec.entries ++ es } := by
  have hcollect := @foldlM_collect _ _ _ _ readRecord.field
    (fun e => ⟨3, .bytes (Raft.marshalEntry e)⟩) es
    (fun es => { rec with entries := rec.entries ++ es }) (fun e he es => by
      simp only [FieldReader.field, readRecord, decodeRecordField,
        LawfulRaft.unmarshalEntry_marshal e (hsize e he), List.append_assoc]) []
  simpa using hcollect

theorem decodeRecord_encodeRecord {rec : Record} (hsize : (encodeRecord rec).length < 2 ^ 63) :
    decodeRecord (encodeRecord rec) = .ok rec.written := by
  rw [encodeRecord_eq] at hsize
  have hmarshal : ∀ num v, (⟨num, .bytes v⟩ : Field) ∈ recordFields rec → v.length < 2 ^ 63 :=
    fun num v h => (length_le_of_mem_fields h).trans_lt hsize
  have hentries : ∀ e ∈ rec.entries, (Raft.marshalEntry e).length < 2 ^ 63 := by
    intro e he
    refine hmarshal 3 _ ?_
    simp only [recordFields, List.mem_append, List.mem_map]
    exact Or.inr (Or.inr (Or.inl ⟨e, he, rfl⟩))
  rw [decodeRecord, encodeRecord_eq, readRecord.read_encodeFields .parse
    (numbered_recordFields rec) (size_lt_of_mem_fields hsize (Nat.two_pow_pos 63))]
  simp only [recordFields, List.foldlM_append]
  -- the hard state, the entries and the snapshot, in the order of the fields
  have hhs : (if Raft.isEmptyHardState rec.hs = true then ([] : List Field)
      else [⟨2, .bytes (Raft.marshalHardState rec.hs)⟩]).foldlM readRecord.field {} =
      .ok { hs := rec.hs } := by
    by_cases hempty : Raft.isEmptyHardState rec.hs = true
    · rw [if_pos hempty, (LawfulRaft.isEmptyHardState_iff rec.hs).mp hempty]
      rfl
    · have hread := LawfulRaft.unmarshalHardState_marshal rec.hs (hmarshal 2 _ (by
        simp [recordFields, hempty]))
      rw [if_neg hempty]
      simp only [List.foldlM_cons, List.foldlM_nil, FieldReader.field, readRecord,
        decodeRecordField, hread]
      rfl
  have hsnap : ∀ acc : Record, acc.snap = {} →
      (if Raft.isEmptySnap rec.snap = true then ([] : List Field)
        else [⟨4, .bytes (Raft.marshalSnapshot rec.snap)⟩]).foldlM readRecord.field acc =
      .ok { acc with snap := if Raft.isEmptySnap rec.snap then {} else rec.snap } := by
    intro acc hacc
    by_cases hempty : Raft.isEmptySnap rec.snap = true
    · simp only [if_pos hempty]
      rw [← hacc]
      rfl
    · have hread := LawfulRaft.unmarshalSnapshot_marshal rec.snap (hmarshal 4 _ (by
        simp [recordFields, hempty]))
      simp only [if_neg hempty, List.foldlM_cons, List.foldlM_nil, FieldReader.field, readRecord,
        decodeRecordField, hacc, hread]
      rfl
  have hversion : List.foldlM readRecord.field {} [(⟨1, .varint recordFormatVersion⟩ : Field)] =
      (.ok {} : Except RecordError Record) := rfl
  rw [hversion]
  show (List.foldlM readRecord.field {} _ >>= _) = _
  rw [hhs]
  show (List.foldlM readRecord.field _ _ >>= _) = _
  rw [foldlM_entries rec.entries hentries]
  exact hsnap _ rfl

end RoundTrip

end Hamster.Raftnode
