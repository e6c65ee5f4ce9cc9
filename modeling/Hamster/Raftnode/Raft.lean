import Hamster.CodeLib.Bytes

/-!
# The raft library

What `internal/raftnode` uses of `go.etcd.io/raft/v3`: the messages of
`raftpb`, their encoding, and `MemoryStorage`.  The library is not part of the
repository, so it is a parameter here, `Raft`, and `LawfulRaft` lists what its
documentation says and the node relies on.

A storage is seen through its `contents`: the hard state, the snapshot, the
first index and the entries that its own methods report.  The laws say what an
operation does to these.  What `Append` makes of entries that overlap the log
is left open; that it is decided by the log and the new entries is all that a
replay needs.

An operation whose result is `none` returns an error, panics, or is called
outside its contract, as `Append` is with entries that are not consecutive.
-/

namespace Hamster.Raftnode

open CodeLib

/-! ## Messages -/

structure HardState where
  term : UInt64 := 0
  vote : UInt64 := 0
  commit : UInt64 := 0
deriving DecidableEq

inductive EntryType where
  | entryNormal
  | entryConfChange
  | entryConfChangeV2
deriving DecidableEq

structure Entry where
  term : UInt64
  index : UInt64
  type : EntryType
  data : Bytes
deriving DecidableEq

structure ConfState where
  voters : List UInt64 := []
  learners : List UInt64 := []
  votersOutgoing : List UInt64 := []
  learnersNext : List UInt64 := []
  autoLeave : Bool := false
deriving DecidableEq

structure SnapshotMetadata where
  confState : ConfState := {}
  index : UInt64 := 0
  term : UInt64 := 0
deriving DecidableEq

structure Snapshot where
  data : Bytes := []
  metadata : SnapshotMetadata := {}
deriving DecidableEq

/-! ## The library -/

/-- The storage and the encodings of the library.  An `unmarshal` function
reads into a message that already has fields. -/
class Raft where
  Storage : Type
  newMemoryStorage : Storage
  initialState : Storage → HardState × ConfState
  snapshot : Storage → Snapshot
  firstIndex : Storage → UInt64
  lastIndex : Storage → UInt64
  entries : Storage → UInt64 → UInt64 → Option (List Entry)
  append : Storage → List Entry → Option Storage
  setHardState : Storage → HardState → Option Storage
  applySnapshot : Storage → Snapshot → Option Storage
  createSnapshot : Storage → UInt64 → ConfState → Bytes → Option (Snapshot × Storage)
  compact : Storage → UInt64 → Option Storage
  isEmptyHardState : HardState → Bool
  isEmptySnap : Snapshot → Bool
  marshalHardState : HardState → Bytes
  marshalEntry : Entry → Bytes
  marshalSnapshot : Snapshot → Bytes
  unmarshalHardState : HardState → Bytes → Option HardState
  unmarshalEntry : Bytes → Option Entry
  unmarshalSnapshot : Snapshot → Bytes → Option Snapshot

structure Contents where
  hardState : HardState := {}
  snapshot : Snapshot := {}
  firstIndex : UInt64 := 1
  entries : List Entry := []
deriving DecidableEq

namespace Raft

variable [Raft]

/-- The contents of a storage, as its methods report them. -/
def contents (st : Storage) : Contents where
  hardState := (initialState st).1
  snapshot := snapshot st
  firstIndex := firstIndex st
  entries :=
    if firstIndex st ≤ lastIndex st then
      (entries st (firstIndex st) (lastIndex st + 1)).getD []
    else []

end Raft

class LawfulRaft [Raft] : Prop where
  isEmptyHardState_iff : ∀ hs, Raft.isEmptyHardState hs = true ↔ hs = {}
  isEmptySnap_iff : ∀ snap, Raft.isEmptySnap snap = true ↔ snap.metadata.index = 0
  unmarshalHardState_marshal : ∀ hs, (Raft.marshalHardState hs).length < 2 ^ 63 →
    Raft.unmarshalHardState {} (Raft.marshalHardState hs) = some hs
  unmarshalEntry_marshal : ∀ e, (Raft.marshalEntry e).length < 2 ^ 63 →
    Raft.unmarshalEntry (Raft.marshalEntry e) = some e
  unmarshalSnapshot_marshal : ∀ snap, (Raft.marshalSnapshot snap).length < 2 ^ 63 →
    Raft.unmarshalSnapshot {} (Raft.marshalSnapshot snap) = some snap
  /-- A new storage is empty. -/
  contents_new : Raft.contents Raft.newMemoryStorage = {}
  /-- `SetHardState` saves the hard state. -/
  setHardState_contents : ∀ st hs, ∃ st', Raft.setHardState st hs = some st' ∧
    Raft.contents st' = { Raft.contents st with hardState := hs }
  /-- `ApplySnapshot` overwrites the log with a newer snapshot. -/
  applySnapshot_contents : ∀ st snap,
    (Raft.contents st).snapshot.metadata.index < snap.metadata.index →
    ∃ st', Raft.applySnapshot st snap = some st' ∧
      Raft.contents st' = { Raft.contents st with
        snapshot := snap, firstIndex := snap.metadata.index + 1, entries := [] }
  /-- `ApplySnapshot` refuses any other snapshot. -/
  applySnapshot_newer : ∀ st snap st', Raft.applySnapshot st snap = some st' →
    (Raft.contents st).snapshot.metadata.index < snap.metadata.index
  /-- `Append` changes the entries only. -/
  append_keeps : ∀ st es st', Raft.append st es = some st' →
    Raft.contents st' = { Raft.contents st with entries := (Raft.contents st').entries }
  /-- The first index and the entries decide what `Append` does. -/
  append_congr : ∀ st₁ st₂ es st₁',
    (Raft.contents st₁).firstIndex = (Raft.contents st₂).firstIndex →
    (Raft.contents st₁).entries = (Raft.contents st₂).entries →
    Raft.append st₁ es = some st₁' →
    ∃ st₂', Raft.append st₂ es = some st₂' ∧
      (Raft.contents st₂').entries = (Raft.contents st₁').entries
  /-- The entries of a storage can be appended to one that has the same first
  index and no entries. -/
  append_entries : ∀ st₁ st₂,
    (Raft.contents st₁).firstIndex = (Raft.contents st₂).firstIndex →
    (Raft.contents st₂).entries = [] →
    ∃ st₂', Raft.append st₂ (Raft.contents st₁).entries = some st₂' ∧
      (Raft.contents st₂').entries = (Raft.contents st₁).entries
  /-- `CreateSnapshot` makes a newer snapshot of the given data. -/
  createSnapshot_snapshot : ∀ st i confState data snap st',
    Raft.createSnapshot st i confState data = some (snap, st') →
    snap.data = data ∧ snap.metadata.index = i ∧ snap.metadata.confState = confState ∧
      (Raft.contents st).snapshot.metadata.index < i
  /-- `Compact` at the index of a new snapshot leaves the entries above it. -/
  compact_contents : ∀ st i confState data snap st₁ st₂,
    Raft.createSnapshot st i confState data = some (snap, st₁) → Raft.compact st₁ i = some st₂ →
    (Raft.contents st₂).hardState = (Raft.contents st).hardState ∧
      (Raft.contents st₂).snapshot = snap ∧
      (Raft.contents st₂).firstIndex = i + 1 ∧
      (if i < Raft.lastIndex st₂ then Raft.entries st₂ (i + 1) (Raft.lastIndex st₂ + 1)
        else some []) = some (Raft.contents st₂).entries

end Hamster.Raftnode
