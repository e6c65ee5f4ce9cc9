import Hamster.Raftnode.LogFiles
import Hamster.Raftnode.SnapshotData

/-!
# The raft log of a node

The raft storage of a node together with its log file: what the durability
step of `processReady`, `maybeSnapshot`, `replay` and `recover` of
`internal/raftnode/raftnode.go` do to these two.  The metadata store is left
to the node itself; of a snapshot it only matters here that its data can be
decoded.

A record is stored in the same way when it is written and when it is
replayed, so replaying the records gives the storage back.  A rotation breaks
the sequence: the new file holds one frame and none of the records before it.
`Rotation.stored` says why that is enough: storing the frame in any storage
that it may follow, a new one among them, gives what the node has in memory.
-/

namespace Hamster.Raftnode

open CodeLib Seam Wal

/-- The part of a Ready that the node persists and applies. -/
structure Ready where
  hardState : HardState := {}
  entries : List Entry := []
  snapshot : Snapshot := {}
  committedEntries : List Entry := []
deriving DecidableEq

variable [Protowire] [Raft]

structure RaftLog where
  storage : Raft.Storage
  logSeq : UInt64

/-- Append entries and save a hard state, if there is one. -/
def storeEntries (st : Raft.Storage) (es : List Entry) (hs : HardState) : Option Raft.Storage := do
  let st ← Raft.append st es
  if Raft.isEmptyHardState hs then some st else Raft.setHardState st hs

/-- `restoreSnapshot`, as far as the storage goes: data that cannot be decoded is
refused. -/
def restoreSnapshot (st : Raft.Storage) (snap : Snapshot) : Option Raft.Storage :=
  match decodeSnapshotData snap.data with
  | .error _ => none
  | .ok _ => Raft.applySnapshot st snap

/-- Load one record into the storage: snapshot, entries, hard state. -/
def storeRecord (st : Raft.Storage) (rec : Record) : Option Raft.Storage := do
  let st ← (if Raft.isEmptySnap rec.snap then some st else restoreSnapshot st rec.snap)
  storeEntries st rec.entries rec.hs

def replayFrom (i : Nat) (st : Raft.Storage) : List Bytes → Except RecoverError Raft.Storage
  | [] => .ok st
  | raw :: raws =>
    match decodeRecord raw with
    | .error _ => .error (.replay i)
    | .ok rec =>
      match storeRecord st rec with
      | none => .error (.replay i)
      | some st' => replayFrom (i + 1) st' raws

def replay (raws : List Bytes) : Except RecoverError Raft.Storage :=
  replayFrom 0 Raft.newMemoryStorage raws

/-- Find the log file, replay it and remove every other. -/
def recover : Prog Disk (Except RecoverError (LogChoice × RaftLog)) := do
  match ← findLog with
  | .error e => pure (.error e)
  | .ok choice =>
    match replay choice.records with
    | .error e => pure (.error e)
    | .ok st => do
      removeLogs choice.others
      pure (.ok (choice, ⟨st, choice.seq⟩))

def Ready.record (rd : Ready) : Record := ⟨rd.hardState, rd.entries, {}⟩

/-- Persist a Ready without a snapshot: the log first, then the storage.
`none` is the panic on entries that the storage does not take. -/
def persistReady (rl : RaftLog) (rd : Ready) : Prog Disk (Option RaftLog) := do
  Wal.append (logName rl.logSeq) (encodeRecord rd.record)
  pure ((storeEntries rl.storage rd.entries rd.hardState).map (fun st => { rl with storage := st }))

/-- The hard state that a rotation carries: the one of the Ready, or the
standing one. -/
def currentHardState (st : Raft.Storage) (rdHS : HardState) : HardState :=
  if Raft.isEmptyHardState rdHS then (Raft.initialState st).1 else rdHS

/-- The two causes of a rotation: a snapshot that a leader streams, and a
snapshot of the own state at an applied index. -/
inductive Rotation where
  | install (rd : Ready)
  | compact (applied : UInt64) (confState : ConfState) (data : SnapshotData)

/-- What a rotation makes of the storage, and the frame that it writes.
`none` is a panic, on data that cannot be decoded or by the storage. -/
def Rotation.plan (st : Raft.Storage) : Rotation → Option (Raft.Storage × Record)
  | .install rd => do
    let st ← (if Raft.isEmptySnap rd.snapshot then none else restoreSnapshot st rd.snapshot)
    let st ← storeEntries st rd.entries rd.hardState
    some (st, ⟨currentHardState st rd.hardState, rd.entries, rd.snapshot⟩)
  | .compact applied confState data => do
    let (snap, st) ← Raft.createSnapshot st applied confState (encodeSnapshotData data)
    let st ← Raft.compact st applied
    let tail ←
      (if applied < Raft.lastIndex st then Raft.entries st (applied + 1) (Raft.lastIndex st + 1)
      else some [])
    some (st, ⟨currentHardState st {}, tail, snap⟩)

def rotateLog (rl : RaftLog) (rot : Rotation) : Prog Disk (Option RaftLog) := do
  match rot.plan rl.storage with
  | none => pure none
  | some (st, rec) =>
    match ← rotate rl.logSeq (encodeRecord rec) with
    | none => pure none
    | some seq => pure (some ⟨st, seq⟩)

/-! ## Storing records -/

section Storing

variable [LawfulRaft] {st st' st₁ st₂ : Raft.Storage} {rec : Record}

omit [Protowire] in
theorem storeEntries_contents {es : List Entry} {hs : HardState}
    (h : storeEntries st es hs = some st') :
    ∃ stₐ, Raft.append st es = some stₐ ∧ Raft.contents st' =
      ⟨if Raft.isEmptyHardState hs then (Raft.contents st).hardState else hs,
        (Raft.contents st).snapshot, (Raft.contents st).firstIndex,
        (Raft.contents stₐ).entries⟩ := by
  cases happ : Raft.append st es with
  | none =>
    rw [storeEntries, happ] at h
    cases h
  | some stₐ =>
    refine ⟨stₐ, rfl, ?_⟩
    rw [storeEntries, happ] at h
    have hkeeps := LawfulRaft.append_keeps st es stₐ happ
    have h : (if Raft.isEmptyHardState hs then some stₐ else Raft.setHardState stₐ hs) =
        some st' := h
    by_cases hempty : Raft.isEmptyHardState hs = true
    · rw [if_pos hempty] at h ⊢
      rw [← Option.some.inj h, hkeeps]
    · rw [if_neg hempty] at h ⊢
      obtain ⟨st'', hset, hcontents⟩ := LawfulRaft.setHardState_contents stₐ hs
      rw [hset] at h
      rw [← Option.some.inj h, hcontents, hkeeps]

omit [Protowire] in
theorem storeEntries_congr (st₂ : Raft.Storage) {es : List Entry} {hs : HardState} (hs₂ : HardState)
    (hfirst : (Raft.contents st₁).firstIndex = (Raft.contents st₂).firstIndex)
    (hentries : (Raft.contents st₁).entries = (Raft.contents st₂).entries)
    (h : storeEntries st₁ es hs = some st') :
    ∃ st₂', storeEntries st₂ es hs₂ = some st₂' ∧ Raft.contents st₂' =
      ⟨if Raft.isEmptyHardState hs₂ then (Raft.contents st₂).hardState else hs₂,
        (Raft.contents st₂).snapshot, (Raft.contents st').firstIndex,
        (Raft.contents st').entries⟩ := by
  obtain ⟨stₐ, happ, hcontents⟩ := storeEntries_contents h
  obtain ⟨stᵦ, happ₂, hentries₂⟩ := LawfulRaft.append_congr st₁ st₂ es stₐ hfirst hentries happ
  have hkeeps := LawfulRaft.append_keeps st₂ es stᵦ happ₂
  have hstore : ∃ st₂', storeEntries st₂ es hs₂ = some st₂' := by
    rw [storeEntries, happ₂]
    show ∃ st₂', (if Raft.isEmptyHardState hs₂ then some stᵦ else Raft.setHardState stᵦ hs₂) = _
    by_cases hempty : Raft.isEmptyHardState hs₂ = true
    · exact ⟨stᵦ, if_pos hempty⟩
    · obtain ⟨st'', hset, -⟩ := LawfulRaft.setHardState_contents stᵦ hs₂
      exact ⟨st'', (if_neg hempty).trans hset⟩
  obtain ⟨st₂', hstore⟩ := hstore
  obtain ⟨stᵦ', happ₂', hcontents₂⟩ := storeEntries_contents hstore
  have hsame : stᵦ' = stᵦ := Option.some.inj (happ₂'.symm.trans happ₂)
  refine ⟨st₂', hstore, ?_⟩
  rw [hcontents₂, hcontents, hsame, hentries₂, hfirst]

omit [LawfulRaft] in
theorem storeRecord_of_empty (hsnap : Raft.isEmptySnap rec.snap = true) :
    storeRecord st rec = storeEntries st rec.entries rec.hs := by
  rw [storeRecord, if_pos hsnap]
  rfl

theorem storeRecord_congr (hsame : Raft.contents st₁ = Raft.contents st₂)
    (hsnap : Raft.isEmptySnap rec.snap = true) (h : storeRecord st₁ rec = some st') :
    ∃ st₂', storeRecord st₂ rec = some st₂' ∧ Raft.contents st₂' = Raft.contents st' := by
  rw [storeRecord_of_empty hsnap] at h
  rw [storeRecord_of_empty hsnap]
  obtain ⟨st₂', hstore, hcontents⟩ :=
    storeEntries_congr st₂ rec.hs (by rw [hsame]) (by rw [hsame]) h
  obtain ⟨stₐ, -, hcontents'⟩ := storeEntries_contents h
  refine ⟨st₂', hstore, ?_⟩
  rw [hcontents, hcontents', hsame]

/-- The frame of a rotation and the storage that it stands for. -/
structure Frames (rec : Record) (st : Raft.Storage) : Prop where
  snapshot : Raft.isEmptySnap rec.snap = false
  decodes : (decodeSnapshotData rec.snap.data).isOk = true
  hardState : (Raft.contents st).hardState = rec.hs
  installed : (Raft.contents st).snapshot = rec.snap
  firstIndex : (Raft.contents st).firstIndex = rec.snap.metadata.index + 1
  entries : ∀ st₀, (Raft.contents st₀).firstIndex = rec.snap.metadata.index + 1 →
    (Raft.contents st₀).entries = [] →
    ∃ st₀', storeEntries st₀ rec.entries rec.hs = some st₀' ∧
      (Raft.contents st₀').entries = (Raft.contents st).entries

omit [LawfulRaft] in
theorem restoreSnapshot_of_decodes {snap : Snapshot}
    (h : (decodeSnapshotData snap.data).isOk = true) (st : Raft.Storage) :
    restoreSnapshot st snap = Raft.applySnapshot st snap := by
  unfold restoreSnapshot
  cases hdecode : decodeSnapshotData snap.data with
  | error e =>
    rw [hdecode] at h
    cases h
  | ok data => rfl

theorem Frames.storeRecord (h : Frames rec st) {st₀ : Raft.Storage}
    (hnewer : (Raft.contents st₀).snapshot.metadata.index < rec.snap.metadata.index)
    (hhs : rec.hs = {} → (Raft.contents st₀).hardState = {}) :
    ∃ st₀', storeRecord st₀ rec = some st₀' ∧ Raft.contents st₀' = Raft.contents st := by
  obtain ⟨st₁, happly, hcontents⟩ := LawfulRaft.applySnapshot_contents st₀ rec.snap hnewer
  obtain ⟨st₂, hstore, hentries⟩ := h.entries st₁ (by rw [hcontents]) (by rw [hcontents])
  obtain ⟨stₐ, -, hcontents₂⟩ := storeEntries_contents hstore
  refine ⟨st₂, ?_, ?_⟩
  · rw [Raftnode.storeRecord, if_neg (by simp [h.snapshot]), restoreSnapshot_of_decodes h.decodes,
      happly]
    exact hstore
  · have hhard : (Raft.contents st₂).hardState = (Raft.contents st).hardState := by
      rw [hcontents₂, h.hardState]
      dsimp only
      split
      · rename_i hempty
        rw [hcontents, (LawfulRaft.isEmptyHardState_iff _).mp hempty]
        exact hhs ((LawfulRaft.isEmptyHardState_iff _).mp hempty)
      · rfl
    have hsnap : (Raft.contents st₂).snapshot = (Raft.contents st).snapshot := by
      rw [hcontents₂, h.installed, hcontents]
    have hfirst : (Raft.contents st₂).firstIndex = (Raft.contents st).firstIndex := by
      rw [hcontents₂, h.firstIndex, hcontents]
    calc Raft.contents st₂
        = ⟨(Raft.contents st₂).hardState, (Raft.contents st₂).snapshot,
            (Raft.contents st₂).firstIndex, (Raft.contents st₂).entries⟩ := rfl
      _ = Raft.contents st := by rw [hhard, hsnap, hfirst, hentries]

theorem Rotation.frames {rot : Rotation} (h : rot.plan st = some (st', rec))
    (hdecodes : (decodeSnapshotData rec.snap.data).isOk = true) :
    Frames rec st' ∧ (Raft.contents st).snapshot.metadata.index < rec.snap.metadata.index ∧
      (rec.hs = {} → (Raft.contents st).hardState = {}) := by
  cases rot with
  | install rd =>
    simp only [Rotation.plan, Option.bind_eq_bind, Option.bind_eq_some_iff] at h
    obtain ⟨st₁, happly, st₂, hstore, hplan⟩ := h
    split at happly
    · cases happly
    rename_i hsnap
    obtain ⟨rfl, rfl⟩ := Prod.mk.inj (Option.some.inj hplan)
    rw [restoreSnapshot_of_decodes hdecodes] at happly
    have hnewer := LawfulRaft.applySnapshot_newer st rd.snapshot st₁ happly
    obtain ⟨st₁', happly', hcontents₁⟩ :=
      LawfulRaft.applySnapshot_contents st rd.snapshot hnewer
    have hsame : st₁' = st₁ := Option.some.inj (happly'.symm.trans happly)
    rw [hsame] at hcontents₁
    obtain ⟨stₐ, happ, hcontents₂⟩ := storeEntries_contents hstore
    have hhard : (Raft.contents st₂).hardState = currentHardState st₂ rd.hardState := by
      unfold currentHardState
      split
      · rfl
      · rename_i hfull
        rw [hcontents₂, if_neg hfull]
    refine ⟨⟨by simpa using hsnap, hdecodes, hhard, ?_, ?_, ?_⟩, hnewer, ?_⟩
    · rw [hcontents₂, hcontents₁]
    · rw [hcontents₂, hcontents₁]
    · intro st₀ hfirst₀ hentries₀
      obtain ⟨st₀', hstore₀, hcontents₀⟩ := storeEntries_congr st₀
        (currentHardState st₂ rd.hardState) (by rw [hcontents₁, hfirst₀])
        (by rw [hcontents₁, hentries₀]) hstore
      exact ⟨st₀', hstore₀, by rw [hcontents₀]⟩
    · -- without a hard state in the frame there was none before
      intro hnil
      rw [← hhard, hcontents₂] at hnil
      dsimp only at hnil
      split at hnil
      · rw [hcontents₁] at hnil
        exact hnil
      · rename_i hfull
        exact absurd ((LawfulRaft.isEmptyHardState_iff _).mpr hnil) hfull
  | compact applied confState data =>
    simp only [Rotation.plan, Option.bind_eq_bind, Option.bind_eq_some_iff] at h
    obtain ⟨⟨snap, st₁⟩, hcreate, st₂, hcompact, tail, htail, hplan⟩ := h
    obtain ⟨rfl, rfl⟩ := Prod.mk.inj (Option.some.inj hplan)
    obtain ⟨-, hindex, -, hnewer⟩ :=
      LawfulRaft.createSnapshot_snapshot st applied confState _ snap st₁ hcreate
    obtain ⟨hhs, hsnap, hfirst, hentries⟩ :=
      LawfulRaft.compact_contents st applied confState _ snap st₁ st₂ hcreate hcompact
    have htail' : tail = (Raft.contents st₂).entries := Option.some.inj (htail.symm.trans hentries)
    have hempty : Raft.isEmptyHardState ({} : HardState) = true :=
      (LawfulRaft.isEmptyHardState_iff _).mpr rfl
    have hcurrent : currentHardState st₂ {} = (Raft.contents st₂).hardState := by
      rw [currentHardState, if_pos hempty]
      rfl
    have hpos : snap.metadata.index ≠ 0 := by
      rw [hindex]
      intro hzero
      rw [hzero] at hnewer
      exact absurd hnewer (UInt64.not_lt.mpr UInt64.zero_le)
    refine ⟨⟨?_, hdecodes, hcurrent.symm, hsnap, by rw [hindex, hfirst], ?_⟩,
      by rw [hindex]; exact hnewer, ?_⟩
    · rw [← Bool.not_eq_true, LawfulRaft.isEmptySnap_iff]
      exact hpos
    · intro st₀ hfirst₀ hentries₀
      obtain ⟨st₀', happ, hentries'⟩ :=
        LawfulRaft.append_entries st₂ st₀ (by rw [hfirst, hfirst₀, hindex]) hentries₀
      have hstore : storeEntries st₀ tail {} = some st₀' := by
        rw [storeEntries, htail', happ]
        exact if_pos hempty
      obtain ⟨st₀'', hstore', hcontents⟩ :=
        storeEntries_congr st₀ (currentHardState st₂ {}) rfl rfl hstore
      exact ⟨st₀'', hstore', by rw [hcontents, hentries']⟩
    · intro hnil
      rw [← hhs, ← hcurrent]
      exact hnil

end Storing

end Hamster.Raftnode
