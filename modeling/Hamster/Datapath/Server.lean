import Hamster.CodeLib.Decimal
import Hamster.CodeLib.Hex
import Hamster.CodeLib.Hash
import Hamster.Meta.VersionID
import Hamster.Seam.Disk

/-!
# Receiving a shard

The server half of `internal/datapath/service.go`, with the names and the
messages of `datapath.go` and `wire.go`.  A shard arrives in chunks, which are
staged in a file next to an in-memory record of how far they go and of their
running hash.  A commit checks that record, syncs the file and then writes and
syncs an empty marker file.

A handler is a program over the disk that takes the in-memory staging of the
key and returns the next one with the answer.  Every call of the disk may fail;
which ones do is an argument of the handler, `Faults`.

`Receiving b k st d` is what holds between two handlers when every stream of the
key carries the bytes `b` and no call fails: the marker is never there without
the whole file, and a live staging is a prefix of `b`.  `handle_triple` says that
handlers keep it, and that a crash at any point of one leaves it with no staging.
For a delete this needs that nothing is staged: the delete removes the file and
leaves the staging record behind.
-/

namespace Hamster.Datapath

open CodeLib Meta Seam

/-! ## Names -/

/-- One shard file: the data ID of an object and the index of the shard. -/
structure ShardKey where
  id : VersionID
  index : UInt32
deriving DecidableEq

def shardPrefix : Bytes := [115, 104, 97, 114, 100, 115, 47]

def shardFileName (k : ShardKey) : Bytes :=
  shardPrefix ++ hexEncode k.id.bytes ++ [45] ++ formatUint k.index.toUInt64

def markerName (name : Bytes) : Bytes := name ++ [46, 111, 107]

theorem shardFileName_inj {k k' : ShardKey} (h : shardFileName k = shardFileName k') : k = k' := by
  obtain ⟨⟨id, hid⟩, index⟩ := k
  obtain ⟨⟨id', hid'⟩, index'⟩ := k'
  simp only [shardFileName, List.append_assoc] at h
  have hrest := List.append_cancel_left h
  have hlen : (hexEncode id).length = (hexEncode id').length := by
    rw [length_hexEncode, length_hexEncode, hid, hid']
  obtain ⟨hhex, hindex⟩ := List.append_inj hrest hlen
  have hnum := formatUint_inj (List.append_cancel_left hindex)
  have hid_eq := hexEncode_inj hhex
  subst hid_eq
  have hindex_eq : index = index' := by
    have htoNat := congrArg UInt64.toNat hnum
    rw [UInt32.toNat_toUInt64, UInt32.toNat_toUInt64] at htoNat
    exact UInt32.toNat_inj.mp htoNat
  rw [hindex_eq]

theorem markerName_inj {n n' : Bytes} (h : markerName n = markerName n') : n = n' :=
  List.append_cancel_right h

theorem shardFileName_ne_markerName (k : ShardKey) (n : Bytes) :
    shardFileName k ≠ markerName n := by
  intro h
  have hlast : (shardFileName k).getLast? = some 107 := by
    rw [h, markerName]
    simp
  have hdigits : (formatUint k.index.toUInt64).getLast? = some 107 := by
    rw [shardFileName, List.getLast?_append_of_ne_nil _ (formatUint_ne_nil _)] at hlast
    exact hlast
  have hle := le_of_mem_decimalDigits (List.mem_of_getLast? hdigits)
  exact absurd hle (by decide)

/-! ## Messages -/

structure ChunkMsg where
  key : ShardKey
  offset : Nat
  data : Bytes
  stream : Nat
deriving DecidableEq

structure CommitMsg where
  key : ShardKey
  length : Nat
  checksum : Bytes
  stream : Nat
deriving DecidableEq

structure DeleteMsg where
  reqID : Nat
  key : ShardKey
deriving DecidableEq

/-- A message to the node that stores a shard. -/
inductive Request where
  | chunk (m : ChunkMsg)
  | commit (m : CommitMsg)
  | delete (m : DeleteMsg)
deriving DecidableEq

def Request.key : Request → ShardKey
  | chunk m => m.key
  | commit m => m.key
  | delete m => m.key

/-- Why a transfer is refused for good.  From the third on, a call of the disk
failed. -/
inductive TransferError where
  | zeroLength
  | checksumMismatch
  | appending
  | writing
  | syncingShard
  | writingMarker
  | syncingMarker
deriving DecidableEq

structure WriteAckMsg where
  key : ShardKey
  staged : Nat := 0
  committed : Bool := false
  errMsg : Option TransferError := none
  stream : Nat
deriving DecidableEq

structure DeleteAckMsg where
  reqID : Nat
  failed : Bool := false
deriving DecidableEq

inductive Reply where
  | writeAck (m : WriteAckMsg)
  | deleteAck (m : DeleteAckMsg)
deriving DecidableEq

/-! ## The handlers -/

/-- The state of one incoming shard.  `hash` is what was written to the running
hash. -/
structure Staging where
  stream : Nat
  staged : Nat
  hash : Bytes
deriving DecidableEq

def Staging.ack (st : Staging) (k : ShardKey) : Reply :=
  .writeAck { key := k, staged := st.staged, stream := st.stream }

/-- What a handler leaves of the staging, and what it answers. -/
abbrev Handled := Option Staging × Option Reply

/-- Which calls of the disk fail, by their number in the handler. -/
abbrev Faults := Nat → Bool

def noFaults : Faults := fun _ => false

def Faults.after (f : Faults) (n : Nat) : Faults := fun i => f (n + i)

/-- Whether the commit marker is there.  A read that fails does not find it. -/
def committed (fails : Bool) (k : ShardKey) : Prog Disk Bool :=
  Prog.look (fun d => !fails && (d.readFile (markerName (shardFileName k))).isSome)

/-- A stream starts over whatever is in the file, and over the staging `old`. -/
def startStaging (fails : Bool) (old : Option Staging) (m : ChunkMsg) : Prog Disk Handled := do
  if ← Prog.attempt fails (Disk.writeFile · (shardFileName m.key) m.data) then
    let st : Staging := { stream := m.stream, staged := m.data.length, hash := m.data }
    pure (some st, some (st.ack m.key))
  else pure (old, some (.writeAck { key := m.key, errMsg := some .writing, stream := m.stream }))

/-- Remove a file and sync the removal; `false` is an error of the disk, which a
file that is not there is not. -/
def tryRemove (f : Faults) (name : Bytes) : Prog Disk Bool := do
  let removed ← Prog.act (fun d =>
    if f 0 then (none, d)
    else
      match d.remove name with
      | none => (some false, d)
      | some d' => (some true, d'))
  match removed with
  | none => pure false
  | some false => pure true
  | some true => Prog.attempt (f 1) (Disk.sync · name)

/-- Abandon a transfer: drop the staging, remove the file if that is possible,
refuse. -/
def fail (f : Faults) (k : ShardKey) (stream : Nat) (err : TransferError) : Prog Disk Handled := do
  let _ ← tryRemove f (shardFileName k)
  pure (none, some (.writeAck { key := k, errMsg := some err, stream := stream }))

def handleChunk (f : Faults) (st : Option Staging) (m : ChunkMsg) : Prog Disk Handled := do
  match st with
  | none =>
    -- a straggler of a transfer that finished: the shard is immutable
    if ← committed (f 0) m.key then
      pure (none, some (.writeAck { key := m.key, committed := true, stream := m.stream }))
    else if m.offset = 0 then startStaging (f 1) none m
    else pure (none, none)
  | some st =>
    if st.stream = m.stream then
      if m.offset = st.staged then do
        if ← Prog.attempt (f 0) (Disk.append · (shardFileName m.key) m.data) then
          let st : Staging :=
            { st with staged := st.staged + m.data.length, hash := st.hash ++ m.data }
          pure (some st, some (st.ack m.key))
        else fail (f.after 1) m.key st.stream .appending
      else pure (some st, some (st.ack m.key))
    else if m.offset = 0 ∧ st.stream < m.stream then startStaging (f 0) (some st) m
    else pure (some st, none)

def handleCommit (f : Faults) (st : Option Staging) (m : CommitMsg) : Prog Disk Handled := do
  if m.length = 0 then fail f m.key m.stream .zeroLength
  else
    match st with
    | none =>
      if ← committed (f 0) m.key then
        pure (none, some (.writeAck { key := m.key, committed := true, stream := m.stream }))
      else pure (none, none)
    | some st =>
      if m.stream ≠ st.stream then pure (some st, none)
      else if st.staged ≠ m.length then pure (some st, some (st.ack m.key))
      else if sha256 st.hash ≠ m.checksum then fail f m.key st.stream .checksumMismatch
      else do
        let name := shardFileName m.key
        if ← Prog.attempt (f 0) (Disk.sync · name) then
          if ← Prog.attempt (f 1) (Disk.writeFile · (markerName name) []) then
            if ← Prog.attempt (f 2) (Disk.sync · (markerName name)) then
              pure (none, some (.writeAck { key := m.key, committed := true, stream := st.stream }))
            else fail (f.after 3) m.key st.stream .syncingMarker
          else fail (f.after 2) m.key st.stream .writingMarker
        else fail (f.after 1) m.key st.stream .syncingShard

/-- The marker goes first.  The staging is not looked at. -/
def handleDelete (f : Faults) (st : Option Staging) (m : DeleteMsg) : Prog Disk Handled := do
  if ← tryRemove f (markerName (shardFileName m.key)) then
    if ← tryRemove (f.after 2) (shardFileName m.key) then
      pure (st, some (.deleteAck { reqID := m.reqID }))
    else pure (st, some (.deleteAck { reqID := m.reqID, failed := true }))
  else pure (st, some (.deleteAck { reqID := m.reqID, failed := true }))

def handle (f : Faults) (st : Option Staging) : Request → Prog Disk Handled
  | .chunk m => handleChunk f st m
  | .commit m => handleCommit f st m
  | .delete m => handleDelete f st m

theorem noFaults_after (n : Nat) : noFaults.after n = noFaults := rfl

theorem tryRemove_noFaults (name : Bytes) (d : Disk) : tryRemove noFaults name d =
    ⟨true, (Disk.removeFile name d).final, (Disk.removeFile name d).points⟩ := by
  show Exec.mk _ _ _ = Exec.mk _ (Exec.final (Exec.mk _ _ _)) (Exec.points (Exec.mk _ _ _))
  cases hremove : d.remove name with
  | none =>
    simp only [Prog.act, hremove]
    rfl
  | some d' =>
    simp only [Prog.act, hremove]
    rfl

theorem tryRemove_bind {α : Type} (name : Bytes) (g : Bool → Prog Disk α) :
    (tryRemove noFaults name >>= g) = (Disk.removeFile name >>= fun _ => g true) := by
  funext d
  rw [Prog.run_bind _ _ _ (tryRemove_noFaults name d)]
  rfl

theorem handleDelete_noFaults (st : Option Staging) (m : DeleteMsg) :
    handleDelete noFaults st m = (do
      Disk.removeFile (markerName (shardFileName m.key))
      Disk.removeFile (shardFileName m.key)
      pure (st, some (.deleteAck { reqID := m.reqID }))) := by
  rw [handleDelete, noFaults_after, tryRemove_bind, if_pos rfl, tryRemove_bind, if_pos rfl]

/-! ## What the disk holds of one shard -/

structure Sealed (b : Bytes) (k : ShardKey) (d : Disk) : Prop where
  marker : d.durable.get (markerName (shardFileName k)) ≠ none
  markerQuiet : d.staged.get (markerName (shardFileName k)) = none
  file : d.durable.get (shardFileName k) = some b
  fileQuiet : d.staged.get (shardFileName k) = none
  nonempty : b ≠ []

structure Receiving (b : Bytes) (k : ShardKey) (st : Option Staging) (d : Disk) : Prop where
  markerQuiet : d.staged.get (markerName (shardFileName k)) = none
  marked : d.durable.get (markerName (shardFileName k)) ≠ none → st = none ∧ Sealed b k d
  live : ∀ s, st = some s → s.staged ≤ b.length ∧ s.hash = b.take s.staged ∧
    ∃ keep, d.staged.get (shardFileName k) = some ⟨b.take s.staged, keep, false⟩

/-- A crash leaves the shard to be received from the start, or whole. -/
def Recovers (b : Bytes) (k : ShardKey) (d : Disk) : Prop :=
  ∀ d', Disk.CrashesTo d d' → Receiving b k none d'

section OneShard

variable {b : Bytes} {k : ShardKey} {st : Option Staging} {d d' : Disk}

theorem marker_ne_file (k : ShardKey) : markerName (shardFileName k) ≠ shardFileName k :=
  (shardFileName_ne_markerName k (shardFileName k)).symm

theorem receiving_of_absent (h : Disk.Absent (markerName (shardFileName k)) d) :
    Receiving b k none d where
  markerQuiet := h.2
  marked := fun hmarker => absurd h.1 hmarker
  live := fun s hs => by cases hs

theorem Sealed.receiving (h : Sealed b k d) : Receiving b k none d where
  markerQuiet := h.markerQuiet
  marked := fun _ => ⟨rfl, h⟩
  live := fun s hs => by cases hs

theorem Sealed.crash (h : Sealed b k d) (hc : Disk.CrashesTo d d') : Sealed b k d' where
  marker := by rw [hc.durable_eq h.markerQuiet]; exact h.marker
  markerQuiet := hc.quiet _
  file := by rw [hc.durable_eq h.fileQuiet]; exact h.file
  fileQuiet := hc.quiet _
  nonempty := h.nonempty

theorem Receiving.crash (h : Receiving b k st d) : Recovers b k d := by
  intro d' hc
  by_cases hmarker : d.durable.get (markerName (shardFileName k)) = none
  · exact receiving_of_absent ⟨(hc.durable_eq h.markerQuiet).trans hmarker, hc.quiet _⟩
  · exact ((h.marked hmarker).2.crash hc).receiving

theorem Receiving.readFile_marker (h : Receiving b k st d) :
    d.readFile (markerName (shardFileName k)) = d.durable.get (markerName (shardFileName k)) :=
  Disk.readFile_of_quiet h.markerQuiet

theorem Receiving.unmarked {s : Staging} (h : Receiving b k (some s) d) :
    d.durable.get (markerName (shardFileName k)) = none := by
  by_contra hmarker
  have hnone := (h.marked hmarker).1
  cases hnone

theorem Sealed.congr (h : Sealed b k d) (hfile : Disk.SameFile (shardFileName k) d d')
    (hmarker : Disk.SameFile (markerName (shardFileName k)) d d') : Sealed b k d' where
  marker := by rw [hmarker.1]; exact h.marker
  markerQuiet := by rw [hmarker.2]; exact h.markerQuiet
  file := by rw [hfile.1]; exact h.file
  fileQuiet := by rw [hfile.2]; exact h.fileQuiet
  nonempty := h.nonempty

theorem Receiving.congr (h : Receiving b k st d) (hfile : Disk.SameFile (shardFileName k) d d')
    (hmarker : Disk.SameFile (markerName (shardFileName k)) d d') : Receiving b k st d' where
  markerQuiet := by rw [hmarker.2]; exact h.markerQuiet
  marked := fun hm => by
    rw [hmarker.1] at hm
    exact ⟨(h.marked hm).1, (h.marked hm).2.congr hfile hmarker⟩
  live := fun s hs => by rw [hfile.2]; exact h.live s hs

end OneShard

/-! ## One handler -/

/-- The message belongs to a stream that carries `b`. -/
def Request.Carries (b : Bytes) : Request → Prop
  | .chunk m => m.data <+: b.drop m.offset
  | .commit m => m.length = b.length
  | .delete _ => True

section Handlers

variable {b : Bytes} {k : ShardKey}

/-- After a handler: the shard is in order, and a positive answer is true. -/
def Answered (b : Bytes) (k : ShardKey) (r : Handled) (d : Disk) : Prop :=
  Receiving b k r.1 d ∧
    ∀ a, r.2 = some (.writeAck a) → a.committed = true → Sealed b k d

theorem answered_of_staged {r : Handled} {d : Disk} (hd : Receiving b k r.1 d)
    (hack : ∀ a, r.2 = some (.writeAck a) → a.committed = false) : Answered b k r d := by
  refine ⟨hd, fun a ha hc => ?_⟩
  rw [hack a ha] at hc
  cases hc

theorem committed_triple (st : Option Staging) :
    Prog.Triple (Receiving b k st) (committed false k)
      (fun c d => Receiving b k st d ∧
        (c = true ↔ d.durable.get (markerName (shardFileName k)) ≠ none)) (Recovers b k) := by
  refine Prog.Triple.look (fun d hd => hd.crash) (fun d hd => ⟨hd, ?_⟩)
  rw [Bool.not_false, Bool.true_and, hd.readFile_marker, Option.isSome_iff_ne_none]

variable {st : Option Staging} {m : ChunkMsg}

theorem startStaging_triple (hkey : m.key = k) (hcarries : m.data <+: b.drop 0) :
    Prog.Triple
      (fun d => Receiving b k st d ∧ d.durable.get (markerName (shardFileName k)) = none)
      (startStaging false st m) (Answered b k) (Recovers b k) := by
  subst hkey
  simp only [startStaging, Prog.attempt_bind, ↓reduceIte]
  refine Prog.Triple.bind
    (Q := fun _ d => Receiving b m.key (some ⟨m.stream, m.data.length, m.data⟩) d)
    (Prog.Triple.change (fun d hd => hd.1.crash) (fun d hd => ?_))
    (fun _ => Prog.Triple.pure (fun d hd => ⟨hd, fun a ha hc => ?_⟩))
  · have hfront : m.data <+: b := hcarries
    have hmarker := d.sameFile_writeFile (marker_ne_file m.key) m.data
    refine ⟨hmarker.2.trans hd.1.markerQuiet, fun hm => ?_, fun s hs => ?_⟩
    · rw [hmarker.1] at hm
      exact absurd hd.2 hm
    · cases hs
      refine ⟨hfront.length_le, List.prefix_iff_eq_take.mp hfront, 0, ?_⟩
      rw [Disk.staged_writeFile_self, ← List.prefix_iff_eq_take.mp hfront]
  · cases ha
    cases hc

theorem append_triple {st : Staging} (hkey : m.key = k) (hcarries : m.data <+: b.drop st.staged) :
    Prog.Triple (Receiving b k (some st)) (Prog.change (Disk.append · (shardFileName m.key) m.data))
      (fun _ d => Receiving b k (some { st with
        staged := st.staged + m.data.length, hash := st.hash ++ m.data }) d) (Recovers b k) := by
  subst hkey
  refine Prog.Triple.change (fun d hd => hd.crash) (fun d hd => ?_)
  have hmarker := d.sameFile_append (marker_ne_file m.key) m.data
  obtain ⟨hle, hhash, keep, hfile⟩ := hd.live st rfl
  have hlen := hcarries.length_le
  rw [List.length_drop] at hlen
  have hnext : b.take st.staged ++ m.data = b.take (st.staged + m.data.length) := by
    rw [List.take_add, ← List.prefix_iff_eq_take.mp hcarries]
  refine ⟨hmarker.2.trans hd.markerQuiet, fun hm => ?_, fun s hs => ?_⟩
  · rw [hmarker.1] at hm
    exact absurd hd.unmarked hm
  · cases hs
    refine ⟨by dsimp only; omega, by rw [hhash, hnext], keep, ?_⟩
    have hbase : d.appendBase (shardFileName m.key) = ⟨b.take st.staged, keep, false⟩ := by
      rw [Disk.appendBase, hfile]
      rfl
    rw [Disk.staged_append_self, hbase, hnext]

theorem handleChunk_triple (hkey : m.key = k) (hcarries : m.data <+: b.drop m.offset) :
    Prog.Triple (Receiving b k st) (handleChunk noFaults st m) (Answered b k) (Recovers b k) := by
  subst hkey
  cases st with
  | none =>
    refine Prog.Triple.bind (committed_triple none) (fun c => ?_)
    cases c with
    | true =>
      refine Prog.Triple.pure (fun d hd => ⟨hd.1, fun a _ _ => ?_⟩)
      exact (hd.1.marked (hd.2.mp rfl)).2
    | false =>
      by_cases hoffset : m.offset = 0
      · rw [hoffset] at hcarries
        rw [if_neg (by decide), if_pos hoffset]
        exact (startStaging_triple rfl hcarries).pre (fun d hd => ⟨hd.1, by simpa using hd.2⟩)
      · rw [if_neg (by decide), if_neg hoffset]
        exact Prog.Triple.pure (fun d hd => answered_of_staged hd.1 (fun a ha => by cases ha))
  | some st =>
    unfold handleChunk
    dsimp only
    split_ifs with hstream hoffset hfirst
    · rw [hoffset] at hcarries
      simp only [noFaults, Prog.attempt_bind, ↓reduceIte]
      refine Prog.Triple.bind (append_triple rfl hcarries)
        (fun _ => Prog.Triple.pure (fun d hd => answered_of_staged hd (fun a ha => ?_)))
      cases ha
      rfl
    · refine Prog.Triple.pure (fun d hd => answered_of_staged hd (fun a ha => ?_))
      cases ha
      rfl
    · rw [hfirst.1] at hcarries
      exact (startStaging_triple rfl hcarries).pre (fun d hd => ⟨hd, hd.unmarked⟩)
    · exact Prog.Triple.pure (fun d hd => answered_of_staged hd (fun a ha => by cases ha))

theorem removeFile_keeps_absent {name other : Bytes} (hne : other ≠ name) :
    Prog.Keeps (Disk.Absent other) (Disk.removeFile name) := by
  intro d hd
  obtain ⟨hpost, hcut⟩ := Disk.removeFile_frame hne d d (Disk.SameFile.refl d)
  exact ⟨hpost.absent hd, fun x hx => (hcut x hx).absent hd⟩

theorem fail_triple (stream : Nat) (err : TransferError) :
    Prog.Triple (Disk.Absent (markerName (shardFileName k))) (fail noFaults k stream err)
      (Answered b k) (Recovers b k) := by
  rw [fail, tryRemove_bind]
  refine Prog.Triple.bind ((removeFile_keeps_absent (marker_ne_file k)).cut
    (fun x hx => (receiving_of_absent hx).crash)) (fun _ => Prog.Triple.pure (fun d hd => ?_))
  refine answered_of_staged (receiving_of_absent hd) (fun a ha => ?_)
  cases ha
  rfl

/-- The whole file is durable and the marker is not there yet. -/
structure Synced (b : Bytes) (k : ShardKey) (d : Disk) : Prop where
  file : d.durable.get (shardFileName k) = some b
  fileQuiet : d.staged.get (shardFileName k) = none
  marker : d.durable.get (markerName (shardFileName k)) = none
  nonempty : b ≠ []

theorem syncFile_triple {st : Staging} (hall : st.staged = b.length) (hb : b ≠ []) :
    Prog.Triple (Receiving b k (some st)) (Prog.change (Disk.sync · (shardFileName k)))
      (fun _ => Synced b k) (Recovers b k) := by
  refine Prog.Triple.change (fun d hd => hd.crash) (fun d hd => ?_)
  obtain ⟨-, -, keep, hfile⟩ := hd.live st rfl
  have hsame := d.sameFile_sync (marker_ne_file k)
  rw [hall, List.take_length] at hfile
  exact ⟨Disk.durable_sync_of_staged hfile rfl, d.staged_sync_self, hsame.1.trans hd.unmarked, hb⟩

theorem Synced.crash {d : Disk} (h : Synced b k d) : Recovers b k d := by
  intro d' hc
  have hfile := (hc.durable_eq h.fileQuiet).trans h.file
  by_cases hmarker : d'.durable.get (markerName (shardFileName k)) = none
  · exact receiving_of_absent ⟨hmarker, hc.quiet _⟩
  · exact Sealed.receiving ⟨hmarker, hc.quiet _, hfile, hc.quiet _, h.nonempty⟩

theorem seal_triple :
    Prog.Triple (Synced b k)
      (do Prog.change (Disk.writeFile · (markerName (shardFileName k)) [])
          Prog.change (Disk.sync · (markerName (shardFileName k))))
      (fun _ => Sealed b k) (Recovers b k) := by
  have hne := (marker_ne_file k).symm
  refine Prog.Triple.bind (Q := fun _ d => Synced b k d ∧
      d.staged.get (markerName (shardFileName k)) = some { data := [] })
    (Prog.Triple.change (fun d hd => hd.crash) (fun d hd => ?_))
    (fun _ => Prog.Triple.change (fun d hd => hd.1.crash) (fun d hd => ?_))
  · have hfile := d.sameFile_writeFile hne []
    exact ⟨⟨hfile.1.trans hd.file, hfile.2.trans hd.fileQuiet, hd.marker, hd.nonempty⟩,
      Disk.staged_writeFile_self d []⟩
  · have hfile := d.sameFile_sync hne
    refine ⟨?_, d.staged_sync_self, hfile.1.trans hd.1.file, hfile.2.trans hd.1.fileQuiet,
      hd.1.nonempty⟩
    rw [Disk.durable_sync_of_staged hd.2 rfl]
    exact Option.some_ne_none _

theorem handleCommit_triple {m : CommitMsg} (hkey : m.key = k) (hlength : m.length = b.length) :
    Prog.Triple (Receiving b k st) (handleCommit noFaults st m) (Answered b k) (Recovers b k) := by
  subst hkey
  unfold handleCommit
  split_ifs with hzero
  · -- an empty shard is refused, and never has a marker
    have hb : b = [] := List.length_eq_zero_iff.mp (hlength ▸ hzero)
    refine (fail_triple m.stream .zeroLength).pre (fun d hd => ⟨?_, hd.markerQuiet⟩)
    by_contra hmarker
    exact (hd.marked hmarker).2.nonempty hb
  · have hb : b ≠ [] := fun h => hzero (by rw [hlength, h]; rfl)
    cases st with
    | none =>
      refine Prog.Triple.bind (committed_triple none) (fun c => ?_)
      cases c with
      | true =>
        refine Prog.Triple.pure (fun d hd => ⟨hd.1, fun a _ _ => ?_⟩)
        exact (hd.1.marked (hd.2.mp rfl)).2
      | false =>
        exact Prog.Triple.pure (fun d hd => answered_of_staged hd.1 (fun a ha => by cases ha))
    | some st =>
      dsimp only
      split_ifs with hstream hstaged hhash
      · exact Prog.Triple.pure (fun d hd => answered_of_staged hd (fun a ha => by cases ha))
      · refine Prog.Triple.pure (fun d hd => answered_of_staged hd (fun a ha => ?_))
        cases ha
        rfl
      · exact (fail_triple st.stream .checksumMismatch).pre
          (fun d hd => ⟨hd.unmarked, hd.markerQuiet⟩)
      · have hall : st.staged = b.length := by
          rw [← hlength]
          exact not_not.mp hstaged
        simp only [noFaults, Prog.attempt_bind, ↓reduceIte]
        refine Prog.Triple.bind (syncFile_triple hall hb) (fun _ => ?_)
        have hseal := seal_triple (b := b) (k := m.key)
        intro d hd
        obtain ⟨hpost, hcut⟩ := hseal d hd
        exact ⟨⟨hpost.receiving, fun a _ _ => hpost⟩, hcut⟩

theorem handleDelete_triple {m : DeleteMsg} (hkey : m.key = k) :
    Prog.Triple (Receiving b k none) (handleDelete noFaults none m) (Answered b k)
      (Recovers b k) := by
  subst hkey
  rw [handleDelete_noFaults]
  have hmarker : Prog.Triple (Receiving b m.key none)
      (Disk.removeFile (markerName (shardFileName m.key)))
      (fun _ => Disk.Absent (markerName (shardFileName m.key))) (Recovers b m.key) := by
    intro d hd
    obtain ⟨hpost, hcut⟩ := Disk.removeFile_triple _ d ⟨hd.markerQuiet, rfl⟩
    obtain ⟨-, hfile⟩ :=
        Disk.removeFile_frame (marker_ne_file m.key).symm d d (Disk.SameFile.refl d)
    refine ⟨hpost, fun x hx d' hc => ?_⟩
    by_cases hgone : d'.durable.get (markerName (shardFileName m.key)) = none
    · exact receiving_of_absent ⟨hgone, hc.quiet _⟩
    · -- the marker is still there, and so is the file
      have hkept := (hcut x hx d' hc).resolve_right hgone
      have hsealed := (hd.marked (hkept ▸ hgone)).2
      have hquiet := (hfile x hx).2.trans hsealed.fileQuiet
      have hfile' := (hc.durable_eq hquiet).trans ((hfile x hx).1.trans hsealed.file)
      exact Sealed.receiving ⟨hgone, hc.quiet _, hfile', hc.quiet _, hsealed.nonempty⟩
  refine Prog.Triple.bind hmarker (fun _ => Prog.Triple.bind
    ((removeFile_keeps_absent (marker_ne_file m.key)).cut
      (fun x hx => (receiving_of_absent hx).crash))
    (fun _ => Prog.Triple.pure (fun d hd => ?_)))
  exact answered_of_staged (receiving_of_absent hd) (fun a ha => by cases ha)

variable {req : Request}

theorem handle_triple (hkey : req.key = k) (hcarries : req.Carries b)
    (hdelete : ∀ m, req = .delete m → st = none) :
    Prog.Triple (Receiving b k st) (handle noFaults st req) (Answered b k) (Recovers b k) := by
  cases req with
  | chunk m => exact handleChunk_triple hkey hcarries
  | commit m => exact handleCommit_triple hkey hcarries
  | delete m =>
    obtain rfl := hdelete m rfl
    exact handleDelete_triple hkey

theorem sealed_triple (hkey : req.key = k) (hcarries : req.Carries b)
    (hdelete : ∀ m, req ≠ .delete m) :
    Prog.Keeps (Sealed b k) (handle noFaults none req) := by
  subst hkey
  -- the handler finds the marker
  have hlook : ∀ {k : ShardKey} {f : Bool → Prog Disk Handled}, Prog.Keeps (Sealed b k) (f true) →
      Prog.Keeps (Sealed b k) (committed false k >>= f) := by
    intro k f hf
    refine Prog.Triple.bind (Q := fun c d => c = true ∧ Sealed b k d)
      (Prog.Triple.look (fun d hd => hd) (fun d hd => ⟨?_, hd⟩)) (fun c d hd => ?_)
    · rw [Bool.not_false, Bool.true_and, hd.receiving.readFile_marker, Option.isSome_iff_ne_none]
      exact hd.marker
    · rw [hd.1]
      exact hf d hd.2
  cases req with
  | chunk m => exact hlook (.pure _)
  | commit m =>
    intro d hd
    have hzero : m.length ≠ 0 := by
      rw [show m.length = b.length from hcarries]
      exact fun h => hd.nonempty (List.length_eq_zero_iff.mp h)
    have hrest : Prog.Keeps (Sealed b m.key) (handleCommit noFaults none m) := by
      unfold handleCommit
      rw [if_neg hzero]
      exact hlook (.pure _)
    exact hrest d hd
  | delete m => exact absurd rfl (hdelete m)

/-! ## The other shards -/

theorem tryRemove_frame {name other : Bytes} (hne : other ≠ name) (f : Faults) (d₀ : Disk) :
    Prog.Keeps (Disk.SameFile other d₀) (tryRemove f name) := by
  refine .bind (Prog.Triple.act (fun d hd => hd) (fun d hd => ?_)) (fun removed => ?_)
  · split_ifs
    · exact hd
    · split
      · exact hd
      · rename_i d' hremove
        exact hd.trans (Disk.sameFile_remove hne hremove)
  · split
    · exact .pure _
    · exact .pure _
    · exact .attempt _ (fun d hd => hd.trans (d.sameFile_sync hne))

theorem handle_frame {other : Bytes} (hfile : other ≠ shardFileName req.key)
    (hmarker : other ≠ markerName (shardFileName req.key)) (f : Faults) (d₀ : Disk) :
    Prog.Keeps (Disk.SameFile other d₀) (handle f st req) := by
  have hfail : ∀ f stream err, Prog.Keeps (Disk.SameFile other d₀) (fail f req.key stream err) :=
    fun f _ _ => .bind (tryRemove_frame hfile f d₀) (fun _ => .pure _)
  cases req with
  | chunk m =>
    have hstart : ∀ fails old, Prog.Keeps (Disk.SameFile other d₀) (startStaging fails old m) := by
      intro fails old
      refine .bind (.attempt _ (fun d hd => hd.trans (d.sameFile_writeFile hfile m.data)))
        (fun ok => ?_)
      split_ifs <;> exact .pure _
    show Prog.Keeps _ (handleChunk f st m)
    unfold handleChunk
    cases st with
    | none =>
      refine .bind (.look _) (fun c => ?_)
      split_ifs
      · exact .pure _
      · exact hstart _ _
      · exact .pure _
    | some st =>
      dsimp only
      split_ifs
      · refine .bind (.attempt _ (fun d hd => hd.trans (d.sameFile_append hfile m.data)))
          (fun ok => ?_)
        split_ifs
        · exact .pure _
        · exact hfail _ _ _
      · exact .pure _
      · exact hstart _ _
      · exact .pure _
  | commit m =>
    show Prog.Keeps _ (handleCommit f st m)
    unfold handleCommit
    split_ifs
    · exact hfail _ _ _
    · cases st with
      | none =>
        refine .bind (.look _) (fun c => ?_)
        split_ifs <;> exact .pure _
      | some st =>
        dsimp only
        split_ifs
        · exact .pure _
        · exact .pure _
        · exact hfail _ _ _
        · refine .bind (.attempt _ (fun d hd => hd.trans (d.sameFile_sync hfile))) (fun ok => ?_)
          split_ifs
          · refine .bind (.attempt _ (fun d hd => hd.trans (d.sameFile_writeFile hmarker [])))
              (fun ok => ?_)
            split_ifs
            · refine .bind (.attempt _ (fun d hd => hd.trans (d.sameFile_sync hmarker)))
                (fun ok => ?_)
              split_ifs
              · exact .pure _
              · exact hfail _ _ _
            · exact hfail _ _ _
          · exact hfail _ _ _
  | delete m =>
    refine .bind (tryRemove_frame hmarker f d₀) (fun ok => ?_)
    split_ifs
    · refine .bind (tryRemove_frame hfile _ d₀) (fun ok => ?_)
      split_ifs <;> exact .pure _
    · exact .pure _

/-- Every ack that a handler can answer with has this key and this stream. -/
def Acks (k : ShardKey) (stream : Nat) (r : Handled) : Prop :=
  ∀ a, r.2 = some (.writeAck a) → a.key = k ∧ a.stream = stream

theorem acks_writeAck {stream : Nat} {a : WriteAckMsg} (hkey : a.key = k)
    (hstream : a.stream = stream) :
    Acks k stream (st, some (.writeAck a)) := by
  intro a' ha
  cases ha
  exact ⟨hkey, hstream⟩

theorem acks_silent (stream : Nat) : Acks k stream (st, none) := by
  intro a ha
  cases ha

theorem handleChunk_acks (f : Faults) (st : Option Staging) (m : ChunkMsg) (d : Disk) :
    Acks m.key m.stream ((handleChunk f st m).value d) := by
  have hstart : ∀ fails old, Acks m.key m.stream ((startStaging fails old m).value d) := by
    intro fails old
    rw [startStaging, Prog.value_bind]
    split_ifs <;> exact acks_writeAck rfl rfl
  unfold handleChunk
  cases st with
  | none =>
    rw [Prog.value_bind]
    split_ifs
    · exact acks_writeAck rfl rfl
    · exact hstart _ _
    · exact acks_silent m.stream
  | some st =>
    dsimp only
    split_ifs with hstream
    · rw [Prog.value_bind]
      split_ifs <;> exact acks_writeAck rfl hstream
    · exact acks_writeAck rfl hstream
    · exact hstart _ _
    · exact acks_silent m.stream

theorem handleCommit_acks (f : Faults) (st : Option Staging) (m : CommitMsg) (d : Disk) :
    Acks m.key m.stream ((handleCommit f st m).value d) := by
  unfold handleCommit
  split_ifs
  · exact acks_writeAck rfl rfl
  · cases st with
    | none =>
      dsimp only
      rw [Prog.value_bind]
      split_ifs
      · exact acks_writeAck rfl rfl
      · exact acks_silent m.stream
    | some st =>
      dsimp only
      split_ifs with hstream hstaged hhash
      · exact acks_silent m.stream
      · exact acks_writeAck rfl (not_not.mp hstream).symm
      · exact acks_writeAck rfl (not_not.mp hstream).symm
      · rw [Prog.value_bind]
        split_ifs
        · rw [Prog.value_bind]
          split_ifs
          · rw [Prog.value_bind]
            split_ifs <;> exact acks_writeAck rfl (not_not.mp hstream).symm
          · exact acks_writeAck rfl (not_not.mp hstream).symm
        · exact acks_writeAck rfl (not_not.mp hstream).symm

theorem handleDelete_acks (f : Faults) (st : Option Staging) (m : DeleteMsg) (d : Disk)
    (a : WriteAckMsg) : ((handleDelete f st m).value d).2 ≠ some (.writeAck a) := by
  rw [handleDelete, Prog.value_bind]
  split_ifs
  · rw [Prog.value_bind]
    split_ifs <;> nofun
  · nofun

end Handlers

end Hamster.Datapath
