import Hamster.Raftnode.MemoryStorage
import Hamster.Raftnode.RaftLog

/-!
# The raft log over crashes

`Reaches` is the raft log of a node over its lifetime: it persists Readys,
rotates, crashes in any of these and recovers.  It carries the records whose
`Append` returned, from the first boot on, and the one that the last crash cut
short.

The invariant compares three things that a rotation drives apart: the records
of the whole lifetime, those in the log file, and the storage in memory.
Replaying either list gives what the storage holds (`Restores`), and that is
what `recover_restores_acknowledged` needs after a crash.  It holds as long as
`Open` can read what `Append` accepts, which it cannot for a record of 2^31
bytes or more.  A node whose metadata has grown to that size writes such a
record when it compacts its log.
-/

namespace Hamster.Raftnode

open CodeLib Seam Wal

section Library

variable [Protowire] [Raft]

def contentsOf (raws : List Bytes) : Option Contents :=
  match replay raws with
  | .error _ => none
  | .ok st => some (Raft.contents st)

/-- A record that a crash cut short counts as acknowledged from the moment
that a recovery brings it back. -/
def settle (acked : List Bytes) (flight : Option Bytes) (found : List Bytes) :
    List Bytes :=
  match flight with
  | none => acked
  | some r => if contentsOf found = contentsOf (acked ++ [r]) then acked ++ [r] else acked

/-- The raft log over any history of Readys, rotations, crashes and
recoveries.  The arguments are: the log of the running node, the records whose
`Append` returned, the record whose `Append` the last crash cut short, and the
disk.  `Ok` says which records a node in a given state may write. -/
inductive Reaches (Ok : RaftLog → Record → Prop) :
    Option RaftLog → List Bytes → Option Bytes → Disk → Prop
  | start {d : Disk} (hquiet : ∀ name, d.staged.get name = none)
      (hfiles : ∀ name, logPrefix <+: name → d.durable.get name = none) : Reaches Ok none [] none d
  | recovered {acked : List Bytes} {flight : Option Bytes} {d : Disk}
      {choice : LogChoice} {rl : RaftLog} (h : Reaches Ok none acked flight d)
      (hrecover : recover.value d = .ok (choice, rl)) :
      Reaches Ok (some rl) (settle acked flight choice.records) none (recover.final d)
  | persisted {acked : List Bytes} {d : Disk} {rl : RaftLog} {st : Raft.Storage}
      (h : Reaches Ok (some rl) acked none d) (rd : Ready) (hok : Ok rl rd.record)
      (hstore : storeEntries rl.storage rd.entries rd.hardState = some st) :
      Reaches Ok (some { rl with storage := st }) (acked ++ [encodeRecord rd.record]) none
        ((persistReady rl rd).final d)
  | rotated {acked : List Bytes} {d : Disk} {rl rl' : RaftLog} {st : Raft.Storage}
      {rec : Record} (h : Reaches Ok (some rl) acked none d) (rot : Rotation) (hok : Ok rl rec)
      (hplan : rot.plan rl.storage = some (st, rec))
      (hrotate : (rotateLog rl rot).value d = some rl') :
      Reaches Ok (some rl') (acked ++ [encodeRecord rec]) none ((rotateLog rl rot).final d)
  | elsewhere {acked : List Bytes} {d d' : Disk} {rl : RaftLog}
      (h : Reaches Ok (some rl) acked none d)
      (hsame : ∀ name, logPrefix <+: name → Disk.SameFile name d d') :
      Reaches Ok (some rl) acked none d'
  | crashed {up : Option RaftLog} {acked : List Bytes} {flight : Option Bytes}
      {d d' : Disk} (h : Reaches Ok up acked flight d) (hc : Disk.CrashesTo d d') :
      Reaches Ok none acked flight d'
  | crashedInPersist {acked : List Bytes} {d x d' : Disk} {rl : RaftLog} {st : Raft.Storage}
      (h : Reaches Ok (some rl) acked none d) (rd : Ready) (hok : Ok rl rd.record)
      (hstore : storeEntries rl.storage rd.entries rd.hardState = some st)
      (hx : x ∈ (persistReady rl rd d).points) (hc : Disk.CrashesTo x d') :
      Reaches Ok none acked (some (encodeRecord rd.record)) d'
  | crashedInStart {acked : List Bytes} {d x d' : Disk} {rl : RaftLog} {st : Raft.Storage}
      {rec : Record} (h : Reaches Ok (some rl) acked none d) (rot : Rotation) (hok : Ok rl rec)
      (hplan : rot.plan rl.storage = some (st, rec))
      (hx : x ∈ (startLog rl.logSeq (encodeRecord rec) d).points) (hc : Disk.CrashesTo x d') :
      Reaches Ok none acked (some (encodeRecord rec)) d'
  | crashedInRemove {acked : List Bytes} {d x d' : Disk} {rl : RaftLog} {st : Raft.Storage}
      {rec : Record} (h : Reaches Ok (some rl) acked none d) (rot : Rotation) (hok : Ok rl rec)
      (hplan : rot.plan rl.storage = some (st, rec))
      (hx : x ∈ (removeLog rl.logSeq ((startLog rl.logSeq (encodeRecord rec)).final d)).points)
      (hc : Disk.CrashesTo x d') : Reaches Ok none (acked ++ [encodeRecord rec]) none d'
  | crashedInRecover {acked : List Bytes} {flight : Option Bytes} {d x d' : Disk}
      (h : Reaches Ok none acked flight d) (hx : x ∈ (recover d).points)
      (hbetween : BetweenRewrites x) (hc : Disk.CrashesTo x d') : Reaches Ok none acked flight d'

/-- The record can be read back, its snapshot can be decoded, and there is a number
for one more file. -/
structure Sized (rl : RaftLog) (rec : Record) : Prop where
  short : (encodeRecord rec).length < 2 ^ 31
  decodes : (decodeSnapshotData rec.snap.data).isOk = true
  numbered : rl.logSeq.toNat + 1 < 2 ^ 64

/-! ## Replaying records -/

variable {rot : Rotation}

section Replaying

variable {acked file raws raws' : List Bytes} {c : Contents}

theorem replayFrom_cons (i : Nat) (st : Raft.Storage) (raw : Bytes) :
    replayFrom i st (raw :: raws) =
      match decodeRecord raw with
      | .error _ => .error (.replay i)
      | .ok rec =>
        match storeRecord st rec with
        | none => .error (.replay i)
        | some st' => replayFrom (i + 1) st' raws := rfl

variable {st' : Raft.Storage}

theorem replayFrom_append (i : Nat) (st : Raft.Storage) (h : replayFrom i st raws = .ok st') :
    replayFrom i st (raws ++ raws') = replayFrom (i + raws.length) st' raws' := by
  induction raws generalizing i st with
  | nil =>
    cases h
    rfl
  | cons raw raws ih =>
    rw [replayFrom_cons] at h
    rw [List.cons_append, replayFrom_cons]
    cases hdecode : decodeRecord raw with
    | error e =>
      rw [hdecode] at h
      cases h
    | ok rec =>
      rw [hdecode] at h
      dsimp only at h ⊢
      cases hstore : storeRecord st rec with
      | none =>
        rw [hstore] at h
        cases h
      | some st₁ =>
        rw [hstore] at h
        dsimp only at h ⊢
        rw [ih (i + 1) st₁ h, List.length_cons, Nat.add_assoc, Nat.add_comm 1]

theorem exists_of_contentsOf (h : contentsOf raws = some c) :
    ∃ st, replay raws = .ok st ∧ Raft.contents st = c := by
  unfold contentsOf at h
  cases hreplay : replay raws with
  | error e =>
    rw [hreplay] at h
    cases h
  | ok st =>
    rw [hreplay] at h
    exact ⟨st, rfl, Option.some.inj h⟩

variable [LawfulProtowire] [LawfulRaft] {rec : Record}

theorem contentsOf_concat {c' : Contents} (h : contentsOf raws = some c)
    (hsize : (encodeRecord rec).length < 2 ^ 63)
    (hstore : ∀ st, Raft.contents st = c →
      ∃ st', storeRecord st rec.written = some st' ∧ Raft.contents st' = c') :
    contentsOf (raws ++ [encodeRecord rec]) = some c' := by
  obtain ⟨st, hreplay, hcontents⟩ := exists_of_contentsOf h
  obtain ⟨st', hnext, hcontents'⟩ := hstore st hcontents
  have hone : replay (raws ++ [encodeRecord rec]) = .ok st' := by
    rw [replay, replayFrom_append 0 _ hreplay, replayFrom, decodeRecord_encodeRecord hsize]
    dsimp only
    rw [hnext]
    rfl
  rw [contentsOf, hone, ← hcontents']

omit [LawfulProtowire] in
theorem contentsOf_nil : contentsOf [] = some {} := by
  rw [← LawfulRaft.contents_new]
  rfl

variable {st : Raft.Storage}

theorem contentsOf_persist {rd : Ready} (h : contentsOf raws = some (Raft.contents st))
    (hsize : (encodeRecord rd.record).length < 2 ^ 63)
    (hstore : storeEntries st rd.entries rd.hardState = some st') :
    contentsOf (raws ++ [encodeRecord rd.record]) = some (Raft.contents st') := by
  have hempty : Raft.isEmptySnap rd.record.written.snap = true := by
    have hnone : Raft.isEmptySnap ({} : Snapshot) = true :=
      (LawfulRaft.isEmptySnap_iff _).mpr rfl
    show Raft.isEmptySnap (if Raft.isEmptySnap ({} : Snapshot) then {} else {}) = true
    rw [if_pos hnone]
    exact hnone
  refine contentsOf_concat h hsize (fun st₀ hsame => ?_)
  refine storeRecord_congr hsame.symm hempty ?_
  rw [storeRecord_of_empty hempty]
  exact hstore

omit [LawfulProtowire] [LawfulRaft] in
theorem Frames.written (h : Frames rec st) : rec.written = rec := by
  rw [Record.written, if_neg (by simp [h.snapshot])]

theorem Frames.holdsSnapshot (h : Frames rec st) (hsize : (encodeRecord rec).length < 2 ^ 63) :
    holdsSnapshot (encodeRecord rec) = true := by
  rw [Raftnode.holdsSnapshot, decodeRecord_encodeRecord hsize, h.written]
  simp [h.snapshot]

/-- After a rotation the frame alone replays to the storage, and so do all
records with the frame at their end. -/
theorem contentsOf_rotate (h : contentsOf acked = some (Raft.contents st))
    (hplan : rot.plan st = some (st', rec)) (hsize : (encodeRecord rec).length < 2 ^ 63)
    (hdecodes : (decodeSnapshotData rec.snap.data).isOk = true) :
    contentsOf [encodeRecord rec] = some (Raft.contents st') ∧
      contentsOf (acked ++ [encodeRecord rec]) = some (Raft.contents st') := by
  obtain ⟨hframes, hnewer, hhs⟩ := Rotation.frames hplan hdecodes
  constructor
  · refine contentsOf_concat contentsOf_nil hsize (fun st₀ hnew => ?_)
    rw [hframes.written]
    refine hframes.storeRecord ?_ (fun _ => by rw [hnew])
    rw [hnew]
    exact UInt64.lt_of_le_of_lt UInt64.zero_le hnewer
  · refine contentsOf_concat h hsize (fun st₀ hsame => ?_)
    rw [hframes.written]
    refine hframes.storeRecord ?_ (fun hnil => ?_)
    · rw [hsame]
      exact hnewer
    · rw [hsame]
      exact hhs hnil

end Replaying

/-! ## Recovery -/

section Recovery

variable {s : UInt64} {rs : List Bytes} {st : Raft.Storage}

/-- `recover` finds the records, replays them and leaves one log file.  A file
that it removes is older than the selected one or holds no record. -/
theorem recover_triple (d₀ : Disk) (hreplay : replay rs = .ok st) :
    Prog.Triple (fun d => d = d₀ ∧ Stored rs d) recover
      (fun out d => ∃ choice, out = .ok (choice, ⟨st, choice.seq⟩) ∧ choice.records = rs ∧
        OneLog choice.seq rs d ∧
        ∀ seq ∈ choice.others, seq < choice.seq ∨ (openLog (logName seq)).value d₀ = [])
      (fun x => BetweenRewrites x → ∀ d', Disk.CrashesTo x d' → Stored rs d') := by
  refine Prog.Triple.bind ((findLog_triple d₀).cut
    (fun x hx hbetween d' hc => (hx hbetween).crash hc)) (fun found => ?_)
  rintro d ⟨choice, rfl, hrecords, hclearing, hothers⟩
  dsimp only
  rw [hrecords, hreplay]
  obtain ⟨hone, hcut⟩ := removeLogs_triple d hclearing
  refine ⟨⟨choice, rfl, hrecords, hone, hothers⟩, fun x hx _ => hcut x ?_⟩
  have hx' : x ∈ (removeLogs choice.others d).points ++ [] := hx
  rwa [List.append_nil] at hx'

end Recovery

/-! ## Lifetimes -/

/-- A running node: its log file and all acknowledged records replay to its
storage. -/
structure Running (rl : RaftLog) (acked : List Bytes) (d : Disk) : Prop where
  file : ∃ file, OneLog rl.logSeq file d ∧ contentsOf file = some (Raft.contents rl.storage)
  acked : contentsOf acked = some (Raft.contents rl.storage)

/-- A node that is down: the file that a recovery will find replays to what
the acknowledged records replay to, with the one cut short or without. -/
def Recoverable (acked : List Bytes) (flight : Option Bytes) (d : Disk) : Prop :=
  ∃ file c, Stored file d ∧ contentsOf file = some c ∧
    (contentsOf acked = some c ∨ ∃ r, flight = some r ∧ contentsOf (acked ++ [r]) = some c)

def Safe : Option RaftLog → List Bytes → Option Bytes → Disk → Prop
  | some rl, acked, _, d => Running rl acked d
  | none, acked, flight, d => Recoverable acked flight d

section Lifetimes

variable {rl rl' : RaftLog} {acked : List Bytes} {flight : Option Bytes}
variable {up : Option RaftLog} {d d' x : Disk} {rec : Record} {st : Raft.Storage}

theorem Running.crash (h : Running rl acked d) (hc : Disk.CrashesTo d d') :
    Recoverable acked flight d' := by
  obtain ⟨file, hone, hfile⟩ := h.file
  exact ⟨file, _, hone.crash hc, hfile, Or.inl h.acked⟩

theorem Recoverable.crash (h : Recoverable acked flight d) (hc : Disk.CrashesTo d d') :
    Recoverable acked flight d' := by
  obtain ⟨file, c, hstored, hrest⟩ := h
  exact ⟨file, c, hstored.crash hc, hrest⟩

theorem Running.elsewhere (h : Running rl acked d)
    (hsame : ∀ name, logPrefix <+: name → Disk.SameFile name d d') : Running rl acked d' := by
  obtain ⟨file, hone, hfile⟩ := h.file
  refine ⟨⟨file, ⟨hone.short, ?_, hone.file.of_sameFile (hsame _ (logPrefix_isPrefix _)), ?_⟩,
    hfile⟩, h.acked⟩
  · intro name hname hpresent
    exact hone.named name hname (fun habsent => hpresent ((hsame name hname).absent habsent))
  · intro seq hne
    exact (hsame _ (logPrefix_isPrefix _)).absent (hone.others seq hne)

theorem contentsOf_settle {file : List Bytes} {c : Contents} (hfile : contentsOf file = some c)
    (h : contentsOf acked = some c ∨ ∃ r, flight = some r ∧ contentsOf (acked ++ [r]) = some c) :
    contentsOf (settle acked flight file) = some c := by
  cases flight with
  | none =>
    rcases h with hacked | ⟨r, hr, -⟩
    · exact hacked
    · cases hr
  | some r =>
    rw [settle]
    split
    · rename_i hback
      exact hback.symm.trans hfile
    · rename_i hnot
      rcases h with hacked | ⟨r', hr, hback⟩
      · exact hacked
      · cases hr
        exact absurd (hfile.trans hback.symm) hnot

theorem Recoverable.recover (h : Recoverable acked flight d) :
    ∃ choice rl, recover.value d = .ok (choice, rl) ∧
      Running rl (settle acked flight choice.records) (recover.final d) ∧
      (contentsOf acked = some (Raft.contents rl.storage) ∨
        ∃ r, flight = some r ∧ contentsOf (acked ++ [r]) = some (Raft.contents rl.storage)) ∧
      (∀ seq ∈ choice.others, seq < choice.seq ∨ (openLog (logName seq)).value d = []) ∧
      ∀ x ∈ (recover d).points, BetweenRewrites x → ∀ d', Disk.CrashesTo x d' →
        Recoverable acked flight d' := by
  obtain ⟨file, c, hstored, hfile, hacked⟩ := h
  obtain ⟨st, hreplay, hcontents⟩ := exists_of_contentsOf hfile
  obtain ⟨⟨choice, hvalue, hrecords, hone, hothers⟩, hcut⟩ :=
    recover_triple d hreplay d ⟨rfl, hstored⟩
  refine ⟨choice, ⟨st, choice.seq⟩, hvalue, ⟨⟨file, hone, ?_⟩, ?_⟩, ?_, hothers, ?_⟩
  · rw [hfile, ← hcontents]
  · rw [hrecords, contentsOf_settle hfile hacked, ← hcontents]
  · show contentsOf acked = some (Raft.contents st) ∨
      ∃ r, flight = some r ∧ contentsOf (acked ++ [r]) = some (Raft.contents st)
    rw [hcontents]
    exact hacked
  · intro x hx hbetween d' hc
    exact ⟨file, c, hcut x hx hbetween d' hc, hfile, hacked⟩

theorem rotateLog_run {file : List Bytes} (hone : OneLog rl.logSeq file d)
    (hplan : rot.plan rl.storage = some (st, rec)) :
    (rotateLog rl rot).value d = some ⟨st, rl.logSeq + 1⟩ ∧
      (rotateLog rl rot).final d =
        (removeLog rl.logSeq ((startLog rl.logSeq (encodeRecord rec)).final d)).final := by
  have hrotate : Raftnode.rotate rl.logSeq (encodeRecord rec) d =
      ⟨some (rl.logSeq + 1),
        (removeLog rl.logSeq ((startLog rl.logSeq (encodeRecord rec)).final d)).final,
        (startLog rl.logSeq (encodeRecord rec) d).points ++
          ((removeLog rl.logSeq ((startLog rl.logSeq (encodeRecord rec)).final d)).points ++
            [])⟩ := by
    rw [Raftnode.rotate, Prog.bind_apply, Prog.final, startLog_run hone]
    rfl
  simp only [rotateLog, hplan]
  rw [Prog.value, Prog.final, Prog.run_bind _ _ _ hrotate]
  exact ⟨rfl, rfl⟩

variable [LawfulProtowire] [LawfulRaft]

theorem Running.persist {rd : Ready} (h : Running rl acked d)
    (hsize : (encodeRecord rd.record).length < 2 ^ 31)
    (hstore : storeEntries rl.storage rd.entries rd.hardState = some st) :
    Running { rl with storage := st } (acked ++ [encodeRecord rd.record])
        ((persistReady rl rd).final d) ∧
      ∀ x ∈ (persistReady rl rd d).points, ∀ d', Disk.CrashesTo x d' →
        Recoverable acked (some (encodeRecord rd.record)) d' := by
  obtain ⟨file, hone, hfile⟩ := h.file
  have hsize' : (encodeRecord rd.record).length < 2 ^ 63 := by omega
  have hacked := contentsOf_persist h.acked hsize' hstore
  have hfile' := contentsOf_persist hfile hsize' hstore
  obtain ⟨hpost, hcut⟩ := appendLog_triple hsize d hone
  refine ⟨⟨⟨_, hpost, hfile'⟩, hacked⟩, fun x hx d' hc => ?_⟩
  have hx' : x ∈ (Wal.append (logName rl.logSeq) (encodeRecord rd.record) d).points := by
    have hx'' : x ∈ (Wal.append (logName rl.logSeq) (encodeRecord rd.record) d).points ++ [] := hx
    rwa [List.append_nil] at hx''
  rcases hcut x hx' d' hc with hold | hnew
  · exact ⟨_, _, hold, hfile, Or.inl h.acked⟩
  · exact ⟨_, _, hnew, hfile', Or.inr ⟨_, rfl, hacked⟩⟩

theorem Running.rotate (h : Running rl acked d) (hsized : Sized rl rec)
    (hplan : rot.plan rl.storage = some (st, rec)) :
    (rotateLog rl rot).value d = some ⟨st, rl.logSeq + 1⟩ ∧
      Running ⟨st, rl.logSeq + 1⟩ (acked ++ [encodeRecord rec]) ((rotateLog rl rot).final d) ∧
      (∀ x ∈ (startLog rl.logSeq (encodeRecord rec) d).points, ∀ d', Disk.CrashesTo x d' →
        Recoverable acked (some (encodeRecord rec)) d') ∧
      ∀ x ∈ (removeLog rl.logSeq ((startLog rl.logSeq (encodeRecord rec)).final d)).points,
        ∀ d', Disk.CrashesTo x d' → Recoverable (acked ++ [encodeRecord rec]) none d' := by
  obtain ⟨hsize, hdecodes, hseq⟩ := hsized
  obtain ⟨file, hone, hfile⟩ := h.file
  have hsize' : (encodeRecord rec).length < 2 ^ 63 := by omega
  obtain ⟨hframe, hacked⟩ := contentsOf_rotate h.acked hplan hsize' hdecodes
  have hsnap := (Rotation.frames hplan hdecodes).1.holdsSnapshot hsize'
  obtain ⟨⟨hvalue, htwo⟩, hstart⟩ := startLog_triple hseq hsize hsnap d hone
  obtain ⟨hremoved, hremove⟩ := removeOld_triple hseq hsize hsnap _ htwo
  obtain ⟨hrun, hfinal⟩ := rotateLog_run hone hplan
  rw [hfinal]
  refine ⟨hrun, ⟨⟨_, hremoved, hframe⟩, hacked⟩, fun x hx d' hc => ?_, fun x hx d' hc => ?_⟩
  · rcases hstart x hx d' hc with hold | hnew
    · exact ⟨_, _, hold, hfile, Or.inl h.acked⟩
    · exact ⟨_, _, hnew, hframe, Or.inr ⟨_, rfl, hacked⟩⟩
  · exact ⟨_, _, hremove x hx d' hc, hframe, Or.inl hacked⟩

theorem Reaches.safe (h : Reaches Sized up acked flight d) : Safe up acked flight d := by
  induction h with
  | @start d hquiet hfiles =>
    refine ⟨[], {}, ⟨by simp [Short], hquiet, ?_, Or.inl ⟨rfl, ?_⟩⟩, contentsOf_nil,
      Or.inl contentsOf_nil⟩
    · intro name hname hpresent
      exact absurd ⟨hfiles name hname, hquiet name⟩ hpresent
    · exact fun seq => hfiles _ (logPrefix_isPrefix seq)
  | recovered _ hrecover ih =>
    obtain ⟨choice', rl', hvalue, hrunning, -⟩ := Recoverable.recover ih
    rw [hrecover] at hvalue
    cases hvalue
    exact hrunning
  | persisted _ rd hok hstore ih => exact (Running.persist ih hok.short hstore).1
  | rotated _ rot hok hplan hrotate ih =>
    obtain ⟨hvalue, hrunning, -⟩ := Running.rotate ih hok hplan
    rw [hrotate] at hvalue
    cases hvalue
    exact hrunning
  | elsewhere _ hsame ih => exact Running.elsewhere ih hsame
  | @crashed up acked flight d d' _ hc ih =>
    cases up with
    | none => exact Recoverable.crash ih hc
    | some rl => exact Running.crash ih hc
  | crashedInPersist _ rd hok hstore hx hc ih =>
    exact (Running.persist ih hok.short hstore).2 _ hx _ hc
  | crashedInStart _ rot hok hplan hx hc ih =>
    exact (Running.rotate ih hok hplan).2.2.1 _ hx _ hc
  | crashedInRemove _ rot hok hplan hx hc ih =>
    exact (Running.rotate ih hok hplan).2.2.2 _ hx _ hc
  | crashedInRecover _ hx hbetween hc ih =>
    obtain ⟨-, -, -, -, -, -, hcut⟩ := Recoverable.recover ih
    exact hcut _ hx hbetween _ hc

/-- Whenever a node is down, the next `recover` succeeds.  Its replay gives
the hard state, the snapshot and the entries of all records whose `Append`
returned, or of these and the one cut short.  The files it removes are older
than the selected one or hold no record. -/
theorem recover_restores_acknowledged (h : Reaches Sized none acked flight d) :
    ∃ choice rl, recover.value d = .ok (choice, rl) ∧
      (contentsOf acked = some (Raft.contents rl.storage) ∨
        ∃ r, flight = some r ∧ contentsOf (acked ++ [r]) = some (Raft.contents rl.storage)) ∧
      ∀ seq ∈ choice.others, seq < choice.seq ∨ (openLog (logName seq)).value d = [] := by
  obtain ⟨choice, rl, hvalue, -, hacked, hothers, -⟩ := Recoverable.recover h.safe
  exact ⟨choice, rl, hvalue, hacked, hothers⟩

omit [LawfulProtowire] in
/-- A rotation to a frame that `Open` cannot read: the next recovery starts
from nothing. -/
theorem Running.lost (h : Running rl acked d) (hplan : rot.plan rl.storage = some (st, rec))
    (hlong : 2 ^ 31 ≤ (encodeRecord rec).length)
    (hsize : (encodeRecord rec).length < 2 ^ 63)
    (hc : Disk.CrashesTo ((rotateLog rl rot).final d) d') :
    ∃ choice rl', recover.value d' = .ok (choice, rl') ∧ Raft.contents rl'.storage = {} := by
  obtain ⟨file, hone, -⟩ := h.file
  obtain ⟨-, hfinal⟩ := rotateLog_run hone hplan
  rw [hfinal] at hc
  have hstored := stored_nil_of_long hone hlong (by omega) hc
  have hreplay : replay [] = .ok Raft.newMemoryStorage := rfl
  obtain ⟨⟨choice, hvalue, -⟩, -⟩ := recover_triple d' hreplay d' ⟨rfl, hstored⟩
  exact ⟨choice, _, hvalue, LawfulRaft.contents_new⟩

end Lifetimes

end Library

/-! ## A store that grows -/

section Buckets

open Meta

theorem applyMem_createBucket {s : Store} {p : CreateBucket}
    (hname : validateBucketName p.bucket = .ok ()) (hnew : s.get (bucketRowKey p.bucket) = none) :
    applyMem s (.createBucket p) =
      (.ok .nil, s.set (bucketRowKey p.bucket) (.bucketConfig (newBucketConfig p))) := by
  have heval : (applyBody (.createBucket p)).eval s =
      (.ok .nil, s.set (bucketRowKey p.bucket) (.bucketConfig (newBucketConfig p))) := by
    show ((applyCreateBucket p) >>= fun _ => pure ApplyResult.nil).eval s = _
    rw [Tx.eval_bind, applyCreateBucket, Tx.eval_check_bind s _ hname, Tx.eval_get_bind, hnew,
      Tx.eval_failIf_bind, if_neg (by simp)]
    rfl
  rw [applyMem_eq, heval]

def bucketName (i : Nat) : Bytes := (List.range 32).map (fun k => if i.testBit k then 98 else 97)

def nthBucket (i : Nat) : CreateBucket := ⟨1, bucketName i, false⟩

theorem mem_bucketName {i : Nat} {c : UInt8} (h : c ∈ bucketName i) : c = 97 ∨ c = 98 := by
  obtain ⟨k, -, rfl⟩ := List.mem_map.mp h
  split_ifs
  · exact Or.inr rfl
  · exact Or.inl rfl

theorem validate_bucketName (i : Nat) : validateBucketName (bucketName i) = .ok () := by
  have hlen : (bucketName i).length = 32 := by simp [bucketName]
  rw [validateBucketName, hlen, if_neg (by decide), if_neg]
  rw [List.any_eq_true]
  rintro ⟨⟨c, k⟩, hc, hbad⟩
  obtain rfl | rfl := mem_bucketName (List.fst_mem_of_mem_zipIdx hc) <;> simp [isAlnum] at hbad

theorem bucketName_inj {i j : Nat} (hi : i < 2 ^ 32) (hj : j < 2 ^ 32)
    (h : bucketName i = bucketName j) : i = j := by
  refine Nat.eq_of_testBit_eq (fun k => ?_)
  by_cases hk : k < 32
  · have hbit := List.map_inj_left.mp h k (List.mem_range.mpr hk)
    cases hik : i.testBit k <;> cases hjk : j.testBit k <;> simp_all
  · have hpow : 2 ^ 32 ≤ 2 ^ k := Nat.pow_le_pow_right (by decide) (by omega)
    rw [Nat.testBit_lt_two_pow (by omega), Nat.testBit_lt_two_pow (by omega)]

def bucketsStore (n : Nat) : Store :=
  runMem newStore ((List.range n).map (fun i => .createBucket (nthBucket i)))

def bucketRow (i : Nat) : Bytes × Meta.Record :=
  (bucketRowKey (bucketName i), .bucketConfig (newBucketConfig (nthBucket i)))

theorem bucketsStore_succ {n : Nat} (hnew : (bucketsStore n).get (bucketRow n).1 = none) :
    bucketsStore (n + 1) = (bucketsStore n).set (bucketRow n).1 (bucketRow n).2 := by
  rw [bucketsStore, List.range_succ, List.map_append, runMem, List.foldl_append]
  show (applyMem (bucketsStore n) (.createBucket (nthBucket n))).2 = _
  rw [applyMem_createBucket (validate_bucketName n) hnew]
  rfl

theorem fresh_of_rows {n : Nat} (hn : n < 2 ^ 32)
    (h : ∀ r ∈ (bucketsStore n).rows, ∃ i < n, r = bucketRow i) :
    (bucketsStore n).get (bucketRow n).1 = none := by
  rw [Option.eq_none_iff_forall_ne_some]
  intro v hv
  obtain ⟨i, hi, heq⟩ := h ((bucketRow n).1, v) (SortedKV.mem_rows.mpr hv)
  have hname := List.append_cancel_left (congrArg Prod.fst heq)
  exact absurd (bucketName_inj hn (by omega) hname) (by omega)

theorem rows_bucketsStore {n : Nat} (hn : n ≤ 2 ^ 32) :
    ∀ r ∈ (bucketsStore n).rows, ∃ i < n, r = bucketRow i := by
  induction n with
  | zero => exact fun r hr => absurd hr List.not_mem_nil
  | succ n ih =>
    have hold := ih (by omega)
    have hnew := fresh_of_rows (by omega) hold
    intro r hr
    rw [bucketsStore_succ hnew, (SortedKV.rows_set_perm hnew _).mem_iff, List.mem_cons] at hr
    obtain rfl | hr := hr
    · exact ⟨n, by omega, rfl⟩
    · obtain ⟨i, hi, heq⟩ := hold r hr
      exact ⟨i, by omega, heq⟩

theorem dump_bucketsStore_succ [Protowire] {n : Nat} (hn : n < 2 ^ 32) :
    (dump (bucketsStore (n + 1))).Perm
      (⟨(bucketRow n).1, marshalRecord (bucketRow n).2⟩ :: dump (bucketsStore n)) := by
  have hnew := fresh_of_rows hn (rows_bucketsStore hn.le)
  rw [bucketsStore_succ hnew]
  exact (SortedKV.rows_set_perm hnew _).map _

end Buckets

/-! ## Two lifetimes -/

section Concrete

open Meta

local instance : Protowire := wireFormat

local instance : Raft := memoryRaft

local instance : LawfulProtowire := wireFormat_lawful

local instance : BoundedProtowire := wireFormat_bounded

local instance : LawfulRaft := memoryRaft_lawful

theorem reaches_new (Ok : RaftLog → Record → Prop) :
    Reaches Ok (some ⟨Raft.newMemoryStorage, 1⟩) [] none Disk.newDisk :=
  have hstart : Reaches Ok none [] none Disk.newDisk :=
    Reaches.start (fun _ => rfl) (fun _ _ => rfl)
  have hrecover : recover.value Disk.newDisk =
      .ok (⟨true, 1, [], []⟩, ⟨Raft.newMemoryStorage, 1⟩) := rfl
  hstart.recovered hrecover

theorem running_new : Running ⟨Raft.newMemoryStorage, 1⟩ [] Disk.newDisk :=
  (reaches_new Sized).safe

def encodeCreateBucket (p : CreateBucket) : Bytes :=
  let cmd := putBool (putString [] 1 p.bucket) 2 p.objectLockEnabled
  putMessage (putUvarint (putUvarint [] 1 1) 2 p.proposedAtUnixMS.toUInt64) 3 cmd

def bucketEntry (n : Nat) : Entry :=
  ⟨1, UInt64.ofNat (n + 1), .entryNormal, encodeCreateBucket (nthBucket n)⟩

/-- A node on its own commits the entry of one more bucket. -/
def bucketReady (n : Nat) : Ready where
  hardState := ⟨1, 1, UInt64.ofNat (n + 1)⟩
  entries := [bucketEntry n]
  committedEntries := [bucketEntry n]

def bucketsData (n : Nat) : SnapshotData where
  rows := dump (bucketsStore n)
  members := [(1, ⟨[97], [97]⟩)]

def compaction (n : Nat) : Rotation :=
  .compact (UInt64.ofNat (n + 1)) { voters := [1] } (bucketsData (n + 1))

def compactedFrame (n : Nat) : Record :=
  ⟨⟨1, 1, UInt64.ofNat (n + 1)⟩, [],
    ⟨encodeSnapshotData (bucketsData (n + 1)), ⟨{ voters := [1] }, UInt64.ofNat (n + 1), 1⟩⟩⟩

def compactedStorage (n : Nat) : MemoryStorage :=
  ⟨⟨1, 1, UInt64.ofNat (n + 1)⟩, (compactedFrame n).snap, UInt64.ofNat (n + 1), 1, [], trivial⟩

/-- A storage that was compacted to its last entry. -/
structure Compacted (n : Nat) (st : MemoryStorage) : Prop where
  offset : st.offset = UInt64.ofNat n
  snapshot : st.snapshot.metadata.index ≤ UInt64.ofNat n
  ents : st.ents = []

theorem toNat_index {n : Nat} (hn : n ≤ 2 ^ 32) : (UInt64.ofNat n).toNat = n := by
  rw [UInt64.toNat_ofNat']
  omega

theorem Compacted.next {n : Nat} {st : MemoryStorage} (h : Compacted n st) (hn : n < 2 ^ 32) :
    ∃ st', storeEntries st (bucketReady n).entries (bucketReady n).hardState = some st' ∧
      (compaction n).plan st' = some (compactedStorage n, compactedFrame n) := by
  have hfirst := toNat_index hn.le
  have hnext := toNat_index (show n + 1 ≤ 2 ^ 32 by omega)
  obtain ⟨hs, snap, offset, offsetTerm, ents, hents⟩ := st
  obtain ⟨rfl, hsnap, rfl⟩ := h
  have hindex : (bucketEntry n).index.toNat = (UInt64.ofNat n).toNat + 1 := by
    rw [hfirst]
    exact hnext
  let st' : MemoryStorage := ⟨(bucketReady n).hardState, snap, UInt64.ofNat n, offsetTerm,
    [bucketEntry n], ⟨hindex, trivial⟩⟩
  have happended : MemoryStorage.appended ⟨hs, snap, UInt64.ofNat n, offsetTerm, [], hents⟩
      [bucketEntry n] = some [bucketEntry n] := by
    simp only [MemoryStorage.appended, hindex, Nat.sub_self]
    rfl
  have happend : MemoryStorage.append ⟨hs, snap, UInt64.ofNat n, offsetTerm, [], hents⟩
      [bucketEntry n] = some ⟨hs, snap, UInt64.ofNat n, offsetTerm, [bucketEntry n],
        ⟨hindex, trivial⟩⟩ := by
    rw [MemoryStorage.append, happended]
    exact dif_pos ⟨hindex, trivial⟩
  have hlast : st'.lastIndex = UInt64.ofNat (n + 1) := (UInt64.ofNat_add n 1).symm
  have hlt : UInt64.ofNat n < UInt64.ofNat (n + 1) := by
    rw [UInt64.lt_iff_toNat_lt, hfirst, hnext]
    omega
  have hterm : st'.termAt (UInt64.ofNat (n + 1)) = 1 := by
    rw [MemoryStorage.termAt, if_neg (UInt64.ne_of_lt hlt).symm, hnext]
    show ((List.drop (n + 1 - ((UInt64.ofNat n).toNat + 1)) [bucketEntry n]).head?.map _).getD 0 = _
    rw [hfirst, Nat.sub_self]
    rfl
  have hcreate : st'.createSnapshot (UInt64.ofNat (n + 1)) { voters := [1] }
      (encodeSnapshotData (bucketsData (n + 1))) =
        some ((compactedFrame n).snap, { st' with snapshot := (compactedFrame n).snap }) := by
    rw [MemoryStorage.createSnapshot, if_neg, hterm]
    · rfl
    · rw [hlast, not_or, not_or]
      exact ⟨UInt64.not_le.mpr (UInt64.lt_of_le_of_lt hsnap hlt),
        UInt64.not_lt.mpr (UInt64.le_of_lt hlt), UInt64.lt_irrefl _⟩
  have hcompact : MemoryStorage.compact { st' with snapshot := (compactedFrame n).snap }
      (UInt64.ofNat (n + 1)) = some (compactedStorage n) := by
    rw [MemoryStorage.compact, dif_neg]
    · refine congrArg some (MemoryStorage.ext rfl rfl rfl hterm ?_)
      show List.drop ((UInt64.ofNat (n + 1)).toNat - (UInt64.ofNat n).toNat) [bucketEntry n] = []
      rw [hnext, hfirst, Nat.add_sub_cancel_left]
      rfl
    · show ¬(UInt64.ofNat (n + 1) ≤ UInt64.ofNat n ∨ UInt64.ofNat (n + 1) > st'.lastIndex)
      rw [hlast, not_or]
      exact ⟨UInt64.not_le.mpr hlt, UInt64.lt_irrefl _⟩
  refine ⟨st', ?_, ?_⟩
  · show (MemoryStorage.append _ [bucketEntry n] >>= _) = _
    rw [happend]
    rfl
  · show (st'.createSnapshot _ _ _ >>= _) = _
    rw [hcreate]
    show (MemoryStorage.compact _ _ >>= _) = _
    rw [hcompact]
    show ((if UInt64.ofNat (n + 1) < (compactedStorage n).lastIndex then _ else some []) >>= _) = _
    rw [if_neg]
    · rfl
    · show ¬UInt64.ofNat (n + 1) < UInt64.ofNat (n + 1) + 0
      rw [UInt64.add_zero]
      exact UInt64.lt_irrefl _

/-! ### Sizes -/

theorem length_bucketValue (n : Nat) : (marshalRecord (bucketRow n).2).length ≤ 92 := by
  have hfields : bucketConfigFields (newBucketConfig (nthBucket n)) =
      [⟨1, .varint 1⟩, ⟨2, .bytes (bucketName n)⟩, ⟨3, .varint 1⟩] := rfl
  rw [marshalRecord_eq]
  show (encodeFields (bucketConfigFields (newBucketConfig (nthBucket n))) ++ []).length ≤ 92
  rw [List.append_nil, hfields]
  refine (length_encodeFields_le _).trans (Nat.le_of_eq ?_)
  simp [FieldValue.size, bucketName]

theorem length_bucketRow (n : Nat) :
    let row : EncodedRow := ⟨(bucketRow n).1, marshalRecord (bucketRow n).2⟩
    1 ≤ (snapshotRow row).encode.length ∧ (snapshotRow row).encode.length ≤ 400 := by
  intro row
  have hkey : row.key.length = 34 := by
    show (bucketRowKey (bucketName n)).length = 34
    simp [bucketRowKey, bucketScanPrefix, bucketName]
  have hvalue : row.value.length ≤ 92 := length_bucketValue n
  have hrow : (encodeFields (snapshotRowFields row)).length ≤
      20 + row.key.length + (20 + row.value.length) := by
    refine (length_encodeFields_le _).trans (Nat.le_of_eq ?_)
    simp [snapshotRowFields, FieldValue.size]
  have hlow := length_le_of_mem_fields
    (show (⟨1, .bytes row.key⟩ : Field) ∈ snapshotRowFields row by simp [snapshotRowFields])
  have hone : encodeFields [snapshotRow row] = (snapshotRow row).encode := List.append_nil _
  have hlow' := length_le_of_mem_fields
    (show (⟨2, .bytes (encodeFields (snapshotRowFields row))⟩ : Field) ∈ [snapshotRow row] from
      List.mem_singleton.mpr rfl)
  have hhigh : (encodeFields [snapshotRow row]).length ≤
      20 + (encodeFields (snapshotRowFields row)).length := by
    refine (length_encodeFields_le _).trans (Nat.le_of_eq ?_)
    simp [snapshotRow, FieldValue.size]
  rw [hone] at hlow' hhigh
  omega

theorem length_bucketsData {n : Nat} (hn : n ≤ 2 ^ 32) :
    n ≤ (encodeSnapshotData (bucketsData n)).length ∧
      (encodeSnapshotData (bucketsData n)).length ≤ 100 + 400 * n := by
  induction n with
  | zero => exact ⟨Nat.zero_le _, by decide +kernel⟩
  | succ n ih =>
    have hgrown := length_encodeSnapshotData_of_perm (dump_bucketsStore_succ (n := n) (by omega))
      [(1, ⟨[97], [97]⟩)] []
    have hold := ih (by omega)
    have hrow := length_bucketRow n
    unfold bucketsData at hold ⊢
    omega

theorem length_frame {data : Bytes} (hdata : data ≠ []) {k : UInt64} (hk : k ≠ 0) :
    let frame : Record := ⟨⟨1, 1, k⟩, [], ⟨data, ⟨{ voters := [1] }, k, 1⟩⟩⟩
    data.length ≤ (encodeRecord frame).length ∧
      (encodeRecord frame).length ≤ data.length + 400 := by
  intro frame
  have hsnapshot : ¬Raft.isEmptySnap frame.snap = true := by
    rw [LawfulRaft.isEmptySnap_iff]
    exact hk
  have hfields : recordFields frame =
      [⟨1, .varint recordFormatVersion⟩, ⟨2, .bytes (encodeFields (hardStateFields ⟨1, 1, k⟩))⟩,
        ⟨4, .bytes (encodeFields (snapshotFields frame.snap))⟩] := by
    rw [recordFields, if_neg hsnapshot]
    rfl
  have hsnap : snapshotFields frame.snap =
      [⟨1, .bytes data⟩, ⟨2, .bytes (encodeFields (metadataFields frame.snap.metadata))⟩] := by
    show optionalBytes 1 data ++ _ = _
    rw [optionalBytes, if_neg hdata]
    rfl
  have hhs : (encodeFields (hardStateFields ⟨1, 1, k⟩)).length ≤ 60 := length_encodeFields_le _
  have hconf : (encodeFields (confStateFields { voters := [1] })).length ≤ 40 :=
    length_encodeFields_le _
  have hmeta : (encodeFields (metadataFields frame.snap.metadata)).length ≤
      20 + (encodeFields (confStateFields { voters := [1] })).length + (20 + (20 + 0)) :=
    length_encodeFields_le (metadataFields frame.snap.metadata)
  have hbytes : (encodeFields (snapshotFields frame.snap)).length ≤
      20 + data.length + (20 + (encodeFields (metadataFields frame.snap.metadata)).length) := by
    refine (length_encodeFields_le _).trans (Nat.le_of_eq ?_)
    rw [hsnap]
    simp [FieldValue.size]
  have hframe : (encodeFields (recordFields frame)).length ≤
      20 + (20 + (encodeFields (hardStateFields ⟨1, 1, k⟩)).length +
        (20 + (encodeFields (snapshotFields frame.snap)).length)) := by
    refine (length_encodeFields_le _).trans (Nat.le_of_eq ?_)
    rw [hfields]
    simp [FieldValue.size]
  have hlow := length_le_of_mem_fields
    (show (⟨4, .bytes (encodeFields (snapshotFields frame.snap))⟩ : Field) ∈ recordFields frame by
      rw [hfields]; simp)
  have hlow' := length_le_of_mem_fields
    (show (⟨1, .bytes data⟩ : Field) ∈ snapshotFields frame.snap by rw [hsnap]; simp)
  rw [encodeRecord_eq]
  omega

theorem length_compactedFrame {n : Nat} (hn : n < 2 ^ 32) :
    n < (encodeRecord (compactedFrame n)).length ∧
      (encodeRecord (compactedFrame n)).length < 2 ^ 63 := by
  have hdata := length_bucketsData (show n + 1 ≤ 2 ^ 32 by omega)
  have hne : encodeSnapshotData (bucketsData (n + 1)) ≠ [] := by
    intro hnil
    rw [hnil, List.length_nil] at hdata
    omega
  have hk : UInt64.ofNat (n + 1) ≠ 0 := by
    intro hzero
    have hnext := toNat_index (show n + 1 ≤ 2 ^ 32 by omega)
    rw [hzero] at hnext
    cases hnext
  have hframe := length_frame hne hk
  unfold compactedFrame
  omega

theorem decodes_compactedFrame {n : Nat} (hn : n < 2 ^ 32) :
    (decodeSnapshotData (compactedFrame n).snap.data).isOk = true := by
  have hdata := length_bucketsData (show n + 1 ≤ 2 ^ 32 by omega)
  show (decodeSnapshotData (encodeSnapshotData (bucketsData (n + 1)))).isOk = true
  rw [decodeSnapshotData_encode (by omega)]
  · rfl
  · intro r hr
    obtain ⟨row, hrow, rfl⟩ := List.mem_map.mp hr
    obtain ⟨i, -, rfl⟩ := rows_bucketsStore (by omega) row hrow
    have hname := zero_notMem_of_validateBucketName (validate_bucketName i)
    refine restores_bucketConfig (c := newBucketConfig (nthBucket i)) hname rfl ?_
    exact (length_bucketValue i).trans_lt (by decide)

theorem length_bucketReady (n : Nat) :
    (encodeRecord (bucketReady n).record).length < 2 ^ 31 := by
  have hcmd : (encodeFields [⟨1, .bytes (bucketName n)⟩]).length ≤ 52 := by
    refine (length_encodeFields_le _).trans (Nat.le_of_eq ?_)
    simp [FieldValue.size, bucketName]
  have hdata : (bucketEntry n).data = encodeFields [⟨1, .varint 1⟩, ⟨2, .varint 1⟩,
      ⟨3, .bytes (encodeFields [⟨1, .bytes (bucketName n)⟩])⟩] := by
    show encodeCreateBucket (nthBucket n) = _
    simp only [encodeCreateBucket, putUvarint_eq, putBool_eq, putMessage_eq, putString_eq,
      List.nil_append, ← encodeFields_append]
    rfl
  have hentry : (encodeFields (entryFields (bucketEntry n))).length ≤
      20 + (20 + (20 + (20 + (bucketEntry n).data.length))) := by
    refine (length_encodeFields_le _).trans ?_
    unfold entryFields optionalBytes
    split_ifs with hnil
    · simp only [List.append_nil, List.map_cons, List.map_nil, FieldValue.size, List.sum_cons,
        List.sum_nil]
      omega
    · simp [FieldValue.size]
  have hhs : (encodeFields (hardStateFields (bucketReady n).hardState)).length ≤ 60 :=
    length_encodeFields_le _
  have hrecord : (encodeFields (recordFields (bucketReady n).record)).length ≤
      20 + (20 + (encodeFields (hardStateFields (bucketReady n).hardState)).length +
        (20 + (encodeFields (entryFields (bucketEntry n))).length)) := length_encodeFields_le _
  have hsize : (bucketEntry n).data.length ≤
      20 + (20 + (20 + (encodeFields [⟨1, .bytes (bucketName n)⟩]).length)) := by
    rw [hdata]
    exact length_encodeFields_le _
  rw [encodeRecord_eq]
  omega

/-! ### The lifetimes -/

/-- The raft log when the first `n` buckets are there. -/
def bucketsLog (n : Nat) : RaftLog :=
  ⟨match n with
    | 0 => Raft.newMemoryStorage
    | n + 1 => compactedStorage n, UInt64.ofNat (n + 1)⟩

theorem compacted_bucketsLog (n : Nat) : Compacted n (bucketsLog n).storage := by
  cases n with
  | zero | succ n => exact ⟨rfl, UInt64.le_refl _, rfl⟩

/-- The records that are written on the way there. -/
def bucketsRecords (n : Nat) : List Bytes :=
  (List.range n).flatMap (fun i =>
    [encodeRecord (bucketReady i).record, encodeRecord (compactedFrame i)])

theorem bucketsRecords_succ (n : Nat) :
    bucketsRecords (n + 1) = bucketsRecords n ++ [encodeRecord (bucketReady n).record] ++
      [encodeRecord (compactedFrame n)] := by
  simp [bucketsRecords, List.range_succ]

variable {Ok : RaftLog → Record → Prop}

theorem persists_bucket (hok : ∀ rl rec, Sized rl rec → Ok rl rec) {n : Nat} (hn : n < 2 ^ 32)
    {d : Disk} (h : Reaches Ok (some (bucketsLog n)) (bucketsRecords n) none d)
    (hrunning : Running (bucketsLog n) (bucketsRecords n) d) :
    ∃ st d', (compaction n).plan st = some (compactedStorage n, compactedFrame n) ∧
      Reaches Ok (some { bucketsLog n with storage := st })
        (bucketsRecords n ++ [encodeRecord (bucketReady n).record]) none d' ∧
      Running { bucketsLog n with storage := st }
        (bucketsRecords n ++ [encodeRecord (bucketReady n).record]) d' := by
  obtain ⟨st, hstore, hplan⟩ := (compacted_bucketsLog n).next hn
  have hsized : Sized (bucketsLog n) (bucketReady n).record := by
    refine ⟨length_bucketReady n, rfl, ?_⟩
    show (UInt64.ofNat (n + 1)).toNat + 1 < 2 ^ 64
    rw [toNat_index (by omega)]
    omega
  exact ⟨st, _, hplan, h.persisted (bucketReady n) (hok _ _ hsized) hstore,
    (hrunning.persist hsized.short hstore).1⟩

theorem reaches_buckets (hok : ∀ rl rec, Sized rl rec → Ok rl rec) {n : Nat} (hn : n < 2 ^ 32)
    (hshort : ∀ i < n, (encodeRecord (compactedFrame i)).length < 2 ^ 31) :
    ∃ d, Reaches Ok (some (bucketsLog n)) (bucketsRecords n) none d ∧
      Running (bucketsLog n) (bucketsRecords n) d := by
  induction n with
  | zero => exact ⟨_, reaches_new Ok, running_new⟩
  | succ n ih =>
    obtain ⟨d, hreaches, hrunning⟩ := ih (by omega) (fun i hi => hshort i (by omega))
    obtain ⟨st, d', hplan, hreaches, hrunning⟩ := persists_bucket hok (by omega) hreaches hrunning
    have hsized : Sized { bucketsLog n with storage := st } (compactedFrame n) := by
      refine ⟨hshort n (by omega), decodes_compactedFrame (by omega), ?_⟩
      show (UInt64.ofNat (n + 1)).toNat + 1 < 2 ^ 64
      rw [toNat_index (by omega)]
      omega
    obtain ⟨hvalue, hrunning, -⟩ := hrunning.rotate hsized hplan
    have hlog : (⟨compactedStorage n, UInt64.ofNat (n + 1) + 1⟩ : RaftLog) = bucketsLog (n + 1) :=
      congrArg (RaftLog.mk _) (UInt64.ofNat_add (n + 1) 1).symm
    rw [bucketsRecords_succ, ← hlog]
    exact ⟨_, hreaches.rotated (compaction n) (hok _ _ hsized) hplan hvalue, hrunning⟩

/-- Two buckets, two compactions and a crash. -/
theorem recover_two_buckets :
    ∃ d, Reaches Sized none (bucketsRecords 2) none d ∧
      ∃ choice rl, recover.value d = .ok (choice, rl) ∧
        (contentsOf (bucketsRecords 2) = some (Raft.contents rl.storage) ∨
          ∃ r, none = some r ∧
            contentsOf (bucketsRecords 2 ++ [r]) = some (Raft.contents rl.storage)) ∧
        ∀ seq ∈ choice.others, seq < choice.seq ∨ (openLog (logName seq)).value d = [] := by
  obtain ⟨d, hreaches, -⟩ := @reaches_buckets Sized (fun _ _ h => h) 2 (by decide)
    (by decide +kernel)
  have hdown := hreaches.crashed (Disk.crash_crashesTo (fun _ => none) d)
  exact ⟨_, hdown, recover_restores_acknowledged hdown⟩

/-- The first compaction whose frame is too long to be read back: its rotation
returns, the node crashes, and the next recovery finds neither the hard state nor
the snapshot of all buckets. -/
theorem recover_loses_compaction :
    ∃ n < 2 ^ 31, ∃ d, Reaches (fun _ _ => True) none (bucketsRecords (n + 1)) none d ∧
      contentsOf (bucketsRecords (n + 1)) =
        some ⟨⟨1, 1, UInt64.ofNat (n + 1)⟩, (compactedFrame n).snap, UInt64.ofNat (n + 1) + 1, []⟩ ∧
      ∃ choice rl, recover.value d = .ok (choice, rl) ∧ Raft.contents rl.storage = {} := by
  have hexists : ∃ n, 2 ^ 31 ≤ (encodeRecord (compactedFrame n)).length :=
    ⟨2 ^ 31 - 1, (@length_compactedFrame (2 ^ 31 - 1) (by decide)).1⟩
  have hle : Nat.find hexists ≤ 2 ^ 31 - 1 :=
    Nat.find_min' hexists (@length_compactedFrame (2 ^ 31 - 1) (by decide)).1
  have hlong := Nat.find_spec hexists
  have hshort : ∀ i < Nat.find hexists, (encodeRecord (compactedFrame i)).length < 2 ^ 31 :=
    fun i hi => Nat.lt_of_not_le (Nat.find_min hexists hi)
  generalize Nat.find hexists = n at hle hlong hshort
  have hn : n < 2 ^ 32 := by omega
  obtain ⟨d, hreaches, hrunning⟩ := @reaches_buckets (fun _ _ => True) (fun _ _ _ => trivial) n hn
    hshort
  obtain ⟨st, d', hplan, hreaches, hrunning⟩ :=
    persists_bucket (fun _ _ _ => trivial) hn hreaches hrunning
  obtain ⟨file, hone, -⟩ := hrunning.file
  obtain ⟨hvalue, -⟩ := rotateLog_run hone hplan
  have hsize := (length_compactedFrame hn).2
  have hcrash := Disk.crash_crashesTo (fun _ => none)
    ((rotateLog { bucketsLog n with storage := st } (compaction n)).final d')
  refine ⟨n, by omega, _, ?_, ?_, hrunning.lost hplan hlong hsize hcrash⟩
  · rw [bucketsRecords_succ]
    exact (hreaches.rotated (compaction n) trivial hplan hvalue).crashed hcrash
  · rw [bucketsRecords_succ,
      (contentsOf_rotate hrunning.acked hplan hsize (decodes_compactedFrame hn)).2, contents_memory]
    rfl

end Concrete

end Hamster.Raftnode
