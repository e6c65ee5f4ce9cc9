import Hamster.Coord.Placement
import Hamster.Coord.ReEncode
import Hamster.Coord.Rewrap

/-!
# The repair sweep

The loop of the sweep in `internal/coord/repair.go`: `nextItem`, `reEncode` and
`itemFailed`, with the first steps of `ReEncode` (`reencode.go`).

`nextItem` goes through the work list.  An item that fails at once is noted in the
report and the next one follows in the same call, so one call ends in one of three ways:
the list is empty, the holders of an item have been asked for their shards, or the
holders of an item that is re-encoded have.  Answers come later, in turns of their own.
-/

namespace Hamster.Coord

open CodeLib Meta Place Ec

inductive ReEncodeFailure where
  | notWholeObject
  | noLayout
  | placingOld (e : PlaceError)
  | placingNew (e : PlaceError)
  | failed (e : ReEncodeError)
deriving DecidableEq

/-- Why the repair of an item did not complete. -/
inductive SweepFailure where
  | noLayout
  | placing (e : PlaceError)
  | reEncode (e : ReEncodeFailure)
  /-- A later step: survivors, the reconstruction or a write. -/
  | repair (text : Bytes)
deriving DecidableEq

structure RepairReport where
  objects : Nat := 0
  healthy : Nat := 0
  rebuiltShards : Nat := 0
  migratedShards : Nat := 0
  reEncoded : Nat := 0
  /-- Bucket, key, and how many of the shards were found. -/
  unrepairable : List (Bytes × Bytes × Nat) := []
  failed : List (Bytes × Bytes × SweepFailure) := []
  skipped : Nat := 0
deriving DecidableEq

def RepairReport.fail (r : RepairReport) (item : SweepItem) (f : SweepFailure) : RepairReport :=
  { r with failed := r.failed ++ [(item.bucket, item.key, f)] }

structure SweepOp where
  /-- Also widen objects that are narrower than the profile. -/
  optimize : Bool
  work : List SweepItem
  report : RepairReport := {}

/-- A re-encoding whose old shards have been asked for. -/
structure StartedReEncode where
  op : ReEncodeOp
  oldNodes : List NodeID
  newNodes : List NodeID

/-- `ReEncode` up to `probe`.  `newID` is the address that it mints. -/
def startReEncode (layout : Option Layout) (e : VersionEntry) (newK newM : Nat)
    (newID : VersionID) : Except ReEncodeFailure StartedReEncode :=
  if e.kind ≠ kindObject ∨ e.parts.length > 0 then .error .notWholeObject
  else
    match layout with
    | none => .error .noLayout
    | some layout =>
      let oldK := e.ecDataShards.toNat
      let oldM := e.ecParityShards.toNat
      match layout.locate e.partition (oldK + oldM) with
      | .error err => .error (.placingOld err)
      | .ok (readNew, readOld) =>
        match layout.nodes e.partition (newK + newM) with
        | .error err => .error (.placingNew err)
        | .ok newNodes =>
          .ok ⟨(ReEncodeOp.probe oldK oldM newK newM newID).1, readOld.getD readNew,
            newNodes⟩

inductive SweepStep where
  | finished (report : RepairReport)
  | scrubbing (op : SweepOp) (item : SweepItem) (nodes : List NodeID)
      (oldNodes : Option (List NodeID))
  | reEncoding (op : SweepOp) (item : SweepItem) (started : StartedReEncode)

namespace SweepOp

/-- Go through the items up to the first one that waits for an answer. -/
def nextItems (layout : Option Layout) (newID : VersionID) (op : SweepOp) :
    List SweepItem → RepairReport → SweepStep
  | [], report => .finished report
  | item :: rest, report =>
    let report := { report with objects := report.objects + 1 }
    let e := item.entry
    let width := (e.ecDataShards + e.ecParityShards).toNat
    match layout with
    | none => nextItems layout newID op rest (report.fail item .noLayout)
    | some l =>
      let (tk, tm) := (autoProfile l.activeCount).params e.size
      if width > l.activeCount ∨ op.optimize ∧ tk + tm > width then
        match startReEncode layout e tk tm newID with
        | .error err => nextItems layout newID op rest (report.fail item (.reEncode err))
        | .ok started => .reEncoding { op with work := rest, report } item started
      else
        match l.locate e.partition width with
        | .error err => nextItems layout newID op rest (report.fail item (.placing err))
        | .ok (nodes, oldNodes) => .scrubbing { op with work := rest, report } item nodes oldNodes

def nextItem (layout : Option Layout) (newID : VersionID) (op : SweepOp) : SweepStep :=
  nextItems layout newID op op.work op.report

def reEncoded (op : SweepOp) (item : SweepItem) : Except ReEncodeFailure Unit → SweepOp
  | .error err => { op with report := op.report.fail item (.reEncode err) }
  | .ok _ => { op with report := { op.report with reEncoded := op.report.reEncoded + 1 } }

end SweepOp

/-! ## Reports -/

/-- The sweep has moved nothing, rebuilt nothing, re-encoded nothing and left nothing. -/
def RepairReport.Converged (r : RepairReport) : Prop :=
  r.migratedShards = 0 ∧ r.rebuiltShards = 0 ∧ r.reEncoded = 0 ∧ r.unrepairable.length = 0 ∧
    r.failed.length = 0
deriving Decidable

theorem RepairReport.not_converged_fail (r : RepairReport) (item : SweepItem) (f : SweepFailure) :
    ¬ (r.fail item f).Converged := by
  rintro ⟨-, -, -, -, hfailed⟩
  simp [RepairReport.fail] at hfailed

theorem SweepOp.not_converged_reEncoded (op : SweepOp) (item : SweepItem)
    (result : Except ReEncodeFailure Unit) : ¬ (op.reEncoded item result).report.Converged := by
  cases result with
  | error err => exact op.report.not_converged_fail item _
  | ok u =>
    rintro ⟨-, -, hreEncoded, -⟩
    exact absurd hreEncoded (Nat.succ_ne_zero _)

theorem SweepOp.nextItems_finished {layout : Option Layout} {newID : VersionID} {op : SweepOp}
    {work : List SweepItem} {report report' : RepairReport} (h : ¬ report.Converged)
    (hend : op.nextItems layout newID work report = .finished report') : ¬ report'.Converged := by
  induction work generalizing report with
  | nil =>
    cases hend
    exact h
  | cons item rest ih =>
    cases layout with
    | none => exact ih (RepairReport.not_converged_fail _ _ _) hend
    | some l =>
      rw [SweepOp.nextItems] at hend
      dsimp only at hend
      split at hend
      next =>
        split at hend
        next => exact ih (RepairReport.not_converged_fail _ _ _) hend
        next => cases hend
      next =>
        split at hend
        next => exact ih (RepairReport.not_converged_fail _ _ _) hend
        next => cases hend

end Hamster.Coord
