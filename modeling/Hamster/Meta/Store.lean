import Hamster.CodeLib.SortedKV
import Hamster.Meta.Keys

/-!
# The store: transactions and reads

`internal/meta/persist.go`, `internal/meta/kv.go` and `internal/meta/reads.go`.

A store is a sorted map of typed records.  Every apply runs as one
transaction: `TxKV` records each mutation in an undo log and a list of
touched keys, `txn` rolls back on an error and hands the changeset to the
persister on success, and rolls back again when the persister refuses it.

`Tx` is the monad of an apply body.  It is a state monad over `TxKV` whose
error keeps the state reached so far, because the source rolls back what an
error leaves behind.  The `run_` lemmas execute a body step by step.

A type assertion of the source that finds another record type panics; here it
ends in the error `panicked`.
-/

namespace Hamster.Meta

open CodeLib

abbrev MemKV := SortedKV Bytes Record

abbrev Store := MemKV

def newStore : Store := SortedKV.empty

/-! ## Transactions -/

/-- One row change handed to the persister.  No value deletes the row. -/
structure Row where
  key : Bytes
  value : Option Record
deriving DecidableEq

structure UndoOp where
  key : Bytes
  prior : Option Record
deriving DecidableEq

/-- The keyspace with the undo log, newest mutation first, and the touched
keys in first-touch order. -/
structure TxKV where
  memKV : MemKV
  undo : List UndoOp
  dirtyKeys : List Bytes

namespace TxKV

def start (kv : MemKV) : TxKV := ⟨kv, [], []⟩

def record (t : TxKV) (k : Bytes) : TxKV where
  memKV := t.memKV
  undo := ⟨k, t.memKV.get k⟩ :: t.undo
  dirtyKeys := if k ∈ t.dirtyKeys then t.dirtyKeys else t.dirtyKeys ++ [k]

def set (t : TxKV) (k : Bytes) (v : Record) : TxKV :=
  { t.record k with memKV := t.memKV.set k v }

def delete (t : TxKV) (k : Bytes) : TxKV :=
  { t.record k with memKV := t.memKV.delete k }

/-- Put back what stood under the key of one undo record. -/
def undoOne (kv : MemKV) (op : UndoOp) : MemKV :=
  match op.prior with
  | some v => kv.set op.key v
  | none => kv.delete op.key

/-- Restore the state before the transaction, newest mutation first. -/
def rollback (t : TxKV) : TxKV :=
  { t with memKV := t.undo.foldl undoOne t.memKV, undo := [] }

/-- The touched keys with the values they ended up with. -/
def changeset (t : TxKV) : List Row :=
  t.dirtyKeys.map (fun k => ⟨k, t.memKV.get k⟩)

end TxKV

def Tx (α : Type) := TxKV → Except MetaError α × TxKV

namespace Tx

def run {α : Type} (m : Tx α) (t : TxKV) : Except MetaError α × TxKV := m t

instance : Monad Tx where
  pure a := fun t => (.ok a, t)
  bind m f := fun t =>
    match m t with
    | (.ok a, t') => f a t'
    | (.error e, t') => (.error e, t')

def fail {α : Type} (e : MetaError) : Tx α := fun t => (.error e, t)

/-- Return an error when a check of the source fails. -/
def failIf (c : Prop) [Decidable c] (e : MetaError) : Tx Unit :=
  if c then fail e else pure ()

def read {α : Type} (f : MemKV → Except MetaError α) : Tx α := fun t => (f t.memKV, t)

/-- A check that does not look at the keyspace. -/
def check {α : Type} (r : Except MetaError α) : Tx α := fun t => (r, t)

def get (k : Bytes) : Tx (Option Record) := fun t => (.ok (t.memKV.get k), t)

def set (k : Bytes) (v : Record) : Tx Unit := fun t => (.ok (), t.set k v)

def delete (k : Bytes) : Tx Unit := fun t => (.ok (), t.delete k)

section Run

variable {α β : Type} (t : TxKV)

theorem run_bind (m : Tx α) (f : α → Tx β) :
    (m >>= f).run t =
      match m.run t with
      | (.ok a, t') => (f a).run t'
      | (.error e, t') => (.error e, t') := rfl

theorem run_read_bind_ok {g : MemKV → Except MetaError α} {a : α} (f : α → Tx β)
    (h : g t.memKV = .ok a) : (read g >>= f).run t = (f a).run t := by
  rw [run_bind]
  simp only [run, read, h]

theorem run_read_bind_error {g : MemKV → Except MetaError α} {e : MetaError} (f : α → Tx β)
    (h : g t.memKV = .error e) : (read g >>= f).run t = (.error e, t) := by
  rw [run_bind]
  simp only [run, read, h]

end Run

end Tx

/-- A persister: whether the commit of a batch succeeds.  The store has none
under the simulation harness. -/
abbrev Persister := Option (List Row → Bool)

/-- The outcome of one transaction: the result, the store after it, and the
batch that the persister took. -/
structure Outcome (α : Type) where
  result : Except MetaError α
  store : Store
  committed : Option (List Row)

def txn {α : Type} (persist : Persister) (s : Store) (body : Tx α) : Outcome α :=
  match body.run (TxKV.start s) with
  | (.error e, t) => ⟨.error e, t.rollback.memKV, none⟩
  | (.ok a, t) =>
    match persist with
    | none => ⟨.ok a, t.memKV, none⟩
    | some commit =>
      if t.dirtyKeys = [] then ⟨.ok a, t.memKV, none⟩
      else if commit t.changeset then ⟨.ok a, t.memKV, some t.changeset⟩
      else ⟨.error .persist, t.rollback.memKV, none⟩

/-! ## Type assertions -/

namespace Record

def asBucketConfig : Record → Except MetaError BucketConfig
  | bucketConfig r => .ok r
  | _ => .error .panicked

def asVersionEntry : Record → Except MetaError VersionEntry
  | versionEntry r => .ok r
  | _ => .error .panicked

def asCurrentRecord : Record → Except MetaError CurrentRecord
  | currentRecord r => .ok r
  | _ => .error .panicked

def asUploadRecord : Record → Except MetaError UploadRecord
  | uploadRecord r => .ok r
  | _ => .error .panicked

def asPartRecord : Record → Except MetaError PartRecord
  | partRecord r => .ok r
  | _ => .error .panicked

def asClusterLayout : Record → Except MetaError ClusterLayout
  | clusterLayout r => .ok r
  | _ => .error .panicked

def asEncryptionPosture : Record → Except MetaError EncryptionPosture
  | encryptionPosture r => .ok r
  | _ => .error .panicked

def asTrustBundle : Record → Except MetaError TrustBundle
  | trustBundle r => .ok r
  | _ => .error .panicked

def asNodeRecord : Record → Except MetaError NodeRecord
  | nodeRecord r => .ok r
  | _ => .error .panicked

end Record

/-! ## Reads -/

def hasPrefix (s p : Bytes) : Bool := p.isPrefixOf s

theorem hasPrefix_iff {x p : Bytes} : hasPrefix x p = true ↔ p <+: x :=
  List.isPrefixOf_iff_prefix

def getTyped {α : Type} (assert : Record → Except MetaError α) (s : Store) (k : Bytes) :
    Except MetaError (Option α) :=
  match s.get k with
  | none => .ok none
  | some v => (assert v).map some

def getBucket (s : Store) (name : Bytes) : Except MetaError (Option BucketConfig) :=
  getTyped Record.asBucketConfig s (bucketRowKey name)

def current (s : Store) (bucket key : Bytes) : Except MetaError (Option CurrentRecord) :=
  getTyped Record.asCurrentRecord s (currentRowKey bucket key)

def getVersion (s : Store) (bucket key : Bytes) (vid : VersionID) :
    Except MetaError (Option VersionEntry) :=
  getTyped Record.asVersionEntry s (versionRowKey bucket key vid)

def getUpload (s : Store) (bucket key : Bytes) (uid : VersionID) :
    Except MetaError (Option UploadRecord) :=
  getTyped Record.asUploadRecord s (uploadRowKey bucket key uid)

def listVersions (s : Store) (bucket key : Bytes) : Except MetaError (List VersionEntry) :=
  let scanPrefix := versionScanPrefix bucket key
  s.scan scanPrefix
    (fun out k v =>
      if hasPrefix k scanPrefix then do
        let e ← v.asVersionEntry
        .ok (out ++ [e], true)
      else .ok (out, false))
    []

structure ObjectListing where
  key : Bytes
  current : CurrentRecord
deriving DecidableEq

/-- Scan the derived index of a bucket.  `startAfter` is exclusive and `max`
at most zero means unlimited. -/
def listObjects (s : Store) (bucket pre startAfter : Bytes) (max : Int) :
    Except MetaError (List ObjectListing) :=
  let scanPrefix := currentScanPrefix bucket ++ pre
  let after := currentRowKey bucket startAfter ++ [0]
  let start := if startAfter ≠ [] ∧ scanPrefix < after then after else scanPrefix
  s.scan start
    (fun out k v =>
      if hasPrefix k scanPrefix then
        if 0 < max ∧ (out.length : Int) = max then .ok (out, false)
        else do
          let rec' ← v.asCurrentRecord
          .ok (out ++ [⟨objectKeyFromCurrentRow k bucket, rec'⟩], true)
      else .ok (out, false))
    []

/-- The newest version of a key: the first row under its `v/` prefix. -/
def newestVersion (s : Store) (bucket key : Bytes) :
    Except MetaError (Option VersionEntry) :=
  let scanPrefix := versionScanPrefix bucket key
  s.scan scanPrefix
    (fun found k v =>
      if hasPrefix k scanPrefix then do
        let e ← v.asVersionEntry
        .ok (some e, false)
      else .ok (found, false))
    none

def nullVersion (s : Store) (bucket key : Bytes) :
    Except MetaError (Option VersionEntry) :=
  let scanPrefix := versionScanPrefix bucket key
  s.scan scanPrefix
    (fun found k v =>
      if hasPrefix k scanPrefix then do
        let e ← v.asVersionEntry
        if e.nullVersion then .ok (some e, false) else .ok (found, true)
      else .ok (found, false))
    none

/-! ## Scans -/

section Scans

variable {α β : Type} {s : Store} {p : Bytes} {assert : Record → Except MetaError α}

/-- A scan that takes every row under a prefix, where the assertion holds of
each. -/
theorem scan_collect {σ : Type} {step : σ → Bytes → α → σ} (row : Bytes × Record → Option β) (add : σ → β → σ)
    (hrow : ∀ r ∈ s.rowsUnder p, ∃ a c, assert r.2 = .ok a ∧ row r = some c ∧
      ∀ out, step out r.1 a = add out c) (out : σ) :
    s.scan p
      (fun out k v =>
        if hasPrefix k p then do
          let a ← assert v
          .ok (step out k a, true)
        else .ok (out, false)) out =
      .ok (((s.rowsUnder p).filterMap row).foldl add out) := by
  rw [SortedKV.scan_under_self s
    (fun out k v => do
      let a ← assert v
      .ok (step out k a, true))
    (fun _ _ _ hp => if_pos (hasPrefix_iff.mpr hp))
    (fun _ _ _ hp => if_neg (fun h => hp (hasPrefix_iff.mp h)))]
  generalize s.rowsUnder p = rs at hrow
  induction rs generalizing out with
  | nil => rfl
  | cons r rest ih =>
    obtain ⟨a, c, ha, hc, hstep⟩ := hrow r List.mem_cons_self
    have hrest := ih (add out c) (fun r hr => hrow r (List.mem_cons_of_mem _ hr))
    rw [List.filterMap_cons_some hc, List.foldl_cons, ← hrest, ← hstep out]
    obtain ⟨k, v⟩ := r
    have ha' : assert v = .ok a := ha
    rw [SortedKV.scanRows, ha']
    rfl

theorem scan_collect_eq {one : Bytes → α → β}
    (row : Bytes × Record → Option β)
    (hrow : ∀ r ∈ s.rowsUnder p, ∃ a, assert r.2 = .ok a ∧ row r = some (one r.1 a)) :
    s.scan p
      (fun out k v =>
        if hasPrefix k p then do
          let a ← assert v
          .ok (out ++ [one k a], true)
        else .ok (out, false)) [] =
      .ok ((s.rowsUnder p).filterMap row) := by
  rw [scan_collect row (fun out c => out ++ [c])
      (fun r hr => (hrow r hr).imp (fun a h => ⟨one r.1 a, h.1, h.2, fun _ => rfl⟩)),
    List.foldl_append_eq_append, ← List.flatMap_def, List.flatMap_singleton', List.nil_append]

theorem scan_append (f : Bytes × Record → List β) :
    s.scan p
      (fun out k v => if hasPrefix k p then .ok (out ++ f (k, v), true) else .ok (out, false)) [] =
      (.ok ((s.rowsUnder p).flatMap f) : Except MetaError _) := by
  have h := @scan_collect _ _ s p Except.ok _ (fun out k v => out ++ f (k, v)) some
    (fun out r => out ++ f r) (fun r _ => ⟨r.2, r, rfl, rfl, fun _ => rfl⟩) []
  rw [List.filterMap_some, List.foldl_append_eq_append, ← List.flatMap_def, List.nil_append] at h
  exact h

end Scans

end Hamster.Meta
