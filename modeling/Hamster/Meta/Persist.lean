import Hamster.CodeLib.Run
import Hamster.Meta.Codec
import Hamster.Meta.RowInvariant

/-!
# Persistence

`Dump` of `internal/meta/persist.go`, and what a persister holds after any run
of transactions.

A transaction is atomic.  Refused by its body or by the persister, it leaves
rows and keys as they were; accepted, it hands the persister each key that it
touched, once, with the value that the key ended up with.  The rows that a
persister has been handed are therefore those of the store, at any time
(`apply_atomic`).

A row is handed over in encoded form, and no bytes mean that the row is
deleted.  That is unambiguous because no encoded record is empty
(`versioned_apply`, `marshalRecord_ne_nil`).
-/

namespace Hamster.Meta

open CodeLib

/-- One keyspace row in its persisted form.  An empty value deletes the row. -/
structure EncodedRow where
  key : Bytes
  value : Bytes
deriving DecidableEq

section Encoding

variable [Protowire]

def Row.encode (r : Row) : EncodedRow :=
  match r.value with
  | none => ⟨r.key, []⟩
  | some v => ⟨r.key, marshalRecord v⟩

/-- `Dump`: the whole state as encoded rows, sorted by key. -/
def dump (s : Store) : List EncodedRow := s.rows.map (fun r => ⟨r.1, marshalRecord r.2⟩)

end Encoding

abbrev DB := SortedKV Bytes Bytes

def DB.write (db : DB) (r : EncodedRow) : DB :=
  if r.value = [] then db.delete r.key else db.set r.key r.value

def DB.writeAll (db : DB) (rows : List EncodedRow) : DB := rows.foldl DB.write db

def DB.contents (db : DB) : List EncodedRow := db.rows.map (fun r => ⟨r.1, r.2⟩)

/-! ## Batches -/

variable {s : Store} {p : Proposal}

section Batches

variable [Protowire] [LawfulProtowire]

abbrev Versioned (r : Record) : Prop := r.formatVersion = currentFormatVersion

omit [Protowire] [LawfulProtowire] in
theorem versioned_of_written {v : Record} (hs : AllRows Versioned s) (h : Written s p v) :
    Versioned v := by
  cases h with
  | versioning q cfg hold | lockConfiguration q cfg hold => exact (hs _ _ hold : _)
  | rewrite hold hnew =>
    have hkept := hs _ _ hold
    cases hnew with
    | retention _ _ _ _ he | hold _ _ he | reEncoded _ _ _ he | rewrapped _ _ he =>
      subst he
      exact hkept
  | system h =>
    cases h with
    | layout | trust | register => rfl
    | posture q prev =>
      unfold establishedPosture
      split <;> rfl
    | beginRotation q post hold | completeRotation q post hold => exact (hs _ _ hold : _)
    | update hp n hold =>
      have hkept := hs _ _ hold
      cases p with
      | setNodeDraining | setNodeReplacedBy | setNodeLeafCA | setNodeVersion =>
        cases hp
        exact hkept
      | _ => cases hp
  | _ => rfl

theorem marshalRecord_ne_nil_of_versioned {r : Record} (h : Versioned r) :
    marshalRecord r ≠ [] := by
  apply marshalRecord_ne_nil
  rw [h]
  decide

theorem get_writeAll (hs : AllRows Versioned s) (keys : List Bytes) (db : DB) (k : Bytes)
    : (db.writeAll (keys.map (fun k => Row.encode ⟨k, s.get k⟩))).get k =
      if k ∈ keys then (s.get k).map marshalRecord else db.get k := by
  induction keys generalizing db with
  | nil => simp [DB.writeAll]
  | cons key keys ih =>
    have hwrite : (db.write (Row.encode ⟨key, s.get key⟩)).get k =
        if k = key then (s.get k).map marshalRecord else db.get k := by
      unfold DB.write Row.encode
      cases hget : s.get key with
      | none =>
        rw [if_pos rfl, SortedKV.get_delete]
        by_cases heq : k = key
        · rw [if_pos heq, if_pos heq, heq, hget]
          rfl
        · rw [if_neg heq, if_neg heq]
      | some v =>
        rw [if_neg (marshalRecord_ne_nil_of_versioned (hs key v hget)), SortedKV.get_set]
        by_cases heq : k = key
        · rw [if_pos heq, if_pos heq, heq, hget]
          rfl
        · rw [if_neg heq, if_neg heq]
    rw [List.map_cons]
    show (DB.writeAll (db.write (Row.encode ⟨key, s.get key⟩)) _).get k = _
    rw [ih, hwrite]
    by_cases hin : k ∈ keys
    · rw [if_pos hin, if_pos (List.mem_cons_of_mem key hin)]
    · by_cases heq : k = key
      · rw [if_neg hin, if_pos heq, if_pos (heq ▸ List.mem_cons_self)]
      · rw [if_neg hin, if_neg heq, if_neg (by simp [heq, hin])]

end Batches

/-! ## Runs -/

/-- The keys that the apply function of a proposal sets or deletes. -/
def Touches (s : Store) (p : Proposal) (k : Bytes) : Prop :=
  ∃ op ∈ ((applyBody p).run (TxKV.start s)).2.undo, op.key = k

/-- The store after transactions, each with a persister of its own choice. -/
def storeAfter (steps : List (Proposal × Persister)) : Store :=
  steps.foldl (fun s x => (apply x.2 s x.1).store) newStore

section Runs

variable [Protowire]

/-- The batches that persisters took in a run where each commit succeeds or
fails as it likes, with the store at its end. -/
def commitRun (steps : List (Proposal × (List Row → Bool))) : Store × DB :=
  steps.foldl
    (fun x step =>
      let out := apply (some step.2) x.1 step.1
      (out.store, x.2.writeAll ((out.committed.getD []).map Row.encode)))
    (newStore, SortedKV.empty)

variable [LawfulProtowire] {persist : Persister}

omit [Protowire] [LawfulProtowire] in
theorem apply_ok {r : ApplyResult} (h : (apply persist s p).result = .ok r) :
    ∃ keys : List Bytes, keys.Nodup ∧ (∀ k, k ∈ keys ↔ Touches s p k) ∧
      (apply persist s p).committed = (if persist.isNone ∨ keys = [] then none
        else some (keys.map (fun k => ⟨k, (apply persist s p).store.get k⟩))) ∧
      ∀ k, k ∉ keys → (apply persist s p).store.get k = s.get k := by
  obtain ⟨t, hrun, hstore, hcommitted⟩ := txn_ok h
  have htracks := (regular_applyBody p).tracks s _ (TxKV.tracks_start s)
  have htouches : ∀ k, Touches s p k ↔ ∃ op ∈ t.undo, op.key = k := by
    intro k
    rw [Touches, hrun]
  rw [hrun] at htracks
  refine ⟨t.dirtyKeys, htracks.nodup, fun k => (htracks.touched k).trans (htouches k).symm, ?_, ?_⟩
  · rw [apply, hcommitted, hstore]
    rfl
  · intro k hk
    rw [apply, hstore]
    exact htracks.kept k hk

omit [Protowire] [LawfulProtowire] in
theorem key_ne_nil_of_committed {rows : List Row} (h : (apply persist s p).committed = some rows) :
    ∀ r ∈ rows, r.key ≠ [] := by
  cases hresult : (apply persist s p).result with
  | error e =>
    rw [apply, txn_error_committed hresult] at h
    cases h
  | ok r =>
    obtain ⟨t, hrun, -, hcommitted⟩ := txn_ok hresult
    have htracks := (regular_applyBody p).tracks s _ (TxKV.tracks_start s)
    rw [hrun] at htracks
    rw [apply, hcommitted] at h
    split at h
    · cases h
    · cases h
      exact List.forall_mem_map.mpr htracks.named

omit [Protowire] [LawfulProtowire] in
theorem versioned_apply (p : Proposal) (hs : AllRows Versioned s) :
    AllRows Versioned (apply persist s p).store := by
  cases hresult : (apply persist s p).result with
  | error e =>
    rw [apply_error_store hresult]
    exact hs
  | ok r =>
    obtain ⟨t, hrun, hstore, -⟩ := txn_ok hresult
    have heval : (applyBody p).eval s = (.ok r, t.memKV) := by rw [Tx.eval, hrun]
    rw [apply, hstore]
    exact (edited_of_ok heval).allRows hs (fun _ => versioned_of_written hs)

theorem commit_step {db : DB} (hs : AllRows Versioned s)
    (hdb : ∀ k, db.get k = (s.get k).map marshalRecord) (p : Proposal) (commit : List Row → Bool) :
    ∀ k, (db.writeAll (((apply (some commit) s p).committed.getD []).map Row.encode)).get k =
      ((apply (some commit) s p).store.get k).map marshalRecord := by
  intro k
  cases hresult : (apply (some commit) s p).result with
  | error e =>
    have hnone : (apply (some commit) s p).committed = none := txn_error_committed hresult
    rw [hnone, apply_error_store hresult]
    exact hdb k
  | ok r =>
    obtain ⟨keys, -, -, hcommitted, hkept⟩ := apply_ok hresult
    have hbatch : ((apply (some commit) s p).committed.getD []).map Row.encode =
        keys.map (fun k => Row.encode ⟨k, (apply (some commit) s p).store.get k⟩) := by
      rw [hcommitted]
      by_cases hnil : keys = []
      · simp [hnil]
      · simp [hnil]
    rw [hbatch, get_writeAll (versioned_apply p hs)]
    split
    · rfl
    · rename_i hk
      rw [hkept k hk]
      exact hdb k

theorem commitRun_contents (run : List (Proposal × (List Row → Bool))) :
    (commitRun run).2.contents = dump (commitRun run).1 := by
  have hinv : AllRows Versioned (commitRun run).1 ∧
      ∀ k, (commitRun run).2.get k = ((commitRun run).1.get k).map marshalRecord := by
    refine foldl_invariant (P := fun _ => True) (I := fun x : Store × DB => AllRows Versioned x.1 ∧
      ∀ k, x.2.get k = (x.1.get k).map marshalRecord) ?_ (fun _ _ => trivial)
      ⟨allRows_newStore _, fun _ => rfl⟩
    rintro ⟨s, db⟩ ⟨p, commit⟩ - ⟨hs, hdb⟩
    exact ⟨versioned_apply p hs, commit_step hs hdb p commit⟩
  rw [DB.contents, SortedKV.rows_eq_map hinv.2, List.map_map]
  rfl

/-- Transactions are atomic, in every reachable store and for every persister.
A refused one changes nothing and hands over nothing.  An accepted one hands
over the touched keys, each once with its final value, and changes no other.
So the rows that a persister has taken are those of the store, whichever
commits it refused. -/
theorem apply_atomic (steps : List (Proposal × Persister)) (p : Proposal) (persist : Persister)
    (run : List (Proposal × (List Row → Bool))) :
    (∀ e, (apply persist (storeAfter steps) p).result = .error e →
      (apply persist (storeAfter steps) p).store = storeAfter steps ∧
      (apply persist (storeAfter steps) p).committed = none) ∧
    (∀ r, (apply persist (storeAfter steps) p).result = .ok r →
      ∃ keys : List Bytes, keys.Nodup ∧ (∀ k, k ∈ keys ↔ Touches (storeAfter steps) p k) ∧
        (apply persist (storeAfter steps) p).committed = (if persist.isNone ∨ keys = [] then none
          else some (keys.map (fun k => ⟨k, (apply persist (storeAfter steps) p).store.get k⟩))) ∧
        ∀ k, k ∉ keys → (apply persist (storeAfter steps) p).store.get k =
          (storeAfter steps).get k) ∧
    (commitRun run).2.contents = dump (commitRun run).1 :=
  ⟨fun _ h => ⟨apply_error_store h, txn_error_committed h⟩, fun _ h => apply_ok h,
    commitRun_contents run⟩

end Runs

def createAAA : Proposal := .createBucket
  { bucket := [97, 97, 97], objectLockEnabled := false, proposedAtUnixMS := 1 }

def createBBB : Proposal := .createBucket
  { bucket := [98, 98, 98], objectLockEnabled := false, proposedAtUnixMS := 2 }

/-- The persister takes the first bucket and refuses the second, which is then
created again. -/
theorem apply_atomic_twoBuckets :
    (apply (some fun _ => false) (storeAfter [(createAAA, none)]) createBBB).store =
        storeAfter [(createAAA, none)] ∧
      (∃ keys : List Bytes, keys.Nodup ∧
        ∀ k, k ∈ keys ↔ Touches (storeAfter [(createAAA, none)]) createBBB k) ∧
      (@commitRun wireFormat
          [(createAAA, fun _ => true), (createBBB, fun _ => false),
            (createBBB, fun _ => true)]).2.contents =
        @dump wireFormat (@commitRun wireFormat
          [(createAAA, fun _ => true), (createBBB, fun _ => false),
            (createBBB, fun _ => true)]).1 := by
  have hatomic := fun persist => @apply_atomic wireFormat wireFormat_lawful [(createAAA, none)]
    createBBB persist
    [(createAAA, fun _ => true), (createBBB, fun _ => false), (createBBB, fun _ => true)]
  have hrefused : (apply (some fun _ => false) (storeAfter [(createAAA, none)]) createBBB).result =
      .error .persist := by decide +kernel
  have htaken : (apply none (storeAfter [(createAAA, none)]) createBBB).result = .ok .nil := by
    decide +kernel
  obtain ⟨keys, hnodup, htouched, -⟩ := (hatomic none).2.1 _ htaken
  exact ⟨((hatomic _).1 _ hrefused).1, ⟨keys, hnodup, htouched⟩, (hatomic none).2.2⟩

end Hamster.Meta
