import Hamster.Meta.Persist
import Hamster.Wal.Log

/-!
# The row log

`RowLog` of `internal/wal/rows.go`: a persister over a log, with one record for
each metadata transaction.

A batch that is replayed does to the rows what the transaction did
(`applyBatch_encodeBatch`).  With what `Open` makes of a log that crashed, the
rows that `OpenRows` returns are those of the store after the transactions that
were acknowledged, and after at most the one that a crash cut short
(`openRows_returns_dump`).
-/

namespace Hamster.Wal

open CodeLib Seam Meta

/-- The errors of `applyBatch`: the bytes are no message, or a row has no key. -/
inductive RowError where
  | parse
  | noKey
deriving DecidableEq

variable [Protowire]

def rowBatchFormatVersion : UInt64 := 1

/-- One row of a batch.  No value is a tombstone. -/
def encodeRow (r : EncodedRow) : Bytes :=
  let row := appendBytes (appendTag [] 1 bytesType) r.key
  if r.value = [] then appendVarint (appendTag row 3 varintType) 1
  else appendBytes (appendTag row 2 bytesType) r.value

def encodeBatch (batch : List EncodedRow) : Bytes :=
  batch.foldl (fun b r => appendBytes (appendTag b 2 bytesType) (encodeRow r))
    (appendVarint (appendTag [] 1 varintType) rowBatchFormatVersion)

structure PendingRow where
  key : Bytes := []
  value : Bytes := []
  tombstone : Bool := false

def readRow : FieldReader RowError PendingRow where
  varint row num v := .ok (if num = 3 then { row with tombstone := v ≠ 0 } else row)
  bytes row num v :=
    match num with
    | 1 => .ok { row with key := v }
    | 2 => .ok { row with value := v }
    | _ => .ok row

def applyRow (rows : DB) (row : Bytes) : Except RowError DB := do
  let r ← readRow.read .parse {} row
  if r.key = [] then .error .noKey
  else if r.tombstone then pure (rows.delete r.key)
  else pure (rows.set r.key r.value)

def readBatch : FieldReader RowError DB where
  varint rows _ _ := .ok rows
  bytes rows num v := if num = 2 then applyRow rows v else .ok rows

def applyBatch (rows : DB) (rec : Bytes) : Except RowError DB := readBatch.read .parse rows rec

def openRows (name : Bytes) : Prog Disk (Except RowError DB) := do
  let records ← openLog name
  pure (records.foldlM applyBatch SortedKV.empty)

/-- The batch that a transaction commits, if it does. -/
def batchOf (s : Store) (p : Proposal) : Option (List EncodedRow) :=
  (apply (some fun _ => true) s p).committed.map (·.map Row.encode)

/-- The store after transactions, and the batches that they committed. -/
def logged (ps : List Proposal) : Store × List (List EncodedRow) :=
  ps.foldl (fun x p => ((apply (some fun _ => true) x.1 p).store, x.2 ++ (batchOf x.1 p).toList))
    (newStore, [])

/-! ## A batch comes back -/

def rowFields (r : EncodedRow) : List Field :=
  [⟨1, .bytes r.key⟩, if r.value = [] then ⟨3, .varint 1⟩ else ⟨2, .bytes r.value⟩]

/-- A batch as the fields that `encodeBatch` writes after the version. -/
def batchFields (batch : List EncodedRow) : List Field :=
  batch.map (fun r => ⟨2, .bytes (encodeRow r)⟩)

section RoundTrip

variable [LawfulProtowire]

theorem encodeRow_eq (r : EncodedRow) : encodeRow r = encodeFields (rowFields r) := by
  unfold encodeRow rowFields
  simp only [appendBytes_appendTag, appendVarint_appendTag]
  split <;> simp

theorem encodeBatch_eq (batch : List EncodedRow) : encodeBatch batch =
    encodeFields (⟨1, .varint rowBatchFormatVersion⟩ :: batchFields batch) := by
  rw [encodeBatch, foldl_appendField (fun b r => appendBytes_appendTag b 2 (encodeRow r)),
    appendVarint_appendTag, List.nil_append, ← encodeFields_append]
  rfl

variable {r : EncodedRow} {batch : List EncodedRow}

theorem readRow_encodeRow (hsize : (encodeRow r).length < 2 ^ 63) :
    readRow.read .parse {} (encodeRow r) = .ok ⟨r.key, r.value, r.value = []⟩ := by
  rw [encodeRow_eq] at hsize ⊢
  rw [readRow.read_encodeFields .parse ?nums (size_lt_of_mem_fields hsize (Nat.two_pow_pos 63))]
  case nums =>
    intro f hf
    rcases List.mem_pair.mp hf with rfl | rfl
    · exact Field.numbered_mk (by decide) _
    · split <;> exact Field.numbered_mk (by decide) _
  rw [rowFields]
  by_cases hnil : r.value = []
  · simp only [hnil, if_pos, decide_true]
    rfl
  · simp only [hnil, if_false, decide_false]
    rfl

theorem applyRow_encodeRow (rows : DB) (hkey : r.key ≠ []) (hsize : (encodeRow r).length < 2 ^ 63) :
    applyRow rows (encodeRow r) = .ok (rows.write r) := by
  rw [applyRow, readRow_encodeRow hsize, DB.write]
  by_cases hnil : r.value = [] <;> simp [bind, Except.bind, hkey, hnil] <;> rfl

theorem foldlM_readBatch (hkeys : ∀ r ∈ batch, r.key ≠ [])
    (hrows : ∀ r ∈ batch, (encodeRow r).length < 2 ^ 63) (rows : DB) :
    (batchFields batch).foldlM readBatch.field rows = .ok (rows.writeAll batch) := by
  induction batch generalizing rows with
  | nil => rfl
  | cons r batch ih =>
    have hfirst : readBatch.field rows ⟨2, .bytes (encodeRow r)⟩ = .ok (rows.write r) :=
      applyRow_encodeRow rows (hkeys r List.mem_cons_self) (hrows r List.mem_cons_self)
    rw [batchFields, List.map_cons, List.foldlM_cons, hfirst]
    exact ih (fun r' hr' => hkeys r' (List.mem_cons_of_mem r hr'))
      (fun r' hr' => hrows r' (List.mem_cons_of_mem r hr')) _

theorem applyBatch_encodeBatch (rows : DB) (hkeys : ∀ r ∈ batch, r.key ≠ [])
    (hsize : (encodeBatch batch).length < 2 ^ 63) :
    applyBatch rows (encodeBatch batch) = .ok (rows.writeAll batch) := by
  rw [encodeBatch_eq] at hsize
  have hrow : ∀ r ∈ batch, (encodeRow r).length < 2 ^ 63 := by
    intro r hr
    have hmem : ⟨2, .bytes (encodeRow r)⟩ ∈ batchFields batch := List.mem_map.mpr ⟨r, hr, rfl⟩
    exact (length_le_of_mem_fields (List.mem_cons_of_mem _ hmem)).trans_lt hsize
  rw [encodeBatch_eq, ← foldlM_readBatch hkeys hrow, applyBatch, readBatch.read_encodeFields .parse
    ?nums (size_lt_of_mem_fields hsize (Nat.two_pow_pos 63))]
  · rfl
  case nums =>
    intro f hf
    rcases List.mem_cons.mp hf with rfl | hf
    · exact Field.numbered_mk (by decide) _
    · obtain ⟨r, -, rfl⟩ := List.mem_map.mp hf
      exact Field.numbered_mk (by decide) _

/-! ## Recovery -/

theorem foldlM_applyBatch {bs : List (List EncodedRow)} (hkeys : ∀ b ∈ bs, ∀ r ∈ b, r.key ≠ [])
    (hshort : Short (bs.map encodeBatch)) (rows : DB) :
    (bs.map encodeBatch).foldlM applyBatch rows = .ok (bs.foldl DB.writeAll rows) := by
  induction bs generalizing rows with
  | nil => rfl
  | cons b bs ih =>
    have hsize : (encodeBatch b).length < 2 ^ 31 := hshort _ List.mem_cons_self
    rw [List.map_cons, List.foldlM_cons, applyBatch_encodeBatch rows (hkeys b List.mem_cons_self)
      (by omega)]
    exact ih (fun b' hb' => hkeys b' (List.mem_cons_of_mem b hb'))
      (fun r hr => hshort r (List.mem_cons_of_mem _ hr)) _

theorem contents_logged (ps : List Proposal) :
    ((logged ps).2.foldl DB.writeAll SortedKV.empty).contents = dump (logged ps).1 := by
  have hinv : AllRows Versioned (logged ps).1 ∧ ∀ k,
      ((logged ps).2.foldl DB.writeAll SortedKV.empty).get k =
        ((logged ps).1.get k).map marshalRecord := by
    refine foldl_preserves (I := fun x : Store × List (List EncodedRow) => AllRows Versioned x.1 ∧
      ∀ k, (x.2.foldl DB.writeAll SortedKV.empty).get k = (x.1.get k).map marshalRecord) ?_ ps
      ⟨allRows_newStore _, fun _ => rfl⟩
    rintro ⟨s, bs⟩ p ⟨hs, hrows⟩
    refine ⟨versioned_apply p hs, fun k => ?_⟩
    rw [← commit_step hs hrows p (fun _ => true) k, List.foldl_append, batchOf]
    cases (apply (some fun _ => true) s p).committed <;> rfl
  rw [DB.contents, SortedKV.rows_eq_map hinv.2, List.map_map]
  rfl

omit [LawfulProtowire] in
theorem key_ne_nil_of_logged (ps : List Proposal) :
    ∀ batch ∈ (logged ps).2, ∀ r ∈ batch, r.key ≠ [] := by
  refine foldl_preserves (I := fun x : Store × List (List EncodedRow) =>
    ∀ batch ∈ x.2, ∀ r ∈ batch, r.key ≠ []) ?_ ps (List.forall_mem_nil _)
  intro x p hx batch hbatch
  rcases List.mem_append.mp hbatch with hbatch | hbatch
  · exact hx batch hbatch
  · obtain ⟨rows, hrows, rfl⟩ := Option.map_eq_some_iff.mp (Option.mem_toList.mp hbatch)
    refine List.forall_mem_map.mpr (fun r hr => ?_)
    have hkey : r.encode.key = r.key := by
      unfold Row.encode
      split <;> rfl
    rw [hkey]
    exact key_ne_nil_of_committed hrows r hr

/-- `OpenRows` after transactions that were acknowledged, and one that the last
crash may have cut short: it returns the rows of the store, with all that the
last one wrote or with nothing of it. -/
theorem openRows_returns_dump {name : Bytes} {up : Bool} {d : Disk} {ps : List Proposal}
    {next : Option Proposal}
    (h : Reaches name (BetweenRewrites name) up ((logged ps).2.map encodeBatch)
      ((next.bind (batchOf (logged ps).1)).map encodeBatch) d) :
    ∃ rows, (openRows name).value d = .ok rows ∧ (rows.contents = dump (logged ps).1 ∨
      ∃ p, next = some p ∧ rows.contents = dump (logged (ps ++ [p])).1) := by
  obtain ⟨hvalue, hopened, -⟩ := h.intact.opens
  have hshort := hopened.short
  have hlogged (p : Proposal) :
      (logged (ps ++ [p])).2 = (logged ps).2 ++ (batchOf (logged ps).1 p).toList := by
    rw [logged, List.foldl_append]
    rfl
  have hopen (qs : List Proposal) (hqs : (openLog name).value d = (logged qs).2.map encodeBatch) :
      ∃ rows, (openRows name).value d = .ok rows ∧ rows.contents = dump (logged qs).1 := by
    rw [hqs] at hshort
    refine ⟨_, ?_, contents_logged qs⟩
    rw [openRows, Prog.value_bind, hqs]
    exact foldlM_applyBatch (key_ne_nil_of_logged qs) hshort _
  rcases hvalue with hsame | ⟨r, hr, hmore⟩
  · obtain ⟨rows, hrows, hdump⟩ := hopen ps hsame
    exact ⟨rows, hrows, Or.inl hdump⟩
  · obtain ⟨b, hb, rfl⟩ := Option.map_eq_some_iff.mp hr
    obtain ⟨p, rfl, hp⟩ := Option.bind_eq_some_iff.mp hb
    obtain ⟨rows, hrows, hdump⟩ := hopen (ps ++ [p]) (by rw [hmore, hlogged, hp]; simp)
    exact ⟨rows, hrows, Or.inr ⟨p, rfl, hdump⟩⟩

end RoundTrip

omit [Protowire]

/-- The record of the transaction that creates the bucket `aaa`. -/
def recordAAA : Bytes :=
  @encodeBatch wireFormat ((@batchOf wireFormat newStore createAAA).getD [])

/-- A crash after it was appended to an empty log. -/
def crashedAAA : Disk := ((append [119] recordAAA).final Disk.newDisk).crash (fun _ => none)

theorem openRows_crashedAAA : ∃ rows, (@openRows wireFormat [119]).value crashedAAA = .ok rows ∧
    (rows.contents = @dump wireFormat (@logged wireFormat [createAAA]).1 ∨ ∃ p, none = some p ∧
      rows.contents = @dump wireFormat (@logged wireFormat ([createAAA] ++ [p])).1) := by
  have hlog : (@logged wireFormat [createAAA]).2.map (@encodeBatch wireFormat) = [recordAAA] := by
    decide +kernel
  refine @openRows_returns_dump wireFormat wireFormat_lawful [119] false crashedAAA [createAAA] none
    ?_
  rw [hlog]
  exact .crashed (.appended (.opened (.start (d := Disk.newDisk) rfl rfl)) recordAAA
    (by decide +kernel)) (Disk.crash_crashesTo _ _)

end Hamster.Wal
