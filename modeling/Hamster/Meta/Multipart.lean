import Hamster.Meta.Apply

/-!
# Multipart uploads

The apply functions of `internal/meta/multipart.go`.  An upload is one
`UploadRecord` row and one `PartRecord` row for each uploaded part.
Completing it checks the client's part list against the stored rows, commits
the assembled version on the path of a PUT, and deletes the upload's rows.
-/

namespace Hamster.Meta

open CodeLib

open Tx (failIf)

def minPartSize : Int64 := 5242880
def maxPartNumber : UInt32 := 10000

def applyCreateMultipartUpload (p : CreateMultipartUpload) : Tx Unit := do
  let _ ← requireBucket p.bucket
  Tx.check (validateObjectKey p.key)
  let row ← Tx.get (uploadRowKey p.bucket p.key p.uploadID)
  failIf row.isSome .uploadExists
  Tx.set (uploadRowKey p.bucket p.key p.uploadID) (.uploadRecord
    { formatVersion := currentFormatVersion
      uploadID := p.uploadID
      createdUnixMS := p.proposedAtUnixMS
      contentType := p.contentType
      userMetadata := p.userMetadata })

/-- The row that an uploaded part is stored as. -/
def partRecordFor (p : UploadPart) : PartRecord where
  formatVersion := currentFormatVersion
  partNumber := p.partNumber
  dataID := p.dataID
  size := p.size
  etag := p.etag
  checksum := p.checksum
  uploadedUnixMS := p.proposedAtUnixMS
  partition := p.partition
  ecDataShards := p.ecDataShards
  ecParityShards := p.ecParityShards
  shardChecksums := p.shardChecksums
  encAlgorithm := p.encAlgorithm
  wrappedDEK := p.wrappedDEK
  kekFingerprint := p.kekFingerprint

def applyUploadPart (p : UploadPart) : Tx UploadPartResult := do
  let _ ← requireBucket p.bucket
  Tx.check (validateObjectKey p.key)
  failIf (p.partNumber < 1 ∨ p.partNumber > maxPartNumber) .invalidPartNumber
  let upload ← Tx.get (uploadRowKey p.bucket p.key p.uploadID)
  failIf upload.isNone .noSuchUpload
  let row := partRowKey p.bucket p.key p.uploadID p.partNumber
  let prior ← Tx.read (getTyped Record.asPartRecord · row)
  Tx.set row (.partRecord (partRecordFor p))
  pure { replacedDataID := (prior.map PartRecord.dataID).getD VersionID.zero }

/-- The part stored in a row under an upload's key; the upload row itself is
skipped. -/
def Record.part? : Record → Option PartRecord
  | .partRecord r => some r
  | _ => none

/-- The stored parts of an upload, in part-number order. -/
def uploadParts (s : Store) (uploadRow : Bytes) : Except MetaError (List PartRecord) :=
  s.scan uploadRow
    (fun out k v =>
      if hasPrefix k uploadRow then .ok (out ++ v.part?.toList, true) else .ok (out, false))
    []

theorem uploadParts_eq (s : Store) (row : Bytes) :
    uploadParts s row = .ok ((s.rowsUnder row).filterMap (fun r => r.2.part?)) := by
  rw [uploadParts, scan_append (fun r => r.2.part?.toList), List.filterMap_eq_flatMap_toList]

/-- The stored part under a number.  A later row replaces an earlier one in
the source's map. -/
def findPart (stored : List PartRecord) (n : UInt32) : Option PartRecord :=
  stored.reverse.find? (fun pr => pr.partNumber == n)

/-- The part numbers of the client's list ascend strictly. -/
def partsAscend : List CompletedPart → Bool
  | a :: b :: rest => decide (a.partNumber < b.partNumber) && partsAscend (b :: rest)
  | _ => true

def partRefFor (pr : PartRecord) : PartRef where
  dataID := pr.dataID
  size := pr.size
  checksum := pr.checksum
  partition := pr.partition
  ecDataShards := pr.ecDataShards
  ecParityShards := pr.ecParityShards
  shardChecksums := pr.shardChecksums
  encAlgorithm := pr.encAlgorithm
  wrappedDEK := pr.wrappedDEK
  kekFingerprint := pr.kekFingerprint

/-- Check the client's list against the stored parts.  Every part but the
last has the minimum size. -/
def assembleParts (stored : List PartRecord) :
    List CompletedPart → Except MetaError (List PartRecord)
  | [] => .ok []
  | cp :: rest =>
    match findPart stored cp.partNumber with
    | none => .error .invalidPart
    | some pr =>
      if pr.etag ≠ cp.etag then .error .invalidPart
      else if rest ≠ [] ∧ pr.size < minPartSize then .error .partTooSmall
      else (assembleParts stored rest).map (pr :: ·)

/-- The entry that a completed upload stores under `vid`. -/
def completeEntry (p : CompleteMultipartUpload) (cfg : BucketConfig) (upload : UploadRecord)
    (parts : List PartRecord) (vid : VersionID) : VersionEntry where
  formatVersion := currentFormatVersion
  versionID := vid
  kind := kindObject
  size := parts.foldl (fun size pr => size + pr.size) 0
  createdUnixMS := p.proposedAtUnixMS
  etag := p.etag
  contentType := upload.contentType
  userMetadata := upload.userMetadata
  parts := parts.map partRefFor
  nullVersion := cfg.versioning ≠ versioningEnabled

def deleteRows : List Bytes → Tx Unit
  | [] => pure ()
  | k :: rest => do
    Tx.delete k
    deleteRows rest

/-- Fetch the record of an upload that must exist. -/
def requireUpload (bucket key : Bytes) (uid : VersionID) : Tx UploadRecord := do
  match ← Tx.read (getUpload · bucket key uid) with
  | none => Tx.fail .noSuchUpload
  | some upload => pure upload

def applyCompleteMultipartUpload (p : CompleteMultipartUpload) : Tx CompleteResult := do
  let cfg ← requireBucket p.bucket
  Tx.check (validateObjectKey p.key)
  let uploadRow := uploadRowKey p.bucket p.key p.uploadID
  let upload ← requireUpload p.bucket p.key p.uploadID
  failIf (p.parts.length = 0) .invalidPart
  let storedParts ← Tx.read (uploadParts · uploadRow)
  failIf (partsAscend p.parts = false) .invalidPartOrder
  let parts ← Tx.check (assembleParts storedParts p.parts)
  let newest ← Tx.read (newestVersion · p.bucket p.key)
  let entry := completeEntry p cfg upload parts (bumpedID p.versionID newest)
  let replaced ← replaceNullVersion p.bucket p.key p.proposedAtUnixMS entry.nullVersion
  Tx.set (versionRowKey p.bucket p.key entry.versionID) (.versionEntry entry)
  Tx.set (currentRowKey p.bucket p.key) (.currentRecord (currentRecordFor entry))
  Tx.delete uploadRow
  deleteRows (storedParts.map (fun pr => partRowKey p.bucket p.key p.uploadID pr.partNumber))
  let used := p.parts.map CompletedPart.partNumber
  let unused := storedParts.filter (fun pr => pr.partNumber ∉ used)
  pure { versionID := entry.versionID
         discardedDataIDs := replaced ++ unused.map PartRecord.dataID }

/-- The keys of the rows under an upload's key, its own row included. -/
def uploadRowKeys (s : Store) (uploadRow : Bytes) : Except MetaError (List Bytes) :=
  s.scan uploadRow
    (fun out k _ => if hasPrefix k uploadRow then .ok (out ++ [k], true) else .ok (out, false))
    []

theorem uploadRowKeys_eq (s : Store) (row : Bytes) :
    uploadRowKeys s row = .ok ((s.rowsUnder row).map Prod.fst) := by
  rw [uploadRowKeys, scan_append (fun r => [r.1]), List.map_eq_flatMap]

def applyAbortMultipartUpload (p : AbortMultipartUpload) : Tx AbortResult := do
  let _ ← requireBucket p.bucket
  Tx.check (validateObjectKey p.key)
  let uploadRow := uploadRowKey p.bucket p.key p.uploadID
  let row ← Tx.get uploadRow
  failIf row.isNone .noSuchUpload
  let parts ← Tx.read (uploadParts · uploadRow)
  let rows ← Tx.read (uploadRowKeys · uploadRow)
  deleteRows rows
  pure { partDataIDs := parts.map PartRecord.dataID }

end Hamster.Meta
