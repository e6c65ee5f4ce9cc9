import Hamster.Meta.Multipart
import Mathlib.Logic.Function.Basic

/-!
# The version-list model of S3

What the metadata store is for, in its own terms.  A bucket has a versioning
state, each of its keys has a list of versions in commit order, oldest first,
and each upload in progress has its parts in part-number order.  There are no
rows, no complemented identifiers, no scans and no derived index here.

* An enabled bucket appends an object or a delete marker.
* A suspended bucket drops the null version of the key and appends a null
  one.  An unversioned bucket does the same with objects only, so it holds at
  most one version of a key, and DELETE empties the list.
* DELETE of a version removes the entry that has the identifier, or nothing.
* The identifier appended is the minted one when it exceeds the newest one of
  the key, and the successor of the newest otherwise.

`Model.step` answers each operation with the result or the error of `Apply`.
A null version is dropped without a look at its lock: a bucket with object
lock is versioned from the start and holds no null versions.
-/

namespace Hamster.Meta.S3

open CodeLib

structure Upload where
  created : Int64
  contentType : Bytes
  userMetadata : StringMap
  parts : List PartRecord

structure Bucket where
  created : Int64
  lockEnabled : Bool
  versioning : VersioningState
  objects : Bytes → List VersionEntry
  uploads : Bytes → VersionID → Option Upload

abbrev Model := Bytes → Option Bucket

def empty : Model := fun _ => none

inductive Op where
  | createBucket (p : CreateBucket)
  | deleteBucket (p : DeleteBucket)
  | setBucketVersioning (p : SetBucketVersioning)
  | putObject (p : PutObject)
  | deleteObject (p : DeleteObject)
  | deleteVersion (p : DeleteVersion)
  | createMultipartUpload (p : CreateMultipartUpload)
  | uploadPart (p : UploadPart)
  | completeMultipartUpload (p : CompleteMultipartUpload)
  | abortMultipartUpload (p : AbortMultipartUpload)

def Op.proposal : Op → Proposal
  | createBucket p => .createBucket p
  | deleteBucket p => .deleteBucket p
  | setBucketVersioning p => .setBucketVersioning p
  | putObject p => .putObject p
  | deleteObject p => .deleteObject p
  | deleteVersion p => .deleteVersion p
  | createMultipartUpload p => .createMultipartUpload p
  | uploadPart p => .uploadPart p
  | completeMultipartUpload p => .completeMultipartUpload p
  | abortMultipartUpload p => .abortMultipartUpload p

/-! ## Lists of versions and parts -/

def newID (minted : VersionID) (versions : List VersionEntry) : VersionID :=
  match versions.getLast? with
  | none => minted
  | some newest =>
    if newest.versionID.toNat < minted.toNat then minted else newest.versionID.next

def dropNulls (versions : List VersionEntry) : List VersionEntry :=
  versions.filter (fun e => !e.nullVersion)

/-- Append a version.  A null one takes the place of the null one. -/
def append (versions : List VersionEntry) (e : VersionEntry) : List VersionEntry :=
  (if e.nullVersion then dropNulls versions else versions) ++ [e]

def dropped (versions : List VersionEntry) (isNull : Bool) : List VersionID :=
  if isNull then (versions.filter VersionEntry.nullVersion).flatMap VersionEntry.dataIDs else []

def putPart (parts : List PartRecord) (pr : PartRecord) : List PartRecord :=
  parts.filter (fun q => q.partNumber.toNat < pr.partNumber.toNat) ++
    pr :: parts.filter (fun q => pr.partNumber.toNat < q.partNumber.toNat)

/-! ## Buckets -/

def Bucket.config (B : Bucket) (name : Bytes) : BucketConfig where
  formatVersion := currentFormatVersion
  name := name
  createdUnixMS := B.created
  versioning := B.versioning
  objectLockEnabled := B.lockEnabled

def Upload.record (u : Upload) (uid : VersionID) : UploadRecord where
  formatVersion := currentFormatVersion
  uploadID := uid
  createdUnixMS := u.created
  contentType := u.contentType
  userMetadata := u.userMetadata

def Bucket.setVersions (B : Bucket) (k : Bytes) (versions : List VersionEntry) : Bucket :=
  { B with objects := Function.update B.objects k versions }

def Bucket.setUpload (B : Bucket) (k : Bytes) (uid : VersionID) (u : Option Upload) :
    Bucket :=
  { B with uploads := Function.update B.uploads k (Function.update (B.uploads k) uid u) }

/-- The version that a PUT makes, with all that the request says of it. -/
def stored (p : PutObject) (B : Bucket) (vid : VersionID) : VersionEntry :=
  { p with
    formatVersion := currentFormatVersion
    versionID := vid
    dataID := p.versionID
    kind := kindObject
    createdUnixMS := p.proposedAtUnixMS
    nullVersion := B.versioning ≠ versioningEnabled }

def marker (p : DeleteObject) (B : Bucket) (vid : VersionID) : VersionEntry where
  formatVersion := currentFormatVersion
  versionID := vid
  kind := kindDeleteMarker
  createdUnixMS := p.proposedAtUnixMS
  nullVersion := B.versioning = versioningSuspended

def assembled (p : CompleteMultipartUpload) (B : Bucket) (u : Upload) (parts : List PartRecord)
    (vid : VersionID) : VersionEntry where
  formatVersion := currentFormatVersion
  versionID := vid
  kind := kindObject
  size := (parts.map PartRecord.size).sum
  createdUnixMS := p.proposedAtUnixMS
  etag := p.etag
  contentType := u.contentType
  userMetadata := u.userMetadata
  parts := parts.map partRefFor
  nullVersion := B.versioning ≠ versioningEnabled

/-- A legal hold locks a version, and so does a retention that has not ended.
GOVERNANCE can be bypassed. -/
def Locked (e : VersionEntry) (now : Int64) (bypass : Bool) : Prop :=
  e.legalHold = true ∨ now < e.retainUntilUnixMS ∧
    (e.retentionMode = retentionCompliance ∨
      e.retentionMode = retentionGovernance ∧ bypass = false)

instance lockedDecidable (e : VersionEntry) (now : Int64) (bypass : Bool) :
    Decidable (Locked e now bypass) := by
  unfold Locked
  infer_instance

def Upload.part? (u : Upload) (n : UInt32) : Option PartRecord :=
  u.parts.find? (fun pr => pr.partNumber = n)

/-- Why a row of the client's list is refused: the upload has no such part, or
the part has another ETag, or it is too small and not the last. -/
def Upload.fault (u : Upload) (cp : CompletedPart) (last : Bool) : Option MetaError :=
  match u.part? cp.partNumber with
  | none => some .invalidPart
  | some pr =>
    if pr.etag ≠ cp.etag then some .invalidPart
    else if last = false ∧ pr.size < minPartSize then some .partTooSmall
    else none

def Upload.firstFault (u : Upload) : List CompletedPart → Option MetaError
  | [] => none
  | cp :: rest => (u.fault cp rest.isEmpty).or (u.firstFault rest)

def Upload.listed (u : Upload) (parts : List CompletedPart) : Except MetaError (List PartRecord) :=
  match u.firstFault parts with
  | some e => .error e
  | none => .ok (parts.filterMap (fun cp => u.part? cp.partNumber))

/-- A bucket without versions and uploads can be deleted. -/
def Bucket.IsEmpty (B : Bucket) : Prop :=
  (∀ k, B.objects k = []) ∧ ∀ k uid, B.uploads k uid = none

/-! ## Operations -/

def refuse (c : Prop) [Decidable c] (e : MetaError) : Except MetaError Unit :=
  if c then .error e else .ok ()

def Model.require (m : Model) (b : Bytes) : Except MetaError Bucket :=
  match m b with
  | none => .error .noSuchBucket
  | some B => .ok B

def Bucket.requireUpload (B : Bucket) (k : Bytes) (uid : VersionID) :
    Except MetaError Upload :=
  match B.uploads k uid with
  | none => .error .noSuchUpload
  | some u => .ok u

def Model.set (m : Model) (b : Bytes) (B : Option Bucket) : Model := Function.update m b B

def Model.createBucket (m : Model) (p : CreateBucket) : Except MetaError (ApplyResult × Model) := do
  validateBucketName p.bucket
  refuse (m p.bucket).isSome .bucketExists
  pure (.nil, m.set p.bucket (some
    { created := p.proposedAtUnixMS
      lockEnabled := p.objectLockEnabled
      versioning := if p.objectLockEnabled then versioningEnabled else unversioned
      objects := fun _ => []
      uploads := fun _ _ => none }))

open Classical in
/-- Whether a bucket is empty is a question about all keys. -/
noncomputable def Model.deleteBucket (m : Model) (p : DeleteBucket) :
    Except MetaError (ApplyResult × Model) := do
  let B ← m.require p.bucket
  refuse (¬ B.IsEmpty) .bucketNotEmpty
  pure (.nil, m.set p.bucket none)

def Model.setBucketVersioning (m : Model) (p : SetBucketVersioning) :
    Except MetaError (ApplyResult × Model) := do
  let B ← m.require p.bucket
  refuse (p.state ≠ versioningEnabled ∧ p.state ≠ versioningSuspended) .invalidVersioningState
  refuse (p.state = versioningSuspended ∧ B.lockEnabled) .invalidVersioningState
  pure (.nil, m.set p.bucket (some { B with versioning := p.state }))

def Model.putObject (m : Model) (p : PutObject) : Except MetaError (ApplyResult × Model) := do
  let B ← m.require p.bucket
  validateObjectKey p.key
  refuse ((p.retentionMode ≠ retentionNone ∨ p.legalHold) ∧ B.lockEnabled = false)
    .invalidRetention
  refuse (p.retentionMode ≠ retentionNone ∧ p.retainUntilUnixMS ≤ p.proposedAtUnixMS)
    .invalidRetention
  let versions := B.objects p.key
  let e := stored p B (newID p.versionID versions)
  pure (.put ⟨e.versionID, dropped versions e.nullVersion⟩,
    m.set p.bucket (some (B.setVersions p.key (append versions e))))

def Model.deleteObject (m : Model) (p : DeleteObject) :
    Except MetaError (ApplyResult × Model) := do
  let B ← m.require p.bucket
  validateObjectKey p.key
  let versions := B.objects p.key
  if B.versioning = unversioned then
    match versions.getLast? with
    | none => pure (.deleteObject {}, m)
    | some e =>
      pure (.deleteObject { removed := true, removedDataIDs := e.dataIDs },
        m.set p.bucket (some (B.setVersions p.key [])))
  else
    let e := marker p B (newID p.versionID versions)
    pure (.deleteObject
        { markerCreated := true, markerID := e.versionID
          removedDataIDs := dropped versions e.nullVersion },
      m.set p.bucket (some (B.setVersions p.key (append versions e))))

def Model.deleteVersion (m : Model) (p : DeleteVersion) :
    Except MetaError (ApplyResult × Model) := do
  let B ← m.require p.bucket
  validateObjectKey p.key
  let versions := B.objects p.key
  match versions.find? (fun e => e.versionID = p.versionID) with
  | none => pure (.deleteVersion ⟨false⟩, m)
  | some e => do
    refuse (Locked e p.proposedAtUnixMS p.bypassGovernance) .objectLocked
    pure (.deleteVersion ⟨true⟩, m.set p.bucket (some
      (B.setVersions p.key (versions.filter (fun e => e.versionID ≠ p.versionID)))))

def Model.createMultipartUpload (m : Model) (p : CreateMultipartUpload) :
    Except MetaError (ApplyResult × Model) := do
  let B ← m.require p.bucket
  validateObjectKey p.key
  refuse (B.uploads p.key p.uploadID).isSome .uploadExists
  pure (.nil, m.set p.bucket (some (B.setUpload p.key p.uploadID (some
    ⟨p.proposedAtUnixMS, p.contentType, p.userMetadata, []⟩))))

def Model.uploadPart (m : Model) (p : UploadPart) : Except MetaError (ApplyResult × Model) := do
  let B ← m.require p.bucket
  validateObjectKey p.key
  refuse (p.partNumber < 1 ∨ p.partNumber > maxPartNumber) .invalidPartNumber
  let u ← B.requireUpload p.key p.uploadID
  pure (.uploadPart ⟨((u.part? p.partNumber).map PartRecord.dataID).getD VersionID.zero⟩,
    m.set p.bucket (some (B.setUpload p.key p.uploadID (some
      { u with parts := putPart u.parts (partRecordFor p) }))))

/-- The parts that the client's list leaves out are handed back after what the
append drops. -/
def Model.completeMultipartUpload (m : Model) (p : CompleteMultipartUpload) :
    Except MetaError (ApplyResult × Model) := do
  let B ← m.require p.bucket
  validateObjectKey p.key
  let u ← B.requireUpload p.key p.uploadID
  refuse (p.parts = []) .invalidPart
  refuse (¬ (p.parts.map CompletedPart.partNumber).Pairwise (· < ·)) .invalidPartOrder
  let parts ← u.listed p.parts
  let versions := B.objects p.key
  let e := assembled p B u parts (newID p.versionID versions)
  let used := p.parts.map CompletedPart.partNumber
  let unused := u.parts.filter (fun pr => pr.partNumber ∉ used)
  pure (.complete ⟨e.versionID, dropped versions e.nullVersion ++ unused.map PartRecord.dataID⟩,
    m.set p.bucket (some
      ((B.setVersions p.key (append versions e)).setUpload p.key p.uploadID none)))

def Model.abortMultipartUpload (m : Model) (p : AbortMultipartUpload) :
    Except MetaError (ApplyResult × Model) := do
  let B ← m.require p.bucket
  validateObjectKey p.key
  let u ← B.requireUpload p.key p.uploadID
  pure (.abort ⟨u.parts.map PartRecord.dataID⟩,
    m.set p.bucket (some (B.setUpload p.key p.uploadID none)))

noncomputable def Model.apply (m : Model) : Op → Except MetaError (ApplyResult × Model)
  | .createBucket p => m.createBucket p
  | .deleteBucket p => m.deleteBucket p
  | .setBucketVersioning p => m.setBucketVersioning p
  | .putObject p => m.putObject p
  | .deleteObject p => m.deleteObject p
  | .deleteVersion p => m.deleteVersion p
  | .createMultipartUpload p => m.createMultipartUpload p
  | .uploadPart p => m.uploadPart p
  | .completeMultipartUpload p => m.completeMultipartUpload p
  | .abortMultipartUpload p => m.abortMultipartUpload p

noncomputable def Model.step (m : Model) (op : Op) : Except MetaError ApplyResult × Model :=
  match m.apply op with
  | .ok (r, m') => (.ok r, m')
  | .error e => (.error e, m)

/-! ## Observations -/

def Model.versions (m : Model) (b k : Bytes) : List VersionEntry :=
  match m b with
  | none => []
  | some B => B.objects k

def Model.upload (m : Model) (b k : Bytes) (uid : VersionID) : Option Upload :=
  (m b).bind (fun B => B.uploads k uid)

/-- The configurations of all buckets, in the byte order of their names. -/
def Model.ListsBuckets (m : Model) (cfgs : List BucketConfig) : Prop :=
  cfgs.Pairwise (fun c c' => c.name < c'.name) ∧
    ∀ c, c ∈ cfgs ↔ (m c.name).map (fun B => B.config c.name) = some c

/-- The listing row of a key whose newest version is an object. -/
def Model.current (m : Model) (b k : Bytes) : Option CurrentRecord :=
  match (m.versions b k).getLast? with
  | some e => if e.kind = kindObject then some (currentRecordFor e) else none
  | none => none

/-- The live keys of a bucket under `pre` and after `startAfter`, in byte
order, with their listing rows. -/
def Model.Lists (m : Model) (b pre startAfter : Bytes) (rows : List ObjectListing) : Prop :=
  rows.Pairwise (fun r r' => r.key < r'.key) ∧
    ∀ k c, ⟨k, c⟩ ∈ rows ↔
      m.current b k = some c ∧ pre <+: k ∧ (startAfter = [] ∨ startAfter < k)

end Hamster.Meta.S3
