import Hamster.Meta.Proposals
import Hamster.Meta.Store

/-!
# The apply functions

`internal/meta/apply.go`.  Each function is one mutation as one transaction
body: it reads, it validates, and it sets and deletes rows.  The order of the
checks is the order of the source, because it decides which error a proposal
that fails several checks gets.
-/

namespace Hamster.Meta

open CodeLib

open Tx (failIf)

/-! ## Buckets -/

def applyCreateBucket (p : CreateBucket) : Tx Unit := do
  Tx.check (validateBucketName p.bucket)
  let row ← Tx.get (bucketRowKey p.bucket)
  failIf row.isSome .bucketExists
  Tx.set (bucketRowKey p.bucket) (.bucketConfig
    { formatVersion := currentFormatVersion
      name := p.bucket
      createdUnixMS := p.proposedAtUnixMS
      versioning := if p.objectLockEnabled then versioningEnabled else unversioned
      objectLockEnabled := p.objectLockEnabled })

/-- Whether the first row at or above `scanPrefix` lies under it. -/
def hasRowUnder (s : Store) (scanPrefix : Bytes) : Except MetaError Bool :=
  s.scan scanPrefix (fun _ k _ => .ok (hasPrefix k scanPrefix, false)) false

def applyDeleteBucket (p : DeleteBucket) : Tx Unit := do
  let row ← Tx.get (bucketRowKey p.bucket)
  failIf row.isNone .noSuchBucket
  let hasVersions ← Tx.read (hasRowUnder · (bucketVersionsScanPrefix p.bucket))
  failIf hasVersions .bucketNotEmpty
  let hasUploads ← Tx.read (hasRowUnder · (uploadsScanPrefix p.bucket))
  failIf hasUploads .bucketNotEmpty
  Tx.delete (bucketRowKey p.bucket)

def requireBucket (bucket : Bytes) : Tx BucketConfig := do
  match ← Tx.read (getBucket · bucket) with
  | none => Tx.fail .noSuchBucket
  | some cfg => pure cfg

def applySetBucketVersioning (p : SetBucketVersioning) : Tx Unit := do
  let cfg ← requireBucket p.bucket
  failIf (p.state ≠ versioningEnabled ∧ p.state ≠ versioningSuspended) .invalidVersioningState
  failIf (p.state = versioningSuspended ∧ cfg.objectLockEnabled) .invalidVersioningState
  Tx.set (bucketRowKey p.bucket) (.bucketConfig { cfg with versioning := p.state })

/-- Whether a default rule is malformed: clearing it takes no duration, and
setting it takes exactly one of days and years. -/
def invalidDefaultRule (mode : RetentionMode) (days years : UInt32) : Bool :=
  if mode = retentionNone then days != 0 || years != 0
  else if mode = retentionGovernance ∨ mode = retentionCompliance then
    (days == 0) == (years == 0)
  else true

def applySetObjectLockConfiguration (p : SetObjectLockConfiguration) : Tx Unit := do
  let cfg ← requireBucket p.bucket
  failIf (cfg.objectLockEnabled = false) .invalidRetention
  failIf (invalidDefaultRule p.defaultRetentionMode p.defaultRetentionDays
    p.defaultRetentionYears) .invalidRetention
  Tx.set (bucketRowKey p.bucket) (.bucketConfig
    { cfg with
      defaultRetentionMode := p.defaultRetentionMode
      defaultRetentionDays := p.defaultRetentionDays
      defaultRetentionYears := p.defaultRetentionYears })

/-! ## Versions -/

/-- Delete the null version of a key, if there is one, as part of an
unversioned or suspended write.  The data addresses it held are returned. -/
def removeNullVersion (bucket key : Bytes) (atUnixMS : Int64) : Tx (List VersionID) := do
  match ← Tx.read (nullVersion · bucket key) with
  | none => pure []
  | some prior => do
    failIf (prior.lockedAt atUnixMS false) .objectLocked
    Tx.delete (versionRowKey bucket key prior.versionID)
    pure prior.dataIDs

/-- The identifier a new version commits under: the minted one when it sorts
after the newest version, otherwise the one just past the newest. -/
def bumpedID (minted : VersionID) (newest : Option VersionEntry) : VersionID :=
  match newest with
  | none => minted
  | some e => if minted.compare e.versionID ≤ 0 then e.versionID.next else minted

/-- The retention a PUT is stored with: its own, or the bucket's default rule
when it carries none and the bucket has one. -/
def putRetention (p : PutObject) (cfg : BucketConfig) : RetentionMode × Int64 :=
  if p.retentionMode = retentionNone ∧ cfg.objectLockEnabled ∧
      cfg.defaultRetentionMode ≠ retentionNone then
    (cfg.defaultRetentionMode,
      retainUntilFromDefault p.proposedAtUnixMS cfg.defaultRetentionDays
        cfg.defaultRetentionYears)
  else (p.retentionMode, p.retainUntilUnixMS)

def putEntry (p : PutObject) (cfg : BucketConfig) (vid : VersionID) : VersionEntry where
  formatVersion := currentFormatVersion
  versionID := vid
  dataID := p.versionID
  kind := kindObject
  size := p.size
  createdUnixMS := p.proposedAtUnixMS
  etag := p.etag
  contentType := p.contentType
  userMetadata := p.userMetadata
  partition := p.partition
  ecDataShards := p.ecDataShards
  ecParityShards := p.ecParityShards
  objectChecksum := p.objectChecksum
  shardChecksums := p.shardChecksums
  retentionMode := (putRetention p cfg).1
  retainUntilUnixMS := (putRetention p cfg).2
  legalHold := p.legalHold
  encAlgorithm := p.encAlgorithm
  wrappedDEK := p.wrappedDEK
  kekFingerprint := p.kekFingerprint
  nullVersion := cfg.versioning ≠ versioningEnabled

/-- Drop the null version when the new entry is the null version. -/
def replaceNullVersion (bucket key : Bytes) (atUnixMS : Int64) (isNull : Bool) :
    Tx (List VersionID) :=
  if isNull then removeNullVersion bucket key atUnixMS else pure []

def applyPutObject (p : PutObject) : Tx PutResult := do
  let cfg ← requireBucket p.bucket
  Tx.check (validateObjectKey p.key)
  failIf ((p.retentionMode ≠ retentionNone ∨ p.legalHold) ∧ cfg.objectLockEnabled = false)
    .invalidRetention
  failIf (p.retentionMode ≠ retentionNone ∧ p.retainUntilUnixMS ≤ p.proposedAtUnixMS)
    .invalidRetention
  let newest ← Tx.read (newestVersion · p.bucket p.key)
  let entry := putEntry p cfg (bumpedID p.versionID newest)
  let replaced ← replaceNullVersion p.bucket p.key p.proposedAtUnixMS entry.nullVersion
  Tx.set (versionRowKey p.bucket p.key entry.versionID) (.versionEntry entry)
  Tx.set (currentRowKey p.bucket p.key) (.currentRecord (currentRecordFor entry))
  pure { versionID := entry.versionID, replacedDataIDs := replaced }

/-- The delete marker that a versioned DELETE stores under `vid`. -/
def markerEntry (p : DeleteObject) (cfg : BucketConfig) (vid : VersionID) : VersionEntry where
  formatVersion := currentFormatVersion
  versionID := vid
  kind := kindDeleteMarker
  createdUnixMS := p.proposedAtUnixMS
  nullVersion := cfg.versioning = versioningSuspended

/-- DELETE on an unversioned bucket: the list holds one entry; remove it and
the current row. -/
def deleteUnversioned (p : DeleteObject) : Tx DeleteObjectResult := do
  match ← Tx.read (newestVersion · p.bucket p.key) with
  | none => pure {}
  | some newest => do
    failIf (newest.lockedAt p.proposedAtUnixMS false) .objectLocked
    Tx.delete (versionRowKey p.bucket p.key newest.versionID)
    Tx.delete (currentRowKey p.bucket p.key)
    pure { removed := true, removedDataIDs := newest.dataIDs }

/-- DELETE on a versioned bucket: insert a delete marker. -/
def insertMarker (p : DeleteObject) (cfg : BucketConfig) : Tx DeleteObjectResult := do
  let newest ← Tx.read (newestVersion · p.bucket p.key)
  let marker := markerEntry p cfg (bumpedID p.versionID newest)
  let replaced ← replaceNullVersion p.bucket p.key p.proposedAtUnixMS marker.nullVersion
  Tx.set (versionRowKey p.bucket p.key marker.versionID) (.versionEntry marker)
  Tx.delete (currentRowKey p.bucket p.key)
  pure { markerCreated := true, markerID := marker.versionID, removedDataIDs := replaced }

def applyDeleteObject (p : DeleteObject) : Tx DeleteObjectResult := do
  let cfg ← requireBucket p.bucket
  Tx.check (validateObjectKey p.key)
  if cfg.versioning = unversioned then deleteUnversioned p else insertMarker p cfg

/-- Recompute the current row of a key from its newest entry. -/
def refreshCurrent (bucket key : Bytes) : Tx Unit := do
  match ← Tx.read (newestVersion · bucket key) with
  | some next =>
    if next.kind = kindObject then
      Tx.set (currentRowKey bucket key) (.currentRecord (currentRecordFor next))
    else Tx.delete (currentRowKey bucket key)
  | none => Tx.delete (currentRowKey bucket key)

/-- The current row follows the newest version when that one was deleted. -/
def refreshIfNewest (bucket key : Bytes) (wasNewest : Bool) : Tx Unit :=
  if wasNewest then refreshCurrent bucket key else pure ()

/-- DELETE of one version.  A zero entry stands for the newest version of a
key that has none. -/
def applyDeleteVersion (p : DeleteVersion) : Tx DeleteVersionResult := do
  let _ ← requireBucket p.bucket
  Tx.check (validateObjectKey p.key)
  match ← Tx.get (versionRowKey p.bucket p.key p.versionID) with
  | none => pure { removed := false }
  | some row => do
    let entry ← Tx.check row.asVersionEntry
    failIf (entry.lockedAt p.proposedAtUnixMS p.bypassGovernance) .objectLocked
    let newest ← Tx.read (newestVersion · p.bucket p.key)
    let wasNewest := decide ((newest.getD default).versionID = entry.versionID)
    Tx.delete (versionRowKey p.bucket p.key entry.versionID)
    refreshIfNewest p.bucket p.key wasNewest
    pure { removed := true }

/-- Fetch the version a lock mutation aims at: the bucket is lock-enabled and
the target a real object. -/
def lockTarget (bucket key : Bytes) (vid : VersionID) : Tx VersionEntry := do
  let cfg ← requireBucket bucket
  Tx.check (validateObjectKey key)
  failIf (cfg.objectLockEnabled = false) .invalidRetention
  match ← Tx.read (getVersion · bucket key vid) with
  | none => Tx.fail .noSuchVersion
  | some entry => do
    failIf (entry.kind ≠ kindObject) .invalidRetention
    pure entry

/-- The retention mode in force at the proposal time: an expired retention
behaves as none. -/
def effectiveMode (entry : VersionEntry) (atUnixMS : Int64) : RetentionMode :=
  if entry.retentionMode ≠ retentionNone ∧ entry.retainUntilUnixMS ≤ atUnixMS then retentionNone
  else entry.retentionMode

def retentionRefuses (entry : VersionEntry) (p : UpdateRetention) : Bool :=
  let curMode := effectiveMode entry p.proposedAtUnixMS
  if curMode = retentionCompliance then
    p.mode ≠ retentionCompliance ∨ p.retainUntilUnixMS < entry.retainUntilUnixMS
  else if curMode = retentionGovernance then
    p.bypassGovernance = false ∧
      (p.mode = retentionNone ∨ p.retainUntilUnixMS < entry.retainUntilUnixMS)
  else false

/-- The entry with the retention fields of the proposal. -/
def withRetention (entry : VersionEntry) (p : UpdateRetention) : VersionEntry :=
  { entry with
    retentionMode := p.mode
    retainUntilUnixMS := if p.mode = retentionNone then 0 else p.retainUntilUnixMS }

def applyUpdateRetention (p : UpdateRetention) : Tx Unit := do
  let entry ← lockTarget p.bucket p.key p.versionID
  failIf (p.mode ≠ retentionNone ∧ p.retainUntilUnixMS ≤ p.proposedAtUnixMS) .invalidRetention
  failIf (retentionRefuses entry p) .objectLocked
  Tx.set (versionRowKey p.bucket p.key entry.versionID) (.versionEntry (withRetention entry p))

def applyUpdateLegalHold (p : UpdateLegalHold) : Tx Unit := do
  let entry ← lockTarget p.bucket p.key p.versionID
  Tx.set (versionRowKey p.bucket p.key entry.versionID)
    (.versionEntry { entry with legalHold := p.hold })

def requireVersionRow (bucket key : Bytes) (vid : VersionID) : Tx VersionEntry := do
  match ← Tx.get (versionRowKey bucket key vid) with
  | none => Tx.fail .noSuchVersion
  | some row => Tx.check row.asVersionEntry

def applyReEncodeObject (p : ReEncodeObject) : Tx Unit := do
  let entry ← requireVersionRow p.bucket p.key p.versionID
  failIf (entry.kind ≠ kindObject ∨ entry.parts.length > 0) .invalidReEncode
  failIf (p.ecDataShards = 0 ∨
    (p.ecDataShards + p.ecParityShards).toNat ≠ p.shardChecksums.length) .invalidReEncode
  Tx.set (versionRowKey p.bucket p.key p.versionID) (.versionEntry
    { entry with
      dataID := p.dataID
      ecDataShards := p.ecDataShards
      ecParityShards := p.ecParityShards
      shardChecksums := p.shardChecksums })

/-- Rewrite the wrapped key of a version.  A version already on the target
key is left alone. -/
def applyRewrapDEK (p : RewrapDEK) : Tx Unit := do
  let entry ← requireVersionRow p.bucket p.key p.versionID
  failIf (entry.kind ≠ kindObject ∨ entry.encAlgorithm = encNone) .invalidRewrap
  failIf (p.wrappedDEK.length = 0 ∨ p.kekFingerprint = 0) .invalidRewrap
  if entry.kekFingerprint = p.kekFingerprint then pure ()
  else
    Tx.set (versionRowKey p.bucket p.key p.versionID) (.versionEntry
      { entry with wrappedDEK := p.wrappedDEK, kekFingerprint := p.kekFingerprint })

/-! ## Cluster layout and trust bundle

Both are compare-and-set on a version that counts generations from one. -/

def nextGeneration (stored : Option UInt64) : UInt64 :=
  match stored with
  | none => 1
  | some version => version + 1

def applySetClusterLayout (p : SetClusterLayout) : Tx Unit := do
  let prev ← Tx.read (getTyped Record.asClusterLayout · clusterLayoutKey)
  failIf (∃ cur ∈ prev, p.partitionCount ≠ cur.partitionCount) .invalidLayout
  failIf (p.version ≠ nextGeneration (prev.map ClusterLayout.version)) .staleLayout
  failIf (p.partitionCount = 0 ∨ (p.members.length = 0 ∧ p.nodes.length = 0)) .invalidLayout
  Tx.set clusterLayoutKey (.clusterLayout
    { formatVersion := currentFormatVersion
      version := p.version
      partitionCount := p.partitionCount
      members := p.members
      nodes := p.nodes
      previous := p.previous })

def applySetTrustBundle (p : SetTrustBundle) : Tx Unit := do
  let prev ← Tx.read (getTyped Record.asTrustBundle · trustBundleKey)
  failIf (p.version ≠ nextGeneration (prev.map TrustBundle.version)) .staleTrustBundle
  failIf (p.cas.length = 0) .invalidTrustBundle
  failIf (∃ c ∈ p.cas, c.fingerprint = 0 ∨ c.certPEM.length = 0) .invalidTrustBundle
  let bundle : TrustBundle :=
    { formatVersion := currentFormatVersion
      version := p.version
      cas := p.cas
      issuerFingerprint := p.issuerFingerprint }
  failIf (p.issuerFingerprint = 0 ∨ bundle.hasCA p.issuerFingerprint = false) .invalidTrustBundle
  Tx.set trustBundleKey (.trustBundle bundle)

/-! ## Encryption posture -/

/-- The posture that a proposal starts from: the rotation state of the stored
posture is carried forward. -/
def carriedPosture (p : SetEncryptionPosture) (prev : Option EncryptionPosture) :
    EncryptionPosture where
  formatVersion := currentFormatVersion
  algorithm := p.algorithm
  currentKEKFingerprint := (prev.map EncryptionPosture.currentKEKFingerprint).getD 0
  rotatingToKEKFingerprint := (prev.map EncryptionPosture.rotatingToKEKFingerprint).getD 0

def applySetEncryptionPosture (p : SetEncryptionPosture) : Tx Unit := do
  failIf (p.algorithm ≠ encNone ∧ p.algorithm ≠ encAES256GCM) .invalidEncryption
  let prev ← Tx.read (getTyped Record.asEncryptionPosture · encryptionPostureKey)
  failIf (∃ cur ∈ prev, cur.algorithm ≠ encNone ∧ p.algorithm = encNone) .encryptionDowngrade
  let post := carriedPosture p prev
  failIf (p.kekFingerprint ≠ 0 ∧ post.currentKEKFingerprint ≠ 0 ∧
    post.currentKEKFingerprint ≠ p.kekFingerprint) .kekMismatch
  -- The first fingerprint seen becomes the current one.
  let established :=
    if p.kekFingerprint ≠ 0 ∧ post.currentKEKFingerprint = 0 then
      { post with currentKEKFingerprint := p.kekFingerprint }
    else post
  Tx.set encryptionPostureKey (.encryptionPosture established)

def requirePosture : Tx EncryptionPosture := do
  match ← Tx.read (getTyped Record.asEncryptionPosture · encryptionPostureKey) with
  | none => Tx.fail .notEncrypting
  | some post => pure post

def applyBeginKEKRotation (p : BeginKEKRotation) : Tx Unit := do
  let post ← requirePosture
  failIf (post.algorithm = encNone) .notEncrypting
  failIf (p.toFingerprint = 0 ∨ p.toFingerprint = post.currentKEKFingerprint) .invalidRewrap
  failIf (post.currentKEKFingerprint = 0 ∨ p.fromFingerprint ≠ post.currentKEKFingerprint)
    .kekMismatch
  failIf (post.rotatingToKEKFingerprint ≠ 0 ∧
    post.rotatingToKEKFingerprint ≠ p.toFingerprint) .kekMismatch
  Tx.set encryptionPostureKey
    (.encryptionPosture { post with rotatingToKEKFingerprint := p.toFingerprint })

def applyCompleteKEKRotation (p : CompleteKEKRotation) : Tx Unit := do
  let post ← requirePosture
  if post.rotatingToKEKFingerprint = 0 then
    -- No rotation is open: success only when already on the target.
    if post.currentKEKFingerprint = p.toFingerprint then pure () else Tx.fail .kekMismatch
  else do
    failIf (post.rotatingToKEKFingerprint ≠ p.toFingerprint) .kekMismatch
    Tx.set encryptionPostureKey (.encryptionPosture
      { post with
        currentKEKFingerprint := post.rotatingToKEKFingerprint
        rotatingToKEKFingerprint := 0 })

/-! ## Node registry -/

def applyRegisterNode (p : RegisterNode) : Tx Unit := do
  failIf (p.nodeID = []) .invalidNode
  let prev ← Tx.read (getTyped Record.asNodeRecord · (nodeRowKey p.nodeID))
  Tx.set (nodeRowKey p.nodeID) (.nodeRecord
    { formatVersion := currentFormatVersion
      nodeID := p.nodeID
      host := p.host
      zone := p.zone
      capacity := p.capacity
      leafCAFingerprint := p.leafCAFingerprint
      binaryVersion := (prev.map NodeRecord.binaryVersion).getD []
      generation := (prev.map NodeRecord.generation).getD 0 })

def updateNode (nodeID : Bytes) (f : NodeRecord → NodeRecord) : Tx Unit := do
  failIf (nodeID = []) .invalidNode
  match ← Tx.read (getTyped Record.asNodeRecord · (nodeRowKey nodeID)) with
  | none => Tx.fail .invalidNode
  | some rec' => Tx.set (nodeRowKey nodeID) (.nodeRecord (f rec'))

def applySetNodeVersion (p : SetNodeVersion) : Tx Unit :=
  updateNode p.nodeID
    ({ · with binaryVersion := p.binaryVersion, generation := p.generation })

def applySetNodeLeafCA (p : SetNodeLeafCA) : Tx Unit :=
  updateNode p.nodeID ({ · with leafCAFingerprint := p.leafCAFingerprint })

def applySetNodeDraining (p : SetNodeDraining) : Tx Unit :=
  updateNode p.nodeID ({ · with draining := p.draining })

def applySetNodeReplacedBy (p : SetNodeReplacedBy) : Tx Unit :=
  updateNode p.nodeID ({ · with replacedBy := p.replacedBy })

end Hamster.Meta
