import Hamster.Meta.Records

/-!
# Proposals

`internal/meta/proposals.go` and the proposal types of
`internal/meta/multipart.go`.  A proposal carries every input of its apply
function: the proposing node's clock reading and the freshly minted
identifier included.  `Proposal` is the sum of the kinds that `Store.Apply`
dispatches; `unknown` is a value of any other type.
-/

namespace Hamster.Meta

open CodeLib

structure CreateBucket where
  proposedAtUnixMS : Int64
  bucket : Bytes
  objectLockEnabled : Bool
deriving DecidableEq

structure DeleteBucket where
  proposedAtUnixMS : Int64
  bucket : Bytes
deriving DecidableEq

structure SetBucketVersioning where
  proposedAtUnixMS : Int64
  bucket : Bytes
  state : VersioningState
deriving DecidableEq

structure SetObjectLockConfiguration where
  proposedAtUnixMS : Int64
  bucket : Bytes
  defaultRetentionMode : RetentionMode
  defaultRetentionDays : UInt32
  defaultRetentionYears : UInt32
deriving DecidableEq

/-- One object version.  `versionID` is minted by the gateway and names the
data that is already durable. -/
structure PutObject where
  proposedAtUnixMS : Int64
  bucket : Bytes
  key : Bytes
  versionID : VersionID
  size : Int64 := 0
  etag : Bytes := []
  contentType : Bytes := []
  userMetadata : StringMap := StringMap.empty
  partition : UInt64 := 0
  ecDataShards : UInt32 := 0
  ecParityShards : UInt32 := 0
  objectChecksum : Bytes := []
  shardChecksums : List Bytes := []
  retentionMode : RetentionMode := retentionNone
  retainUntilUnixMS : Int64 := 0
  legalHold : Bool := false
  encAlgorithm : EncAlgorithm := encNone
  wrappedDEK : Bytes := []
  kekFingerprint : UInt64 := 0
deriving DecidableEq

structure PutResult where
  versionID : VersionID
  replacedDataIDs : List VersionID
deriving DecidableEq

/-- DELETE without a version: the minted `versionID` is for a marker. -/
structure DeleteObject where
  proposedAtUnixMS : Int64
  bucket : Bytes
  key : Bytes
  versionID : VersionID
deriving DecidableEq

structure DeleteObjectResult where
  removed : Bool := false
  markerCreated : Bool := false
  markerID : VersionID := VersionID.zero
  removedDataIDs : List VersionID := []
deriving DecidableEq

structure DeleteVersion where
  proposedAtUnixMS : Int64
  bucket : Bytes
  key : Bytes
  versionID : VersionID
  bypassGovernance : Bool
deriving DecidableEq

structure DeleteVersionResult where
  removed : Bool
deriving DecidableEq

structure UpdateRetention where
  proposedAtUnixMS : Int64
  bucket : Bytes
  key : Bytes
  versionID : VersionID
  mode : RetentionMode
  retainUntilUnixMS : Int64
  bypassGovernance : Bool
deriving DecidableEq

structure UpdateLegalHold where
  proposedAtUnixMS : Int64
  bucket : Bytes
  key : Bytes
  versionID : VersionID
  hold : Bool
deriving DecidableEq

structure ReEncodeObject where
  proposedAtUnixMS : Int64
  bucket : Bytes
  key : Bytes
  versionID : VersionID
  dataID : VersionID
  ecDataShards : UInt32
  ecParityShards : UInt32
  shardChecksums : List Bytes
deriving DecidableEq

structure CreateMultipartUpload where
  proposedAtUnixMS : Int64
  bucket : Bytes
  key : Bytes
  uploadID : VersionID
  contentType : Bytes := []
  userMetadata : StringMap := StringMap.empty
deriving DecidableEq

structure UploadPart where
  proposedAtUnixMS : Int64
  bucket : Bytes
  key : Bytes
  uploadID : VersionID
  partNumber : UInt32
  dataID : VersionID
  size : Int64
  etag : Bytes
  checksum : Bytes := []
  partition : UInt64 := 0
  ecDataShards : UInt32 := 0
  ecParityShards : UInt32 := 0
  shardChecksums : List Bytes := []
  encAlgorithm : EncAlgorithm := encNone
  wrappedDEK : Bytes := []
  kekFingerprint : UInt64 := 0
deriving DecidableEq

structure UploadPartResult where
  replacedDataID : VersionID
deriving DecidableEq

structure CompletedPart where
  partNumber : UInt32
  etag : Bytes
deriving DecidableEq

structure CompleteMultipartUpload where
  proposedAtUnixMS : Int64
  bucket : Bytes
  key : Bytes
  uploadID : VersionID
  versionID : VersionID
  etag : Bytes
  parts : List CompletedPart
deriving DecidableEq

structure CompleteResult where
  versionID : VersionID
  discardedDataIDs : List VersionID
deriving DecidableEq

structure AbortMultipartUpload where
  proposedAtUnixMS : Int64
  bucket : Bytes
  key : Bytes
  uploadID : VersionID
deriving DecidableEq

structure AbortResult where
  partDataIDs : List VersionID
deriving DecidableEq

structure SetClusterLayout where
  proposedAtUnixMS : Int64
  version : UInt64
  partitionCount : UInt32
  members : List Bytes
  nodes : List LayoutNode
  previous : List LayoutNode
deriving DecidableEq

structure SetEncryptionPosture where
  proposedAtUnixMS : Int64
  algorithm : EncAlgorithm
  kekFingerprint : UInt64
deriving DecidableEq

structure BeginKEKRotation where
  proposedAtUnixMS : Int64
  fromFingerprint : UInt64
  toFingerprint : UInt64
deriving DecidableEq

structure RewrapDEK where
  proposedAtUnixMS : Int64
  bucket : Bytes
  key : Bytes
  versionID : VersionID
  wrappedDEK : Bytes
  kekFingerprint : UInt64
deriving DecidableEq

structure CompleteKEKRotation where
  proposedAtUnixMS : Int64
  toFingerprint : UInt64
deriving DecidableEq

structure RegisterNode where
  proposedAtUnixMS : Int64
  nodeID : Bytes
  host : Bytes
  zone : Bytes
  capacity : UInt32
  leafCAFingerprint : UInt64
deriving DecidableEq

structure SetNodeDraining where
  proposedAtUnixMS : Int64
  nodeID : Bytes
  draining : Bool
deriving DecidableEq

structure SetNodeReplacedBy where
  proposedAtUnixMS : Int64
  nodeID : Bytes
  replacedBy : Bytes
deriving DecidableEq

structure SetNodeLeafCA where
  proposedAtUnixMS : Int64
  nodeID : Bytes
  leafCAFingerprint : UInt64
deriving DecidableEq

structure SetNodeVersion where
  proposedAtUnixMS : Int64
  nodeID : Bytes
  binaryVersion : Bytes
  generation : UInt32
deriving DecidableEq

structure SetTrustBundle where
  proposedAtUnixMS : Int64
  version : UInt64
  cas : List TrustedCA
  issuerFingerprint : UInt64
deriving DecidableEq

inductive Proposal where
  | createBucket (p : CreateBucket)
  | deleteBucket (p : DeleteBucket)
  | setBucketVersioning (p : SetBucketVersioning)
  | setObjectLockConfiguration (p : SetObjectLockConfiguration)
  | putObject (p : PutObject)
  | deleteObject (p : DeleteObject)
  | deleteVersion (p : DeleteVersion)
  | updateRetention (p : UpdateRetention)
  | updateLegalHold (p : UpdateLegalHold)
  | createMultipartUpload (p : CreateMultipartUpload)
  | uploadPart (p : UploadPart)
  | completeMultipartUpload (p : CompleteMultipartUpload)
  | abortMultipartUpload (p : AbortMultipartUpload)
  | setClusterLayout (p : SetClusterLayout)
  | setEncryptionPosture (p : SetEncryptionPosture)
  | beginKEKRotation (p : BeginKEKRotation)
  | rewrapDEK (p : RewrapDEK)
  | completeKEKRotation (p : CompleteKEKRotation)
  | registerNode (p : RegisterNode)
  | setNodeDraining (p : SetNodeDraining)
  | setNodeReplacedBy (p : SetNodeReplacedBy)
  | setNodeLeafCA (p : SetNodeLeafCA)
  | setNodeVersion (p : SetNodeVersion)
  | setTrustBundle (p : SetTrustBundle)
  | reEncodeObject (p : ReEncodeObject)
  | unknown
deriving DecidableEq

/-- What `Apply` returns next to the error: the result of the kinds that have
one, nil for the others. -/
inductive ApplyResult where
  | nil
  | put (r : PutResult)
  | deleteObject (r : DeleteObjectResult)
  | deleteVersion (r : DeleteVersionResult)
  | uploadPart (r : UploadPartResult)
  | complete (r : CompleteResult)
  | abort (r : AbortResult)
deriving DecidableEq

namespace Proposal

/-- The identifiers that a proposal mints for a new version. -/
def mintedIDs : Proposal → List VersionID
  | putObject p => [p.versionID]
  | deleteObject p => [p.versionID]
  | completeMultipartUpload p => [p.versionID]
  | _ => []

theorem mintedIDs_unique {p : Proposal} {v o : VersionID} (hv : v ∈ p.mintedIDs)
    (ho : o ∈ p.mintedIDs) : v = o := by
  cases p with
  | putObject | deleteObject | completeMultipartUpload =>
    rw [List.mem_singleton.mp hv, List.mem_singleton.mp ho]
  | _ => exact absurd hv List.not_mem_nil

/-- The bucket and key that a proposal may commit a new version under. -/
def writeTarget : Proposal → Option (Bytes × Bytes)
  | putObject p => some (p.bucket, p.key)
  | deleteObject p => some (p.bucket, p.key)
  | completeMultipartUpload p => some (p.bucket, p.key)
  | _ => none

def MintsUUIDv7 (p : Proposal) : Prop := ∀ v ∈ p.mintedIDs, v.IsUUIDv7
deriving Decidable

/-- The clock reading of the proposing node, carried by every known kind. -/
def proposedAt : Proposal → Option Int64
  | createBucket p => some p.proposedAtUnixMS
  | deleteBucket p => some p.proposedAtUnixMS
  | setBucketVersioning p => some p.proposedAtUnixMS
  | setObjectLockConfiguration p => some p.proposedAtUnixMS
  | putObject p => some p.proposedAtUnixMS
  | deleteObject p => some p.proposedAtUnixMS
  | deleteVersion p => some p.proposedAtUnixMS
  | updateRetention p => some p.proposedAtUnixMS
  | updateLegalHold p => some p.proposedAtUnixMS
  | createMultipartUpload p => some p.proposedAtUnixMS
  | uploadPart p => some p.proposedAtUnixMS
  | completeMultipartUpload p => some p.proposedAtUnixMS
  | abortMultipartUpload p => some p.proposedAtUnixMS
  | setClusterLayout p => some p.proposedAtUnixMS
  | setEncryptionPosture p => some p.proposedAtUnixMS
  | beginKEKRotation p => some p.proposedAtUnixMS
  | rewrapDEK p => some p.proposedAtUnixMS
  | completeKEKRotation p => some p.proposedAtUnixMS
  | registerNode p => some p.proposedAtUnixMS
  | setNodeDraining p => some p.proposedAtUnixMS
  | setNodeReplacedBy p => some p.proposedAtUnixMS
  | setNodeLeafCA p => some p.proposedAtUnixMS
  | setNodeVersion p => some p.proposedAtUnixMS
  | setTrustBundle p => some p.proposedAtUnixMS
  | reEncodeObject p => some p.proposedAtUnixMS
  | unknown => none

def ProposedBefore (t : Int64) (p : Proposal) : Prop := ∀ at' ∈ p.proposedAt, at' < t

instance (t : Int64) (p : Proposal) : Decidable (p.ProposedBefore t) :=
  decidable_of_iff (p.proposedAt.all (fun at' => decide (at' < t)) = true) (by
    unfold ProposedBefore
    cases p.proposedAt <;> simp)

end Proposal

end Hamster.Meta
