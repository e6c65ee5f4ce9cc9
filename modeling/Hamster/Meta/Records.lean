import Hamster.CodeLib.CivilDate
import Hamster.Meta.VersionID
import Mathlib.Data.List.Basic

/-!
# Metadata records

`internal/meta/records.go`.  A row of the keyspace holds one of nine record
types; `Record` is their sum, the dynamic type of a stored value.

The enumerations of the source are bytes and a proposal may carry any byte,
so `Kind`, `RetentionMode`, `EncAlgorithm` and `VersioningState` are bytes
here too, with the source's constants.  Sizes and times are 64-bit signed
integers.  A Go map of strings is a list of pairs in strict key order, so
that equal maps are equal values.

The `unknown` field of a record holds the raw bytes of fields a newer writer
added.  Cloning a record is the identity on values and is not modelled.
-/

namespace Hamster.Meta

open CodeLib

def currentFormatVersion : UInt32 := 1

abbrev Kind := UInt8

def kindObject : Kind := 0
def kindDeleteMarker : Kind := 1

abbrev RetentionMode := UInt8

def retentionNone : RetentionMode := 0
def retentionGovernance : RetentionMode := 1
def retentionCompliance : RetentionMode := 2

abbrev EncAlgorithm := UInt8

def encNone : EncAlgorithm := 0
def encAES256GCM : EncAlgorithm := 1

abbrev VersioningState := UInt8

def unversioned : VersioningState := 0
def versioningEnabled : VersioningState := 1
def versioningSuspended : VersioningState := 2

/-- A Go `map[string]string`: its pairs in strict key order. -/
structure StringMap where
  pairs : List (Bytes × Bytes)
  sorted : pairs.Pairwise (fun a b => a.1 < b.1)
deriving DecidableEq

def StringMap.empty : StringMap := ⟨[], List.Pairwise.nil⟩

instance : Inhabited StringMap := ⟨StringMap.empty⟩

/-- One slice of the data of a multipart object. -/
structure PartRef where
  dataID : VersionID
  size : Int64
  checksum : Bytes := []
  partition : UInt64 := 0
  ecDataShards : UInt32 := 0
  ecParityShards : UInt32 := 0
  shardChecksums : List Bytes := []
  encAlgorithm : EncAlgorithm := encNone
  wrappedDEK : Bytes := []
  kekFingerprint : UInt64 := 0
  unknown : Bytes := []
deriving DecidableEq, Inhabited

/-- One row under `v/`: one version of one key. -/
structure VersionEntry where
  formatVersion : UInt32 := 0
  versionID : VersionID
  dataID : VersionID := VersionID.zero
  kind : Kind
  size : Int64 := 0
  createdUnixMS : Int64 := 0
  etag : Bytes := []
  contentType : Bytes := []
  userMetadata : StringMap := StringMap.empty
  partition : UInt64 := 0
  ecDataShards : UInt32 := 0
  ecParityShards : UInt32 := 0
  objectChecksum : Bytes := []
  shardChecksums : List Bytes := []
  retentionMode : RetentionMode := retentionNone
  retainUntilUnixMS : Int64 := 0
  legalHold : Bool := false
  encAlgorithm : EncAlgorithm := encNone
  wrappedDEK : Bytes := []
  kekFingerprint : UInt64 := 0
  nullVersion : Bool := false
  parts : List PartRef := []
  unknown : Bytes := []
deriving DecidableEq, Inhabited

namespace VersionEntry

def dataIDs (e : VersionEntry) : List VersionID :=
  if e.parts.length > 0 then e.parts.map PartRef.dataID
  else if e.dataID.isZero then []
  else [e.dataID]

/-- Whether object lock forbids destroying the entry at proposal time
`atUnixMS`. -/
def lockedAt (e : VersionEntry) (atUnixMS : Int64) (bypassGovernance : Bool) : Bool :=
  if e.legalHold then true
  else if e.retainUntilUnixMS ≤ atUnixMS then false
  else if e.retentionMode = retentionCompliance then true
  else if e.retentionMode = retentionGovernance then !bypassGovernance
  else false

end VersionEntry

/-- The absolute retain-until of a write at `atUnixMS` under a default rule.
`UnixMilli` of the sum wraps at 64 bits. -/
def retainUntilFromDefault (atUnixMS : Int64) (days years : UInt32) : Int64 :=
  Int64.ofInt (addDate atUnixMS.toInt years.toNat days.toNat)

/-- One row under `c/`: the listing row of a key whose newest version is an
object. -/
structure CurrentRecord where
  formatVersion : UInt32
  versionID : VersionID
  size : Int64
  etag : Bytes
  createdUnixMS : Int64
  partCount : UInt32
  unknown : Bytes := []
deriving DecidableEq, Inhabited

def currentRecordFor (e : VersionEntry) : CurrentRecord where
  formatVersion := currentFormatVersion
  versionID := e.versionID
  size := e.size
  etag := e.etag
  createdUnixMS := e.createdUnixMS
  partCount := UInt32.ofNat e.parts.length

structure BucketConfig where
  formatVersion : UInt32
  name : Bytes
  createdUnixMS : Int64
  versioning : VersioningState
  objectLockEnabled : Bool
  defaultRetentionMode : RetentionMode := retentionNone
  defaultRetentionDays : UInt32 := 0
  defaultRetentionYears : UInt32 := 0
  unknown : Bytes := []
deriving DecidableEq, Inhabited

/-- One row under `u/`: a multipart upload in progress. -/
structure UploadRecord where
  formatVersion : UInt32
  uploadID : VersionID
  createdUnixMS : Int64
  contentType : Bytes
  userMetadata : StringMap
  unknown : Bytes := []
deriving DecidableEq, Inhabited

structure PartRecord where
  formatVersion : UInt32
  partNumber : UInt32
  dataID : VersionID
  size : Int64
  etag : Bytes
  checksum : Bytes
  uploadedUnixMS : Int64
  partition : UInt64
  ecDataShards : UInt32
  ecParityShards : UInt32
  shardChecksums : List Bytes
  encAlgorithm : EncAlgorithm
  wrappedDEK : Bytes
  kekFingerprint : UInt64
  unknown : Bytes := []
deriving DecidableEq, Inhabited

/-- One member of a cluster layout with its failure-domain labels. -/
structure LayoutNode where
  id : Bytes
  host : Bytes
  zone : Bytes
  weight : UInt32 := 0
  draining : Bool := false
deriving DecidableEq, Inhabited

/-- One row under `s/node/`: the registration of a member. -/
structure NodeRecord where
  formatVersion : UInt32
  nodeID : Bytes
  host : Bytes
  zone : Bytes
  capacity : UInt32
  draining : Bool := false
  replacedBy : Bytes := []
  leafCAFingerprint : UInt64
  binaryVersion : Bytes := []
  generation : UInt32 := 0
  unknown : Bytes := []
deriving DecidableEq, Inhabited

structure ClusterLayout where
  formatVersion : UInt32
  version : UInt64
  partitionCount : UInt32
  members : List Bytes
  nodes : List LayoutNode
  previous : List LayoutNode
  unknown : Bytes := []
deriving DecidableEq, Inhabited

structure EncryptionPosture where
  formatVersion : UInt32
  algorithm : EncAlgorithm
  currentKEKFingerprint : UInt64 := 0
  rotatingToKEKFingerprint : UInt64 := 0
  unknown : Bytes := []
deriving DecidableEq, Inhabited

structure TrustedCA where
  fingerprint : UInt64
  certPEM : Bytes
deriving DecidableEq, Inhabited

/-- The row under `s/trust`: the trusted CA certificates and the issuer. -/
structure TrustBundle where
  formatVersion : UInt32
  version : UInt64
  cas : List TrustedCA
  issuerFingerprint : UInt64
  unknown : Bytes := []
deriving DecidableEq, Inhabited

/-- Whether the bundle trusts the CA with the given fingerprint. -/
def TrustBundle.hasCA (b : TrustBundle) (fingerprint : UInt64) : Bool :=
  b.cas.any (fun c => c.fingerprint == fingerprint)

inductive Record where
  | bucketConfig (r : BucketConfig)
  | versionEntry (r : VersionEntry)
  | currentRecord (r : CurrentRecord)
  | uploadRecord (r : UploadRecord)
  | partRecord (r : PartRecord)
  | clusterLayout (r : ClusterLayout)
  | encryptionPosture (r : EncryptionPosture)
  | trustBundle (r : TrustBundle)
  | nodeRecord (r : NodeRecord)
deriving DecidableEq

end Hamster.Meta
