import Hamster.Meta.Records

/-!
# Keyspace encoding

`internal/meta/keys.go`.  The rows of the store live in one flat keyspace:

* `b/<bucket>`                              bucket configuration
* `v/<bucket>\0<key>\0<~version-id>`        version entry
* `c/<bucket>\0<key>`                       current record
* `u/<bucket>\0<key>\0<upload-id>`          upload
* `u/<bucket>\0<key>\0<upload-id><part>`    part of an upload
* `s/...`                                   cluster state

The fields are separated by NUL.  A bucket name cannot hold NUL by its
character set and an object key is refused when it does; the trailing
identifiers have fixed width, so they may.
-/

namespace Hamster.Meta

open CodeLib

/-- The errors of `apply`.  `panicked` is a failed type assertion, `persist`
a failed commit to durable storage, `unknownProposal` a value that is no
proposal. -/
inductive MetaError where
  | invalidBucketName
  | bucketExists
  | noSuchBucket
  | bucketNotEmpty
  | invalidObjectKey
  | noSuchVersion
  | objectLocked
  | invalidVersioningState
  | invalidRetention
  | noSuchUpload
  | uploadExists
  | invalidPartNumber
  | invalidPart
  | invalidPartOrder
  | partTooSmall
  | staleLayout
  | invalidLayout
  | invalidNode
  | invalidReEncode
  | invalidEncryption
  | encryptionDowngrade
  | kekMismatch
  | notEncrypting
  | invalidRewrap
  | staleTrustBundle
  | invalidTrustBundle
  | unknownProposal
  | persist
  | panicked
deriving DecidableEq, Repr

def clusterLayoutKey : Bytes := [115, 47, 108, 97, 121, 111, 117, 116]

def encryptionPostureKey : Bytes := [115, 47, 101, 110, 99]

def trustBundleKey : Bytes := [115, 47, 116, 114, 117, 115, 116]

def nodeScanPrefix : Bytes := [115, 47, 110, 111, 100, 101, 47]

def nodeRowKey (id : Bytes) : Bytes := nodeScanPrefix ++ id

def bucketScanPrefix : Bytes := [98, 47]

def bucketRowKey (bucket : Bytes) : Bytes := bucketScanPrefix ++ bucket

def currentScanPrefix (bucket : Bytes) : Bytes := [99, 47] ++ (bucket ++ [0])

def currentRowKey (bucket key : Bytes) : Bytes := [99, 47] ++ (bucket ++ 0 :: key)

def bucketVersionsScanPrefix (bucket : Bytes) : Bytes := [118, 47] ++ (bucket ++ [0])

/-- `"v/" + bucket + nul + key + nul` -/
def versionScanPrefix (bucket key : Bytes) : Bytes :=
  [118, 47] ++ (bucket ++ 0 :: (key ++ [0]))

/-- `"v/" + bucket + nul + key + nul + ^vid` -/
def versionRowKey (bucket key : Bytes) (vid : VersionID) : Bytes :=
  [118, 47] ++ (bucket ++ 0 :: (key ++ 0 :: vid.complement.bytes))

def uploadsScanPrefix (bucket : Bytes) : Bytes := [117, 47] ++ (bucket ++ [0])

/-- `"u/" + bucket + nul + key + nul + uid` -/
def uploadRowKey (bucket key : Bytes) (uid : VersionID) : Bytes :=
  [117, 47] ++ (bucket ++ 0 :: (key ++ 0 :: uid.bytes))

def putUint32 (n : UInt32) : Bytes :=
  [(n >>> 24).toUInt8, (n >>> 16).toUInt8, (n >>> 8).toUInt8, n.toUInt8]

def partRowKey (bucket key : Bytes) (uid : VersionID) (part : UInt32) : Bytes :=
  uploadRowKey bucket key uid ++ putUint32 part

/-- The object key of a `c/` row of `bucket`. -/
def objectKeyFromCurrentRow (rowKey bucket : Bytes) : Bytes :=
  rowKey.drop (currentScanPrefix bucket).length

/-- An object key is 1 to 1024 bytes without NUL. -/
def validateObjectKey (key : Bytes) : Except MetaError Unit :=
  if key.length = 0 ∨ key.length > 1024 ∨ 0 ∈ key then .error .invalidObjectKey else .ok ()

def isAlnum (c : UInt8) : Bool := (97 ≤ c && c ≤ 122) || (48 ≤ c && c ≤ 57)

/-- A bucket name is 3 to 63 bytes of `[a-z0-9.-]` with an alphanumeric byte
at both ends. -/
def validateBucketName (name : Bytes) : Except MetaError Unit :=
  if name.length < 3 ∨ name.length > 63 then .error .invalidBucketName
  else if (name.zipIdx.any (fun ci =>
      ((ci.2 == 0 || ci.2 == name.length - 1) && !isAlnum ci.1) ||
        (!isAlnum ci.1 && ci.1 != 46 && ci.1 != 45))) then
    .error .invalidBucketName
  else .ok ()

/-! ## What the validators promise -/

theorem zero_notMem_of_validateObjectKey {key : Bytes}
    (h : validateObjectKey key = .ok ()) : 0 ∉ key := by
  intro hmem
  simp [validateObjectKey, hmem] at h

theorem ne_nil_of_validateObjectKey {key : Bytes}
    (h : validateObjectKey key = .ok ()) : key ≠ [] := by
  rintro rfl
  simp [validateObjectKey] at h

theorem zero_notMem_of_validateBucketName {name : Bytes}
    (h : validateBucketName name = .ok ()) : 0 ∉ name := by
  intro hmem
  obtain ⟨i, hi, hget⟩ := List.getElem_of_mem hmem
  rw [validateBucketName] at h
  split at h
  · simp at h
  · split at h
    · simp at h
    · rename_i hany
      apply hany
      rw [List.any_eq_true]
      refine ⟨(0, i), List.mk_mem_zipIdx_iff_getElem?.mpr (by simp [hi, hget]), ?_⟩
      have halnum : isAlnum 0 = false := by decide
      simp [halnum]

end Hamster.Meta
