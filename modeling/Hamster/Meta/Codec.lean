import Hamster.CodeLib.Wire
import Hamster.Meta.Records

/-!
# The encoding of records

The encoders of `internal/meta/codec.go`: each of the nine record types as a
message of the wire format, fields in the order of their numbers, zero values
left out, and last the raw bytes of the fields that a newer writer added.

An encoder is a chain of `put` functions over a buffer.  What each of them
appends is the encoding of a list of fields (`putUvarint_eq` and its
companions), so the bytes of a record are the encoding of its fields and then
the raw bytes (`marshalRecord_eq`).
-/

namespace Hamster.Meta

open CodeLib

variable [Protowire]

/-! ## Encode helpers -/

def putUvarint (b : Bytes) (num : Nat) (v : UInt64) : Bytes :=
  if v = 0 then b else appendVarint (appendTag b num varintType) v

def putBool (b : Bytes) (num : Nat) (v : Bool) : Bytes :=
  if !v then b else putUvarint b num 1

def putMessage (b : Bytes) (num : Nat) (v : Bytes) : Bytes :=
  appendBytes (appendTag b num bytesType) v

def putBytes (b : Bytes) (num : Nat) (v : Bytes) : Bytes :=
  if v.length = 0 then b else putMessage b num v

def putString (b : Bytes) (num : Nat) (v : Bytes) : Bytes :=
  if v = [] then b else putMessage b num v

def putID (b : Bytes) (num : Nat) (id : VersionID) : Bytes :=
  if id.isZero then b else putBytes b num id.bytes

def mapEntry (kv : Bytes × Bytes) : Bytes :=
  putString (putString [] 1 kv.1) 2 kv.2

/-- A repeated field: one field of bytes for each element. -/
def putRepeated {α : Type} (marshal : α → Bytes) (b : Bytes) (num : Nat) (vs : List α) :
    Bytes :=
  vs.foldl (fun b v => putMessage b num (marshal v)) b

/-- A map field: one entry message per pair, sorted by key. -/
def putMap (b : Bytes) (num : Nat) (m : StringMap) : Bytes :=
  putRepeated mapEntry b num m.pairs

/-! ## Record codecs -/

def marshalBucketConfig (c : BucketConfig) : Bytes :=
  let b := putUvarint [] 1 c.formatVersion.toUInt64
  let b := putString b 2 c.name
  let b := putUvarint b 3 c.createdUnixMS.toUInt64
  let b := putUvarint b 4 c.versioning.toUInt64
  let b := putBool b 5 c.objectLockEnabled
  let b := putUvarint b 6 c.defaultRetentionMode.toUInt64
  let b := putUvarint b 7 c.defaultRetentionDays.toUInt64
  let b := putUvarint b 8 c.defaultRetentionYears.toUInt64
  b ++ c.unknown

def marshalPartRef (p : PartRef) : Bytes :=
  let b := putID [] 1 p.dataID
  let b := putUvarint b 2 p.size.toUInt64
  let b := putBytes b 3 p.checksum
  let b := putUvarint b 4 p.partition
  let b := putUvarint b 5 p.ecDataShards.toUInt64
  let b := putUvarint b 6 p.ecParityShards.toUInt64
  let b := putRepeated id b 7 p.shardChecksums
  let b := putUvarint b 8 p.encAlgorithm.toUInt64
  let b := putBytes b 9 p.wrappedDEK
  let b := putUvarint b 10 p.kekFingerprint
  b ++ p.unknown

def marshalVersionEntry (e : VersionEntry) : Bytes :=
  let b := putUvarint [] 1 e.formatVersion.toUInt64
  let b := putID b 2 e.versionID
  let b := putUvarint b 3 e.kind.toUInt64
  let b := putUvarint b 4 e.size.toUInt64
  let b := putUvarint b 5 e.createdUnixMS.toUInt64
  let b := putBytes b 6 e.etag
  let b := putString b 7 e.contentType
  let b := putMap b 8 e.userMetadata
  let b := putUvarint b 9 e.partition
  let b := putUvarint b 10 e.ecDataShards.toUInt64
  let b := putUvarint b 11 e.ecParityShards.toUInt64
  let b := putBytes b 12 e.objectChecksum
  let b := putRepeated id b 13 e.shardChecksums
  let b := putUvarint b 14 e.retentionMode.toUInt64
  let b := putUvarint b 15 e.retainUntilUnixMS.toUInt64
  let b := putBool b 16 e.legalHold
  let b := putBool b 17 e.nullVersion
  let b := putID b 18 e.dataID
  let b := putRepeated marshalPartRef b 19 e.parts
  let b := putUvarint b 20 e.encAlgorithm.toUInt64
  let b := putBytes b 21 e.wrappedDEK
  let b := putUvarint b 22 e.kekFingerprint
  b ++ e.unknown

def marshalCurrentRecord (c : CurrentRecord) : Bytes :=
  let b := putUvarint [] 1 c.formatVersion.toUInt64
  let b := putID b 2 c.versionID
  let b := putUvarint b 3 c.size.toUInt64
  let b := putBytes b 4 c.etag
  let b := putUvarint b 5 c.createdUnixMS.toUInt64
  let b := putUvarint b 6 c.partCount.toUInt64
  b ++ c.unknown

def marshalUploadRecord (u : UploadRecord) : Bytes :=
  let b := putUvarint [] 1 u.formatVersion.toUInt64
  let b := putID b 2 u.uploadID
  let b := putUvarint b 3 u.createdUnixMS.toUInt64
  let b := putString b 4 u.contentType
  let b := putMap b 5 u.userMetadata
  b ++ u.unknown

def marshalPartRecord (p : PartRecord) : Bytes :=
  let b := putUvarint [] 1 p.formatVersion.toUInt64
  let b := putUvarint b 2 p.partNumber.toUInt64
  let b := putID b 3 p.dataID
  let b := putUvarint b 4 p.size.toUInt64
  let b := putBytes b 5 p.etag
  let b := putBytes b 6 p.checksum
  let b := putUvarint b 7 p.uploadedUnixMS.toUInt64
  let b := putUvarint b 8 p.partition
  let b := putUvarint b 9 p.ecDataShards.toUInt64
  let b := putUvarint b 10 p.ecParityShards.toUInt64
  let b := putRepeated id b 11 p.shardChecksums
  let b := putUvarint b 12 p.encAlgorithm.toUInt64
  let b := putBytes b 13 p.wrappedDEK
  let b := putUvarint b 14 p.kekFingerprint
  b ++ p.unknown

/-- The weight is written when it is not zero, the flag when it is set. -/
def marshalLayoutNode (n : LayoutNode) : Bytes :=
  let b := putString [] 1 n.id
  let b := putString b 2 n.host
  let b := putString b 3 n.zone
  let b := if n.weight ≠ 0 then putUvarint b 4 n.weight.toUInt64 else b
  if n.draining then putUvarint b 5 1 else b

/-- A member name goes through `putString`, which leaves an empty one out. -/
def marshalClusterLayout (l : ClusterLayout) : Bytes :=
  let b := putUvarint [] 1 l.formatVersion.toUInt64
  let b := putUvarint b 2 l.version
  let b := putUvarint b 3 l.partitionCount.toUInt64
  let b := l.members.foldl (fun b m => putString b 4 m) b
  let b := putRepeated marshalLayoutNode b 5 l.nodes
  let b := putRepeated marshalLayoutNode b 6 l.previous
  b ++ l.unknown

def marshalEncryptionPosture (p : EncryptionPosture) : Bytes :=
  let b := putUvarint [] 1 p.formatVersion.toUInt64
  let b := putUvarint b 2 p.algorithm.toUInt64
  let b := putUvarint b 3 p.currentKEKFingerprint
  let b := putUvarint b 4 p.rotatingToKEKFingerprint
  b ++ p.unknown

def marshalNodeRecord (n : NodeRecord) : Bytes :=
  let b := putUvarint [] 1 n.formatVersion.toUInt64
  let b := putString b 2 n.nodeID
  let b := putString b 3 n.host
  let b := putString b 4 n.zone
  let b := putUvarint b 5 n.capacity.toUInt64
  let b := if n.draining then putUvarint b 6 1 else b
  let b := putString b 7 n.replacedBy
  let b := putUvarint b 8 n.leafCAFingerprint
  let b := putString b 9 n.binaryVersion
  let b := putUvarint b 10 n.generation.toUInt64
  b ++ n.unknown

def marshalTrustedCA (c : TrustedCA) : Bytes :=
  putBytes (putUvarint [] 1 c.fingerprint) 2 c.certPEM

def marshalTrustBundle (t : TrustBundle) : Bytes :=
  let b := putUvarint [] 1 t.formatVersion.toUInt64
  let b := putUvarint b 2 t.version
  let b := putRepeated marshalTrustedCA b 3 t.cas
  let b := putUvarint b 4 t.issuerFingerprint
  b ++ t.unknown

def marshalRecord : Record → Bytes
  | .bucketConfig r => marshalBucketConfig r
  | .versionEntry r => marshalVersionEntry r
  | .currentRecord r => marshalCurrentRecord r
  | .uploadRecord r => marshalUploadRecord r
  | .partRecord r => marshalPartRecord r
  | .clusterLayout r => marshalClusterLayout r
  | .encryptionPosture r => marshalEncryptionPosture r
  | .trustBundle r => marshalTrustBundle r
  | .nodeRecord r => marshalNodeRecord r

/-! ## Records as fields -/

/-- A varint field, left out when it is zero. -/
def uvarintField (num : Nat) (v : UInt64) : List Field :=
  if v = 0 then [] else [⟨num, .varint v⟩]

def boolField (num : Nat) (v : Bool) : List Field := if v then [⟨num, .varint 1⟩] else []

/-- A field of bytes, left out when it is empty. -/
def bytesField (num : Nat) (v : Bytes) : List Field :=
  if v = [] then [] else [⟨num, .bytes v⟩]

def idField (num : Nat) (id : VersionID) : List Field :=
  if id.isZero then [] else [⟨num, .bytes id.bytes⟩]

def repeatedField {α : Type} (marshal : α → Bytes) (num : Nat) (vs : List α) : List Field :=
  vs.map (fun v => ⟨num, .bytes (marshal v)⟩)

def mapField (num : Nat) (m : StringMap) : List Field := repeatedField mapEntry num m.pairs

def bucketConfigFields (c : BucketConfig) : List Field :=
  uvarintField 1 c.formatVersion.toUInt64 ++ (bytesField 2 c.name ++
  (uvarintField 3 c.createdUnixMS.toUInt64 ++ (uvarintField 4 c.versioning.toUInt64 ++
  (boolField 5 c.objectLockEnabled ++ (uvarintField 6 c.defaultRetentionMode.toUInt64 ++
  (uvarintField 7 c.defaultRetentionDays.toUInt64 ++
  uvarintField 8 c.defaultRetentionYears.toUInt64))))))

def versionEntryFields (e : VersionEntry) : List Field :=
  uvarintField 1 e.formatVersion.toUInt64 ++ (idField 2 e.versionID ++
  (uvarintField 3 e.kind.toUInt64 ++ (uvarintField 4 e.size.toUInt64 ++
  (uvarintField 5 e.createdUnixMS.toUInt64 ++ (bytesField 6 e.etag ++
  (bytesField 7 e.contentType ++ (mapField 8 e.userMetadata ++ (uvarintField 9 e.partition ++
  (uvarintField 10 e.ecDataShards.toUInt64 ++ (uvarintField 11 e.ecParityShards.toUInt64 ++
  (bytesField 12 e.objectChecksum ++ (repeatedField id 13 e.shardChecksums ++
  (uvarintField 14 e.retentionMode.toUInt64 ++ (uvarintField 15 e.retainUntilUnixMS.toUInt64 ++
  (boolField 16 e.legalHold ++ (boolField 17 e.nullVersion ++ (idField 18 e.dataID ++
  (repeatedField marshalPartRef 19 e.parts ++ (uvarintField 20 e.encAlgorithm.toUInt64 ++
  (bytesField 21 e.wrappedDEK ++ uvarintField 22 e.kekFingerprint))))))))))))))))))))

def currentRecordFields (c : CurrentRecord) : List Field :=
  uvarintField 1 c.formatVersion.toUInt64 ++ (idField 2 c.versionID ++
  (uvarintField 3 c.size.toUInt64 ++ (bytesField 4 c.etag ++
  (uvarintField 5 c.createdUnixMS.toUInt64 ++ uvarintField 6 c.partCount.toUInt64))))

def uploadRecordFields (u : UploadRecord) : List Field :=
  uvarintField 1 u.formatVersion.toUInt64 ++ (idField 2 u.uploadID ++
  (uvarintField 3 u.createdUnixMS.toUInt64 ++ (bytesField 4 u.contentType ++
  mapField 5 u.userMetadata)))

def partRecordFields (p : PartRecord) : List Field :=
  uvarintField 1 p.formatVersion.toUInt64 ++ (uvarintField 2 p.partNumber.toUInt64 ++
  (idField 3 p.dataID ++ (uvarintField 4 p.size.toUInt64 ++ (bytesField 5 p.etag ++
  (bytesField 6 p.checksum ++ (uvarintField 7 p.uploadedUnixMS.toUInt64 ++
  (uvarintField 8 p.partition ++ (uvarintField 9 p.ecDataShards.toUInt64 ++
  (uvarintField 10 p.ecParityShards.toUInt64 ++ (repeatedField id 11 p.shardChecksums ++
  (uvarintField 12 p.encAlgorithm.toUInt64 ++ (bytesField 13 p.wrappedDEK ++
  uvarintField 14 p.kekFingerprint))))))))))))

def clusterLayoutFields (l : ClusterLayout) : List Field :=
  uvarintField 1 l.formatVersion.toUInt64 ++ (uvarintField 2 l.version ++
  (uvarintField 3 l.partitionCount.toUInt64 ++ (l.members.flatMap (bytesField 4) ++
  (repeatedField marshalLayoutNode 5 l.nodes ++ repeatedField marshalLayoutNode 6 l.previous))))

def encryptionPostureFields (p : EncryptionPosture) : List Field :=
  uvarintField 1 p.formatVersion.toUInt64 ++ (uvarintField 2 p.algorithm.toUInt64 ++
  (uvarintField 3 p.currentKEKFingerprint ++ uvarintField 4 p.rotatingToKEKFingerprint))

def nodeRecordFields (n : NodeRecord) : List Field :=
  uvarintField 1 n.formatVersion.toUInt64 ++ (bytesField 2 n.nodeID ++ (bytesField 3 n.host ++
  (bytesField 4 n.zone ++ (uvarintField 5 n.capacity.toUInt64 ++ (boolField 6 n.draining ++
  (bytesField 7 n.replacedBy ++ (uvarintField 8 n.leafCAFingerprint ++
  (bytesField 9 n.binaryVersion ++ uvarintField 10 n.generation.toUInt64))))))))

def trustBundleFields (t : TrustBundle) : List Field :=
  uvarintField 1 t.formatVersion.toUInt64 ++ (uvarintField 2 t.version ++
  (repeatedField marshalTrustedCA 3 t.cas ++ uvarintField 4 t.issuerFingerprint))

def Record.fields : Record → List Field
  | .bucketConfig r => bucketConfigFields r
  | .versionEntry r => versionEntryFields r
  | .currentRecord r => currentRecordFields r
  | .uploadRecord r => uploadRecordFields r
  | .partRecord r => partRecordFields r
  | .clusterLayout r => clusterLayoutFields r
  | .encryptionPosture r => encryptionPostureFields r
  | .trustBundle r => trustBundleFields r
  | .nodeRecord r => nodeRecordFields r

/-- The bytes of the fields that a newer writer added. -/
def Record.unknown : Record → Bytes
  | .bucketConfig r => r.unknown
  | .versionEntry r => r.unknown
  | .currentRecord r => r.unknown
  | .uploadRecord r => r.unknown
  | .partRecord r => r.unknown
  | .clusterLayout r => r.unknown
  | .encryptionPosture r => r.unknown
  | .trustBundle r => r.unknown
  | .nodeRecord r => r.unknown

def Record.formatVersion : Record → UInt32
  | .bucketConfig r => r.formatVersion
  | .versionEntry r => r.formatVersion
  | .currentRecord r => r.formatVersion
  | .uploadRecord r => r.formatVersion
  | .partRecord r => r.formatVersion
  | .clusterLayout r => r.formatVersion
  | .encryptionPosture r => r.formatVersion
  | .trustBundle r => r.formatVersion
  | .nodeRecord r => r.formatVersion

section Fields

variable [LawfulProtowire] (b : Bytes) (num : Nat)

theorem putUvarint_eq (v : UInt64) :
    putUvarint b num v = b ++ encodeFields (uvarintField num v) := by
  unfold putUvarint uvarintField
  split
  · simp
  · exact appendVarint_appendTag b num v

theorem putBool_eq (v : Bool) : putBool b num v = b ++ encodeFields (boolField num v) := by
  cases v with
  | false => simp [putBool, boolField]
  | true => exact appendVarint_appendTag b num 1

theorem putMessage_eq (v : Bytes) :
    putMessage b num v = b ++ encodeFields [⟨num, .bytes v⟩] :=
  appendBytes_appendTag b num v

theorem putBytes_eq (v : Bytes) :
    putBytes b num v = b ++ encodeFields (bytesField num v) := by
  unfold putBytes bytesField
  simp only [List.length_eq_zero_iff]
  split
  · simp
  · exact putMessage_eq b num v

theorem putString_eq (v : Bytes) :
    putString b num v = b ++ encodeFields (bytesField num v) := by
  unfold putString bytesField
  split
  · simp
  · exact putMessage_eq b num v

theorem putID_eq (id : VersionID) : putID b num id = b ++ encodeFields (idField num id) := by
  have hne : ¬ id.bytes = [] := by
    intro hnil
    have hlen := id.length_eq
    rw [hnil] at hlen
    cases hlen
  unfold putID idField
  split
  · simp
  · rw [putBytes_eq, bytesField, if_neg hne]

theorem putRepeated_eq {α : Type} (marshal : α → Bytes) (vs : List α) :
    putRepeated marshal b num vs = b ++ encodeFields (repeatedField marshal num vs) := by
  unfold putRepeated repeatedField
  induction vs generalizing b with
  | nil => simp
  | cons v vs ih =>
    rw [List.foldl_cons, ih, putMessage_eq, List.map_cons]
    simp

theorem putMap_eq (m : StringMap) : putMap b num m = b ++ encodeFields (mapField num m) :=
  putRepeated_eq b num mapEntry m.pairs

theorem foldl_putString_eq (vs : List Bytes) :
    vs.foldl (fun b v => putString b num v) b = b ++
      encodeFields (vs.flatMap (bytesField num)) := by
  induction vs generalizing b with
  | nil => simp
  | cons v vs ih =>
    rw [List.foldl_cons, ih, putString_eq, List.flatMap_cons]
    simp

end Fields

section Records

variable [LawfulProtowire]

omit [LawfulProtowire] in
theorem putFlag_eq (b : Bytes) (num : Nat) (v : Bool) :
    (if v = true then putUvarint b num 1 else b) = putBool b num v := by
  cases v <;> rfl

theorem marshalRecord_eq (r : Record) : marshalRecord r = encodeFields r.fields ++ r.unknown := by
  cases r with
  | clusterLayout r =>
    rw [marshalRecord, marshalClusterLayout, foldl_putString_eq]
    simp only [Record.fields, Record.unknown, clusterLayoutFields, putUvarint_eq, putRepeated_eq,
      encodeFields_append, List.append_assoc, List.nil_append]
  | nodeRecord r =>
    rw [marshalRecord, marshalNodeRecord, putFlag_eq]
    simp only [Record.fields, Record.unknown, nodeRecordFields, putUvarint_eq, putBool_eq,
      putString_eq, encodeFields_append, List.append_assoc, List.nil_append]
  | _ r =>
    simp only [marshalRecord, marshalBucketConfig, marshalVersionEntry, marshalCurrentRecord,
      marshalUploadRecord, marshalPartRecord, marshalEncryptionPosture, marshalTrustBundle,
      Record.fields, Record.unknown, bucketConfigFields, versionEntryFields, currentRecordFields,
      uploadRecordFields, partRecordFields, encryptionPostureFields, trustBundleFields,
      putUvarint_eq, putBool_eq, putBytes_eq, putString_eq, putID_eq, putMap_eq, putRepeated_eq,
      encodeFields_append, List.append_assoc, List.nil_append]

theorem marshalRecord_ne_nil {r : Record} (h : r.formatVersion ≠ 0) : marshalRecord r ≠ [] := by
  have hfirst : ∃ rest, r.fields = ⟨1, .varint r.formatVersion.toUInt64⟩ :: rest := by
    have hfield : ∀ v : UInt32, v ≠ 0 →
        uvarintField 1 v.toUInt64 = [⟨1, .varint v.toUInt64⟩] := by
      intro v hv
      refine if_neg (fun hzero => hv ?_)
      rw [← UInt32.toNat_inj]
      have := congrArg UInt64.toNat hzero
      simpa using this
    cases r <;> exact ⟨_, congrArg (· ++ _) (hfield _ h)⟩
  obtain ⟨rest, hrest⟩ := hfirst
  have htag : appendTag [] 1 varintType ≠ [] :=
    appendTag_ne_nil (by decide) (by decide) (by decide)
  rw [marshalRecord_eq, hrest]
  simp [Field.encode, Field.type, htag]

end Records

end Hamster.Meta
