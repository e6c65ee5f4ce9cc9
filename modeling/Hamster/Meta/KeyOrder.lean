import Hamster.Meta.Listing
import Hamster.Meta.Scans
import Hamster.Meta.Uploads

/-!
# Reading row keys back, and their order

The functions of `internal/meta/keys.go` that take a row key apart, and the
choice of `decodeRow` in `internal/meta/codec.go`.  A Go slice expression whose
bounds lie outside the string panics; that is `none`.

The fields in front of an identifier end at NUL and hold none, and NUL is the
least byte.  So a row key is read back from the front, whatever the bytes of its
identifier are, and the keys sort by their fields.  The rows that a scan goes
over are the ones that start with its prefix, and these lie together.
-/

namespace Hamster.Meta

open CodeLib

def RowKey.Valid : RowKey → Prop
  | bucket b => validateBucketName b = .ok ()
  | version b k _ | current b k | upload b k _ | part b k _ _ =>
    validateBucketName b = .ok () ∧ validateObjectKey k = .ok ()
  | _ => True

theorem RowKey.Valid.plain {r : RowKey} (h : r.Valid) : r.Plain := by
  cases r with
  | bucket b => exact zero_notMem_of_validateBucketName h
  | version | current | upload | part =>
    exact ⟨zero_notMem_of_validateBucketName h.1, zero_notMem_of_validateObjectKey h.2⟩
  | _ => trivial

/-! ## Parsers -/

def idOfTail (tail : Bytes) : Option VersionID :=
  if h : 16 ≤ tail.length then some ⟨tail.take 16, by rw [List.length_take, min_eq_left h]⟩
  else none

/-- The object key, the upload, the part number and whether the row is a part
of a `u/` row of `bucket`. -/
def uploadFromRow (rowKey bucket : Bytes) : Option (Bytes × VersionID × UInt32 × Bool) :=
  let rest := rowKey.drop (uploadsScanPrefix bucket).length
  match rest.idxOf? 0 with
  | none => none
  | some i =>
    let tail := rest.drop (i + 1)
    (idOfTail tail).map (fun uid =>
      if tail.length = 20 then (rest.take i, uid, UInt32.ofNat (beNat (tail.drop 16)), true)
      else (rest.take i, uid, 0, false))

/-- The object key and the version of a `v/` row of `bucket`. -/
def keyAndVersionFromVersionRow (rowKey bucket : Bytes) : Option (Bytes × VersionID) :=
  let rest := rowKey.drop (bucketVersionsScanPrefix bucket).length
  if 17 ≤ rest.length then
    (idOfTail (rest.drop (rest.length - 16))).map
      (fun c => (rest.take (rest.length - 17), c.complement))
  else none

inductive RowType where
  | bucketConfig | versionEntry | currentRecord | uploadRecord | partRecord
  | clusterLayout | encryptionPosture | trustBundle | nodeRecord
deriving DecidableEq

/-- The record type that `decodeRow` selects; `none` is its error. -/
def decodeRow (key : Bytes) : Option RowType :=
  if key = clusterLayoutKey then some .clusterLayout
  else if key = encryptionPostureKey then some .encryptionPosture
  else if key = trustBundleKey then some .trustBundle
  else if hasPrefix key nodeScanPrefix then some .nodeRecord
  else if hasPrefix key bucketScanPrefix then some .bucketConfig
  else if hasPrefix key [118, 47] then some .versionEntry
  else if hasPrefix key [99, 47] then some .currentRecord
  else if hasPrefix key [117, 47] then
    let rest := key.drop 2
    -- the NULs that end the bucket and the object key
    match rest.idxOf? 0 with
    | none => none
    | some i =>
      match (rest.drop (i + 1)).idxOf? 0 with
      | none => none
      | some j =>
        if rest.length - (i + 1 + j + 1) = 16 then some .uploadRecord
        else if rest.length - (i + 1 + j + 1) = 20 then some .partRecord
        else none
  else none

def RowKey.type : RowKey → RowType
  | bucket _ => .bucketConfig
  | version _ _ _ => .versionEntry
  | current _ _ => .currentRecord
  | upload _ _ _ => .uploadRecord
  | part _ _ _ _ => .partRecord
  | clusterLayout => .clusterLayout
  | encryptionPosture => .encryptionPosture
  | trustBundle => .trustBundle
  | node _ => .nodeRecord

section Parsers

variable {b k : Bytes}

theorem idxOf?_append_zero (hk : 0 ∉ k) (t : Bytes) :
    (k ++ 0 :: t).idxOf? 0 = some k.length := by
  induction k with
  | nil => simp [List.idxOf?_cons]
  | cons x k ih =>
    have hx : ¬ x = 0 := fun h => hk (h ▸ List.mem_cons_self)
    simp [List.idxOf?_cons, hx, ih (List.not_mem_of_not_mem_cons hk)]

theorem drop_append_zero (k t : Bytes) : (k ++ 0 :: t).drop (k.length + 1) = t := by
  simp [List.drop_append]

theorem idOfTail_bytes (uid : VersionID) (t : Bytes) :
    idOfTail (uid.bytes ++ t) = some uid := by
  have hlen : 16 ≤ (uid.bytes ++ t).length := by simp [uid.length_eq]
  have htake : (uid.bytes ++ t).take 16 = uid.bytes := by
    rw [← uid.length_eq, List.take_left]
  rw [idOfTail, dif_pos hlen]
  exact congrArg some (VersionID.bytes_inj.mp htake)

theorem uploadFromRow_append (hk : 0 ∉ k) (uid : VersionID) (t : Bytes) :
    uploadFromRow (uploadRowKey b k uid ++ t) b =
      some (if t.length = 4 then (k, uid, UInt32.ofNat (beNat t), true)
        else (k, uid, 0, false)) := by
  have hrest : (uploadRowKey b k uid ++ t).drop (uploadsScanPrefix b).length =
      k ++ 0 :: (uid.bytes ++ t) := by
    have hsplit : uploadRowKey b k uid ++ t =
        uploadsScanPrefix b ++ (k ++ 0 :: (uid.bytes ++ t)) := by
      simp [uploadRowKey, uploadsScanPrefix]
    rw [hsplit, List.drop_left]
  have htail : (uid.bytes ++ t).drop 16 = t := by
    rw [← uid.length_eq, List.drop_left]
  have hwidth : (uid.bytes ++ t).length = 20 ↔ t.length = 4 := by
    rw [List.length_append, uid.length_eq]
    omega
  simp only [uploadFromRow, hrest, idxOf?_append_zero hk, drop_append_zero, idOfTail_bytes,
    Option.map_some, htail, hwidth, List.take_left]

theorem keyAndVersionFromVersionRow_versionRowKey (b k : Bytes) (vid : VersionID) :
    keyAndVersionFromVersionRow (versionRowKey b k vid) b = some (k, vid) := by
  have hsplit : versionRowKey b k vid =
      bucketVersionsScanPrefix b ++ (k ++ 0 :: vid.complement.bytes) := by
    simp [versionRowKey, bucketVersionsScanPrefix]
  have hlen : (k ++ 0 :: vid.complement.bytes).length = k.length + 17 := by
    simp [vid.complement.length_eq]
  have hid := idOfTail_bytes vid.complement []
  rw [List.append_nil] at hid
  have hback : vid.complement.complement = vid := by simp [VersionID.complement]
  rw [keyAndVersionFromVersionRow, hsplit, List.drop_left]
  simp only [hlen, Nat.le_add_left, if_true, show k.length + 17 - 16 = k.length + 1 from rfl,
    Nat.add_sub_cancel, drop_append_zero, hid, Option.map_some, List.take_left, hback]

theorem decodeRow_encode {r : RowKey} (hr : r.Plain) : decodeRow r.encode = some r.type := by
  have hupload : ∀ {b k : Bytes}, 0 ∉ b → 0 ∉ k → ∀ t : Bytes,
      decodeRow ([117, 47] ++ (b ++ 0 :: (k ++ 0 :: t))) =
        if t.length = 16 then some .uploadRecord
        else if t.length = 20 then some .partRecord else none := by
    intro b k hb hk t
    have hlen : b.length + (k.length + (t.length + 1) + 1) - (b.length + 1 + k.length + 1) =
        t.length := by omega
    simp [decodeRow, clusterLayoutKey, encryptionPostureKey, trustBundleKey, nodeScanPrefix,
      bucketScanPrefix, hasPrefix, idxOf?_append_zero hb, idxOf?_append_zero hk, hlen]
  cases r with
  | upload b k uid =>
    have h := hupload hr.1 hr.2 uid.bytes
    rwa [if_pos uid.length_eq] at h
  | part b k uid n =>
    have hlen : (uid.bytes ++ putUint32 n).length = 20 := by simp [uid.length_eq, putUint32]
    have h := hupload hr.1 hr.2 (uid.bytes ++ putUint32 n)
    rw [hlen] at h
    simpa [RowKey.encode, RowKey.type, partRowKey, uploadRowKey] using h
  | _ =>
    simp [decodeRow, RowKey.encode, RowKey.type, clusterLayoutKey, encryptionPostureKey,
      trustBundleKey, nodeRowKey, nodeScanPrefix, bucketRowKey, bucketScanPrefix, versionRowKey,
      currentRowKey, hasPrefix]

end Parsers

/-! ## Order -/

/-- The row of an upload, or of one of its parts. -/
def uploadRow (b k : Bytes) (uid : VersionID) : Option UInt32 → Bytes
  | none => uploadRowKey b k uid
  | some n => partRowKey b k uid n

section Order

variable {b k k' : Bytes}

theorem versionRowKey_lt_versionRowKey (hk : 0 ∉ k) (hk' : 0 ∉ k') (vid vid' : VersionID) :
    versionRowKey b k vid < versionRowKey b k' vid' ↔
      k < k' ∨ k = k' ∧ vid'.toNat < vid.toNat := by
  rw [versionRowKey, versionRowKey, append_lt_append_left_iff, append_lt_append_left_iff,
    List.cons_lt_cons_iff, append_zero_lt_iff hk hk', VersionID.complement_bytes_lt_iff]
  simp

/-- Uploads of a bucket sort by key and then by age, each in front of its parts
in order. -/
theorem uploadRow_lt_uploadRow (hk : 0 ∉ k) (hk' : 0 ∉ k') (uid uid' : VersionID)
    (n n' : Option UInt32) :
    uploadRow b k uid n < uploadRow b k' uid' n' ↔
      k < k' ∨ k = k' ∧ (uid.toNat < uid'.toNat ∨ uid = uid' ∧ n < n') := by
  have hsplit : ∀ (k : Bytes) (uid : VersionID) (n : Option UInt32), uploadRow b k uid n =
      [117, 47] ++ (b ++ 0 :: (k ++ 0 :: (uid.bytes ++ (n.map putUint32).getD []))) := by
    intro k uid n
    cases n <;> simp [uploadRow, partRowKey, uploadRowKey]
  have htail : (n.map putUint32).getD [] < (n'.map putUint32).getD [] ↔ n < n' := by
    cases n with
    | none => cases n' <;> simp [putUint32]
    | some m =>
      cases n' with
      | none => simp
      | some m' =>
        have hlen : (putUint32 m).length = (putUint32 m').length := rfl
        simp [lt_iff_beNat_lt hlen, beNat_putUint32, UInt32.lt_iff_toNat_lt]
  rw [hsplit, hsplit, append_lt_append_left_iff, append_lt_append_left_iff, List.cons_lt_cons_iff,
    append_zero_lt_iff hk hk',
    append_lt_append_iff_of_length (uid.length_eq.trans uid'.length_eq.symm),
    VersionID.bytes_lt_iff, VersionID.bytes_inj, htail]
  simp

end Order

/-! ## Scans -/

/-- The kinds of rows that belong to an object. -/
inductive ObjectKind where
  | version
  | current
  | upload

def ObjectKind.byte : ObjectKind → UInt8
  | version => 118
  | current => 99
  | upload => 117

def ObjectKind.scanPrefix (b : Bytes) : ObjectKind → Bytes
  | version => bucketVersionsScanPrefix b
  | current => currentScanPrefix b
  | upload => uploadsScanPrefix b

/-- The kind, the bucket and the object key of a row. -/
def RowKey.object : RowKey → Option (ObjectKind × Bytes × Bytes)
  | version b k _ => some (.version, b, k)
  | current b k => some (.current, b, k)
  | upload b k _ | part b k _ _ => some (.upload, b, k)
  | _ => none

/-- The rows that a scan of the source goes over: those of a bucket whose keys
start with `pre`, the versions of one key, or an upload with its parts. -/
inductive ScanGroup where
  | keys (kind : ObjectKind) (b pre : Bytes)
  | key (b k : Bytes)
  | upload (b k : Bytes) (uid : VersionID)

namespace ScanGroup

def start : ScanGroup → Bytes
  | keys kind b pre => kind.scanPrefix b ++ pre
  | key b k => versionScanPrefix b k
  | upload b k uid => uploadRowKey b k uid

def Has : ScanGroup → RowKey → Prop
  | keys kind b pre, r => ∃ k, r.object = some (kind, b, k) ∧ pre <+: k
  | key b k, r => ∃ vid, r = .version b k vid
  | upload b k uid, r => r = .upload b k uid ∨ ∃ n, r = .part b k uid n

variable {g : ScanGroup} {r r' : RowKey}

theorem isPrefix_iff (hr : r.Plain) (h : g.Has r) (hr' : r'.Plain) :
    g.start <+: r'.encode ↔ g.Has r' := by
  cases g with
  | keys kind b pre =>
    have hplain : 0 ∉ b ∧ 0 ∉ pre := by
      obtain ⟨k, hobject, hpre⟩ := h
      cases r <;> cases hobject <;> exact ⟨hr.1, fun hmem => hr.2 (hpre.subset hmem)⟩
    have hsplit : kind.scanPrefix b ++ pre = [kind.byte, 47] ++ (b ++ 0 :: pre) := by
      cases kind <;> simp [ObjectKind.scanPrefix, ObjectKind.byte, bucketVersionsScanPrefix,
        currentScanPrefix, uploadsScanPrefix]
    rw [start, hsplit, RowKey.isPrefix_encode_iff hr' (by cases kind <;> decide) hplain.1, Has]
    cases r' <;> cases kind <;> simp [RowKey.split, RowKey.object, ObjectKind.byte,
      isPrefix_append_separator_iff hplain.2]
  | key b k =>
    obtain ⟨vid, rfl⟩ := h
    exact RowKey.under_versions hr' hr.1 hr.2
  | upload b k uid =>
    rcases h with rfl | ⟨n, rfl⟩ <;> exact RowKey.under_upload hr' hr.1 hr.2

end ScanGroup

/-- The row keys of valid names and any identifiers.  Each belongs to one row, and
none is a key under `s/`.  The parsers read the fields back.  The `v/` keys of a
bucket sort by key and newest version first, the `u/` keys by key, upload and part
number with the upload's own row first.  The rows of a bucket, of a key prefix, of a
key and of an upload are the first ones from the start of their scan on. -/
theorem rowKeys_unambiguous_and_ordered :
    (∀ r r' : RowKey, r.Valid → r'.Valid → r.encode = r'.encode → r = r') ∧
    (∀ b, ¬ [115, 47] <+: bucketRowKey b) ∧
    (∀ r : RowKey, r.object ≠ none → ¬ [115, 47] <+: r.encode) ∧
    (∀ b k uid n, validateObjectKey k = .ok () →
      objectKeyFromCurrentRow (currentRowKey b k) b = k ∧
      keyAndVersionFromVersionRow (versionRowKey b k uid) b = some (k, uid) ∧
      uploadFromRow (uploadRowKey b k uid) b = some (k, uid, 0, false) ∧
      uploadFromRow (partRowKey b k uid n) b = some (k, uid, n, true)) ∧
    (∀ r : RowKey, r.Valid → decodeRow r.encode = some r.type) ∧
    (∀ b k k', validateObjectKey k = .ok () → validateObjectKey k' = .ok () →
      (∀ vid vid', versionRowKey b k vid < versionRowKey b k' vid' ↔
        k < k' ∨ k = k' ∧ vid'.toNat < vid.toNat) ∧
      ∀ uid uid' n n', uploadRow b k uid n < uploadRow b k' uid' n' ↔
        k < k' ∨ k = k' ∧ (uid.toNat < uid'.toNat ∨ uid = uid' ∧ n < n')) ∧
    ∀ (g : ScanGroup) (r : RowKey), r.Valid → g.Has r → g.start ≤ r.encode ∧
      ∀ r' : RowKey, r'.Valid → g.start ≤ r'.encode → r'.encode ≤ r.encode → g.Has r' := by
  refine ⟨fun r r' hr hr' h => RowKey.encode_inj hr.plain hr'.plain h, ?_, ?_, ?_,
    fun r hr => decodeRow_encode hr.plain, ?_, ?_⟩
  · intro b h
    simp [bucketRowKey, bucketScanPrefix] at h
  · intro r hobject h
    cases r with
    | version | current | upload | part =>
      simp [RowKey.encode, versionRowKey, currentRowKey, partRowKey, uploadRowKey] at h
    | _ => exact hobject rfl
  · intro b k uid n hkey
    have hk := zero_notMem_of_validateObjectKey hkey
    have hupload := uploadFromRow_append (b := b) hk uid []
    have hpart := uploadFromRow_append (b := b) hk uid (putUint32 n)
    rw [List.append_nil, if_neg (by simp)] at hupload
    have hwidth : (putUint32 n).length = 4 := rfl
    rw [if_pos hwidth, beNat_putUint32, UInt32.ofNat_toNat] at hpart
    exact ⟨objectKeyFromCurrentRow_currentRowKey b k,
      keyAndVersionFromVersionRow_versionRowKey b k uid, hupload, hpart⟩
  · intro b k k' hkey hkey'
    have hk := zero_notMem_of_validateObjectKey hkey
    have hk' := zero_notMem_of_validateObjectKey hkey'
    exact ⟨versionRowKey_lt_versionRowKey hk hk', uploadRow_lt_uploadRow hk hk'⟩
  · intro g r hr h
    have hprefix := (ScanGroup.isPrefix_iff hr.plain h hr.plain).mpr h
    refine ⟨le_of_isPrefix hprefix, fun r' hr' hstart hle => ?_⟩
    exact (ScanGroup.isPrefix_iff hr.plain h hr'.plain).mp
      (isPrefix_of_le_of_le hstart hle hprefix)

/-- A key and an identifier with NUL bytes in it, and the rows around them. -/
theorem rowKeys_unambiguous_and_ordered_at_key :
    uploadFromRow (partRowKey [97, 97, 97] [107] (VersionID.ofByte 7) 1) [97, 97, 97] =
        some ([107], VersionID.ofByte 7, 1, true) ∧
      versionRowKey [97, 97, 97] [107] (VersionID.ofByte 7) <
        versionRowKey [97, 97, 97] [107, 1] (VersionID.ofByte 7) :=
  have hkey : validateObjectKey [107] = .ok () := by decide
  have hkey' : validateObjectKey [107, 1] = .ok () := by decide
  have h := rowKeys_unambiguous_and_ordered
  ⟨(h.2.2.2.1 _ _ _ _ hkey).2.2.2, ((h.2.2.2.2.2.1 _ _ _ hkey hkey').1 _ _).mpr
    (Or.inl (by decide))⟩

end Hamster.Meta
