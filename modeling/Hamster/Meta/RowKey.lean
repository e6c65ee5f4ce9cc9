import Hamster.Meta.Keys

/-!
# Typed row keys

Every row of the store lies under the encoding of one `RowKey`.  The
encoding is injective on the keys whose bucket and object key hold no NUL
byte (`encode_inj`), so a row is read back under one name only.

Some proposals are not checked for NUL before they read a row.  The lemmas
`versionRowKey_inj_of_plain` and `currentRowKey_inj_of_plain` cover them: one
side without NUL is enough, because the encoding then holds the separator a
known number of times.
-/

namespace Hamster.Meta

open CodeLib

/-- The rows of the keyspace by what they hold. -/
inductive RowKey where
  | bucket (b : Bytes)
  | version (b k : Bytes) (vid : VersionID)
  | current (b k : Bytes)
  | upload (b k : Bytes) (uid : VersionID)
  | part (b k : Bytes) (uid : VersionID) (n : UInt32)
  | clusterLayout
  | encryptionPosture
  | trustBundle
  | node (id : Bytes)
deriving DecidableEq

namespace RowKey

def encode : RowKey → Bytes
  | bucket b => bucketRowKey b
  | version b k vid => versionRowKey b k vid
  | current b k => currentRowKey b k
  | upload b k uid => uploadRowKey b k uid
  | part b k uid n => partRowKey b k uid n
  | clusterLayout => clusterLayoutKey
  | encryptionPosture => encryptionPostureKey
  | trustBundle => trustBundleKey
  | node id => nodeRowKey id

/-- The bucket and object key of the row hold no NUL byte. -/
def Plain : RowKey → Prop
  | bucket b => 0 ∉ b
  | version b k _ => 0 ∉ b ∧ 0 ∉ k
  | current b k => 0 ∉ b ∧ 0 ∉ k
  | upload b k _ => 0 ∉ b ∧ 0 ∉ k
  | part b k _ _ => 0 ∉ b ∧ 0 ∉ k
  | _ => True

def IsUpload : RowKey → Prop
  | upload _ _ _ => True
  | part _ _ _ _ => True
  | _ => False

end RowKey

/-! ## Fields of a key -/

theorem beNat_putUint32 (n : UInt32) : beNat (putUint32 n) = n.toNat := by
  have hn := n.toNat_lt
  simp [putUint32, beNat, Nat.shiftRight_eq_div_pow]
  omega

theorem putUint32_inj {n m : UInt32} : putUint32 n = putUint32 m ↔ n = m := by
  constructor
  · intro h
    have hnat := congrArg beNat h
    rw [beNat_putUint32, beNat_putUint32] at hnat
    exact UInt32.toNat_inj.mp hnat
  · intro h
    rw [h]

theorem VersionID.bytes_inj {v o : VersionID} : v.bytes = o.bytes ↔ v = o := by
  constructor
  · intro h
    cases v
    cases o
    simpa using h
  · intro h
    rw [h]

variable {b' k' : Bytes}

private theorem triple_inj {b k c c' : Bytes} (hb : 0 ∉ b) (hk : 0 ∉ k)
    (hlen : c.length = c'.length) (h : b ++ 0 :: (k ++ 0 :: c) = b' ++ 0 :: (k' ++ 0 :: c')) :
    b = b' ∧ k = k' ∧ c = c' := by
  have hsplit : (b ++ 0 :: (k ++ [0])) ++ c = (b' ++ 0 :: (k' ++ [0])) ++ c' := by
    simpa using h
  obtain ⟨hfront, hc⟩ := List.append_inj' hsplit hlen
  have hfront' : (b ++ 0 :: k) ++ [0] = (b' ++ 0 :: k') ++ [0] := by
    simpa using hfront
  obtain ⟨hbk, hkk⟩ := append_separator_inj_of_left hb hk (List.append_cancel_right hfront')
  exact ⟨hbk, hkk, hc⟩

/-- A version row without NUL is the row of no other bucket, key and
version. -/
theorem versionRowKey_inj_of_plain {b k : Bytes} {vid vid' : VersionID} (hb : 0 ∉ b)
    (hk : 0 ∉ k) (h : versionRowKey b k vid = versionRowKey b' k' vid') :
    b = b' ∧ k = k' ∧ vid = vid' := by
  have hlen := vid.complement.length_eq.trans vid'.complement.length_eq.symm
  obtain ⟨hbb, hkk, hc⟩ := triple_inj hb hk hlen (List.append_cancel_left h)
  exact ⟨hbb, hkk, VersionID.complement_inj.mp (VersionID.bytes_inj.mp hc)⟩

variable {uid uid' : VersionID}

section

variable {b k : Bytes} (hb : 0 ∉ b) (hk : 0 ∉ k)

include hb hk

theorem uploadRowKey_inj_of_plain (h : uploadRowKey b k uid = uploadRowKey b' k' uid') :
    b = b' ∧ k = k' ∧ uid = uid' := by
  have hlen := uid.length_eq.trans uid'.length_eq.symm
  obtain ⟨hbb, hkk, hc⟩ := triple_inj hb hk hlen (List.append_cancel_left h)
  exact ⟨hbb, hkk, VersionID.bytes_inj.mp hc⟩

theorem currentRowKey_inj_of_plain (h : currentRowKey b k = currentRowKey b' k') :
    b = b' ∧ k = k' :=
  append_separator_inj_of_left hb hk (List.append_cancel_left h)

theorem partRowKey_inj_of_plain {n n' : UInt32}
    (h : partRowKey b k uid n = partRowKey b' k' uid' n') :
    b = b' ∧ k = k' ∧ uid = uid' ∧ n = n' := by
  obtain ⟨hup, hn⟩ := List.append_inj' h rfl
  obtain ⟨hbb, hkk, huu⟩ := uploadRowKey_inj_of_plain hb hk hup
  exact ⟨hbb, hkk, huu, putUint32_inj.mp hn⟩

theorem uploadRowKey_ne_partRowKey {n : UInt32} (hb' : 0 ∉ b') (hk' : 0 ∉ k') :
    uploadRowKey b k uid ≠ partRowKey b' k' uid' n := by
  intro h
  have htail : b ++ 0 :: (k ++ 0 :: uid.bytes) =
      b' ++ 0 :: (k' ++ 0 :: (uid'.bytes ++ putUint32 n)) := by
    simpa [uploadRowKey, partRowKey] using h
  have hbuckets := append_separator_inj hb hb' htail
  have hkeys := append_separator_inj hk hk' hbuckets.2
  have hlen := congrArg List.length hkeys.2
  simp [uid.length_eq, uid'.length_eq, putUint32] at hlen

end

/-! ## The encoding is injective -/

/-- One side without NUL is enough, uploads and parts apart.  Rows of
different kinds start with different bytes. -/
theorem RowKey.encode_inj_of_left {r r' : RowKey} (hr : r.Plain) (hr' : ¬ r'.IsUpload)
    (h : r.encode = r'.encode) : r = r' := by
  cases r <;> cases r' <;> try rfl
  case bucket.bucket b b' => rw [List.append_cancel_left h]
  case version.version b k v b' k' v' =>
      obtain ⟨rfl, rfl, rfl⟩ := versionRowKey_inj_of_plain hr.1 hr.2 h
      rfl
  case current.current b k b' k' =>
      obtain ⟨rfl, rfl⟩ := currentRowKey_inj_of_plain hr.1 hr.2 h
      rfl
  case node.node id id' => rw [List.append_cancel_left h]
  all_goals
    revert h
    simp_all [encode, bucketRowKey, bucketScanPrefix, versionRowKey, currentRowKey, uploadRowKey,
      partRowKey, clusterLayoutKey, encryptionPostureKey, trustBundleKey, nodeRowKey,
      nodeScanPrefix, IsUpload]

theorem RowKey.encode_inj {r r' : RowKey} (hr : r.Plain) (hr' : r'.Plain)
    (h : r.encode = r'.encode) : r = r' := by
  by_cases hother : r.IsUpload ∧ r'.IsUpload
  · cases r <;> cases r' <;> simp only [IsUpload, and_true, and_false] at hother
    case upload.upload b k u b' k' u' =>
      obtain ⟨rfl, rfl, rfl⟩ := uploadRowKey_inj_of_plain hr.1 hr.2 h
      rfl
    case part.part b k u n b' k' u' n' =>
      obtain ⟨rfl, rfl, rfl, rfl⟩ := partRowKey_inj_of_plain hr.1 hr.2 h
      rfl
    case upload.part b k u b' k' u' n' =>
      exact absurd h (uploadRowKey_ne_partRowKey hr.1 hr.2 hr'.1 hr'.2)
    case part.upload b k u n b' k' u' =>
      exact absurd h.symm (uploadRowKey_ne_partRowKey hr'.1 hr'.2 hr.1 hr.2)
  · rcases not_and_or.mp hother with hup | hup'
    · exact (encode_inj_of_left hr' hup h.symm).symm
    · exact encode_inj_of_left hr hup' h

/-! ## Scan prefixes -/

section Under

variable {r : RowKey} {b k p : Bytes}

/-- The kind of an object's row, its bucket, and what follows the bucket. -/
def RowKey.split : RowKey → Option (UInt8 × Bytes × Bytes)
  | version b k vid => some (118, b, k ++ 0 :: vid.complement.bytes)
  | current b k => some (99, b, k)
  | upload b k uid => some (117, b, k ++ 0 :: uid.bytes)
  | part b k uid n => some (117, b, k ++ 0 :: (uid.bytes ++ putUint32 n))
  | _ => none

theorem RowKey.isPrefix_encode_iff (hr : r.Plain) {x : UInt8} (hx : x ≠ 98 ∧ x ≠ 115)
    (hb : 0 ∉ b) :
    [x, 47] ++ (b ++ 0 :: p) <+: r.encode ↔ ∃ t, r.split = some (x, b, t) ∧ p <+: t := by
  -- the rows of an object are a kind, a bucket and the rest
  have hobject : ∀ {y : UInt8} {b' t : Bytes}, 0 ∉ b' →
      ([x, 47] ++ (b ++ 0 :: p) <+: [y, 47] ++ (b' ++ 0 :: t) ↔
        ∃ t', some (y, b', t) = some (x, b, t') ∧ p <+: t') := by
    intro y b' t hb'
    simp [append_separator_prefix_iff hb hb', eq_comm, and_assoc]
  cases r with
  | version b' k' vid | current b' k' | upload b' k' uid => exact hobject hr.1
  | part b' k' uid n =>
    have hsplit : (part b' k' uid n).encode =
        [117, 47] ++ (b' ++ 0 :: (k' ++ 0 :: (uid.bytes ++ putUint32 n))) := by
      simp [encode, partRowKey, uploadRowKey]
    rw [hsplit]
    exact hobject hr.1
  | _ =>
    simp [encode, bucketRowKey, bucketScanPrefix, clusterLayoutKey, encryptionPostureKey,
      trustBundleKey, nodeRowKey, nodeScanPrefix, split, hx.1, hx.2]

variable (hr : r.Plain) (hb : 0 ∉ b)

include hr hb

theorem RowKey.under_bucketVersions :
    bucketVersionsScanPrefix b ++ p <+: r.encode ↔
      ∃ k vid, r = .version b k vid ∧ p <+: k ++ 0 :: vid.complement.bytes := by
  have h := isPrefix_encode_iff (x := 118) (p := p) hr (by decide) hb
  rw [bucketVersionsScanPrefix, List.append_assoc, List.append_assoc, List.singleton_append, h]
  cases r <;> simp [split, and_assoc]

theorem RowKey.under_versions (hk : 0 ∉ k) :
    versionScanPrefix b k <+: r.encode ↔ ∃ vid, r = .version b k vid := by
  have hsplit : versionScanPrefix b k = bucketVersionsScanPrefix b ++ (k ++ [0]) := by
    simp [versionScanPrefix, bucketVersionsScanPrefix]
  rw [hsplit, under_bucketVersions hr hb]
  constructor
  · rintro ⟨k', vid, rfl, hp⟩
    obtain ⟨rfl, -⟩ := (append_separator_prefix_iff hk hr.2).mp hp
    exact ⟨vid, rfl⟩
  · rintro ⟨vid, rfl⟩
    exact ⟨k, vid, rfl, (append_separator_prefix_iff hk hk).mpr ⟨rfl, List.nil_prefix⟩⟩

theorem RowKey.under_uploads :
    uploadsScanPrefix b ++ p <+: r.encode ↔
      (∃ k uid, r = .upload b k uid ∧ p <+: k ++ 0 :: uid.bytes) ∨
        ∃ k uid n, r = .part b k uid n ∧ p <+: k ++ 0 :: (uid.bytes ++ putUint32 n) := by
  have h := isPrefix_encode_iff (x := 117) (p := p) hr (by decide) hb
  rw [uploadsScanPrefix, List.append_assoc, List.append_assoc, List.singleton_append, h]
  cases r <;> simp [split, and_assoc]

theorem RowKey.under_upload (hk : 0 ∉ k) :
    uploadRowKey b k uid <+: r.encode ↔ r = .upload b k uid ∨ ∃ n, r = .part b k uid n := by
  have hsplit : uploadRowKey b k uid = uploadsScanPrefix b ++ (k ++ 0 :: uid.bytes) := by
    simp [uploadRowKey, uploadsScanPrefix]
  have huid : ∀ {uid' : VersionID} {t : Bytes}, uid.bytes <+: uid'.bytes ++ t → uid = uid' := by
    rintro uid' t ⟨u, hu⟩
    have hlen := uid.length_eq.trans uid'.length_eq.symm
    exact VersionID.bytes_inj.mp (List.append_inj_left hu hlen)
  rw [hsplit, under_uploads hr hb]
  constructor
  · rintro (⟨k', uid', rfl, hp⟩ | ⟨k', uid', n, rfl, hp⟩)
    · obtain ⟨rfl, htail⟩ := (append_separator_prefix_iff hk hr.2).mp hp
      rw [← List.append_nil uid'.bytes] at htail
      exact Or.inl (by rw [huid htail])
    · obtain ⟨rfl, htail⟩ := (append_separator_prefix_iff hk hr.2).mp hp
      exact Or.inr ⟨n, by rw [huid htail]⟩
  · rintro (rfl | ⟨n, rfl⟩)
    · exact Or.inl ⟨k, uid, rfl, List.prefix_rfl⟩
    · exact Or.inr ⟨k, uid, n, rfl, putUint32 n, by simp⟩

end Under

end Hamster.Meta
