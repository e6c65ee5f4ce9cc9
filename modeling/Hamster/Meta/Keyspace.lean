import Hamster.Meta.RowKey
import Hamster.Meta.Store

/-!
# The typed view of the store

`Typed` is the invariant that every row lies under the encoding of a typed
key without NUL and holds a record of that key's kind.  Under it the flat
keyspace is a map from `RowKey` to `Record`: `look` reads it, and `look_set`
and `look_delete` say how an update shows through.  `bucketAt`, `versionAt`
and `currentAt` are the typed getters.  The raw rows are theirs,
under any name a caller sends (`get_bucket`), and so is each read of a single
row (`getBucket_eq`).

The second half is about the version rows of one key.  `versionList` is what
a scan of them yields.  Under `Typed` it holds exactly the stored entries,
newest first (`mem_versionList`, `versionList_sorted`), and the three reads
of the source that scan the rows are its head, its null entry and the list
itself.
-/

namespace Hamster.Meta

open CodeLib

/-- The record is of the kind that belongs under the row key, and repeats the
identifier the key ends in. -/
def RowKey.Holds : RowKey → Record → Prop
  | .bucket _, .bucketConfig _ => True
  | .version _ _ vid, .versionEntry e => e.versionID = vid
  | .current _ _, .currentRecord _ => True
  | .upload _ _ uid, .uploadRecord u => u.uploadID = uid
  | .part _ _ _ n, .partRecord pr => pr.partNumber = n
  | .clusterLayout, .clusterLayout _ => True
  | .encryptionPosture, .encryptionPosture _ => True
  | .trustBundle, .trustBundle _ => True
  | .node _, .nodeRecord _ => True
  | _, _ => False

/-- Every row lies under a typed key and holds a record of its kind. -/
def Typed (s : Store) : Prop :=
  ∀ k v, s.get k = some v → ∃ r : RowKey, r.Plain ∧ r.encode = k ∧ r.Holds v

def look (s : Store) (r : RowKey) : Option Record := s.get r.encode

theorem typed_newStore : Typed newStore := by
  intro k v h
  simp [newStore] at h

variable {p : Bytes}

section Update

variable {s : Store} {r : RowKey}

theorem look_set (r r' : RowKey) (hr : r.Plain) (hr' : r'.Plain) (v : Record) :
    look (s.set r.encode v) r' = if r' = r then some v else look s r' := by
  have hiff : r'.encode = r.encode ↔ r' = r := ⟨RowKey.encode_inj hr' hr, congrArg _⟩
  simp only [look, SortedKV.get_set, hiff]

theorem look_delete (r r' : RowKey) (hr : r.Plain) (hr' : r'.Plain) :
    look (s.delete r.encode) r' = if r' = r then none else look s r' := by
  have hiff : r'.encode = r.encode ↔ r' = r := ⟨RowKey.encode_inj hr' hr, congrArg _⟩
  simp only [look, SortedKV.get_delete, hiff]

variable {v : Record}

variable (hs : Typed s)

include hs

theorem Typed.set (hr : r.Plain) (hv : r.Holds v) : Typed (s.set r.encode v) := by
  intro k w hget
  rw [SortedKV.get_set] at hget
  split at hget
  · rename_i hk
    cases hget
    exact ⟨r, hr, hk.symm, hv⟩
  · exact hs k w hget

theorem Typed.delete (k : Bytes) : Typed (s.delete k) := by
  intro k' w hget
  rw [SortedKV.get_delete] at hget
  split at hget
  · cases hget
  · exact hs k' w hget

theorem Typed.holds (hr : r.Plain) (h : look s r = some v) : r.Holds v := by
  obtain ⟨r₀, hr₀, henc, hv⟩ := hs _ _ h
  rw [← RowKey.encode_inj hr₀ hr henc]
  exact hv

/-- A row that is found under any name holds a record of its kind, and the
name holds no NUL.  Uploads and parts are read under checked names only. -/
theorem Typed.of_look (hr : ¬ r.IsUpload) (h : look s r = some v) : r.Plain ∧ r.Holds v := by
  obtain ⟨r₀, hr₀, henc, hv⟩ := hs _ _ h
  rw [← RowKey.encode_inj_of_left hr₀ hr henc]
  exact ⟨hr₀, hv⟩

theorem Typed.of_mem_rowsUnder {row : Bytes × Record} (h : row ∈ s.rowsUnder p) :
    ∃ r : RowKey, r.Plain ∧ row.1 = r.encode ∧ r.Holds row.2 ∧ p <+: r.encode := by
  obtain ⟨hget, hpre⟩ := SortedKV.mem_rowsUnder.mp h
  obtain ⟨r, hr, henc, hv⟩ := hs _ _ hget
  exact ⟨r, hr, henc.symm, hv, henc ▸ hpre⟩

end Update

/-! ## Typed getters

Each read of a single row is one of these, whatever name it is given. -/

/-- The part of a record that belongs to its kind. -/
def Record.bucket? : Record → Option BucketConfig
  | .bucketConfig r => some r
  | _ => none

def Record.version? : Record → Option VersionEntry
  | .versionEntry r => some r
  | _ => none

def Record.current? : Record → Option CurrentRecord
  | .currentRecord r => some r
  | _ => none

def Record.upload? : Record → Option UploadRecord
  | .uploadRecord r => some r
  | _ => none

def bucketAt (s : Store) (b : Bytes) : Option BucketConfig :=
  (look s (.bucket b)).bind Record.bucket?

def versionAt (s : Store) (b k : Bytes) (vid : VersionID) : Option VersionEntry :=
  (look s (.version b k vid)).bind Record.version?

def uploadAt (s : Store) (b k : Bytes) (uid : VersionID) : Option UploadRecord :=
  (look s (.upload b k uid)).bind Record.upload?

def currentAt (s : Store) (b k : Bytes) : Option CurrentRecord :=
  (look s (.current b k)).bind Record.current?

section Kinds

variable {b k : Bytes} {vid : VersionID} {v : Record}

theorem RowKey.Holds.bucket (h : (RowKey.bucket b).Holds v) : ∃ cfg, v = .bucketConfig cfg := by
  cases v with
  | bucketConfig cfg => exact ⟨cfg, rfl⟩
  | _ => exact h.elim

theorem RowKey.Holds.version (h : (RowKey.version b k vid).Holds v) :
    ∃ e, v = .versionEntry e ∧ e.versionID = vid := by
  cases v with
  | versionEntry e => exact ⟨e, rfl, h⟩
  | _ => exact h.elim

theorem RowKey.Holds.current (h : (RowKey.current b k).Holds v) :
    ∃ c, v = .currentRecord c := by
  cases v with
  | currentRecord c => exact ⟨c, rfl⟩
  | _ => exact h.elim

theorem RowKey.Holds.upload (h : (RowKey.upload b k vid).Holds v) :
    ∃ u, v = .uploadRecord u := by
  cases v with
  | uploadRecord u => exact ⟨u, rfl⟩
  | _ => exact h.elim

theorem RowKey.Holds.part {n : UInt32} (h : (RowKey.part b k vid n).Holds v) :
    ∃ pr, v = .partRecord pr ∧ pr.partNumber = n := by
  cases v with
  | partRecord pr => exact ⟨pr, rfl, h⟩
  | _ => exact h.elim

end Kinds

variable {o : Option VersionEntry} {e : VersionEntry} {α : Type}
  {assert : Record → Except MetaError α}

section Getters

variable {s : Store} {b k : Bytes} {vid : VersionID} {cfg : BucketConfig}

theorem look_of_bucketAt (h : bucketAt s b = some cfg) :
    look s (.bucket b) = some (.bucketConfig cfg) := by
  obtain ⟨v, hv, hcfg⟩ := Option.bind_eq_some_iff.mp h
  cases v <;> cases hcfg
  exact hv

theorem look_of_versionAt (h : versionAt s b k vid = some e) :
    look s (.version b k vid) = some (.versionEntry e) := by
  obtain ⟨v, hv, he⟩ := Option.bind_eq_some_iff.mp h
  cases v <;> cases he
  exact hv

theorem look_eq_map {α : Type} {r : RowKey} {wrap : α → Record} {kind : Record → Option α}
    (hkind : ∀ a, kind (wrap a) = some a) (h : ∀ {v}, look s r = some v → ∃ a, v = wrap a) :
    look s r = ((look s r).bind kind).map wrap := by
  cases hv : look s r with
  | none => rfl
  | some v =>
    obtain ⟨a, rfl⟩ := h hv
    simp [hkind]

theorem Typed.get_bucket (hs : Typed s) (b : Bytes) :
    s.get (bucketRowKey b) = (bucketAt s b).map .bucketConfig :=
  look_eq_map (r := .bucket b) (fun _ => rfl) (fun hv => (hs.of_look id hv).2.bucket)

theorem Typed.get_version (hs : Typed s) (b k : Bytes) (vid : VersionID) :
    s.get (versionRowKey b k vid) = (versionAt s b k vid).map .versionEntry :=
  look_eq_map (r := .version b k vid) (fun _ => rfl)
    (fun hv => (hs.of_look id hv).2.version.imp (fun _ h => h.1))

theorem Typed.get_current (hs : Typed s) (b k : Bytes) :
    s.get (currentRowKey b k) = (currentAt s b k).map .currentRecord :=
  look_eq_map (r := .current b k) (fun _ => rfl) (fun hv => (hs.of_look id hv).2.current)

theorem Typed.get_upload (hs : Typed s) (hb : 0 ∉ b) (hk : 0 ∉ k) (uid : VersionID) :
    s.get (uploadRowKey b k uid) = (uploadAt s b k uid).map .uploadRecord :=
  look_eq_map (r := .upload b k uid) (fun _ => rfl)
    (fun hv => (hs.holds (r := .upload b k uid) ⟨hb, hk⟩ hv).upload)

variable {wrap : α → Record}

theorem get_of_getTyped (hwrap : ∀ v a, assert v = .ok a → v = wrap a) {o : Option α}
    (h : getTyped assert s k = .ok o) : s.get k = o.map wrap := by
  unfold getTyped at h
  cases hget : s.get k with
  | none =>
    rw [hget] at h
    cases h
    rfl
  | some v =>
    rw [hget] at h
    cases hv : assert v with
    | error e =>
      simp only [hv] at h
      cases h
    | ok b =>
      simp only [hv] at h
      cases h
      exact congrArg some (hwrap v b hv)

theorem of_asBucketConfig (v : Record) (a : BucketConfig) (h : v.asBucketConfig = .ok a) :
    v = .bucketConfig a := by
  cases v <;> cases h
  rfl

theorem of_asVersionEntry (v : Record) (a : VersionEntry) (h : v.asVersionEntry = .ok a) :
    v = .versionEntry a := by
  cases v <;> cases h
  rfl

theorem of_asPartRecord (v : Record) (a : PartRecord) (h : v.asPartRecord = .ok a) :
    v = .partRecord a := by
  cases v <;> cases h
  rfl

theorem of_asUploadRecord (v : Record) (a : UploadRecord) (h : v.asUploadRecord = .ok a) :
    v = .uploadRecord a := by
  cases v <;> cases h
  rfl

theorem bucketAt_of_getBucket {o : Option BucketConfig} (h : getBucket s b = .ok o) :
    bucketAt s b = o := by
  rw [bucketAt, look, RowKey.encode, get_of_getTyped of_asBucketConfig h]
  cases o <;> rfl

theorem versionAt_of_getVersion (h : getVersion s b k vid = .ok o) : versionAt s b k vid = o := by
  rw [versionAt, look, RowKey.encode, get_of_getTyped of_asVersionEntry h]
  cases o <;> rfl

theorem uploadAt_of_getUpload {o : Option UploadRecord} (h : getUpload s b k vid = .ok o) :
    uploadAt s b k vid = o := by
  rw [uploadAt, look, RowKey.encode, get_of_getTyped of_asUploadRecord h]
  cases o <;> rfl

theorem getTyped_eq {key : Bytes} {found : Option α} (hget : s.get key = found.map wrap)
    (hassert : ∀ a, assert (wrap a) = .ok a) : getTyped assert s key = .ok found := by
  rw [getTyped, hget]
  cases found with
  | none => rfl
  | some a =>
    show (assert (wrap a)).map some = _
    rw [hassert]
    rfl

variable (hs : Typed s)

include hs

theorem Typed.getBucket_eq : getBucket s b = .ok (bucketAt s b) :=
  getTyped_eq (hs.get_bucket b) (fun _ => rfl)

theorem Typed.getVersion_eq : getVersion s b k vid = .ok (versionAt s b k vid) :=
  getTyped_eq (hs.get_version b k vid) (fun _ => rfl)

theorem Typed.current_eq : current s b k = .ok (currentAt s b k) :=
  getTyped_eq (hs.get_current b k) (fun _ => rfl)

theorem Typed.getUpload_eq (hb : 0 ∉ b) (hk : 0 ∉ k) :
    getUpload s b k vid = .ok (uploadAt s b k vid) :=
  getTyped_eq (hs.get_upload hb hk vid) (fun _ => rfl)

theorem Typed.plain_of_bucketAt (h : bucketAt s b = some cfg) : 0 ∉ b :=
  (hs.of_look id (look_of_bucketAt h)).1

theorem Typed.of_currentAt {c : CurrentRecord} (h : currentAt s b k = some c) : 0 ∉ b ∧ 0 ∉ k := by
  obtain ⟨v, hv, -⟩ := Option.bind_eq_some_iff.mp h
  exact (hs.of_look (r := .current b k) id hv).1

/-- A version that exists names its own row, under a bucket and key without
NUL. -/
theorem Typed.of_versionAt (h : versionAt s b k vid = some e) :
    0 ∉ b ∧ 0 ∉ k ∧ e.versionID = vid := by
  obtain ⟨⟨hb, hk⟩, hv⟩ := hs.of_look id (look_of_versionAt h)
  exact ⟨hb, hk, hv⟩

end Getters

/-! ## The version rows of one key -/

/-- The entries that a scan of the version rows of a key yields. -/
def versionList (s : Store) (b k : Bytes) : List VersionEntry :=
  (s.rowsUnder (versionScanPrefix b k)).filterMap (fun r => r.2.version?)

theorem versionScanPrefix_isPrefix (b k : Bytes) (vid : VersionID) :
    versionScanPrefix b k <+: versionRowKey b k vid :=
  ⟨vid.complement.bytes, by simp [versionScanPrefix, versionRowKey]⟩

section VersionRows

variable {s : Store} {b k : Bytes}

theorem Typed.of_mem_versionRows (hs : Typed s) (hb : 0 ∉ b) (hk : 0 ∉ k)
    {r : Bytes × Record} (h : r ∈ s.rowsUnder (versionScanPrefix b k)) :
    ∃ e, r = (versionRowKey b k e.versionID, .versionEntry e) := by
  obtain ⟨r₀, hr₀, hkey, hv, hpre⟩ := hs.of_mem_rowsUnder h
  obtain ⟨vid, rfl⟩ := (RowKey.under_versions hr₀ hb hk).mp hpre
  obtain ⟨e, hrec, rfl⟩ := hv.version
  exact ⟨e, Prod.ext hkey hrec⟩

theorem Typed.mem_versionList (hs : Typed s) (hb : 0 ∉ b) (hk : 0 ∉ k) :
    e ∈ versionList s b k ↔ versionAt s b k e.versionID = some e := by
  rw [versionList, List.mem_filterMap]
  constructor
  · intro h
    obtain ⟨r, hr, he⟩ := h
    obtain ⟨e', rfl⟩ := hs.of_mem_versionRows hb hk hr
    cases he
    exact Option.bind_eq_some_iff.mpr ⟨_, (SortedKV.mem_rowsUnder.mp hr).1, rfl⟩
  · intro h
    exact ⟨(versionRowKey b k e.versionID, .versionEntry e), SortedKV.mem_rowsUnder.mpr
      ⟨look_of_versionAt h, versionScanPrefix_isPrefix b k e.versionID⟩, rfl⟩

theorem versionRowKey_lt_iff {vid vid' : VersionID} :
    versionRowKey b k vid < versionRowKey b k vid' ↔ vid'.toNat < vid.toNat := by
  have hsplit : ∀ v : VersionID,
      versionRowKey b k v = versionScanPrefix b k ++ v.complement.bytes := by
    intro v
    simp [versionRowKey, versionScanPrefix]
  rw [hsplit, hsplit, append_lt_append_left_iff, VersionID.complement_bytes_lt_iff]

theorem Typed.versionList_sorted (hs : Typed s) (hb : 0 ∉ b) (hk : 0 ∉ k) :
    (versionList s b k).Pairwise (fun e e' => e'.versionID.toNat < e.versionID.toNat) := by
  rw [versionList, List.pairwise_filterMap]
  refine (s.rowsUnder_sorted (versionScanPrefix b k)).imp_of_mem ?_
  intro r r' hr hr' hlt e he e' he'
  obtain ⟨e₀, rfl⟩ := hs.of_mem_versionRows hb hk hr
  obtain ⟨e₁, rfl⟩ := hs.of_mem_versionRows hb hk hr'
  cases he
  cases he'
  exact versionRowKey_lt_iff.mp hlt

theorem Typed.versionList_eq (hs : Typed s) (hb : 0 ∉ b) (hk : 0 ∉ k) {l : List VersionEntry}
    (hl : l.Pairwise (fun e e' => e'.versionID.toNat < e.versionID.toNat))
    (hmem : ∀ e, e ∈ l ↔ versionAt s b k e.versionID = some e) : versionList s b k = l := by
  have hirrefl : Std.Irrefl (fun e e' : VersionEntry =>
      e'.versionID.toNat < e.versionID.toNat) := ⟨fun _ => Nat.lt_irrefl _⟩
  have htrans : IsTrans VersionEntry (fun e e' =>
      e'.versionID.toNat < e.versionID.toNat) := ⟨fun _ _ _ h h' => Nat.lt_trans h' h⟩
  refine eq_of_sorted_of_mem_iff (hs.versionList_sorted hb hk) hl (fun e => ?_)
  rw [hs.mem_versionList hb hk, hmem]

theorem Typed.versionList_congr {s' : Store} (hs : Typed s) (hs' : Typed s') (hb : 0 ∉ b)
    (hk : 0 ∉ k) (h : ∀ vid, versionAt s' b k vid = versionAt s b k vid) :
    versionList s' b k = versionList s b k := by
  refine hs'.versionList_eq hb hk (hs.versionList_sorted hb hk) (fun e => ?_)
  rw [hs.mem_versionList hb hk, h]

/-! ### The reads that scan the version rows -/

private def AllVersions (rs : List (Bytes × Record)) : Prop :=
  ∀ r ∈ rs, ∃ e, r.2 = .versionEntry e

private theorem Typed.allVersions (hs : Typed s) (hb : 0 ∉ b) (hk : 0 ∉ k) :
    AllVersions (s.rowsUnder (versionScanPrefix b k)) := by
  intro r hr
  obtain ⟨e, rfl⟩ := hs.of_mem_versionRows hb hk hr
  exact ⟨e, rfl⟩

theorem of_newestVersion (h : newestVersion s b k = .ok o) : o = (versionList s b k).head? := by
  rw [newestVersion, SortedKV.scan_under_self s
    (fun _ _ v => do let e ← v.asVersionEntry; .ok (some e, false))
    (fun _ _ _ hp => if_pos (hasPrefix_iff.mpr hp))
    (fun _ _ _ hp => if_neg (fun h => hp (hasPrefix_iff.mp h)))] at h
  rw [versionList]
  cases hrows : s.rowsUnder (versionScanPrefix b k) with
  | nil =>
    rw [hrows] at h
    cases h
    rfl
  | cons r rest =>
    rw [hrows] at h
    obtain ⟨key, v⟩ := r
    cases v with
    | versionEntry e =>
      cases h
      rfl
    | _ => cases h

theorem Typed.newestVersion_eq (hs : Typed s) (hb : 0 ∉ b) (hk : 0 ∉ k) :
    newestVersion s b k = .ok (versionList s b k).head? := by
  rw [newestVersion, SortedKV.scan_under_self s
    (fun _ _ v => do let e ← v.asVersionEntry; .ok (some e, false))
    (fun _ _ _ hp => if_pos (hasPrefix_iff.mpr hp))
    (fun _ _ _ hp => if_neg (fun h => hp (hasPrefix_iff.mp h)))]
  have hall := hs.allVersions hb hk
  rw [versionList]
  cases hrows : s.rowsUnder (versionScanPrefix b k) with
  | nil => rfl
  | cons r rest =>
    obtain ⟨e, he⟩ := hall r (hrows ▸ List.mem_cons_self)
    obtain ⟨key, v⟩ := r
    cases he
    rfl

theorem of_nullVersion (h : nullVersion s b k = .ok o) :
    o = (versionList s b k).find? VersionEntry.nullVersion := by
  rw [nullVersion, SortedKV.scan_under_self s
    (fun found _ v => do
      let e ← v.asVersionEntry
      if e.nullVersion then .ok (some e, false) else .ok (found, true))
    (fun _ _ _ hp => if_pos (hasPrefix_iff.mpr hp))
    (fun _ _ _ hp => if_neg (fun h => hp (hasPrefix_iff.mp h)))] at h
  rw [versionList]
  generalize s.rowsUnder (versionScanPrefix b k) = rs at h
  induction rs with
  | nil =>
    cases h
    rfl
  | cons r rest ih =>
    obtain ⟨key, v⟩ := r
    cases v with
    | versionEntry e =>
      show o = (e :: rest.filterMap (fun r => r.2.version?)).find? VersionEntry.nullVersion
      rw [List.find?_cons]
      cases hnull : e.nullVersion with
      | true =>
        have hfound : some e = o := by
          simpa [SortedKV.scanRows, Record.asVersionEntry, hnull, bind, Except.bind] using h
        exact hfound.symm
      | false =>
        refine ih ?_
        simpa [SortedKV.scanRows, Record.asVersionEntry, hnull, bind, Except.bind] using h
    | _ => cases h

theorem Typed.nullVersion_eq (hs : Typed s) (hb : 0 ∉ b) (hk : 0 ∉ k) :
    nullVersion s b k = .ok ((versionList s b k).find? VersionEntry.nullVersion) := by
  rw [nullVersion, SortedKV.scan_under_self s
    (fun found _ v => do
      let e ← v.asVersionEntry
      if e.nullVersion then .ok (some e, false) else .ok (found, true))
    (fun _ _ _ hp => if_pos (hasPrefix_iff.mpr hp))
    (fun _ _ _ hp => if_neg (fun h => hp (hasPrefix_iff.mp h)))]
  have hall := hs.allVersions hb hk
  rw [versionList]
  generalize s.rowsUnder (versionScanPrefix b k) = rs at hall
  induction rs with
  | nil => rfl
  | cons r rest ih =>
    obtain ⟨e, he⟩ := hall r List.mem_cons_self
    obtain ⟨key, v⟩ := r
    cases he
    have hrest := ih (fun r hr => hall r (List.mem_cons_of_mem _ hr))
    cases hnull : e.nullVersion with
    | true =>
      simp [SortedKV.scanRows, Record.asVersionEntry, Record.version?, hnull, bind, Except.bind]
    | false =>
      simpa [SortedKV.scanRows, Record.asVersionEntry, Record.version?, hnull, bind,
        Except.bind] using hrest

theorem Typed.listVersions_eq (hs : Typed s) (hb : 0 ∉ b) (hk : 0 ∉ k) :
    listVersions s b k = .ok (versionList s b k) := by
  refine scan_collect_eq (fun r => r.2.version?) (fun r hr => ?_)
  obtain ⟨e, rfl⟩ := hs.of_mem_versionRows hb hk hr
  exact ⟨e, rfl, rfl⟩

end VersionRows

end Hamster.Meta
