import Hamster.Meta.Invariants

/-!
# Scans over the whole store

The reads of `internal/meta/reads.go` that go over every bucket, every version
of a bucket or every node: `ListBuckets`, `ScanVersions` and `Nodes`, and the
loop over the first two that the cluster layer runs to see every version.  `ClusterLayout` is the
layout row, `EncryptionPosture` the row of the master keys.

`versionRows` is what the loop visits.  In a reachable store it holds exactly
the stored versions (`mem_versionRows`), and `scanBuckets_eq` says that a
callback that never stops folds over it.
-/

namespace Hamster.Meta

open CodeLib

def listBuckets (s : Store) : Except MetaError (List BucketConfig) :=
  s.scan bucketScanPrefix
    (fun out k v =>
      if hasPrefix k bucketScanPrefix then do
        let cfg ← v.asBucketConfig
        .ok (out ++ [cfg], true)
      else .ok (out, false))
    []

def clusterLayout (s : Store) : Except MetaError (Option ClusterLayout) :=
  getTyped Record.asClusterLayout s clusterLayoutKey

/-- The encryption posture, or the zero posture before one is committed. -/
def encryptionPosture (s : Store) : Except MetaError EncryptionPosture := do
  let row ← getTyped Record.asEncryptionPosture s encryptionPostureKey
  .ok (row.getD { formatVersion := 0, algorithm := encNone })

def listNodes (s : Store) : Except MetaError (List NodeRecord) :=
  s.scan nodeScanPrefix
    (fun out k v =>
      if hasPrefix k nodeScanPrefix then do
        let r ← v.asNodeRecord
        .ok (out ++ [r], true)
      else .ok (out, false))
    []

/-- The object key of a `v/` row of `bucket`: what stands before the separator
and the sixteen bytes of the identifier. -/
def keyFromVersionRow (rowKey bucket : Bytes) : Bytes :=
  let rest := rowKey.drop (bucketVersionsScanPrefix bucket).length
  rest.take (rest.length - 17)

/-- Visit every version of a bucket until the callback stops. -/
def scanVersions {σ : Type} (s : Store) (bucket : Bytes)
    (fn : σ → Bytes → VersionEntry → σ × Bool) (a : σ) : Except MetaError σ :=
  let scanPrefix := bucketVersionsScanPrefix bucket
  s.scan scanPrefix
    (fun a k v =>
      if hasPrefix k scanPrefix then do
        let e ← v.asVersionEntry
        .ok (fn a (keyFromVersionRow k bucket) e)
      else .ok (a, false))
    a

def scanBuckets {σ : Type} (s : Store) (fn : Bytes → σ → Bytes → VersionEntry → σ)
    (a : σ) : Except MetaError σ := do
  let buckets ← listBuckets s
  buckets.foldlM (fun a b => scanVersions s b.name (fun a k e => (fn b.name a k e, true)) a) a

/-! ## What they visit -/

section Specs

variable {s : Store}

def bucketRows (s : Store) : List BucketConfig :=
  (s.rowsUnder bucketScanPrefix).filterMap (fun r => r.2.bucket?)

/-- The versions of a bucket with their keys, in keyspace order. -/
def bucketVersions (s : Store) (b : Bytes) : List (Bytes × VersionEntry) :=
  (s.rowsUnder (bucketVersionsScanPrefix b)).filterMap
    (fun r => r.2.version?.map (fun e => (keyFromVersionRow r.1 b, e)))

def versionRows (s : Store) : List (Bytes × Bytes × VersionEntry) :=
  (bucketRows s).flatMap (fun cfg => (bucketVersions s cfg.name).map (Prod.mk cfg.name))

def Record.layout? : Record → Option ClusterLayout
  | .clusterLayout r => some r
  | _ => none

def layoutAt (s : Store) : Option ClusterLayout := (look s .clusterLayout).bind Record.layout?

theorem Typed.clusterLayout_eq (hs : Typed s) : clusterLayout s = .ok (layoutAt s) := by
  refine getTyped_eq (@look_eq_map s _ .clusterLayout .clusterLayout Record.layout? (fun _ => rfl)
    (fun {v} hv => ?_)) (fun _ => rfl)
  have hkind := hs.holds (r := .clusterLayout) trivial hv
  cases v with
  | clusterLayout cl => exact ⟨cl, rfl⟩
  | _ => exact hkind.elim

def Record.node? : Record → Option NodeRecord
  | .nodeRecord r => some r
  | _ => none

def nodeRows (s : Store) : List NodeRecord :=
  (s.rowsUnder nodeScanPrefix).filterMap (fun r => r.2.node?)

theorem Typed.listNodes_eq (hs : Typed s) : listNodes s = .ok (nodeRows s) := by
  refine scan_collect_eq (fun r => r.2.node?) (fun r hr => ?_)
  obtain ⟨key, v⟩ := r
  obtain ⟨hget, id, rfl⟩ := SortedKV.mem_rowsUnder.mp hr
  have hv : (RowKey.node id).Holds v := hs.holds (r := .node id) trivial hget
  cases v with
  | nodeRecord n => exact ⟨n, rfl, rfl⟩
  | _ => exact hv.elim

theorem Typed.of_mem_bucketRows (hs : Typed s) {r : Bytes × Record}
    (h : r ∈ s.rowsUnder bucketScanPrefix) :
    ∃ b cfg, r = (bucketRowKey b, .bucketConfig cfg) ∧ bucketAt s b = some cfg := by
  obtain ⟨key, v⟩ := r
  obtain ⟨hget, b, rfl⟩ := SortedKV.mem_rowsUnder.mp h
  obtain ⟨cfg, hcfg, rfl⟩ := Option.map_eq_some_iff.mp ((hs.get_bucket b).symm.trans hget)
  exact ⟨b, cfg, rfl, hcfg⟩

theorem Typed.listBuckets_eq (hs : Typed s) : listBuckets s = .ok (bucketRows s) := by
  refine scan_collect_eq (fun r => r.2.bucket?) (fun r hr => ?_)
  obtain ⟨b, cfg, rfl, -⟩ := hs.of_mem_bucketRows hr
  exact ⟨cfg, rfl, rfl⟩

theorem Typed.mem_bucketRows (hs : Typed s) (hn : Named s) {cfg : BucketConfig} :
    cfg ∈ bucketRows s ↔ bucketAt s cfg.name = some cfg := by
  rw [bucketRows, List.mem_filterMap]
  constructor
  · intro h
    obtain ⟨r, hr, hcfg⟩ := h
    obtain ⟨b, cfg', rfl, hat⟩ := hs.of_mem_bucketRows hr
    cases hcfg
    rw [hn hat]
    exact hat
  · intro h
    obtain ⟨v, hv, hcfg⟩ := Option.bind_eq_some_iff.mp h
    refine ⟨(bucketRowKey cfg.name, v), SortedKV.mem_rowsUnder.mpr ⟨hv, ?_⟩, hcfg⟩
    exact List.prefix_append _ _

theorem Typed.bucketRows_sorted (hs : Typed s) (hn : Named s) :
    (bucketRows s).Pairwise (fun c c' => c.name < c'.name) := by
  rw [bucketRows, List.pairwise_filterMap]
  refine (s.rowsUnder_sorted bucketScanPrefix).imp_of_mem ?_
  intro r r' hr hr' hlt c hc c' hc'
  obtain ⟨b, cfg, rfl, hat⟩ := hs.of_mem_bucketRows hr
  obtain ⟨b', cfg', rfl, hat'⟩ := hs.of_mem_bucketRows hr'
  cases hc
  cases hc'
  rw [hn hat, hn hat']
  exact (append_lt_append_left_iff bucketScanPrefix _ _).mp hlt

theorem keyFromVersionRow_versionRowKey (b k : Bytes) (vid : VersionID) :
    keyFromVersionRow (versionRowKey b k vid) b = k := by
  have hsplit : versionRowKey b k vid =
      bucketVersionsScanPrefix b ++ (k ++ 0 :: vid.complement.bytes) := by
    simp [versionRowKey, bucketVersionsScanPrefix]
  have hlen : (k ++ 0 :: vid.complement.bytes).length - 17 = k.length := by
    simp [vid.complement.length_eq]
  rw [keyFromVersionRow, hsplit, List.drop_left, hlen, List.take_left]

variable {b k : Bytes} {e : VersionEntry}

theorem Typed.mem_bucketVersions_iff (hs : Typed s) (hb : 0 ∉ b) :
    (k, e) ∈ bucketVersions s b ↔ versionAt s b k e.versionID = some e := by
  rw [bucketVersions, List.mem_filterMap]
  constructor
  · intro h
    obtain ⟨r, hr, hrow⟩ := h
    obtain ⟨k', e', rfl, -, hver⟩ := hs.of_mem_bucketVersions hb hr
    rw [keyFromVersionRow_versionRowKey] at hrow
    cases hrow
    exact hver
  · intro h
    refine ⟨_, mem_bucketVersionRows h, ?_⟩
    rw [keyFromVersionRow_versionRowKey]
    rfl

theorem Typed.scanVersions_eq {σ : Type} (hs : Typed s) (hb : 0 ∉ b)
    (step : σ → Bytes → VersionEntry → σ) (a : σ) :
    scanVersions s b (fun a k e => (step a k e, true)) a =
      .ok ((bucketVersions s b).foldl (fun a ke => step a ke.1 ke.2) a) := by
  refine scan_collect (fun r => r.2.version?.map (fun e => (keyFromVersionRow r.1 b, e)))
    (fun a ke => step a ke.1 ke.2) ?_ a
  intro r hr
  obtain ⟨k, e, rfl, -⟩ := hs.of_mem_bucketVersions hb hr
  exact ⟨e, _, rfl, rfl, fun _ => rfl⟩

theorem Typed.scanBuckets_eq {σ : Type} (hs : Typed s) (hn : Named s)
    (fn : Bytes → σ → Bytes → VersionEntry → σ) (a : σ) :
    scanBuckets s fn a =
      .ok ((versionRows s).foldl (fun a r => fn r.1 a r.2.1 r.2.2) a) := by
  have hplain : ∀ cfg ∈ bucketRows s, 0 ∉ cfg.name :=
    fun cfg hcfg => hs.plain_of_bucketAt ((hs.mem_bucketRows hn).mp hcfg)
  rw [scanBuckets, hs.listBuckets_eq, versionRows]
  show (bucketRows s).foldlM _ a = _
  generalize bucketRows s = cfgs at hplain
  induction cfgs generalizing a with
  | nil => rfl
  | cons cfg rest ih =>
    rw [List.foldlM_cons, hs.scanVersions_eq (hplain cfg List.mem_cons_self),
      List.flatMap_cons, List.foldl_append, List.foldl_map]
    exact ih _ (fun c hc => hplain c (List.mem_cons_of_mem cfg hc))

theorem Base.mem_versionRows (hs : Base s) (hn : Named s) :
    (b, k, e) ∈ versionRows s ↔ versionAt s b k e.versionID = some e := by
  rw [versionRows, List.mem_flatMap]
  constructor
  · intro h
    obtain ⟨cfg, hcfg, h⟩ := h
    obtain ⟨⟨k', e'⟩, hmem, heq⟩ := List.mem_map.mp h
    cases heq
    have hat := (hs.typed.mem_bucketRows hn).mp hcfg
    exact (hs.typed.mem_bucketVersions_iff (hs.typed.plain_of_bucketAt hat)).mp hmem
  · intro h
    obtain ⟨cfg, hcfg⟩ := hs.bucket h
    have hname := hn hcfg
    refine ⟨cfg, (hs.typed.mem_bucketRows hn).mpr (by rw [hname]; exact hcfg), ?_⟩
    rw [hname]
    have hplain := hs.typed.plain_of_bucketAt hcfg
    exact List.mem_map.mpr ⟨(k, e), (hs.typed.mem_bucketVersions_iff hplain).mpr h, rfl⟩

end Specs

end Hamster.Meta
