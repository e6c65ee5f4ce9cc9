import Hamster.Meta.History

/-!
# What an accepted proposal did

`Applied` lists what an apply function found in the store when it accepted a
proposal on buckets, objects or uploads, what it answers, and the store that it
leaves.  `SystemWrite` does so for the rows under `s/`.  `applied_of_ok` and
`systemWrite_of_ok` go through the apply functions once, and no store is assumed to
be well formed: what is read was asserted to be of its type.  Everything else about
accepted proposals is derived from the two relations.
-/

namespace Hamster.Meta

open CodeLib Tx

/-! ## Stores and rows -/

def newBucketConfig (p : CreateBucket) : BucketConfig where
  formatVersion := currentFormatVersion
  name := p.bucket
  createdUnixMS := p.proposedAtUnixMS
  versioning := if p.objectLockEnabled then versioningEnabled else unversioned
  objectLockEnabled := p.objectLockEnabled

/-- The row of a bucket with a new default rule. -/
def withDefaultRetention (cfg : BucketConfig) (p : SetObjectLockConfiguration) : BucketConfig :=
  { cfg with
    defaultRetentionMode := p.defaultRetentionMode
    defaultRetentionDays := p.defaultRetentionDays
    defaultRetentionYears := p.defaultRetentionYears }

def putBucket (s : Store) (b : Bytes) : Option BucketConfig → Store
  | some cfg => s.set (bucketRowKey b) (.bucketConfig cfg)
  | none => s.delete (bucketRowKey b)

/-- The store after a new version of a key: the version row, then the current
row, which a marker removes. -/
def commitStore (s : Store) (b k : Bytes) (e : VersionEntry) : Store :=
  putCurrent ((commitBase s b k e.nullVersion).set (versionRowKey b k e.versionID)
    (.versionEntry e)) b k (derivedCurrent [e])

/-- The store after one version was deleted: the current row is recomputed
when the version was the newest. -/
def removeStore (s : Store) (b k : Bytes) (e : VersionEntry) : Store :=
  let s₁ := s.delete (versionRowKey b k e.versionID)
  if ((versionList s b k).head?.getD default).versionID = e.versionID then
    putCurrent s₁ b k (derivedCurrent (versionList s₁ b k))
  else s₁

def reEncodedEntry (e : VersionEntry) (p : ReEncodeObject) : VersionEntry :=
  { e with
    dataID := p.dataID
    ecDataShards := p.ecDataShards
    ecParityShards := p.ecParityShards
    shardChecksums := p.shardChecksums }

/-- A version after its data key was wrapped anew. -/
def rewrappedEntry (e : VersionEntry) (p : RewrapDEK) : VersionEntry :=
  { e with wrappedDEK := p.wrappedDEK, kekFingerprint := p.kekFingerprint }

inductive Rewritten (b k : Bytes) (vid : VersionID) (e e' : VersionEntry) : Proposal → Prop where
  | retention (q : UpdateRetention) (htarget : q.bucket = b ∧ q.key = k ∧ q.versionID = vid)
      (hdate : ¬ (q.mode ≠ retentionNone ∧ q.retainUntilUnixMS ≤ q.proposedAtUnixMS))
      (haccept : retentionRefuses e q = false) (he : e' = withRetention e q) :
      Rewritten b k vid e e' (.updateRetention q)
  | hold (q : UpdateLegalHold) (htarget : q.bucket = b ∧ q.key = k ∧ q.versionID = vid)
      (he : e' = { e with legalHold := q.hold }) : Rewritten b k vid e e' (.updateLegalHold q)
  | reEncoded (q : ReEncodeObject) (htarget : q.bucket = b ∧ q.key = k ∧ q.versionID = vid)
      (hwhole : e.kind = kindObject ∧ e.parts = []) (he : e' = reEncodedEntry e q) :
      Rewritten b k vid e e' (.reEncodeObject q)
  | rewrapped (q : RewrapDEK) (htarget : q.bucket = b ∧ q.key = k ∧ q.versionID = vid)
      (he : e' = rewrappedEntry e q) : Rewritten b k vid e e' (.rewrapDEK q)

/-- The parts that a scan under an upload's row key yields. -/
def partList (s : Store) (b k : Bytes) (uid : VersionID) : List PartRecord :=
  (s.rowsUnder (uploadRowKey b k uid)).filterMap (fun r => r.2.part?)

/-- The rows that a completion deletes: the upload's and those of its parts. -/
def completedRows (s : Store) (b k : Bytes) (uid : VersionID) : List Bytes :=
  uploadRowKey b k uid ::
    (partList s b k uid).map (fun pr => partRowKey b k uid pr.partNumber)

def newUploadRecord (p : CreateMultipartUpload) : UploadRecord where
  formatVersion := currentFormatVersion
  uploadID := p.uploadID
  createdUnixMS := p.proposedAtUnixMS
  contentType := p.contentType
  userMetadata := p.userMetadata

/-- The checks before a new version of a key: its bucket and its name, the identifier
that it gets, and the lock of the null version that it replaces. -/
structure Admitted (s : Store) (b k : Bytes) (cfg : BucketConfig) (minted : VersionID)
    (atUnixMS : Int64) (e : VersionEntry) : Prop where
  bucket : bucketAt s b = some cfg
  key : validateObjectKey k = .ok ()
  id : e.versionID = bumpedID minted (versionList s b k).head?
  unlocked : e.nullVersion = true → ∀ e₀ ∈ nullEntry s b k, e₀.lockedAt atUnixMS false = false

/-- An accepted proposal, its answer and the store after it. -/
inductive Applied (s : Store) : Proposal → ApplyResult → Store → Prop where
  | createBucket (q : CreateBucket) (hb : 0 ∉ q.bucket)
      (hnew : s.get (bucketRowKey q.bucket) = none) :
      Applied s (.createBucket q) .nil (putBucket s q.bucket (some (newBucketConfig q)))
  | deleteBucket (q : DeleteBucket)
      (hversions : s.rowsUnder (bucketVersionsScanPrefix q.bucket) = [])
      (huploads : s.rowsUnder (uploadsScanPrefix q.bucket) = []) :
      Applied s (.deleteBucket q) .nil (putBucket s q.bucket none)
  | setBucketVersioning (q : SetBucketVersioning) (cfg : BucketConfig)
      (hcfg : bucketAt s q.bucket = some cfg)
      (hstate : ¬ (q.state ≠ versioningEnabled ∧ q.state ≠ versioningSuspended))
      (hsuspend : ¬ (q.state = versioningSuspended ∧ cfg.objectLockEnabled)) :
      Applied s (.setBucketVersioning q) .nil
        (putBucket s q.bucket (some { cfg with versioning := q.state }))
  | setObjectLockConfiguration (q : SetObjectLockConfiguration) (cfg : BucketConfig)
      (hcfg : bucketAt s q.bucket = some cfg) :
      Applied s (.setObjectLockConfiguration q) .nil
        (putBucket s q.bucket (some (withDefaultRetention cfg q)))
  | putObject (q : PutObject) (cfg : BucketConfig) (vid : VersionID)
      (h : Admitted s q.bucket q.key cfg q.versionID q.proposedAtUnixMS (putEntry q cfg vid)) :
      Applied s (.putObject q)
        (.put ⟨vid, replacedIDs s q.bucket q.key (putEntry q cfg vid).nullVersion⟩)
        (commitStore s q.bucket q.key (putEntry q cfg vid))
  | deleteNothing (q : DeleteObject) (cfg : BucketConfig) (hcfg : bucketAt s q.bucket = some cfg)
      (hversioning : cfg.versioning = unversioned) :
      Applied s (.deleteObject q) (.deleteObject {}) s
  | deleteOnly (q : DeleteObject) (cfg : BucketConfig) (e : VersionEntry)
      (hcfg : bucketAt s q.bucket = some cfg) (hkey : validateObjectKey q.key = .ok ())
      (hversioning : cfg.versioning = unversioned)
      (hnewest : (versionList s q.bucket q.key).head? = some e)
      (hlocked : e.lockedAt q.proposedAtUnixMS false = false) :
      Applied s (.deleteObject q)
        (.deleteObject { removed := true, removedDataIDs := e.dataIDs })
        (putCurrent (s.delete (versionRowKey q.bucket q.key e.versionID)) q.bucket q.key none)
  | insertMarker (q : DeleteObject) (cfg : BucketConfig) (vid : VersionID)
      (hversioning : cfg.versioning ≠ unversioned)
      (h : Admitted s q.bucket q.key cfg q.versionID q.proposedAtUnixMS (markerEntry q cfg vid)) :
      Applied s (.deleteObject q)
        (.deleteObject
          { markerCreated := true, markerID := vid
            removedDataIDs := replacedIDs s q.bucket q.key (markerEntry q cfg vid).nullVersion })
        (commitStore s q.bucket q.key (markerEntry q cfg vid))
  | completeMultipartUpload (q : CompleteMultipartUpload) (cfg : BucketConfig) (u : UploadRecord)
      (parts : List PartRecord) (vid : VersionID)
      (h : Admitted s q.bucket q.key cfg q.versionID q.proposedAtUnixMS
        (completeEntry q cfg u parts vid))
      (hupload : uploadAt s q.bucket q.key q.uploadID = some u) (hnonempty : q.parts.length ≠ 0)
      (hascend : partsAscend q.parts = true)
      (hparts : assembleParts (partList s q.bucket q.key q.uploadID) q.parts = .ok parts) :
      Applied s (.completeMultipartUpload q)
        (.complete ⟨vid, replacedIDs s q.bucket q.key
          (completeEntry q cfg u parts vid).nullVersion ++
          ((partList s q.bucket q.key q.uploadID).filter (fun pr =>
            pr.partNumber ∉ q.parts.map CompletedPart.partNumber)).map PartRecord.dataID⟩)
        ((completedRows s q.bucket q.key q.uploadID).foldl SortedKV.delete
          (commitStore s q.bucket q.key (completeEntry q cfg u parts vid)))
  | deleteAbsent (q : DeleteVersion) : Applied s (.deleteVersion q) (.deleteVersion ⟨false⟩) s
  | deleteVersion (q : DeleteVersion) (e : VersionEntry)
      (hold : versionAt s q.bucket q.key q.versionID = some e)
      (hlocked : e.lockedAt q.proposedAtUnixMS q.bypassGovernance = false) :
      Applied s (.deleteVersion q) (.deleteVersion ⟨true⟩) (removeStore s q.bucket q.key e)
  | rewrite {p : Proposal} {b k : Bytes} {vid row : VersionID} {e e' : VersionEntry}
      (hold : versionAt s b k vid = some e) (hrow : row = vid ∨ row = e.versionID)
      (hnew : Rewritten b k vid e e' p) :
      Applied s p .nil (s.set (versionRowKey b k row) (.versionEntry e'))
  | rewrappedBefore (q : RewrapDEK) : Applied s (.rewrapDEK q) .nil s
  | createMultipartUpload (q : CreateMultipartUpload) (cfg : BucketConfig)
      (hcfg : bucketAt s q.bucket = some cfg) (hkey : validateObjectKey q.key = .ok ()) :
      Applied s (.createMultipartUpload q) .nil
        (s.set (uploadRowKey q.bucket q.key q.uploadID) (.uploadRecord (newUploadRecord q)))
  | uploadPart (q : UploadPart) (cfg : BucketConfig) (prior : Option PartRecord)
      (hcfg : bucketAt s q.bucket = some cfg) (hkey : validateObjectKey q.key = .ok ())
      (hprior : s.get (partRowKey q.bucket q.key q.uploadID q.partNumber) =
        prior.map .partRecord) :
      Applied s (.uploadPart q)
        (.uploadPart ⟨(prior.map PartRecord.dataID).getD VersionID.zero⟩)
        (s.set (partRowKey q.bucket q.key q.uploadID q.partNumber)
          (.partRecord (partRecordFor q)))
  | abortMultipartUpload (q : AbortMultipartUpload) (cfg : BucketConfig)
      (hcfg : bucketAt s q.bucket = some cfg) (hkey : validateObjectKey q.key = .ok ())
      (hupload : s.get (uploadRowKey q.bucket q.key q.uploadID) ≠ none) :
      Applied s (.abortMultipartUpload q)
        (.abort ⟨(partList s q.bucket q.key q.uploadID).map PartRecord.dataID⟩)
        (((s.rowsUnder (uploadRowKey q.bucket q.key q.uploadID)).map Prod.fst).foldl
          SortedKV.delete s)

theorem eval_wrapped_ok {α : Type} {m : Tx α} {g : α → ApplyResult} {s s' : Store}
    {r : ApplyResult} (h : (m >>= fun a => pure (g a)).eval s = (.ok r, s')) :
    ∃ a, r = g a ∧ m.eval s = (.ok a, s') := by
  obtain ⟨a, s₁, hm, hpure⟩ := eval_bind_ok h
  cases hpure
  exact ⟨a, rfl, hm⟩

theorem eval_of_applyMem {α : Type} {s : Store} {p : Proposal} {body : Tx α}
    (wrap : α → ApplyResult) (hbody : applyBody p = body >>= fun a => pure (wrap a))
    {r : ApplyResult} (h : (applyMem s p).1 = .ok r) :
    ∃ a, r = wrap a ∧ body.eval s = (.ok a, (applyMem s p).2) := by
  have heval := eval_of_applyMem_eq_ok h
  rw [hbody] at heval
  exact eval_wrapped_ok heval

variable {β : Type}

section Cases

variable {s s' : Store} {r : ApplyResult} {b k : Bytes}

theorem requireKey_ok {f : BucketConfig → Unit → Tx β} {r : β}
    (h : (requireBucket b >>= fun cfg => check (validateObjectKey k) >>= f cfg).eval s =
      (.ok r, s')) :
    ∃ cfg, bucketAt s b = some cfg ∧ validateObjectKey k = .ok () ∧
      (f cfg ()).eval s = (.ok r, s') := by
  obtain ⟨cfg, hcfg, h⟩ := requireBucket_ok h
  obtain ⟨_, hkey, h⟩ := eval_check_ok h
  exact ⟨cfg, hcfg, hkey, h⟩

/-! ## Scans and fetches -/

/-- The scan stops at its first row, so it sees whether there is a row under
the prefix at all. -/
theorem hasRowUnder_eq (s : Store) (q : Bytes) :
    hasRowUnder s q = .ok (!(s.rowsUnder q).isEmpty) := by
  let fn : Bool → Bytes → Record → Except MetaError (Bool × Bool) :=
    fun found k _ => if hasPrefix k q then .ok (true, false) else .ok (found, false)
  have hfn : hasRowUnder s q = s.scan q fn false := by
    unfold hasRowUnder SortedKV.scan
    cases s.rowsFrom q with
    | nil => rfl
    | cons r rest =>
      obtain ⟨k, v⟩ := r
      by_cases hp : hasPrefix k q = true
      · simp [SortedKV.scanRows, fn, hp]
      · simp [SortedKV.scanRows, fn, hp]
  rw [hfn, SortedKV.scan_under_self s (fun _ _ _ => .ok (true, false))
    (fun _ _ _ hp => if_pos (hasPrefix_iff.mpr hp))
    (fun _ _ _ hp => if_neg (fun h => hp (hasPrefix_iff.mp h)))]
  cases s.rowsUnder q <;> rfl

variable {uid : VersionID}

theorem Typed.run_requireUpload (hs : Typed s) (hb : 0 ∉ b) (hk : 0 ∉ k) :
    (requireUpload b k uid).run (TxKV.start s) =
      match uploadAt s b k uid with
      | none => (.error .noSuchUpload, TxKV.start s)
      | some u => (.ok u, TxKV.start s) := by
  rw [requireUpload, run_read_bind_ok (TxKV.start s) _ (hs.getUpload_eq hb hk)]
  cases uploadAt s b k uid <;> rfl

theorem requireUpload_ok {f : UploadRecord → Tx β} {r : β}
    (h : (requireUpload b k uid >>= f).eval s = (.ok r, s')) :
    ∃ upload, uploadAt s b k uid = some upload ∧ (f upload).eval s = (.ok r, s') := by
  rw [eval, run_bind, requireUpload] at h
  cases hread : getUpload s b k uid with
  | error e =>
    rw [run_read_bind_error (TxKV.start s) _ hread] at h
    cases h
  | ok o =>
    rw [run_read_bind_ok (TxKV.start s) _ hread] at h
    cases o with
    | none => cases h
    | some upload => exact ⟨upload, uploadAt_of_getUpload hread, h⟩

theorem Typed.eval_requireUpload_bind (hs : Typed s) (hb : 0 ∉ b) (hk : 0 ∉ k)
    {f : UploadRecord → Tx β} {u : UploadRecord} (hu : uploadAt s b k uid = some u) :
    (requireUpload b k uid >>= f).eval s = (f u).eval s := by
  rw [eval, run_bind, hs.run_requireUpload hb hk, hu]
  rfl

/-! ## Deletions -/

theorem applied_deleteObject {q : DeleteObject}
    (h : (applyBody (.deleteObject q)).eval s = (.ok r, s')) :
    Applied s (.deleteObject q) r s' := by
  obtain ⟨_, rfl, hq⟩ := eval_wrapped_ok h
  obtain ⟨cfg, hcfg, hkey, h⟩ := requireKey_ok hq
  by_cases hversioning : cfg.versioning = unversioned
  · rw [if_pos hversioning, deleteUnversioned] at h
    obtain ⟨_, hread, h⟩ := eval_read_ok h
    obtain rfl := of_newestVersion hread
    cases hnewest : (versionList s q.bucket q.key).head? with
    | none =>
      rw [hnewest] at h
      cases h
      exact .deleteNothing q cfg hcfg hversioning
    | some e =>
      rw [hnewest] at h
      obtain ⟨hlocked, h⟩ := eval_failIf_ok h
      rw [eval_delete_bind, eval_delete_bind] at h
      cases h
      exact .deleteOnly q cfg e hcfg hkey hversioning hnewest (by simpa using hlocked)
  · rw [if_neg hversioning, insertMarker] at h
    obtain ⟨_, hread, h⟩ := eval_read_ok h
    obtain rfl := of_newestVersion hread
    obtain ⟨ids, s₁, hreplace, h⟩ := eval_bind_ok h
    obtain ⟨rfl, hlocked, rfl⟩ := replaceNullVersion_ok hreplace
    rw [eval_set_bind, eval_delete_bind] at h
    cases h
    exact .insertMarker q cfg _ hversioning ⟨hcfg, hkey, rfl, hlocked⟩

theorem applied_deleteVersion {q : DeleteVersion}
    (h : (applyBody (.deleteVersion q)).eval s = (.ok r, s')) :
    Applied s (.deleteVersion q) r s' := by
  obtain ⟨_, rfl, hq⟩ := eval_wrapped_ok h
  obtain ⟨cfg, hcfg, hkey, h⟩ := requireKey_ok hq
  rw [eval_get_bind] at h
  cases hget : s.get (versionRowKey q.bucket q.key q.versionID) with
  | none =>
    rw [hget] at h
    cases h
    exact .deleteAbsent q
  | some v =>
    rw [hget] at h
    obtain ⟨e, he, h⟩ := eval_check_ok h
    obtain rfl := of_asVersionEntry v e he
    obtain ⟨hlocked, h⟩ := eval_failIf_ok h
    obtain ⟨_, hread, h⟩ := eval_read_ok h
    obtain rfl := of_newestVersion hread
    rw [eval_delete_bind] at h
    obtain ⟨_, s₁, hrefresh, h⟩ := eval_bind_ok h
    cases h
    have hstore : s₁ = removeStore s q.bucket q.key e := by
      rw [refreshIfNewest_ok hrefresh]
      simp only [decide_eq_true_eq]
      rfl
    rw [hstore]
    exact .deleteVersion q e (Option.bind_eq_some_iff.mpr ⟨_, hget, rfl⟩) (by simpa using hlocked)

end Cases

/-! ## The rows under `s/` -/

/-- The row under `s/` that a proposal may write. -/
def Proposal.systemRow : Proposal → Option RowKey
  | .setClusterLayout _ => some .clusterLayout
  | .setEncryptionPosture _ | .beginKEKRotation _ | .completeKEKRotation _ =>
    some .encryptionPosture
  | .setTrustBundle _ => some .trustBundle
  | .registerNode p => some (.node p.nodeID)
  | .setNodeDraining p => some (.node p.nodeID)
  | .setNodeReplacedBy p => some (.node p.nodeID)
  | .setNodeLeafCA p => some (.node p.nodeID)
  | .setNodeVersion p => some (.node p.nodeID)
  | _ => none

def SetClusterLayout.layout (q : SetClusterLayout) : ClusterLayout where
  formatVersion := currentFormatVersion
  version := q.version
  partitionCount := q.partitionCount
  members := q.members
  nodes := q.nodes
  previous := q.previous

def SetTrustBundle.bundle (q : SetTrustBundle) : TrustBundle where
  formatVersion := currentFormatVersion
  version := q.version
  cas := q.cas
  issuerFingerprint := q.issuerFingerprint

/-- The posture that a proposal stores, out of the earlier one. -/
def establishedPosture (q : SetEncryptionPosture) (prev : Option EncryptionPosture) :
    EncryptionPosture :=
  if q.kekFingerprint ≠ 0 ∧ (carriedPosture q prev).currentKEKFingerprint = 0 then
    { carriedPosture q prev with currentKEKFingerprint := q.kekFingerprint }
  else carriedPosture q prev

/-- The record that a registration stores, out of the earlier one. -/
def registeredNode (q : RegisterNode) (prev : Option NodeRecord) : NodeRecord where
  formatVersion := currentFormatVersion
  nodeID := q.nodeID
  host := q.host
  zone := q.zone
  capacity := q.capacity
  leafCAFingerprint := q.leafCAFingerprint
  binaryVersion := (prev.map NodeRecord.binaryVersion).getD []
  generation := (prev.map NodeRecord.generation).getD 0

/-- The node whose record a proposal updates, and how. -/
def Proposal.nodeUpdate : Proposal → Option (Bytes × (NodeRecord → NodeRecord))
  | .setNodeDraining q => some (q.nodeID, ({ · with draining := q.draining }))
  | .setNodeReplacedBy q => some (q.nodeID, ({ · with replacedBy := q.replacedBy }))
  | .setNodeLeafCA q => some (q.nodeID, ({ · with leafCAFingerprint := q.leafCAFingerprint }))
  | .setNodeVersion q =>
    some (q.nodeID, ({ · with binaryVersion := q.binaryVersion, generation := q.generation }))
  | _ => none

/-- What an accepted proposal stores under `s/`, out of the row that was there. -/
inductive SystemWrite (s : Store) : Proposal → RowKey → Record → Prop where
  | layout (q : SetClusterLayout) (prev : Option ClusterLayout)
      (hprev : s.get clusterLayoutKey = prev.map .clusterLayout)
      (hversion : q.version = nextGeneration (prev.map ClusterLayout.version)) :
      SystemWrite s (.setClusterLayout q) .clusterLayout (.clusterLayout q.layout)
  | trust (q : SetTrustBundle) :
      SystemWrite s (.setTrustBundle q) .trustBundle (.trustBundle q.bundle)
  | posture (q : SetEncryptionPosture) (prev : Option EncryptionPosture)
      (hprev : s.get encryptionPostureKey = prev.map .encryptionPosture) :
      SystemWrite s (.setEncryptionPosture q) .encryptionPosture
        (.encryptionPosture (establishedPosture q prev))
  | beginRotation (q : BeginKEKRotation) (post : EncryptionPosture)
      (hold : s.get encryptionPostureKey = some (.encryptionPosture post)) :
      SystemWrite s (.beginKEKRotation q) .encryptionPosture
        (.encryptionPosture { post with rotatingToKEKFingerprint := q.toFingerprint })
  | completeRotation (q : CompleteKEKRotation) (post : EncryptionPosture)
      (hold : s.get encryptionPostureKey = some (.encryptionPosture post)) :
      SystemWrite s (.completeKEKRotation q) .encryptionPosture (.encryptionPosture
        { post with
          currentKEKFingerprint := post.rotatingToKEKFingerprint
          rotatingToKEKFingerprint := 0 })
  | register (q : RegisterNode) (prev : Option NodeRecord)
      (hprev : s.get (nodeRowKey q.nodeID) = prev.map .nodeRecord) :
      SystemWrite s (.registerNode q) (.node q.nodeID) (.nodeRecord (registeredNode q prev))
  | update {p : Proposal} {id : Bytes} {f : NodeRecord → NodeRecord}
      (hp : p.nodeUpdate = some (id, f)) (n : NodeRecord)
      (hold : s.get (nodeRowKey id) = some (.nodeRecord n)) :
      SystemWrite s p (.node id) (.nodeRecord (f n))

section System

variable {s s' : Store} {p : Proposal} {row : RowKey}

theorem of_asEncryptionPosture (v : Record) (a : EncryptionPosture)
    (h : v.asEncryptionPosture = .ok a) : v = .encryptionPosture a := by
  cases v <;> cases h
  rfl

theorem of_asNodeRecord (v : Record) (a : NodeRecord) (h : v.asNodeRecord = .ok a) :
    v = .nodeRecord a := by
  cases v <;> cases h
  rfl

theorem of_asClusterLayout (v : Record) (a : ClusterLayout) (h : v.asClusterLayout = .ok a) :
    v = .clusterLayout a := by
  cases v <;> cases h
  rfl

theorem requirePosture_ok {f : EncryptionPosture → Tx β} [∀ a, (f a).Regular] {r : β}
    (h : (requirePosture >>= f).eval s = (.ok r, s')) :
    ∃ post, s.get encryptionPostureKey = some (.encryptionPosture post) ∧
      (f post).eval s = (.ok r, s') := by
  obtain ⟨post, s₁, hreq, hrest⟩ := eval_bind_ok h
  obtain ⟨row, hread, hrow⟩ := eval_read_ok hreq
  cases row with
  | none => cases hrow
  | some post' =>
    cases hrow
    exact ⟨post, get_of_getTyped of_asEncryptionPosture hread, hrest⟩

theorem updateNode_ok {id : Bytes} {f : NodeRecord → NodeRecord} {r : Unit}
    (h : (updateNode id f).eval s = (.ok r, s')) :
    ∃ n, s.get (nodeRowKey id) = some (.nodeRecord n) ∧
      s' = s.set (nodeRowKey id) (.nodeRecord (f n)) := by
  obtain ⟨-, h⟩ := eval_failIf_ok h
  obtain ⟨row, hread, h⟩ := eval_read_ok h
  cases row with
  | none => cases h
  | some n =>
    cases h
    exact ⟨n, get_of_getTyped of_asNodeRecord hread, rfl⟩

theorem systemWrite_of_ok (hrow : p.systemRow = some row) {r : ApplyResult}
    (h : (applyBody p).eval s = (.ok r, s')) :
    (∃ q, p = .completeKEKRotation q) ∧ s' = s ∨
      ∃ v, SystemWrite s p row v ∧ s' = s.set row.encode v := by
  cases p with
  | setClusterLayout q =>
    cases hrow
    obtain ⟨_, -, h⟩ := eval_wrapped_ok h
    obtain ⟨prev, hread, h⟩ := eval_read_ok h
    obtain ⟨-, h⟩ := eval_failIf_ok h
    obtain ⟨hversion, h⟩ := eval_failIf_ok h
    obtain ⟨-, h⟩ := eval_failIf_ok h
    cases h
    exact Or.inr ⟨_, .layout q prev (get_of_getTyped of_asClusterLayout hread)
      (not_not.mp hversion), rfl⟩
  | setTrustBundle q =>
    cases hrow
    obtain ⟨_, -, h⟩ := eval_wrapped_ok h
    obtain ⟨_, -, h⟩ := eval_read_ok h
    obtain ⟨-, h⟩ := eval_failIf_ok h
    obtain ⟨-, h⟩ := eval_failIf_ok h
    obtain ⟨-, h⟩ := eval_failIf_ok h
    obtain ⟨-, h⟩ := eval_failIf_ok h
    cases h
    exact Or.inr ⟨_, .trust q, rfl⟩
  | setEncryptionPosture q =>
    cases hrow
    obtain ⟨_, -, h⟩ := eval_wrapped_ok h
    obtain ⟨-, h⟩ := eval_failIf_ok h
    obtain ⟨prev, hread, h⟩ := eval_read_ok h
    obtain ⟨-, h⟩ := eval_failIf_ok h
    obtain ⟨-, h⟩ := eval_failIf_ok h
    cases h
    exact Or.inr ⟨_, .posture q prev (get_of_getTyped of_asEncryptionPosture hread), rfl⟩
  | beginKEKRotation q =>
    cases hrow
    obtain ⟨_, -, h⟩ := eval_wrapped_ok h
    obtain ⟨post, hold, h⟩ := requirePosture_ok h
    obtain ⟨-, h⟩ := eval_failIf_ok h
    obtain ⟨-, h⟩ := eval_failIf_ok h
    obtain ⟨-, h⟩ := eval_failIf_ok h
    obtain ⟨-, h⟩ := eval_failIf_ok h
    cases h
    exact Or.inr ⟨_, .beginRotation q post hold, rfl⟩
  | completeKEKRotation q =>
    cases hrow
    obtain ⟨_, -, h⟩ := eval_wrapped_ok h
    obtain ⟨post, hold, h⟩ := requirePosture_ok h
    split at h
    · split at h
      · cases h
        exact Or.inl ⟨⟨q, rfl⟩, rfl⟩
      · cases h
    · obtain ⟨-, h⟩ := eval_failIf_ok h
      cases h
      exact Or.inr ⟨_, .completeRotation q post hold, rfl⟩
  | registerNode q =>
    cases hrow
    obtain ⟨_, -, h⟩ := eval_wrapped_ok h
    obtain ⟨-, h⟩ := eval_failIf_ok h
    obtain ⟨prev, hread, h⟩ := eval_read_ok h
    cases h
    exact Or.inr ⟨_, .register q prev (get_of_getTyped of_asNodeRecord hread), rfl⟩
  | setNodeDraining q | setNodeReplacedBy q | setNodeLeafCA q | setNodeVersion q =>
    cases hrow
    obtain ⟨_, -, h⟩ := eval_wrapped_ok h
    obtain ⟨n, hold, rfl⟩ := updateNode_ok h
    exact Or.inr ⟨_, .update rfl n hold, rfl⟩
  | _ => cases hrow

end System

/-! ## Every other proposal -/

theorem applied_of_ok {s s' : Store} {p : Proposal} (hp : p.systemRow = none) {r : ApplyResult}
    (h : (applyBody p).eval s = (.ok r, s')) : Applied s p r s' := by
  cases p with
  | unknown => cases h
  | createBucket q =>
    obtain ⟨_, rfl, hq⟩ := eval_wrapped_ok h
    obtain ⟨_, hname, h⟩ := eval_check_ok hq
    rw [eval_get_bind] at h
    obtain ⟨hnew, h⟩ := eval_failIf_ok h
    cases h
    exact .createBucket q (zero_notMem_of_validateBucketName hname) (by simpa using hnew)
  | deleteBucket q =>
    obtain ⟨_, rfl, hq⟩ := eval_wrapped_ok h
    unfold applyDeleteBucket at hq
    rw [eval_get_bind] at hq
    obtain ⟨-, h⟩ := eval_failIf_ok hq
    rw [eval_read_bind s _ (hasRowUnder_eq s _)] at h
    obtain ⟨hversions, h⟩ := eval_failIf_ok h
    rw [eval_read_bind s _ (hasRowUnder_eq s _)] at h
    obtain ⟨huploads, h⟩ := eval_failIf_ok h
    cases h
    exact .deleteBucket q (by simpa using hversions) (by simpa using huploads)
  | setBucketVersioning q =>
    obtain ⟨_, rfl, hq⟩ := eval_wrapped_ok h
    obtain ⟨cfg, hcfg, h⟩ := requireBucket_ok hq
    obtain ⟨hstate, h⟩ := eval_failIf_ok h
    obtain ⟨hsuspend, h⟩ := eval_failIf_ok h
    cases h
    exact .setBucketVersioning q cfg hcfg hstate hsuspend
  | setObjectLockConfiguration q =>
    obtain ⟨_, rfl, hq⟩ := eval_wrapped_ok h
    obtain ⟨cfg, hcfg, h⟩ := requireBucket_ok hq
    obtain ⟨-, h⟩ := eval_failIf_ok h
    obtain ⟨-, h⟩ := eval_failIf_ok h
    cases h
    exact .setObjectLockConfiguration q cfg hcfg
  | putObject q =>
    obtain ⟨_, rfl, hq⟩ := eval_wrapped_ok h
    obtain ⟨cfg, hcfg, hkey, h⟩ := requireKey_ok hq
    obtain ⟨-, h⟩ := eval_failIf_ok h
    obtain ⟨-, h⟩ := eval_failIf_ok h
    obtain ⟨_, hnewest, h⟩ := eval_read_ok h
    obtain rfl := of_newestVersion hnewest
    obtain ⟨ids, s₁, hreplace, h⟩ := eval_bind_ok h
    obtain ⟨rfl, hlocked, rfl⟩ := replaceNullVersion_ok hreplace
    rw [eval_set_bind, eval_set_bind] at h
    cases h
    exact .putObject q cfg _ ⟨hcfg, hkey, rfl, hlocked⟩
  | deleteObject => exact applied_deleteObject h
  | deleteVersion => exact applied_deleteVersion h
  | updateRetention q =>
    obtain ⟨_, rfl, hq⟩ := eval_wrapped_ok h
    obtain ⟨e, s₁, htarget, hrest⟩ := eval_bind_ok hq
    obtain ⟨rfl, hold, -, -⟩ := lockTarget_ok htarget
    obtain ⟨hdate, hrest⟩ := eval_failIf_ok hrest
    obtain ⟨haccept, hrest⟩ := eval_failIf_ok hrest
    cases hrest
    exact .rewrite hold (Or.inr rfl)
      (.retention q ⟨rfl, rfl, rfl⟩ hdate (by simpa using haccept) rfl)
  | updateLegalHold q =>
    obtain ⟨_, rfl, hq⟩ := eval_wrapped_ok h
    obtain ⟨e, s₁, htarget, hrest⟩ := eval_bind_ok hq
    obtain ⟨rfl, hold, -, -⟩ := lockTarget_ok htarget
    cases hrest
    exact .rewrite hold (Or.inr rfl) (.hold q ⟨rfl, rfl, rfl⟩ rfl)
  | reEncodeObject q =>
    obtain ⟨_, rfl, hq⟩ := eval_wrapped_ok h
    obtain ⟨e, s₁, htarget, hrest⟩ := eval_bind_ok hq
    obtain ⟨rfl, hold⟩ := requireVersionRow_ok htarget
    obtain ⟨hwhole, hrest⟩ := eval_failIf_ok hrest
    obtain ⟨-, hrest⟩ := eval_failIf_ok hrest
    cases hrest
    exact .rewrite hold (Or.inl rfl) (.reEncoded q ⟨rfl, rfl, rfl⟩ (by simpa using hwhole) rfl)
  | rewrapDEK q =>
    obtain ⟨_, rfl, hq⟩ := eval_wrapped_ok h
    obtain ⟨e, s₁, htarget, hrest⟩ := eval_bind_ok hq
    obtain ⟨rfl, hold⟩ := requireVersionRow_ok htarget
    obtain ⟨-, hrest⟩ := eval_failIf_ok hrest
    obtain ⟨-, hrest⟩ := eval_failIf_ok hrest
    by_cases hsame : e.kekFingerprint = q.kekFingerprint
    · rw [if_pos hsame] at hrest
      cases hrest
      exact .rewrappedBefore q
    · rw [if_neg hsame] at hrest
      cases hrest
      exact .rewrite hold (Or.inl rfl) (.rewrapped q ⟨rfl, rfl, rfl⟩ rfl)
  | createMultipartUpload q =>
    obtain ⟨_, rfl, hq⟩ := eval_wrapped_ok h
    obtain ⟨cfg, hcfg, hkey, h⟩ := requireKey_ok hq
    rw [eval_get_bind] at h
    obtain ⟨-, h⟩ := eval_failIf_ok h
    cases h
    exact .createMultipartUpload q cfg hcfg hkey
  | uploadPart q =>
    obtain ⟨_, rfl, hq⟩ := eval_wrapped_ok h
    obtain ⟨cfg, hcfg, hkey, h⟩ := requireKey_ok hq
    obtain ⟨-, h⟩ := eval_failIf_ok h
    rw [eval_get_bind] at h
    obtain ⟨-, h⟩ := eval_failIf_ok h
    obtain ⟨prior, hread, h⟩ := eval_read_ok h
    rw [eval_set_bind] at h
    cases h
    exact .uploadPart q cfg prior hcfg hkey (get_of_getTyped of_asPartRecord hread)
  | completeMultipartUpload q =>
    obtain ⟨_, rfl, hq⟩ := eval_wrapped_ok h
    obtain ⟨cfg, hcfg, hkey, h⟩ := requireKey_ok hq
    obtain ⟨u, hupload, h⟩ := requireUpload_ok h
    obtain ⟨hnonempty, h⟩ := eval_failIf_ok h
    rw [eval_read_bind s _ (uploadParts_eq s _)] at h
    obtain ⟨hascend, h⟩ := eval_failIf_ok h
    obtain ⟨parts, hparts, h⟩ := eval_check_ok h
    obtain ⟨_, hnewest, h⟩ := eval_read_ok h
    obtain rfl := of_newestVersion hnewest
    obtain ⟨ids, s₁, hreplace, h⟩ := eval_bind_ok h
    obtain ⟨rfl, hlocked, rfl⟩ := replaceNullVersion_ok hreplace
    rw [eval_set_bind, eval_set_bind, eval_delete_bind, eval_bind, eval_deleteRows] at h
    cases h
    exact .completeMultipartUpload q cfg u parts _ ⟨hcfg, hkey, rfl, hlocked⟩ hupload hnonempty
      (by simpa using hascend) hparts
  | abortMultipartUpload q =>
    obtain ⟨_, rfl, hq⟩ := eval_wrapped_ok h
    obtain ⟨cfg, hcfg, hkey, h⟩ := requireKey_ok hq
    rw [eval_get_bind] at h
    obtain ⟨hrow, h⟩ := eval_failIf_ok h
    rw [eval_read_bind s _ (uploadParts_eq s _), eval_read_bind s _ (uploadRowKeys_eq s _),
      eval_bind, eval_deleteRows] at h
    cases h
    exact .abortMultipartUpload q cfg hcfg hkey (by simpa using hrow)
  | _ => cases hp

theorem applied_of_applyMem {s : Store} {p : Proposal} (hp : p.systemRow = none) {r : ApplyResult}
    (h : (applyMem s p).1 = .ok r) : Applied s p r (applyMem s p).2 :=
  applied_of_ok hp (eval_of_applyMem_eq_ok h)

end Hamster.Meta
