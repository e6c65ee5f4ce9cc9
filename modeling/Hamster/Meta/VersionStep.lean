import Hamster.Meta.Applied

/-!
# What a proposal does to the version history

`VersionStep` lists the ways in which an accepted proposal changes the
history, with everything the apply function checked before it did so.
`versionStep_of_ok` says that there are no others.  The invariants of the
store are proved from this relation and never look at an apply function.

* `other`: the history stays as it is.
* `bucket`: one bucket row.
* `commit`: a new version of a key and its current row, after the null
  version was dropped when the new one is null.  A completed upload's rows
  are deleted with it.
* `removeOnly`, `remove`: one version row and the current row after it.
* `rewrite`: fields of a version that are not its content.
-/

namespace Hamster.Meta

open CodeLib Tx

/-- The fields that a rewrite of a version leaves alone. -/
structure SameContent (e e' : VersionEntry) : Prop where
  versionID : e'.versionID = e.versionID
  kind : e'.kind = e.kind
  size : e'.size = e.size
  createdUnixMS : e'.createdUnixMS = e.createdUnixMS
  etag : e'.etag = e.etag
  contentType : e'.contentType = e.contentType
  userMetadata : e'.userMetadata = e.userMetadata
  objectChecksum : e'.objectChecksum = e.objectChecksum
  parts : e'.parts = e.parts
  nullVersion : e'.nullVersion = e.nullVersion

variable {b k : Bytes} {e : VersionEntry} {vid : VersionID}

theorem Rewritten.sameContent {p : Proposal} {e' : VersionEntry} (h : Rewritten b k vid e e' p) :
    SameContent e e' := by
  cases h <;> subst e' <;> exact ⟨rfl, rfl, rfl, rfl, rfl, rfl, rfl, rfl, rfl, rfl⟩

inductive Committed (p : Proposal) (b k : Bytes) (e : VersionEntry) : Prop where
  | put (q : PutObject) (cfg : BucketConfig) (hp : p = .putObject q)
      (htarget : q.bucket = b ∧ q.key = k) (he : e = putEntry q cfg e.versionID)
  | marker (q : DeleteObject) (cfg : BucketConfig) (hp : p = .deleteObject q)
      (htarget : q.bucket = b ∧ q.key = k) (he : e = markerEntry q cfg e.versionID)
  | completed (q : CompleteMultipartUpload) (cfg : BucketConfig) (upload : UploadRecord)
      (parts : List PartRecord) (hp : p = .completeMultipartUpload q)
      (htarget : q.bucket = b ∧ q.key = k) (he : e = completeEntry q cfg upload parts e.versionID)

def Proposal.removes : Proposal → Bool
  | .deleteObject _ | .deleteVersion _ => true
  | _ => false

/-- The new row of a bucket: it is created, deleted while it holds no version, or
configured. -/
inductive BucketStep (s : Store) (b : Bytes) : Option BucketConfig → Prop where
  | create (cfg : BucketConfig) (hb : 0 ∉ b) (hname : cfg.name = b) (hnew : bucketAt s b = none)
      (hversioning : cfg.versioning =
        if cfg.objectLockEnabled then versioningEnabled else unversioned) :
      BucketStep s b (some cfg)
  | delete (hempty : ∀ k vid, versionAt s b k vid = none) : BucketStep s b none
  | configure (cfg cfg' : BucketConfig) (hcfg : bucketAt s b = some cfg)
      (hname : cfg'.name = cfg.name) (hlock : cfg'.objectLockEnabled = cfg.objectLockEnabled)
      (hversioning : cfg'.versioning = cfg.versioning ∨ cfg'.versioning = versioningEnabled ∨
        (cfg'.versioning = versioningSuspended ∧ cfg.objectLockEnabled = false)) :
      BucketStep s b (some cfg')

/-- Whether a version written to the bucket is its key's null version. -/
def NullFor (cfg : BucketConfig) (e : VersionEntry) : Prop :=
  (e.kind = kindObject ∧ e.nullVersion = decide (cfg.versioning ≠ versioningEnabled)) ∨
    (e.kind = kindDeleteMarker ∧ cfg.versioning ≠ unversioned ∧
      e.nullVersion = decide (cfg.versioning = versioningSuspended))

/-- The change that an accepted proposal makes to the history. -/
inductive VersionStep (p : Proposal) (s s' : Store) : Prop where
  | other (htyped : Typed s') (h : SameHistory s s')
  | bucket (b : Bytes) (c : Option BucketConfig) (hbucket : BucketStep s b c)
      (h : s' = putBucket s b c)
  | commit (b k : Bytes) (cfg : BucketConfig) (e : VersionEntry) (minted : VersionID)
      (atUnixMS : Int64) (hk : 0 ∉ k) (hcfg : bucketAt s b = some cfg)
      (htarget : p.writeTarget = some (b, k)) (hminted : minted ∈ p.mintedIDs)
      (hat : p.proposedAt = some atUnixMS)
      (hid : e.versionID = bumpedID minted (versionList s b k).head?) (hnull : NullFor cfg e)
      (hlocked : e.nullVersion = true →
        ∀ e₀ ∈ nullEntry s b k, e₀.lockedAt atUnixMS false = false)
      (rows : List Bytes) (hrows : ∀ row ∈ rows, OutsideHistory row)
      (h : s' = rows.foldl SortedKV.delete (commitStore s b k e)) (hkey : k ≠ [])
      (hnew : Committed p b k e)
  | removeOnly (b k : Bytes) (cfg : BucketConfig) (e : VersionEntry) (atUnixMS : Int64)
      (hk : 0 ∉ k) (hcfg : bucketAt s b = some cfg) (hversioning : cfg.versioning = unversioned)
      (hat : p.proposedAt = some atUnixMS) (hnewest : (versionList s b k).head? = some e)
      (hlocked : e.lockedAt atUnixMS false = false)
      (h : s' = putCurrent (s.delete (versionRowKey b k e.versionID)) b k none)
      (hp : p.removes = true)
  | remove (q : DeleteVersion) (e : VersionEntry) (hp : p = .deleteVersion q)
      (hold : versionAt s q.bucket q.key q.versionID = some e)
      (hlocked : e.lockedAt q.proposedAtUnixMS q.bypassGovernance = false)
      (h : s' = removeStore s q.bucket q.key e)
  | rewrite (b k : Bytes) (e e' : VersionEntry)
      (hold : versionAt s b k e.versionID = some e) (hnew : Rewritten b k e.versionID e e' p)
      (h : s' = s.set (versionRowKey b k e.versionID) (.versionEntry e'))

section Steps

variable {s s' : Store} {p : Proposal}

theorem mem_bucketVersionRows (h : versionAt s b k vid = some e) :
    (versionRowKey b k vid, Record.versionEntry e) ∈
      s.rowsUnder (bucketVersionsScanPrefix b) := by
  refine SortedKV.mem_rowsUnder.mpr ⟨look_of_versionAt h, ?_⟩
  exact ⟨k ++ 0 :: vid.complement.bytes, by simp [bucketVersionsScanPrefix, versionRowKey]⟩

variable {cfg : BucketConfig}

theorem bucketStep_versioning {state : VersioningState} (hcfg : bucketAt s b = some cfg)
    (hstate : ¬ (state ≠ versioningEnabled ∧ state ≠ versioningSuspended))
    (hsuspend : ¬ (state = versioningSuspended ∧ cfg.objectLockEnabled)) :
    BucketStep s b (some { cfg with versioning := state }) := by
  refine .configure cfg _ hcfg rfl rfl (Or.inr ?_)
  by_cases henabled : state = versioningEnabled
  · exact Or.inl henabled
  · have hsusp : state = versioningSuspended := by
      by_contra hne
      exact hstate ⟨henabled, hne⟩
    exact Or.inr ⟨hsusp, by simpa [hsusp] using hsuspend⟩

theorem outside_completedRows {uid : VersionID} :
    ∀ row ∈ completedRows s b k uid, OutsideHistory row := by
  intro row hrow
  rcases List.mem_cons.mp hrow with rfl | hrow
  · exact outside_uploadRowKey _ _ _
  · obtain ⟨pr, -, rfl⟩ := List.mem_map.mp hrow
    exact outside_partRowKey _ _ _ _

theorem Typed.other_set (hs : Typed s) {r : RowKey} (hr : r.Plain) {v : Record} (hv : r.Holds v)
    (hout : OutsideHistory r.encode) (p : Proposal) : VersionStep p s (s.set r.encode v) :=
  .other (hs.set hr hv) (sameHistory_set hout v)

theorem Typed.deleteRows (hs : Typed s) (ks : List Bytes) :
    Typed (ks.foldl SortedKV.delete s) := by
  induction ks generalizing s with
  | nil => exact hs
  | cons k rest ih => exact ih (hs.delete k)

variable {minted : VersionID} {atUnixMS : Int64}

theorem Admitted.plain (hs : Typed s) (h : Admitted s b k cfg minted atUnixMS e) : 0 ∉ b ∧ 0 ∉ k :=
  ⟨hs.plain_of_bucketAt h.bucket, zero_notMem_of_validateObjectKey h.key⟩

theorem Admitted.versionStep (h : Admitted s b k cfg minted atUnixMS e)
    (htarget : p.writeTarget = some (b, k)) (hminted : minted ∈ p.mintedIDs)
    (hat : p.proposedAt = some atUnixMS) (hnull : NullFor cfg e) (rows : List Bytes)
    (hrows : ∀ row ∈ rows, OutsideHistory row) (hnew : Committed p b k e) :
    VersionStep p s (rows.foldl SortedKV.delete (commitStore s b k e)) :=
  .commit b k cfg e minted atUnixMS (zero_notMem_of_validateObjectKey h.key) h.bucket htarget
    hminted hat h.id hnull h.unlocked rows hrows rfl (ne_nil_of_validateObjectKey h.key) hnew

/-! ## Every proposal -/

theorem SystemWrite.versionStep (hs : Typed s) {row : RowKey} {v : Record}
    (h : SystemWrite s p row v) :
    VersionStep p s (s.set row.encode v) := by
  have hshape : row.Plain ∧ row.Holds v ∧ OutsideHistory row.encode := by
    cases h <;> exact ⟨trivial, trivial, Or.inr rfl⟩
  exact hs.other_set hshape.1 hshape.2.1 hshape.2.2 p

variable {r : ApplyResult}

theorem Applied.versionStep (hs : Typed s) (h : Applied s p r s') : VersionStep p s s' := by
  cases h with
  | createBucket q hb hnew =>
    have hnone : bucketAt s q.bucket = none := by simp [bucketAt, look, RowKey.encode, hnew]
    exact .bucket q.bucket _ (.create (newBucketConfig q) hb rfl hnone rfl) rfl
  | deleteBucket q hversions =>
    refine .bucket q.bucket none (.delete fun k vid => ?_) rfl
    refine Option.eq_none_iff_forall_ne_some.mpr (fun e hver => ?_)
    have hrow := mem_bucketVersionRows hver
    rw [hversions] at hrow
    cases hrow
  | setBucketVersioning q cfg hcfg hstate hsuspend =>
    exact .bucket q.bucket _ (bucketStep_versioning hcfg hstate hsuspend) rfl
  | setObjectLockConfiguration q cfg hcfg =>
    exact .bucket q.bucket _
      (.configure cfg (withDefaultRetention cfg q) hcfg rfl rfl (Or.inl rfl)) rfl
  | putObject q cfg vid h =>
    exact h.versionStep rfl List.mem_cons_self rfl (Or.inl ⟨rfl, rfl⟩) [] (by simp)
      (.put q cfg rfl ⟨rfl, rfl⟩ rfl)
  | deleteOnly q cfg e hcfg hkey hversioning hnewest hlocked =>
    exact .removeOnly q.bucket q.key cfg e q.proposedAtUnixMS
      (zero_notMem_of_validateObjectKey hkey) hcfg hversioning rfl hnewest hlocked rfl rfl
  | insertMarker q cfg vid hversioning h =>
    exact h.versionStep rfl List.mem_cons_self rfl (Or.inr ⟨rfl, hversioning, rfl⟩) []
      (by simp) (.marker q cfg rfl ⟨rfl, rfl⟩ rfl)
  | completeMultipartUpload q cfg u parts vid h =>
    exact h.versionStep rfl List.mem_cons_self rfl (Or.inl ⟨rfl, rfl⟩) _ outside_completedRows
      (.completed q cfg u parts rfl ⟨rfl, rfl⟩ rfl)
  | deleteVersion q e hold hlocked => exact .remove q e rfl hold hlocked rfl
  | rewrite hold hrow hnew =>
    obtain rfl := (hs.of_versionAt hold).2.2
    obtain rfl := or_self_iff.mp hrow
    exact .rewrite _ _ _ _ hold hnew rfl
  | createMultipartUpload q cfg hcfg hkey =>
    exact hs.other_set (r := .upload q.bucket q.key q.uploadID)
      (v := .uploadRecord (newUploadRecord q))
      ⟨hs.plain_of_bucketAt hcfg, zero_notMem_of_validateObjectKey hkey⟩ rfl (Or.inl rfl) _
  | uploadPart q cfg prior hcfg hkey =>
    exact hs.other_set (r := .part q.bucket q.key q.uploadID q.partNumber)
      (v := .partRecord (partRecordFor q))
      ⟨hs.plain_of_bucketAt hcfg, zero_notMem_of_validateObjectKey hkey⟩ rfl (Or.inl rfl) _
  | abortMultipartUpload q =>
    refine .other (hs.deleteRows _) (sameHistory_deleteRows (fun row hrow => ?_) s)
    obtain ⟨r, hr, rfl⟩ := List.mem_map.mp hrow
    exact outside_of_uploadPrefix (SortedKV.mem_rowsUnder.mp hr).2
  | deleteNothing | deleteAbsent | rewrappedBefore => exact .other hs (SameHistory.refl _)

theorem versionStep_of_ok (hs : Typed s) (h : (applyBody p).eval s = (.ok r, s')) :
    VersionStep p s s' := by
  cases hrow : p.systemRow with
  | none => exact (applied_of_ok hrow h).versionStep hs
  | some row =>
    rcases systemWrite_of_ok hrow h with ⟨-, rfl⟩ | ⟨v, hwrite, rfl⟩
    · exact .other hs (SameHistory.refl _)
    · exact hwrite.versionStep hs

end Steps

theorem versionStep_applyMem {s : Store} (hs : Typed s) (p : Proposal) :
    VersionStep p s (applyMem s p).2 := by
  rcases applyMem_cases s p with ⟨e, happly⟩ | ⟨r, s', happly, heval⟩
  · rw [happly]
    exact .other hs (SameHistory.refl s)
  · rw [happly]
    exact versionStep_of_ok hs heval

end Hamster.Meta
