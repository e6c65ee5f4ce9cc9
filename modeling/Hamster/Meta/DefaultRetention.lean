import Hamster.Meta.Invariants
import Hamster.Meta.Uploads

/-!
# Default retention

A bucket with object lock may carry a default rule: a version committed
without a retention of its own is to be locked by the rule's mode, for the
rule's days or years from the time of the proposal.  `RetainsByDefault` says
so of one step, for both ways to commit an object.

`ApplyPutObject` does this.  `ApplyCompleteMultipartUpload` builds its entry
without a look at the rule, so a completion that is accepted under a rule
stores an unlocked version.  `retainsByDefault_iff` is the exact condition:
a run keeps the law if and only if no such completion is in it.
-/

namespace Hamster.Meta

open CodeLib Tx

/-! ## The law -/

/-- A write that names no retention, with its bucket, key and time. -/
def Proposal.unretainedWrite : Proposal → Option (Bytes × Bytes × Int64)
  | .putObject p =>
    if p.retentionMode = retentionNone then some (p.bucket, p.key, p.proposedAtUnixMS) else none
  | .completeMultipartUpload p => some (p.bucket, p.key, p.proposedAtUnixMS)
  | _ => none

def ApplyResult.committed : ApplyResult → Option VersionID
  | .put r => some r.versionID
  | .complete r => some r.versionID
  | _ => none

/-- The bucket has object lock with a default rule. -/
def BucketConfig.HasRule (cfg : BucketConfig) : Prop :=
  cfg.objectLockEnabled = true ∧ cfg.defaultRetentionMode ≠ retentionNone

/-- What the proposal commits without a retention of its own under a default
rule is stored with the rule's retention. -/
def RetainsByDefault (s : Store) (p : Proposal) : Prop :=
  ∀ ⦃b k atUnixMS cfg r vid⦄, p.unretainedWrite = some (b, k, atUnixMS) →
    getBucket s b = .ok (some cfg) → cfg.HasRule →
    (applyMem s p).1 = .ok r → r.committed = some vid →
    ∃ e, getVersion (applyMem s p).2 b k vid = .ok (some e) ∧
      e.retentionMode = cfg.defaultRetentionMode ∧
      e.retainUntilUnixMS =
        retainUntilFromDefault atUnixMS cfg.defaultRetentionDays cfg.defaultRetentionYears

/-! ## Completions that are accepted -/

/-- The client's list names stored parts by number and ETag, and every one
but the last has the minimum size. -/
def Listed (stored : List PartRecord) : List CompletedPart → Prop
  | [] => True
  | cp :: rest =>
    (∃ pr ∈ stored, pr.partNumber = cp.partNumber ∧ pr.etag = cp.etag ∧
      (rest ≠ [] → ¬ pr.size < minPartSize)) ∧ Listed stored rest

structure Acceptable (s : Store) (q : CompleteMultipartUpload) (cfg : BucketConfig) : Prop where
  bucket : getBucket s q.bucket = .ok (some cfg)
  key : validateObjectKey q.key = .ok ()
  upload : ∃ u, getUpload s q.bucket q.key q.uploadID = .ok (some u)
  nonempty : q.parts ≠ []
  ascending : partsAscend q.parts = true
  listed : Listed (partList s q.bucket q.key q.uploadID) q.parts

/-- The proposal completes an upload into a bucket with a default rule. -/
def CompletesUnderRule (s : Store) (p : Proposal) : Prop :=
  ∃ q cfg, p = .completeMultipartUpload q ∧ Acceptable s q cfg ∧ cfg.HasRule

section Assemble

variable {stored : List PartRecord}

variable (hinj : ∀ p ∈ stored, ∀ q ∈ stored, p.partNumber = q.partNumber → p = q)

include hinj

/-- The check of the client's list passes exactly for a list of stored
parts. -/
theorem assembleParts_ok_iff (parts : List CompletedPart) :
    (∃ out, assembleParts stored parts = .ok out) ↔ Listed stored parts := by
  induction parts with
  | nil => exact ⟨fun _ => trivial, fun _ => ⟨[], rfl⟩⟩
  | cons cp rest ih =>
    rw [assembleParts, Listed, ← ih]
    cases hfind : findPart stored cp.partNumber with
    | none =>
      constructor
      · rintro ⟨out, hout⟩
        cases hout
      · rintro ⟨⟨pr, hmem, hnum, -⟩, -⟩
        rw [(findPart_eq_some_iff hinj).mpr ⟨hmem, hnum⟩] at hfind
        cases hfind
    | some pr =>
      have hiff : (∃ pr ∈ stored, pr.partNumber = cp.partNumber ∧ pr.etag = cp.etag ∧
          (rest ≠ [] → ¬ pr.size < minPartSize)) ↔
          pr.etag = cp.etag ∧ ¬ (rest ≠ [] ∧ pr.size < minPartSize) := by
        obtain ⟨hmem, hnum⟩ := (findPart_eq_some_iff hinj).mp hfind
        constructor
        · rintro ⟨pr', hmem', hnum', hetag, hsize⟩
          rw [hinj pr hmem pr' hmem' (hnum.trans hnum'.symm)]
          exact ⟨hetag, fun h => hsize h.1 h.2⟩
        · rintro ⟨hetag, hsize⟩
          exact ⟨pr, hmem, hnum, hetag, fun h h' => hsize ⟨h, h'⟩⟩
      rw [hiff]
      dsimp only
      by_cases hetag : pr.etag = cp.etag
      · by_cases hsize : rest ≠ [] ∧ pr.size < minPartSize
        · simp [hetag, hsize]
        · rw [if_neg (not_not.mpr hetag), if_neg hsize]
          cases assembleParts stored rest with
          | ok out => simp [hetag, hsize, Except.map]
          | error e => simp [Except.map]
      · simp [hetag]

end Assemble

section Completion

variable {s s' : Store} {b k : Bytes}

variable {q : CompleteMultipartUpload} {r : ApplyResult}

theorem Typed.acceptable_of_applied (hs : Typed s) (h : Applied s (.completeMultipartUpload q) r s')
    : ∃ cfg, Acceptable s q cfg := by
  cases h with
  | rewrite _ _ hnew => cases hnew
  | completeMultipartUpload _ cfg u parts vid h hupload hnonempty hascend hparts =>
    obtain ⟨hb, hk⟩ := h.plain hs
    refine ⟨cfg, ?_, h.key, ⟨u, ?_⟩, ?_, hascend, ?_⟩
    · rw [hs.getBucket_eq, h.bucket]
    · rw [hs.getUpload_eq hb hk, hupload]
    · intro hnil
      exact hnonempty (by rw [hnil]; rfl)
    · exact (assembleParts_ok_iff (hs.partList_inj hb hk q.uploadID) q.parts).mp ⟨parts, hparts⟩

theorem versionAt_commitStore_self (hb : 0 ∉ b) (hk : 0 ∉ k) (e : VersionEntry) :
    versionAt (commitStore s b k e) b k e.versionID = some e := by
  rw [commitStore, versionAt_putCurrent, versionAt_set hb hk hb hk, if_pos ⟨rfl, rfl, rfl⟩]

/-- A completion that passes every check is accepted in a versioned bucket.
What it stores has no retention. -/
theorem Typed.ok_of_acceptable (hs : Typed s) {cfg : BucketConfig} (h : Acceptable s q cfg)
    (henabled : cfg.versioning = versioningEnabled) :
    ∃ r s' e, (applyCompleteMultipartUpload q).eval s = (.ok r, s') ∧
      versionAt s' q.bucket q.key r.versionID = some e ∧ e.retentionMode = retentionNone := by
  have hcfg : bucketAt s q.bucket = some cfg := by
    have hget := h.bucket
    rw [hs.getBucket_eq] at hget
    exact Except.ok.inj hget
  have hb := hs.plain_of_bucketAt hcfg
  have hk := zero_notMem_of_validateObjectKey h.key
  obtain ⟨u, hu⟩ := h.upload
  have hup : uploadAt s q.bucket q.key q.uploadID = some u := by
    rw [hs.getUpload_eq hb hk] at hu
    exact Except.ok.inj hu
  obtain ⟨parts, hparts⟩ :=
    (assembleParts_ok_iff (hs.partList_inj hb hk q.uploadID) q.parts).mpr h.listed
  let e := completeEntry q cfg u parts (bumpedID q.versionID (versionList s q.bucket q.key).head?)
  have hnull : e.nullVersion = false := by simp [e, completeEntry, henabled]
  let rows := completedRows s q.bucket q.key q.uploadID
  have hrun : ∃ r, (applyCompleteMultipartUpload q).eval s =
      (.ok r, rows.foldl SortedKV.delete (commitStore s q.bucket q.key e)) ∧
        r.versionID = e.versionID := by
    have hlength : ¬ q.parts.length = 0 := fun h0 => h.nonempty (List.length_eq_zero_iff.mp h0)
    have hstored : uploadParts s (uploadRowKey q.bucket q.key q.uploadID) =
        .ok (partList s q.bucket q.key q.uploadID) := uploadParts_eq s _
    have hreplace : (replaceNullVersion q.bucket q.key q.proposedAtUnixMS e.nullVersion).eval s =
        _ := hs.eval_replaceNullVersion hb hk
          (fun hyes => absurd (hnull.symm.trans hyes) (by decide))
    rw [applyCompleteMultipartUpload, hs.eval_requireBucket_bind hcfg, eval_check_bind s _ h.key,
      hs.eval_requireUpload_bind hb hk hup, eval_failIf_bind, if_neg hlength,
      eval_read_bind s _ hstored, eval_failIf_bind, if_neg (by simp [h.ascending]),
      eval_check_bind s _ hparts, eval_read_bind s _ (hs.newestVersion_eq hb hk), eval_bind,
      hreplace]
    simp only [eval_set_bind, eval_delete_bind]
    rw [eval_bind, eval_deleteRows]
    exact ⟨_, rfl, rfl⟩
  obtain ⟨r, hrun, hid⟩ := hrun
  refine ⟨r, _, e, hrun, ?_, rfl⟩
  rw [(sameHistory_deleteRows outside_completedRows _).versionAt_eq, hid]
  exact versionAt_commitStore_self hb hk e

theorem Typed.putObject_stored (hs : Typed s) {p : PutObject} (h : Applied s (.putObject p) r s') :
    ∃ cfg vid, bucketAt s p.bucket = some cfg ∧ r.committed = some vid ∧
      versionAt s' p.bucket p.key vid = some (putEntry p cfg vid) := by
  cases h with
  | rewrite _ _ hnew => cases hnew
  | putObject _ cfg vid h =>
    obtain ⟨hb, hk⟩ := h.plain hs
    exact ⟨cfg, vid, h.bucket, rfl, versionAt_commitStore_self hb hk (putEntry p cfg vid)⟩

end Completion

/-! ## Buckets with object lock are versioned -/

def LockVersioned (s : Store) : Prop :=
  ∀ ⦃b cfg⦄, bucketAt s b = some cfg → cfg.objectLockEnabled = true →
    cfg.versioning = versioningEnabled

section LockVersioned

variable {s s' : Store} {p : Proposal}

theorem lockVersioned_newStore : LockVersioned newStore := by
  intro b cfg h
  simp [bucketAt, look, newStore] at h

theorem LockVersioned.step (hs : LockVersioned s) (h : VersionStep p s s') :
    LockVersioned s' := by
  intro b cfg' hcfg' hlock'
  rcases h.bucketAt_of hcfg' with hold | ⟨-, -, hnew⟩ | ⟨cfg, hcfg, -, hlock, hversioning⟩
  · exact hs hold hlock'
  · rw [hnew, if_pos hlock']
  · have hold : cfg.objectLockEnabled = true := hlock ▸ hlock'
    rcases hversioning with hsame | henabled | ⟨-, hno⟩
    · rw [hsame]
      exact hs hcfg hold
    · exact henabled
    · rw [hold] at hno
      cases hno

structure Lockable (s : Store) : Prop where
  typed : Typed s
  versioned : LockVersioned s

theorem Lockable.step (hs : Lockable s) (p : Proposal) : Lockable (applyMem s p).2 := by
  exact ⟨typed_applyMem hs.typed p, hs.versioned.step (versionStep_applyMem hs.typed p)⟩

end LockVersioned

/-! ## One step and whole runs -/

section Law

variable {s : Store} {p : Proposal}

theorem applyMem_of_eval {α : Type} {body : Tx α} {wrap : α → ApplyResult}
    (hbody : applyBody p = body >>= fun a => pure (wrap a)) {a : α} {s' : Store}
    (h : body.eval s = (.ok a, s')) : applyMem s p = (.ok (wrap a), s') := by
  rw [applyMem_eq, hbody, eval_bind, h]
  rfl

theorem Lockable.retainsByDefault_putObject (hs : Lockable s) (q : PutObject) :
    RetainsByDefault s (.putObject q) := by
  intro b k atUnixMS cfg r vid hwrite hbucket hrule hok hvid
  obtain ⟨cfg', vid', hcfg', hvid', hstored⟩ :=
    hs.typed.putObject_stored (applied_of_applyMem rfl hok)
  have hcond : (if q.retentionMode = retentionNone then
      some (q.bucket, q.key, q.proposedAtUnixMS) else none) = some (b, k, atUnixMS) := hwrite
  split_ifs at hcond with hmode
  cases hcond
  cases hvid'.symm.trans hvid
  have hcfg : cfg' = cfg := by
    rw [hs.typed.getBucket_eq, hcfg'] at hbucket
    cases hbucket
    rfl
  subst hcfg
  have hretention : putRetention q cfg' = (cfg'.defaultRetentionMode,
      retainUntilFromDefault q.proposedAtUnixMS cfg'.defaultRetentionDays
        cfg'.defaultRetentionYears) := if_pos ⟨hmode, hrule.1, hrule.2⟩
  refine ⟨putEntry q cfg' vid, ?_, congrArg Prod.fst hretention,
    congrArg Prod.snd hretention⟩
  rw [(typed_applyMem hs.typed _).getVersion_eq, hstored]

theorem Lockable.not_retainsByDefault (hs : Lockable s) (h : CompletesUnderRule s p) :
    ¬ RetainsByDefault s p := by
  intro hlaw
  obtain ⟨q, cfg, rfl, hacc, hrule⟩ := h
  have hcfg : bucketAt s q.bucket = some cfg := by
    have hget := hacc.bucket
    rw [hs.typed.getBucket_eq] at hget
    exact Except.ok.inj hget
  obtain ⟨r, s', e, heval, hver, hnone⟩ :=
    hs.typed.ok_of_acceptable hacc (hs.versioned hcfg hrule.1)
  have happly : applyMem s (.completeMultipartUpload q) = (.ok (.complete r), s') :=
    applyMem_of_eval rfl heval
  have htyped : Typed s' := by
    have h := typed_applyMem hs.typed (.completeMultipartUpload q)
    rwa [happly] at h
  obtain ⟨e', hget, hmode, -⟩ := hlaw rfl hacc.bucket hrule (by rw [happly]) rfl
  rw [happly, htyped.getVersion_eq, hver] at hget
  cases hget
  exact hrule.2 (hmode.symm.trans hnone)

/-- The law fails in a step exactly when the step completes an upload under a
rule. -/
theorem Lockable.retainsByDefault_step (hs : Lockable s) (p : Proposal) :
    RetainsByDefault s p ↔ ¬ CompletesUnderRule s p := by
  constructor
  · intro hlaw hcompletes
    exact hs.not_retainsByDefault hcompletes hlaw
  · intro hnot
    cases p with
    | putObject q => exact hs.retainsByDefault_putObject q
    | completeMultipartUpload q =>
      intro b k atUnixMS cfg r vid hwrite hbucket hrule hok hvid
      obtain ⟨cfg', hacc⟩ := hs.typed.acceptable_of_applied (applied_of_applyMem rfl hok)
      cases hwrite
      have hsame := hacc.bucket
      rw [hbucket] at hsame
      cases hsame
      exact absurd ⟨q, cfg, rfl, hacc, hrule⟩ hnot
    | _ =>
      intro b k atUnixMS cfg r vid hwrite
      cases hwrite

end Law

/-- A run keeps the law of default retention in every step if and only if it
completes no upload into a bucket with a default rule. -/
theorem retainsByDefault_iff (ps : List Proposal) :
    EachStep (fun s p => (applyMem s p).2) RetainsByDefault newStore ps ↔
      EachStep (fun s p => (applyMem s p).2) (fun s p => ¬ CompletesUnderRule s p)
        newStore ps :=
  eachStep_congr (I := Lockable) (fun _ p hs => hs.step p)
    (fun _ p hs => hs.retainsByDefault_step p)
    ⟨typed_newStore, lockVersioned_newStore⟩ ps

/-- A lock bucket gets a GOVERNANCE rule of one day, and a part is uploaded. -/
def uploadUnderRule : List Proposal :=
  [ .createBucket ⟨1, [97, 97, 97], true⟩
  , .setObjectLockConfiguration ⟨2, [97, 97, 97], retentionGovernance, 1, 0⟩
  , .createMultipartUpload { proposedAtUnixMS := 3, bucket := [97, 97, 97], key := [107]
                             uploadID := VersionID.newVersionID 3 0 0 }
  , .uploadPart { proposedAtUnixMS := 4, bucket := [97, 97, 97], key := [107]
                  uploadID := VersionID.newVersionID 3 0 0, partNumber := 1
                  dataID := VersionID.newVersionID 4 0 0, size := 7, etag := [1] } ]

def completionUnderRule : Proposal :=
  .completeMultipartUpload
    { proposedAtUnixMS := 5, bucket := [97, 97, 97], key := [107]
      uploadID := VersionID.newVersionID 3 0 0, versionID := VersionID.newVersionID 5 0 0
      parts := [⟨1, [1]⟩], etag := [2] }

/-- The completed version is stored without retention. -/
theorem completionUnderRule_stored_unlocked :
    ¬ EachStep (fun s p => (applyMem s p).2) RetainsByDefault newStore
      (uploadUnderRule ++ [completionUnderRule]) := by
  rintro ⟨-, -, -, -, hlast, -⟩
  have hlaw : RetainsByDefault (runMem newStore uploadUnderRule) completionUnderRule := hlast
  have hbucket : getBucket (runMem newStore uploadUnderRule) [97, 97, 97] = .ok (some
      { formatVersion := currentFormatVersion, name := [97, 97, 97], createdUnixMS := 1
        versioning := versioningEnabled, objectLockEnabled := true
        defaultRetentionMode := retentionGovernance, defaultRetentionDays := 1 }) := by
    decide +kernel
  have hok : (applyMem (runMem newStore uploadUnderRule) completionUnderRule).1 =
      .ok (.complete ⟨VersionID.newVersionID 5 0 0, []⟩) := by decide +kernel
  obtain ⟨e, hget, hmode, -⟩ := hlaw rfl hbucket ⟨rfl, by decide⟩ hok rfl
  have hstored : (getVersion (applyMem (runMem newStore uploadUnderRule) completionUnderRule).2
      [97, 97, 97] [107] (VersionID.newVersionID 5 0 0)).map
        (Option.map VersionEntry.retentionMode) = .ok (some retentionNone) := by decide +kernel
  rw [hget] at hstored
  have hnone : e.retentionMode = retentionNone := Option.some.inj (Except.ok.inj hstored)
  exact absurd (hmode.symm.trans hnone) (by decide)

end Hamster.Meta
