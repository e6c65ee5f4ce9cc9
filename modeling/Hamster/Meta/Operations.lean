import Hamster.Meta.Tracking

/-!
# Each operation on both sides

One theorem for each of the ten operations: the body of its apply function
matches the operation of the version-list model on states that track each
other.  The commits share `Refines.commit`, and the multipart operations are
`Tracks.addUpload`, `Tracks.addPart` and `Tracks.dropUpload`.
-/

namespace Hamster.Meta

open CodeLib Tx

open S3 (Model Bucket Upload)

/-! ## Entries and checks -/

/-- No bucket of the model has a default retention. -/
theorem putEntry_config (p : PutObject) (B : Bucket) (vid : VersionID) :
    putEntry p (B.config p.bucket) vid = S3.stored p B vid := by
  have hret : putRetention p (B.config p.bucket) = (p.retentionMode, p.retainUntilUnixMS) :=
    if_neg (by simp [S3.Bucket.config])
  simp only [putEntry, S3.stored, hret]
  rfl

theorem markerEntry_config (p : DeleteObject) (B : Bucket) (vid : VersionID) :
    markerEntry p (B.config p.bucket) vid = S3.marker p B vid := rfl

theorem completeEntry_config (p : CompleteMultipartUpload) (B : Bucket) (u : Upload)
    (parts : List PartRecord) (vid : VersionID) :
    completeEntry p (B.config p.bucket) (u.record p.uploadID) parts vid =
      S3.assembled p B u parts vid := by
  rw [S3.assembled, List.sum_eq_foldl, List.foldl_map]
  rfl

theorem locked_iff {e : VersionEntry} {now : Int64} {bypass : Bool} :
    S3.Locked e now bypass ↔ e.lockedAt now bypass = true := by
  have hmodes : retentionGovernance ≠ retentionCompliance := by decide
  rw [S3.Locked, VersionEntry.lockedAt, ← Int64.not_le]
  split_ifs with hhold hended hcompliance hgovernance <;> simp_all

theorem partsAscend_iff {parts : List CompletedPart} :
    partsAscend parts = true ↔ (parts.map CompletedPart.partNumber).Pairwise (· < ·) := by
  rw [← List.isChain_iff_pairwise]
  induction parts with
  | nil => simp [partsAscend]
  | cons a rest ih =>
    cases rest with
    | nil => simp [partsAscend]
    | cons b rest => simpa [partsAscend] using fun _ => ih

/-- The loop of the code ends at the first row that the model refuses. -/
theorem assembleParts_eq_listed {u : Upload}
    (hinj : ∀ p ∈ u.parts, ∀ q ∈ u.parts, p.partNumber = q.partNumber → p = q)
    (parts : List CompletedPart) : assembleParts u.parts parts = u.listed parts := by
  induction parts with
  | nil => rfl
  | cons cp rest ih =>
    have hpart : findPart u.parts cp.partNumber = u.part? cp.partNumber :=
      findPart_eq_find? hinj cp.partNumber
    rw [assembleParts, ih, hpart, Upload.listed, Upload.listed, Upload.firstFault, Upload.fault]
    cases hfind : u.part? cp.partNumber with
    | none => rfl
    | some pr =>
      have hlast : rest.isEmpty = false ↔ rest ≠ [] := by simp
      by_cases hetag : pr.etag = cp.etag
      · by_cases hsize : rest ≠ [] ∧ pr.size < minPartSize
        · simp [hetag, hsize]
        · cases hfault : u.firstFault rest <;> simp [hetag, hsize, hlast, hfind, Except.map]
      · simp [hetag]

/-! ## Buckets -/

section BucketOps

variable {m : Model} {s : Store}

theorem Tracks.isSome_bucketRow (hT : Tracks m s) (hs : Typed s) (b : Bytes) :
    (m b).isSome ↔ (s.get (bucketRowKey b)).isSome := by
  rw [hs.get_bucket, hT.buckets b]
  cases m b <;> simp

variable {b : Bytes}

/-- The rows under a bucket's upload prefix are its uploads and their
parts. -/
theorem Typed.of_mem_bucketUploads (hs : Typed s) (hb : 0 ∉ b) {r : Bytes × Record}
    (h : r ∈ s.rowsUnder (uploadsScanPrefix b)) :
    ∃ k uid, 0 ∉ k ∧ (uploadAt s b k uid ≠ none ∨ partList s b k uid ≠ []) := by
  rcases hs.uploadRow_of_mem hb h with ⟨k, uid, u, hk, rfl⟩ | ⟨k, uid, n, pr, hk, rfl⟩
  · have hlook : look s (.upload b k uid) = some (.uploadRecord u) :=
      (SortedKV.mem_rowsUnder.mp h).1
    refine ⟨k, uid, hk, Or.inl ?_⟩
    simp [uploadAt, hlook, Record.upload?]
  · have hlook : look s (.part b k uid n) = some (.partRecord pr) := (SortedKV.mem_rowsUnder.mp h).1
    have hn : pr.partNumber = n := hs.holds (r := .part b k uid n) ⟨hb, hk⟩ hlook
    refine ⟨k, uid, hk, Or.inr (List.ne_nil_of_mem (a := pr) ?_)⟩
    rw [hs.mem_partList hb hk, hn]
    exact Option.bind_eq_some_iff.mpr ⟨_, hlook, rfl⟩

variable (hT : Tracks m s) (hs : Typed s)

include hT hs

theorem Tracks.versionRows_empty_iff {B : Bucket} (hB : m b = some B) :
    s.rowsUnder (bucketVersionsScanPrefix b) = [] ↔ ∀ k, B.objects k = [] := by
  have hb := hT.plain_of_some hs hB
  constructor
  · intro hrows k
    by_contra hne
    have hk : 0 ∉ k := by
      intro hmem
      exact hne ((versions_of_some hB).symm.trans (hT.plainKeys hmem).1)
    obtain ⟨e, he⟩ := List.exists_mem_of_ne_nil _ hne
    have hlist : e ∈ versionList s b k := by
      rw [hT.versions hb hk, versions_of_some hB]
      exact List.mem_reverse.mpr he
    have hrow := mem_bucketVersionRows ((hs.mem_versionList hb hk).mp hlist)
    rw [hrows] at hrow
    exact List.not_mem_nil hrow
  · intro hempty
    rw [List.eq_nil_iff_forall_not_mem]
    intro r hr
    obtain ⟨k, e, -, hk, hver⟩ := hs.of_mem_bucketVersions hb hr
    have hlist := (hs.mem_versionList hb hk).mpr hver
    rw [hT.versions hb hk, versions_of_some hB, hempty] at hlist
    exact List.not_mem_nil hlist

theorem Tracks.uploadRows_empty_iff {B : Bucket} (hB : m b = some B) :
    s.rowsUnder (uploadsScanPrefix b) = [] ↔ ∀ k uid, B.uploads k uid = none := by
  have hb := hT.plain_of_some hs hB
  constructor
  · intro hrows k uid
    by_contra hne
    have hk : 0 ∉ k := by
      intro hmem
      exact hne ((upload_of_some hB).symm.trans ((hT.plainKeys hmem).2 uid))
    obtain ⟨u, hu⟩ := Option.ne_none_iff_exists'.mp hne
    have hup := hT.uploads hb hk uid
    rw [upload_of_some hB, hu] at hup
    obtain ⟨v, hv, -⟩ := Option.bind_eq_some_iff.mp hup
    have hrow : (uploadRowKey b k uid, v) ∈ s.rowsUnder (uploadsScanPrefix b) := by
      refine SortedKV.mem_rowsUnder.mpr ⟨hv, k ++ 0 :: uid.bytes, ?_⟩
      simp [uploadsScanPrefix, uploadRowKey]
    rw [hrows] at hrow
    exact List.not_mem_nil hrow
  · intro hempty
    rw [List.eq_nil_iff_forall_not_mem]
    intro r hr
    obtain ⟨k, uid, hk, hrow⟩ := hs.of_mem_bucketUploads hb hr
    rw [hT.uploads hb hk, hT.parts hb hk, upload_of_some hB, hempty] at hrow
    simp at hrow

theorem deleteBucket_matches (p : DeleteBucket) :
    Matches (fun _ => .nil) (m.deleteBucket p) ((applyDeleteBucket p).eval s) := by
  have hrow := hT.isSome_bucketRow hs p.bucket
  rw [applyDeleteBucket, eval_get_bind, eval_failIf_bind]
  cases hB : m p.bucket with
  | none =>
    rw [hB] at hrow
    have hmodel : m.deleteBucket p = .error .noSuchBucket := by
      rw [Model.deleteBucket, Model.require, hB]
      rfl
    rw [if_pos (by simpa using hrow.not), hmodel]
    rfl
  | some B =>
    rw [hB] at hrow
    have hsome : (s.get (bucketRowKey p.bucket)).isSome := hrow.mp rfl
    have hversions := hT.versionRows_empty_iff hs hB
    have huploads := hT.uploadRows_empty_iff hs hB
    have hfull : ¬ B.IsEmpty → m.deleteBucket p = .error .bucketNotEmpty := by
      intro hnot
      simp [Model.deleteBucket, Model.require, hB, S3.refuse, hnot, bind, Except.bind]
    rw [if_neg (by simpa using Option.ne_none_iff_isSome.mpr hsome),
      eval_read_bind s _ (hasRowUnder_eq s _), eval_failIf_bind]
    by_cases hv : s.rowsUnder (bucketVersionsScanPrefix p.bucket) = []
    · rw [hv, if_neg (by simp), eval_read_bind s _ (hasRowUnder_eq s _), eval_failIf_bind]
      by_cases hu : s.rowsUnder (uploadsScanPrefix p.bucket) = []
      · have hempty : B.IsEmpty := ⟨hversions.mp hv, huploads.mp hu⟩
        have hmodel : m.deleteBucket p = .ok (.nil, m.set p.bucket none) := by
          simp [Model.deleteBucket, Model.require, hB, S3.refuse, hempty, bind, Except.bind,
            pure, Except.pure]
        rw [hu, if_neg (by simp), hmodel]
        refine Matches.done rfl (hT.deleteBucket hs (fun k => ?_) (fun k uid => ?_))
        · rw [versions_of_some hB]
          exact hempty.1 k
        · rw [upload_of_some hB]
          exact hempty.2 k uid
      · rw [if_pos (by simpa using hu), hfull (fun h => hu (huploads.mpr h.2))]
        rfl
    · rw [if_pos (by simpa using hv), hfull (fun h => hv (hversions.mpr h.1))]
      rfl

theorem createBucket_matches (p : CreateBucket) :
    Matches (fun _ => .nil) (m.createBucket p) ((applyCreateBucket p).eval s) := by
  refine Matches.validate (fun _ hname => ?_)
  rw [eval_get_bind]
  refine Matches.refuse (hT.isSome_bucketRow hs p.bucket) (fun hnew => ?_)
  have hnone : m p.bucket = none := by simpa using hnew
  refine Matches.done rfl (hT.setBucket hs (zero_notMem_of_validateBucketName hname) ?_ ?_ ?_)
  · intro k
    simp [Model.versions, hnone]
  · intro k uid
    simp [Model.upload, hnone]
  · refine ⟨?_, ?_, ?_⟩
    · intro hlock
      exact if_pos hlock
    · intro _ k e he
      exact absurd he List.not_mem_nil
    · intro _ k e he
      exact absurd he List.not_mem_nil

theorem setBucketVersioning_matches (p : SetBucketVersioning) :
    Matches (fun _ => .nil) (m.setBucketVersioning p) ((applySetBucketVersioning p).eval s) := by
  refine Matches.require hT hs (fun B hB => ?_)
  refine Matches.refuse Iff.rfl (fun hstate => ?_)
  refine Matches.refuse Iff.rfl (fun hsuspend => ?_)
  have hunlocked := hT.unlocked hB
  refine Matches.done rfl (hT.setBucket hs (hT.plain_of_some hs hB)
    (fun k => (versions_of_some hB).symm) (fun k uid => (upload_of_some hB).symm)
    ⟨fun hlock => ?_, hunlocked.noNull, hunlocked.noLock⟩)
  by_contra hne
  have hsusp : p.state = versioningSuspended := by
    by_contra hnot
    exact hstate ⟨hne, hnot⟩
  exact hsuspend ⟨hsusp, hlock⟩

end BucketOps

/-! ## Commits -/

variable {e : VersionEntry}

section Commits

variable {n : Nat} {m : Model} {s : Store} {b k : Bytes} {B : Bucket}

theorem bumpedID_reverse (minted : VersionID) (l : List VersionEntry) :
    bumpedID minted l.reverse.head? = S3.newID minted l := by
  rw [List.head?_reverse]
  unfold bumpedID S3.newID
  cases l.getLast? with
  | none => rfl
  | some e =>
    dsimp only
    by_cases hlt : e.versionID.toNat < minted.toNat
    · rw [if_neg, if_pos hlt]
      rw [VersionID.compare_le_zero_iff]
      omega
    · rw [if_pos, if_neg hlt]
      rw [VersionID.compare_le_zero_iff]
      omega

theorem Tracks.versionList_eq (hT : Tracks m s) (hs : Typed s) (hB : m b = some B) (hk : 0 ∉ k) :
    versionList s b k = (B.objects k).reverse := by
  rw [hT.versions (hT.plain_of_some hs hB) hk, versions_of_some hB]

theorem Tracks.newID_eq (hT : Tracks m s) (hs : Typed s) (hB : m b = some B) (hk : 0 ∉ k)
    (minted : VersionID) :
    bumpedID minted (versionList s b k).head? = S3.newID minted (B.objects k) := by
  rw [hT.versionList_eq hs hB hk, bumpedID_reverse]

theorem Base.nullVersion_iff (hs : Base s) (hb : 0 ∉ b) (hk : 0 ∉ k) {e₀ : VersionEntry}
    (hnull : nullEntry s b k = some e₀) (he : e ∈ versionList s b k) :
    e.nullVersion = true ↔ e.versionID = e₀.versionID := by
  have hver := (hs.typed.mem_versionList hb hk).mp he
  have hver₀ := (hs.typed.mem_versionList hb hk).mp (List.mem_of_find?_eq_some hnull)
  have hnull₀ : e₀.nullVersion = true := List.find?_some hnull
  constructor
  · exact fun h => hs.oneNull hver hver₀ h hnull₀
  · intro hid
    rw [hid, hver₀] at hver
    cases hver
    exact hnull₀

theorem Base.versionList_commitBase (hs : Base s) (hb : 0 ∉ b) (hk : 0 ∉ k) (isNull : Bool) :
    versionList (commitBase s b k isNull) b k =
      if isNull then S3.dropNulls (versionList s b k) else versionList s b k := by
  cases isNull with
  | false => rfl
  | true =>
    rw [commitBase, if_pos rfl, if_pos rfl, dropNull, S3.dropNulls]
    cases hnull : nullEntry s b k with
    | none =>
      refine (List.filter_eq_self.mpr (fun e he => ?_)).symm
      simpa using List.find?_eq_none.mp hnull e he
    | some e₀ =>
      refine (hs.typed.versionList_delete hb hk _).trans (List.filter_congr (fun e he => ?_))
      simp [← hs.nullVersion_iff hb hk hnull he]

theorem Base.filter_null (hs : Base s) (hb : 0 ∉ b) (hk : 0 ∉ k) :
    (versionList s b k).filter VersionEntry.nullVersion = (nullEntry s b k).toList := by
  cases hnull : nullEntry s b k with
  | none =>
    refine List.filter_eq_nil_iff.mpr (fun e he => ?_)
    simpa using List.find?_eq_none.mp hnull e he
  | some e₀ =>
    have hmem := List.mem_of_find?_eq_some hnull
    refine eq_of_sorted_of_mem_iff ((hs.typed.versionList_sorted hb hk).filter _)
      (List.pairwise_singleton ..) (fun e => ?_)
    rw [List.mem_filter, Option.toList_some, List.mem_singleton]
    constructor
    · rintro ⟨he, hn⟩
      have hver := (hs.typed.mem_versionList hb hk).mp he
      rw [(hs.nullVersion_iff hb hk hnull he).mp hn,
        (hs.typed.mem_versionList hb hk).mp hmem] at hver
      exact (Option.some.inj hver).symm
    · rintro rfl
      exact ⟨hmem, List.find?_some hnull⟩

theorem Refines.dropped_eq (h : Refines n m s) (hB : m b = some B) (hk : 0 ∉ k) (isNull : Bool) :
    replacedIDs s b k isNull = S3.dropped (B.objects k) isNull := by
  have hb := h.tracks.plain_of_some h.sound.base.typed hB
  cases isNull with
  | false => rfl
  | true =>
    have hfilter := h.sound.base.filter_null hb hk
    rw [h.tracks.versionList_eq h.sound.base.typed hB hk, List.filter_reverse,
      List.reverse_eq_iff] at hfilter
    rw [replacedIDs, if_pos rfl, S3.dropped, if_pos rfl, hfilter]
    cases nullEntry s b k with
    | none => rfl
    | some e => simp

theorem lockedAt_of_free (hhold : e.legalHold = false) (hmode : e.retentionMode = retentionNone)
    (t : Int64) (bypass : Bool) : e.lockedAt t bypass = false := by
  have hc : retentionNone ≠ retentionCompliance := by decide
  have hg : retentionNone ≠ retentionGovernance := by decide
  simp [VersionEntry.lockedAt, hhold, hmode, hc, hg]

theorem Refines.null_unlocked (h : Refines n m s) (hB : m b = some B) (hk : 0 ∉ k)
    (he : e ∈ nullEntry s b k) (t : Int64) (bypass : Bool) : e.lockedAt t bypass = false := by
  have hnull : e.nullVersion = true := List.find?_some he
  have hmem : e ∈ B.objects k := by
    have hlist := List.mem_of_find?_eq_some he
    rw [h.tracks.versionList_eq h.sound.base.typed hB hk] at hlist
    exact List.mem_reverse.mp hlist
  have hunlocked := h.tracks.unlocked hB
  cases hlock : B.lockEnabled with
  | true =>
    rw [hunlocked.noNull hlock k e hmem] at hnull
    cases hnull
  | false =>
    obtain ⟨hhold, hmode⟩ := hunlocked.noLock hlock k e hmem
    exact lockedAt_of_free hhold hmode t bypass

theorem Refines.commit (h : Refines n m s) (hn : n < 2 ^ 79) (hB : m b = some B) (hk : 0 ∉ k)
    {minted : VersionID} (hid : e.versionID = S3.newID minted (B.objects k))
    (hnull : B.lockEnabled = true → e.nullVersion = false)
    (hfree : B.lockEnabled = false → e.legalHold = false ∧ e.retentionMode = retentionNone) :
    Tracks (m.set b (some (B.setVersions k (S3.append (B.objects k) e))))
      (commitStore s b k e) := by
  have hs := h.sound.base.typed
  have hb := h.tracks.plain_of_some hs hB
  have hs' := typed_commitStore hs hb hk e
  have hlist := h.tracks.versionList_eq hs hB hk
  have hnew : ∀ {vid e'}, versionAt s b k vid = some e' → vid.toNat < e.versionID.toNat := by
    intro vid e' hver
    rw [hid, ← h.tracks.newID_eq hs hB hk]
    exact h.sound.fresh.lt_bumpedID hn hs hb hk minted hver
  refine h.tracks.setVersions hs hs' hB hk (fun b' => bucketAt_commitStore b k b' e) ?_ ?_
    (sameUploads_commitStore b k e) ?_
  · rw [hs.versionList_commitStore hb hk hnew, h.sound.base.versionList_commitBase hb hk, hlist,
      S3.append, S3.dropNulls, S3.dropNulls, List.reverse_append, List.reverse_singleton]
    cases e.nullVersion with
    | false => rfl
    | true => simp [List.filter_reverse]
  · intro b' k' hb' hk' hne
    exact hs.versionList_congr hs' hb' hk' (versionAt_commitStore_of_ne hb hk hb' hk' hne e)
  · have hunlocked := h.tracks.unlocked hB
    -- the new list holds old entries and the new one
    have hmem : ∀ k' e', e' ∈ (B.setVersions k (S3.append (B.objects k) e)).objects k' →
        e' = e ∨ e' ∈ B.objects k' := by
      intro k' e' he'
      rw [setVersions_objects] at he'
      split at he'
      · rename_i heq
        rw [heq]
        rw [S3.append, List.mem_append, List.mem_singleton] at he'
        rcases he' with he' | rfl
        · right
          split at he'
          · exact (List.mem_filter.mp he').1
          · exact he'
        · exact Or.inl rfl
      · exact Or.inr he'
    refine ⟨hunlocked.enabled, ?_, ?_⟩
    · intro hlock k' e' he'
      rcases hmem k' e' he' with rfl | he'
      · exact hnull hlock
      · exact hunlocked.noNull hlock k' e' he'
    · intro hlock k' e' he'
      rcases hmem k' e' he' with rfl | he'
      · exact hfree hlock
      · exact hunlocked.noLock hlock k' e' he'

theorem putObject_matches (h : Refines n m s) (hn : n < 2 ^ 79) (p : PutObject) :
    Matches .put (m.putObject p) ((applyPutObject p).eval s) := by
  have hs := h.sound.base.typed
  refine Matches.require h.tracks hs (fun B hB => ?_)
  refine Matches.validate (fun _ hkey => ?_)
  refine Matches.refuse Iff.rfl (fun hplain => ?_)
  refine Matches.refuse Iff.rfl (fun _ => ?_)
  have hb := h.tracks.plain_of_some hs hB
  have hk := zero_notMem_of_validateObjectKey hkey
  rw [eval_read_bind s _ (hs.newestVersion_eq hb hk), h.tracks.newID_eq hs hB hk,
    putEntry_config, eval_bind,
    hs.eval_replaceNullVersion hb hk (fun _ e he => h.null_unlocked hB hk he _ _)]
  simp only [eval_set_bind, eval_pure]
  refine Matches.done ?_ (h.commit hn hB hk rfl ?_ ?_)
  · rw [h.dropped_eq hB hk]
  · intro hlock
    have henabled := (h.tracks.unlocked hB).enabled hlock
    simp [S3.stored, henabled]
  · intro hlock
    have hnone : p.retentionMode = retentionNone ∧ p.legalHold = false := by
      simpa [hlock] using hplain
    exact ⟨hnone.2, hnone.1⟩

theorem S3.Bucket.Unlocked.setVersions_of_subset (hB : B.Unlocked) {l : List VersionEntry}
    (hl : ∀ e ∈ l, e ∈ B.objects k) : (B.setVersions k l).Unlocked := by
  have hmem : ∀ k' e, e ∈ (B.setVersions k l).objects k' → e ∈ B.objects k' := by
    intro k' e he
    rw [setVersions_objects] at he
    split at he
    · rename_i heq
      rw [heq]
      exact hl e he
    · exact he
  exact ⟨hB.enabled, fun hlock k' e he => hB.noNull hlock k' e (hmem k' e he),
    fun hlock k' e he => hB.noLock hlock k' e (hmem k' e he)⟩

theorem deleteUnversioned_matches (h : Refines n m s) {p : DeleteObject}
    (hB : m p.bucket = some B) (hk : 0 ∉ p.key) (hun : B.versioning = unversioned) :
    Matches .deleteObject
      (match (B.objects p.key).getLast? with
        | none => .ok (.deleteObject {}, m)
        | some e => .ok (.deleteObject { removed := true, removedDataIDs := e.dataIDs },
            m.set p.bucket (some (B.setVersions p.key []))))
      ((deleteUnversioned p).eval s) := by
  have hs := h.sound.base.typed
  have hb := h.tracks.plain_of_some hs hB
  have hcfg : bucketAt s p.bucket = some (B.config p.bucket) := by
    rw [h.tracks.buckets, hB]
    rfl
  have hhead : (versionList s p.bucket p.key).head? = (B.objects p.key).getLast? := by
    rw [h.tracks.versionList_eq hs hB hk, List.head?_reverse]
  rw [deleteUnversioned, eval_read_bind s _ (hs.newestVersion_eq hb hk), hhead]
  cases hlast : (B.objects p.key).getLast? with
  | none => exact Matches.done rfl h.tracks
  | some e =>
    have hunlocked := h.tracks.unlocked hB
    have hlock : B.lockEnabled = false := by
      by_contra hne
      have henabled := hunlocked.enabled (by simpa using hne)
      exact absurd (hun.symm.trans henabled) (by decide)
    obtain ⟨hhold, hmode⟩ := hunlocked.noLock hlock p.key e (List.mem_of_getLast? hlast)
    have hmem : e ∈ versionList s p.bucket p.key := by
      rw [hlast] at hhead
      exact List.mem_of_mem_head? hhead
    have hdel := hs.delete (versionRowKey p.bucket p.key e.versionID)
    have hput := typed_putCurrent hdel hb hk none
    have hcongr : ∀ {b' k'}, 0 ∉ b' → 0 ∉ k' →
        versionList (putCurrent (s.delete (versionRowKey p.bucket p.key e.versionID))
          p.bucket p.key none) b' k' =
        versionList (s.delete (versionRowKey p.bucket p.key e.versionID)) b' k' :=
      fun hb' hk' => hdel.versionList_congr hput hb' hk' (fun _ => versionAt_putCurrent none)
    dsimp only
    rw [eval_failIf_bind, if_neg (by simp [lockedAt_of_free hhold hmode])]
    simp only [eval_delete_bind, eval_pure]
    refine Matches.done rfl (h.tracks.setVersions hs hput hB hk ?_ ?_ ?_ ?_
      (hunlocked.setVersions_of_subset (by simp)))
    · intro b'
      rw [bucketAt_putCurrent, bucketAt_delete_version]
    · rw [hcongr hb hk, h.sound.base.versionList_delete_only hk hcfg hun hmem]
      rfl
    · intro b' k' hb' hk' hne
      rw [hcongr hb' hk', hs.versionList_delete_of_ne hb hk hb' hk' hne]
    · exact (sameUploads_delete (head?_versionRowKey _ _ _)).trans
        (sameUploads_putCurrent _ _ none)

theorem deleteObject_matches (h : Refines n m s) (hn : n < 2 ^ 79) (p : DeleteObject) :
    Matches .deleteObject (m.deleteObject p) ((applyDeleteObject p).eval s) := by
  refine Matches.require h.tracks h.sound.base.typed (fun B hB => ?_)
  refine Matches.validate (fun _ hkey => ?_)
  have hk := zero_notMem_of_validateObjectKey hkey
  by_cases hun : B.versioning = unversioned
  · have hcfg : (B.config p.bucket).versioning = unversioned := hun
    rw [if_pos hcfg]
    dsimp only
    rw [if_pos hun]
    exact deleteUnversioned_matches h hB hk hun
  · have hcfg : ¬ (B.config p.bucket).versioning = unversioned := hun
    rw [if_neg hcfg]
    dsimp only
    have hs := h.sound.base.typed
    have hb := h.tracks.plain_of_some hs hB
    rw [if_neg hun, insertMarker, eval_read_bind s _ (hs.newestVersion_eq hb hk),
      h.tracks.newID_eq hs hB hk, markerEntry_config, eval_bind,
      hs.eval_replaceNullVersion hb hk (fun _ e he => h.null_unlocked hB hk he _ _)]
    simp only [eval_set_bind, eval_delete_bind, eval_pure]
    refine Matches.done ?_ (h.commit hn hB hk rfl ?_ (fun _ => ⟨rfl, rfl⟩))
    · rw [h.dropped_eq hB hk]
    · intro hlock
      have henabled := (h.tracks.unlocked hB).enabled hlock
      simp only [S3.marker, henabled]
      decide

theorem Refines.versions_eq_nil (h : Refines n m s) (hname : ¬ (0 ∉ b ∧ 0 ∉ k)) :
    m.versions b k = [] := by
  by_cases hk : 0 ∈ k
  · exact (h.tracks.plainKeys hk).1
  · cases hB : m b with
    | none => simp [Model.versions, hB]
    | some B => exact absurd ⟨h.tracks.plain_of_some h.sound.base.typed hB, hk⟩ hname

theorem Refines.mem_versions (h : Refines n m s) :
    e ∈ m.versions b k ↔ versionAt s b k e.versionID = some e := by
  have hs := h.sound.base.typed
  by_cases hname : 0 ∉ b ∧ 0 ∉ k
  · rw [← hs.mem_versionList hname.1 hname.2, h.tracks.versions hname.1 hname.2,
      List.mem_reverse]
  · rw [h.versions_eq_nil hname]
    constructor
    · intro he
      cases he
    · intro hver
      obtain ⟨hb, hk, -⟩ := hs.of_versionAt hver
      exact absurd ⟨hb, hk⟩ hname

theorem Refines.find?_eq_versionAt (h : Refines n m s) (b k : Bytes) (vid : VersionID) :
    (m.versions b k).find? (fun e => e.versionID = vid) = versionAt s b k vid := by
  refine Option.ext (fun e => ⟨fun hfind => ?_, fun hver => ?_⟩)
  · have hid : e.versionID = vid := by simpa using List.find?_some hfind
    rw [← hid]
    exact h.mem_versions.mp (List.mem_of_find?_eq_some hfind)
  · obtain ⟨-, -, rfl⟩ := h.sound.base.typed.of_versionAt hver
    obtain ⟨e', hfind⟩ : ∃ e', (m.versions b k).find? (fun e' => e'.versionID = e.versionID) =
        some e' :=
      Option.isSome_iff_exists.mp
        (List.find?_isSome.mpr ⟨e, h.mem_versions.mpr hver, decide_eq_true rfl⟩)
    have hid : e'.versionID = e.versionID := by simpa using List.find?_some hfind
    have hver' := h.mem_versions.mp (List.mem_of_find?_eq_some hfind)
    rw [hid, hver] at hver'
    rw [hfind, hver']

theorem Typed.versionList_removeStore (hs : Typed s) (hb : 0 ∉ b) (hk : 0 ∉ k)
    {b' k' : Bytes} (hb' : 0 ∉ b') (hk' : 0 ∉ k') (e : VersionEntry) :
    versionList (removeStore s b k e) b' k' =
      versionList (s.delete (versionRowKey b k e.versionID)) b' k' := by
  have hdel := hs.delete (versionRowKey b k e.versionID)
  unfold removeStore
  dsimp only
  split
  · exact hdel.versionList_congr (typed_putCurrent hdel hb hk _) hb' hk'
      (fun _ => versionAt_putCurrent _)
  · rfl

theorem deleteVersion_matches (h : Refines n m s) (p : DeleteVersion) :
    Matches .deleteVersion (m.deleteVersion p) ((applyDeleteVersion p).eval s) := by
  have hs := h.sound.base.typed
  refine Matches.require h.tracks hs (fun B hB => ?_)
  refine Matches.validate (fun _ hkey => ?_)
  have hb := h.tracks.plain_of_some hs hB
  have hk := zero_notMem_of_validateObjectKey hkey
  have hfind := h.find?_eq_versionAt p.bucket p.key p.versionID
  rw [versions_of_some hB] at hfind
  dsimp only
  rw [eval_get_bind, hfind, hs.get_version]
  cases hver : versionAt s p.bucket p.key p.versionID with
  | none => exact Matches.done rfl h.tracks
  | some e =>
    have hid := (hs.of_versionAt hver).2.2
    dsimp only [Option.map_some]
    rw [eval_check_bind s _ (show Record.asVersionEntry (.versionEntry e) = .ok e from rfl)]
    refine Matches.refuse locked_iff (fun _ => ?_)
    have hdel := hs.delete (versionRowKey p.bucket p.key e.versionID)
    rw [eval_read_bind s _ (hs.newestVersion_eq hb hk), eval_delete_bind, eval_bind,
      hdel.eval_refreshIfNewest hb hk]
    simp only [decide_eq_true_eq, eval_pure]
    have hremoved : Tracks (m.set p.bucket (some (B.setVersions p.key
        ((B.objects p.key).filter (fun e => e.versionID ≠ p.versionID)))))
        (removeStore s p.bucket p.key e) := by
      refine h.tracks.setVersions hs (typed_removeStore hs hb hk e) hB hk
        (fun b' => bucketAt_removeStore _ _ b' e) ?_ ?_ (sameUploads_removeStore _ _ e)
        ((h.tracks.unlocked hB).setVersions_of_subset
          (fun e' he' => (List.mem_filter.mp he').1))
      · rw [hs.versionList_removeStore hb hk hb hk, hs.versionList_delete hb hk,
          h.tracks.versionList_eq hs hB hk, hid, List.filter_reverse]
      · intro b' k' hb' hk' hne
        rw [hs.versionList_removeStore hb hk hb' hk',
          hs.versionList_delete_of_ne hb hk hb' hk' hne]
    exact Matches.done rfl hremoved

end Commits

/-! ## Uploads -/

section UploadOps

variable {n : Nat} {m : Model} {s : Store} {b k : Bytes} {uid : VersionID} {B : Bucket}

section

variable (hT : Tracks m s) (hs : Typed s) (hB : m b = some B) (hk : 0 ∉ k)

include hT hs hB hk

theorem Tracks.uploadAt_eq (uid : VersionID) :
    uploadAt s b k uid = (B.uploads k uid).map (fun u => u.record uid) := by
  rw [hT.uploads (hT.plain_of_some hs hB) hk, upload_of_some hB]

theorem Tracks.partList_eq (uid : VersionID) :
    partList s b k uid = ((B.uploads k uid).map Upload.parts).getD [] := by
  rw [hT.parts (hT.plain_of_some hs hB) hk, upload_of_some hB]

theorem Tracks.isSome_uploadRow (uid : VersionID) :
    (B.uploads k uid).isSome ↔ (s.get (uploadRowKey b k uid)).isSome := by
  rw [hs.get_upload (hT.plain_of_some hs hB) hk, hT.uploadAt_eq hs hB hk uid]
  cases B.uploads k uid <;> simp

end

variable {f : Upload → Except MetaError (ApplyResult × Model)}

theorem Matches.uploadRow {α : Type} {wrap : α → ApplyResult} (hT : Tracks m s) (hs : Typed s)
    (hB : m b = some B) (hk : 0 ∉ k) {g : Unit → Tx α}
    (h : ∀ u, B.uploads k uid = some u → Matches wrap (f u) ((g ()).eval s)) :
    Matches wrap (B.requireUpload k uid >>= f)
      ((Tx.get (uploadRowKey b k uid) >>= fun row =>
        failIf row.isNone .noSuchUpload >>= g).eval s) := by
  have hrow := hT.isSome_uploadRow hs hB hk uid
  rw [eval_get_bind, eval_failIf_bind, S3.Bucket.requireUpload]
  cases hu : B.uploads k uid with
  | none =>
    rw [hu] at hrow
    rw [if_pos (by simpa using hrow)]
    rfl
  | some u =>
    rw [hu] at hrow
    have hsome : (s.get (uploadRowKey b k uid)).isSome := hrow.mp rfl
    rw [if_neg (by simpa using Option.ne_none_iff_isSome.mpr hsome)]
    exact h u hu

theorem Tracks.addUpload (hT : Tracks m s) (hs : Typed s) (hB : m b = some B) (hk : 0 ∉ k)
    (hnone : B.uploads k uid = none) {u : Upload} (hparts : u.parts = []) :
    Tracks (m.set b (some (B.setUpload k uid (some u))))
      (s.set (uploadRowKey b k uid) (.uploadRecord (u.record uid))) := by
  have hplain : (RowKey.upload b k uid).Plain := ⟨hT.plain_of_some hs hB, hk⟩
  have hs' := hs.set (r := .upload b k uid) (v := .uploadRecord (u.record uid)) hplain rfl
  refine hT.setUpload hs hs' hB hk (sameHistory_set (outside_uploadRowKey b k uid) _) ?_ ?_
    (sameBut_set (r := .upload b k uid) hplain ⟨rfl, rfl, rfl⟩ _)
  · simp [uploadAt, look, RowKey.encode, Record.upload?]
  · -- no part row is there before its upload
    have hempty := hT.partList_eq hs hB hk uid
    rw [hnone] at hempty
    refine (hs.partList_congr hs' hplain.1 hk (fun i => ?_)).trans (hempty.trans ?_)
    · exact congrArg (·.bind Record.part?)
        ((look_set _ (.part b k uid i) hplain hplain _).trans (if_neg (by simp)))
    · simp [hparts]

theorem createMultipartUpload_matches (hT : Tracks m s) (hs : Typed s)
    (p : CreateMultipartUpload) :
    Matches (fun _ => .nil) (m.createMultipartUpload p)
      ((applyCreateMultipartUpload p).eval s) := by
  refine Matches.require hT hs (fun B hB => ?_)
  refine Matches.validate (fun _ hkey => ?_)
  have hk := zero_notMem_of_validateObjectKey hkey
  rw [eval_get_bind]
  refine Matches.refuse (hT.isSome_uploadRow hs hB hk p.uploadID) (fun hnew => ?_)
  exact Matches.done rfl (hT.addUpload hs hB hk (by simpa using hnew) rfl)

theorem Typed.partList_set (hs : Typed s) (hb : 0 ∉ b) (hk : 0 ∉ k) (pr : PartRecord) :
    partList (s.set (partRowKey b k uid pr.partNumber) (.partRecord pr)) b k uid =
      S3.putPart (partList s b k uid) pr := by
  have hplain : (RowKey.part b k uid pr.partNumber).Plain := ⟨hb, hk⟩
  have hs' := hs.set (r := .part b k uid pr.partNumber) (v := .partRecord pr) hplain rfl
  have hsorted : (partList s b k uid).Pairwise
      (fun p q => p.partNumber.toNat < q.partNumber.toNat) := hs.partList_sorted hb hk
  refine hs'.partList_eq hb hk ?_ (fun q => ?_)
  · rw [S3.putPart, List.pairwise_append, List.pairwise_cons]
    refine ⟨hsorted.filter _, ⟨?_, hsorted.filter _⟩, ?_⟩
    · intro q hq
      simpa using (List.mem_filter.mp hq).2
    · intro q hq q' hq'
      have hlt : q.partNumber.toNat < pr.partNumber.toNat := by
        simpa using (List.mem_filter.mp hq).2
      rcases List.mem_cons.mp hq' with rfl | hq'
      · exact hlt
      · have hlt' : pr.partNumber.toNat < q'.partNumber.toNat := by
          simpa using (List.mem_filter.mp hq').2
        omega
  · have hview : partAt (s.set (RowKey.part b k uid pr.partNumber).encode (.partRecord pr))
        b k uid q.partNumber =
          if q.partNumber = pr.partNumber then some pr else partAt s b k uid q.partNumber := by
      rw [partAt, look_set _ (.part b k uid q.partNumber) hplain ⟨hb, hk⟩]
      by_cases hnum : q.partNumber = pr.partNumber <;> simp [hnum, partAt, Record.part?]
    rw [hview, S3.putPart, List.mem_append, List.mem_cons, List.mem_filter, List.mem_filter,
      hs.mem_partList hb hk]
    by_cases hnum : q.partNumber = pr.partNumber
    · simp [hnum, eq_comm]
    · have hne : q ≠ pr := fun h => hnum (congrArg PartRecord.partNumber h)
      have hnat : q.partNumber.toNat ≠ pr.partNumber.toNat :=
        fun h => hnum (UInt32.toNat_inj.mp h)
      rw [if_neg hnum]
      simp only [hne, false_or, decide_eq_true_eq]
      constructor
      · rintro (h | h)
        · exact h.1
        · exact h.1
      · intro h
        rcases Nat.lt_or_gt_of_ne hnat with hlt | hgt
        · exact Or.inl ⟨h, hlt⟩
        · exact Or.inr ⟨h, hgt⟩

section

variable (hT : Tracks m s) (hs : Typed s)

include hT hs

theorem Tracks.addPart (hB : m b = some B) (hk : 0 ∉ k) {u : Upload} (hu : B.uploads k uid = some u)
    (pr : PartRecord) :
    Tracks (m.set b (some (B.setUpload k uid (some { u with parts := S3.putPart u.parts pr }))))
      (s.set (partRowKey b k uid pr.partNumber) (.partRecord pr)) := by
  have hplain : (RowKey.part b k uid pr.partNumber).Plain := ⟨hT.plain_of_some hs hB, hk⟩
  have hs' := hs.set (r := .part b k uid pr.partNumber) (v := .partRecord pr) hplain rfl
  have hup := hT.uploadAt_eq hs hB hk uid
  have hparts := hT.partList_eq hs hB hk uid
  rw [hu] at hup hparts
  refine hT.setUpload hs hs' hB hk (sameHistory_set (outside_partRowKey _ _ _ _) _) ?_ ?_
    (sameBut_set (r := .part b k uid pr.partNumber) hplain ⟨rfl, rfl, rfl⟩ _)
  · have hlook := look_set (s := s) (.part b k uid pr.partNumber) (.upload b k uid) hplain hplain
      (.partRecord pr)
    rw [if_neg (by simp)] at hlook
    refine Eq.trans ?_ hup
    unfold uploadAt
    exact congrArg (Option.bind · Record.upload?) hlook
  · refine (hs.partList_set hplain.1 hk pr).trans ?_
    rw [hparts]
    rfl

theorem uploadPart_matches (p : UploadPart) :
    Matches .uploadPart (m.uploadPart p) ((applyUploadPart p).eval s) := by
  refine Matches.require hT hs (fun B hB => ?_)
  refine Matches.validate (fun _ hkey => ?_)
  refine Matches.refuse Iff.rfl (fun _ => ?_)
  have hb := hT.plain_of_some hs hB
  have hk := zero_notMem_of_validateObjectKey hkey
  refine Matches.uploadRow hT hs hB hk (fun u hu => ?_)
  have hparts := hT.partList_eq hs hB hk p.uploadID
  rw [hu] at hparts
  rw [eval_read_bind s _ (getTyped_eq (hs.get_part hb hk _) (fun _ => rfl)), eval_set_bind,
    eval_pure,
    hs.partAt_eq_find? hb hk, hparts]
  exact Matches.done rfl (hT.addPart hs hB hk hu (partRecordFor p))

theorem Tracks.dropUpload (hB : m b = some B) (hk : 0 ∉ k) (uid : VersionID) (ks : List Bytes)
    (honly : ∀ key ∈ ks, key = uploadRowKey b k uid ∨ ∃ i, key = partRowKey b k uid i)
    (hupload : uploadAt s b k uid ≠ none → uploadRowKey b k uid ∈ ks)
    (hparts : ∀ pr ∈ partList s b k uid, partRowKey b k uid pr.partNumber ∈ ks) :
    Tracks (m.set b (some (B.setUpload k uid none))) (ks.foldl SortedKV.delete s) := by
  have hb := hT.plain_of_some hs hB
  have hs' := hs.deleteRows ks
  refine hT.setUpload hs hs' hB hk (sameHistory_deleteRows ?_ s) ?_ ?_ (sameBut_deleteRows ?_)
  · intro key hkey
    rcases honly key hkey with rfl | ⟨i, rfl⟩
    · exact outside_uploadRowKey b k uid
    · exact outside_partRowKey b k uid i
  · rw [uploadAt, look_deleteRows]
    split
    · rfl
    · rename_i hmem
      exact not_ne_iff.mp (fun h => hmem (hupload h))
  · refine hs'.partList_eq hb hk List.Pairwise.nil (fun pr => ?_)
    rw [partAt, look_deleteRows]
    constructor
    · intro h
      cases h
    · intro h
      split at h
      · cases h
      · rename_i hmem
        exact absurd (hparts pr ((hs.mem_partList hb hk).mpr h)) hmem
  · intro key hkey
    rcases honly key hkey with rfl | ⟨i, rfl⟩
    · exact ⟨.upload b k uid, ⟨hb, hk⟩, ⟨rfl, rfl, rfl⟩, rfl⟩
    · exact ⟨.part b k uid i, ⟨hb, hk⟩, ⟨rfl, rfl, rfl⟩, rfl⟩

theorem abortMultipartUpload_matches (p : AbortMultipartUpload) :
    Matches .abort (m.abortMultipartUpload p) ((applyAbortMultipartUpload p).eval s) := by
  refine Matches.require hT hs (fun B hB => ?_)
  refine Matches.validate (fun _ hkey => ?_)
  have hb := hT.plain_of_some hs hB
  have hk := zero_notMem_of_validateObjectKey hkey
  refine Matches.uploadRow hT hs hB hk (fun u hu => ?_)
  have hup := hT.uploadAt_eq hs hB hk p.uploadID
  have hparts := hT.partList_eq hs hB hk p.uploadID
  rw [hu] at hup hparts
  rw [eval_read_bind s _ (uploadParts_eq s _), eval_read_bind s _ (uploadRowKeys_eq s _),
    eval_bind, eval_deleteRows]
  refine Matches.done (congrArg (fun l => ApplyResult.abort ⟨l.map PartRecord.dataID⟩) hparts)
    (hT.dropUpload hs hB hk p.uploadID _ ?_ ?_ ?_)
  · intro key hmem
    obtain ⟨r, hr, rfl⟩ := List.mem_map.mp hmem
    rcases hs.of_mem_uploadRows hb hk hr with ⟨u', rfl⟩ | ⟨pr, rfl⟩
    · exact Or.inl rfl
    · exact Or.inr ⟨pr.partNumber, rfl⟩
  · intro h
    obtain ⟨rec', hrec⟩ := Option.ne_none_iff_exists'.mp h
    obtain ⟨v, hv, -⟩ := Option.bind_eq_some_iff.mp hrec
    exact List.mem_map.mpr ⟨(_, v), SortedKV.mem_rowsUnder.mpr ⟨hv, List.prefix_refl _⟩, rfl⟩
  · intro pr hpr
    have hrow := look_of_partAt ((hs.mem_partList hb hk).mp hpr)
    exact List.mem_map.mpr ⟨(_, _), SortedKV.mem_rowsUnder.mpr ⟨hrow, List.prefix_append _ _⟩, rfl⟩

theorem Matches.upload {α : Type} {wrap : α → ApplyResult} (hB : m b = some B) (hk : 0 ∉ k)
    {g : UploadRecord → Tx α}
    (h : ∀ u, B.uploads k uid = some u → Matches wrap (f u) ((g (u.record uid)).eval s)) :
    Matches wrap (B.requireUpload k uid >>= f) ((requireUpload b k uid >>= g).eval s) := by
  rw [eval, run_bind, hs.run_requireUpload (hT.plain_of_some hs hB) hk,
    hT.uploadAt_eq hs hB hk, S3.Bucket.requireUpload]
  cases hu : B.uploads k uid with
  | none => rfl
  | some u => exact h u hu

end

theorem Refines.commitUpload (h : Refines n m s) (hn : n < 2 ^ 79) (hB : m b = some B) (hk : 0 ∉ k)
    {minted : VersionID} (hid : e.versionID = S3.newID minted (B.objects k))
    (hnull : B.lockEnabled = true → e.nullVersion = false)
    (hfree : B.lockEnabled = false → e.legalHold = false ∧ e.retentionMode = retentionNone)
    {parts : List PartRecord} (hparts : partList s b k uid = parts) :
    Tracks (m.set b (some
        ((B.setVersions k (S3.append (B.objects k) e)).setUpload k uid none)))
      ((uploadRowKey b k uid :: parts.map (fun pr => partRowKey b k uid pr.partNumber)).foldl
        SortedKV.delete (commitStore s b k e)) := by
  have hs := h.sound.base.typed
  have hb := h.tracks.plain_of_some hs hB
  have hs' := typed_commitStore hs hb hk e
  have hcommit := h.commit hn hB hk hid hnull hfree
  have hsame : partList (commitStore s b k e) b k uid = parts := by
    rw [(sameUploads_commitStore b k e).partList_eq hs hs' hb hk, hparts]
  have hdrop := hcommit.dropUpload hs' ((set_apply _).trans (if_pos rfl)) hk uid
    (uploadRowKey b k uid :: parts.map (fun pr => partRowKey b k uid pr.partNumber)) ?_
    (fun _ => List.mem_cons_self) ?_
  · rw [Model.set, Model.set, Function.update_idem] at hdrop
    exact hdrop
  · intro key hmem
    rcases List.mem_cons.mp hmem with rfl | hmem
    · exact Or.inl rfl
    · obtain ⟨pr, -, rfl⟩ := List.mem_map.mp hmem
      exact Or.inr ⟨pr.partNumber, rfl⟩
  · intro pr hpr
    rw [hsame] at hpr
    exact List.mem_cons_of_mem _ (List.mem_map.mpr ⟨pr, hpr, rfl⟩)

theorem completeMultipartUpload_matches (h : Refines n m s) (hn : n < 2 ^ 79)
    (p : CompleteMultipartUpload) :
    Matches .complete (m.completeMultipartUpload p)
      ((applyCompleteMultipartUpload p).eval s) := by
  have hs := h.sound.base.typed
  refine Matches.require h.tracks hs (fun B hB => ?_)
  refine Matches.validate (fun _ hkey => ?_)
  have hb := h.tracks.plain_of_some hs hB
  have hk := zero_notMem_of_validateObjectKey hkey
  refine Matches.upload h.tracks hs hB hk (fun u hu => ?_)
  refine Matches.refuse List.length_eq_zero_iff.symm (fun _ => ?_)
  have hparts : partList s p.bucket p.key p.uploadID = u.parts := by
    rw [h.tracks.partList_eq hs hB hk, hu]
    rfl
  have hinj := hs.partList_inj hb hk p.uploadID
  rw [hparts] at hinj
  have hstored : uploadParts s (uploadRowKey p.bucket p.key p.uploadID) = .ok u.parts :=
    (uploadParts_eq s _).trans (congrArg Except.ok hparts)
  rw [eval_read_bind s _ hstored]
  refine Matches.refuse (by rw [← partsAscend_iff, Bool.not_eq_true]) (fun _ => ?_)
  rw [assembleParts_eq_listed hinj]
  refine Matches.validate (fun parts _ => ?_)
  rw [eval_read_bind s _ (hs.newestVersion_eq hb hk), h.tracks.newID_eq hs hB hk,
    completeEntry_config, eval_bind,
    hs.eval_replaceNullVersion hb hk (fun _ e he => h.null_unlocked hB hk he _ _)]
  simp only [eval_set_bind, eval_delete_bind]
  rw [eval_bind, eval_deleteRows]
  refine Matches.done ?_ (h.commitUpload hn hB hk rfl ?_ (fun _ => ⟨rfl, rfl⟩) hparts)
  · rw [h.dropped_eq hB hk]
  · intro hlock
    have henabled := (h.tracks.unlocked hB).enabled hlock
    simp [S3.assembled, henabled]

end UploadOps

end Hamster.Meta
