import Hamster.CodeLib.Run
import Hamster.Meta.Operations
import Hamster.Meta.Scans

/-!
# The store refines the version-list model

One operation gets the same answer from the store and from the model and
keeps them related (`Refines.step`), so by the simulation rule whole runs
get the same answers.  `Shows` says what a caller can see of the store:
every read function returns what the model says.
-/

namespace Hamster.Meta

open CodeLib Tx

open S3 (Model Bucket Upload)

/-! ## Runs -/

section Runs

variable {n : Nat} {m : Model} {s : Store}

def Answers (m : Model) (x : Except MetaError (ApplyResult × Model)) (s : Store) (p : Proposal) :
    Prop :=
  match x with
  | .ok (r, m') => (applyMem s p).1 = .ok r ∧ Tracks m' (applyMem s p).2
  | .error e => (applyMem s p).1 = .error e ∧ Tracks m (applyMem s p).2

theorem Matches.answers {α : Type} {wrap : α → ApplyResult} {body : Tx α} {p : Proposal}
    {x : Except MetaError (ApplyResult × Model)} (h : Matches wrap x (body.eval s))
    (hT : Tracks m s) (hbody : applyBody p = body >>= fun a => pure (wrap a)) :
    Answers m x s p := by
  have happly := applyMem_eq s p
  rw [hbody, eval_bind] at happly
  unfold Matches at h
  unfold Answers
  match hx : x, heval : body.eval s with
  | .ok (r, m'), (.ok a, s') =>
    rw [heval] at h happly
    rw [happly]
    exact ⟨congrArg Except.ok h.1, h.2⟩
  | .error e, (.error e', s') =>
    rw [heval] at h happly
    rw [happly]
    exact ⟨congrArg Except.error h, hT⟩
  | .ok (r, m'), (.error e', s') =>
    rw [heval] at h
    exact h.elim
  | .error e, (.ok a, s') =>
    rw [heval] at h
    exact h.elim

theorem Refines.answers (h : Refines n m s) (hn : n < 2 ^ 79) (op : S3.Op) :
    Answers m (m.apply op) s op.proposal := by
  have hT := h.tracks
  have hs := h.sound.base.typed
  cases op with
  | createBucket p => exact (createBucket_matches hT hs p).answers hT rfl
  | deleteBucket p => exact (deleteBucket_matches hT hs p).answers hT rfl
  | setBucketVersioning p => exact (setBucketVersioning_matches hT hs p).answers hT rfl
  | putObject p => exact (putObject_matches h hn p).answers hT rfl
  | deleteObject p => exact (deleteObject_matches h hn p).answers hT rfl
  | deleteVersion p => exact (deleteVersion_matches h p).answers hT rfl
  | createMultipartUpload p => exact (createMultipartUpload_matches hT hs p).answers hT rfl
  | uploadPart p => exact (uploadPart_matches hT hs p).answers hT rfl
  | completeMultipartUpload p =>
    exact (completeMultipartUpload_matches h hn p).answers hT rfl
  | abortMultipartUpload p => exact (abortMultipartUpload_matches hT hs p).answers hT rfl

theorem Refines.step (h : Refines n m s) (hn : n < 2 ^ 79) {op : S3.Op}
    (hop : op.proposal.MintsUUIDv7) :
    (applyMem s op.proposal).1 = (m.step op).1 ∧
      Refines (n + 1) (m.step op).2 (applyMem s op.proposal).2 := by
  have hanswers := h.answers hn op
  have hsound := sound_applyMem h.sound hn hop
  unfold Answers at hanswers
  unfold Model.step
  match hx : m.apply op with
  | .ok (r, m') =>
    rw [hx] at hanswers
    exact ⟨hanswers.1, hsound, hanswers.2⟩
  | .error e =>
    rw [hx] at hanswers
    exact ⟨hanswers.1, hsound, hanswers.2⟩

theorem refines_empty : Refines 0 S3.empty newStore where
  sound := sound_newStore
  tracks :=
    { buckets := fun b => by simp [bucketAt, look, newStore, S3.empty]
      versions := fun b k hb hk =>
        typed_newStore.versionList_eq hb hk List.Pairwise.nil
          (by simp [versionAt, look, newStore, Model.versions, S3.empty])
      uploads := fun b k _ _ uid => by
        simp [uploadAt, look, newStore, Model.upload, S3.empty]
      parts := fun b k hb hk uid =>
        typed_newStore.partList_eq hb hk List.Pairwise.nil
          (by simp [partAt, look, newStore, Model.upload, S3.empty])
      plainKeys := fun b k _ => ⟨rfl, fun _ => rfl⟩
      unlocked := fun h => by cases h }

end Runs

/-! ## What a caller sees -/

/-- Every read of the store returns what the model says.  A name that holds
a NUL passes no validation, and a scan under one is not asked for here. -/
structure Shows (m : Model) (s : Store) : Prop where
  getBucket : ∀ b, getBucket s b = .ok ((m b).map (fun B => B.config b))
  listBuckets : ∃ cfgs, m.ListsBuckets cfgs ∧ listBuckets s = .ok cfgs
  listVersions : ∀ b k, 0 ∉ b → 0 ∉ k → listVersions s b k = .ok (m.versions b k).reverse
  getVersion : ∀ b k vid,
    getVersion s b k vid = .ok ((m.versions b k).find? (fun e => e.versionID = vid))
  current : ∀ b k, current s b k = .ok (m.current b k)
  listObjects : ∀ b pre startAfter max, ∃ rows, m.Lists b pre startAfter rows ∧
    listObjects s b pre startAfter max = .ok (cutTo max rows)
  getUpload : ∀ b k uid, 0 ∉ b → 0 ∉ k →
    getUpload s b k uid = .ok ((m.upload b k uid).map (fun u => u.record uid))
  listUploadParts : ∀ b k uid afterPart max, 0 ∉ b → 0 ∉ k →
    listUploadParts s b k uid afterPart max =
      .ok (match m.upload b k uid with
        | none => ([], false)
        | some u => ((partsFrom (afterPart + 1) u.parts).take max.toNat, true))

section Reads

variable {n : Nat} {m : Model} {s : Store} {b k : Bytes}

theorem Refines.currentAt_eq (h : Refines n m s) (b k : Bytes) :
    currentAt s b k = m.current b k := by
  have hs := h.sound.base.typed
  by_cases hname : 0 ∉ b ∧ 0 ∉ k
  · rw [h.sound.indexed hname.1 hname.2, h.tracks.versions hname.1 hname.2]
    cases hlast : (m.versions b k).getLast? with
    | none | some e => simp [derivedCurrent, Model.current, hlast]
  · have hnone : m.current b k = none := by
      rw [Model.current, h.versions_eq_nil hname]
      rfl
    rw [hnone, Option.eq_none_iff_forall_ne_some]
    intro c hc
    exact hname (hs.of_currentAt hc)

theorem Refines.shows (h : Refines n m s) : Shows m s := by
  have hs := h.sound.base.typed
  refine ⟨?_, ?_, ?_, ?_, ?_, ?_, ?_, ?_⟩
  · intro b
    rw [hs.getBucket_eq, h.tracks.buckets]
  · have hn : Named s := by
      intro b cfg hat
      rw [h.tracks.buckets] at hat
      obtain ⟨B, -, rfl⟩ := Option.map_eq_some_iff.mp hat
      rfl
    refine ⟨bucketRows s, ⟨hs.bucketRows_sorted hn, fun cfg => ?_⟩, hs.listBuckets_eq⟩
    rw [hs.mem_bucketRows hn, h.tracks.buckets]
  · intro b k hb hk
    rw [hs.listVersions_eq hb hk, h.tracks.versions hb hk]
  · intro b k vid
    rw [hs.getVersion_eq, h.find?_eq_versionAt]
  · intro b k
    rw [hs.current_eq, h.currentAt_eq]
  · intro b pre startAfter max
    refine ⟨listingRows s b pre startAfter, ⟨hs.listingRows_sorted, ?_⟩,
      hs.listObjects_eq b pre startAfter max⟩
    intro k c
    rw [hs.mem_listingRows, h.currentAt_eq]
  · intro b k uid hb hk
    rw [hs.getUpload_eq hb hk, h.tracks.uploads hb hk]
  · intro b k uid afterPart max hb hk
    rw [hs.listUploadParts_eq hb hk, h.tracks.uploads hb hk, h.tracks.parts hb hk]
    cases m.upload b k uid <;> rfl

end Reads

/-- Along every sequence of operations the store answers as the model does,
with the same result or the same error each time, and every read of the
store it ends in returns what the model says. -/
theorem store_refines_versionLists {ops : List S3.Op}
    (hmint : ∀ op ∈ ops, op.proposal.MintsUUIDv7) (hlen : ops.length ≤ 2 ^ 79) :
    (runOutputs (fun s op => applyMem s op.proposal) newStore ops).1 =
        (runOutputs Model.step S3.empty ops).1 ∧
      Shows (runOutputs Model.step S3.empty ops).2
        (runOutputs (fun s op => applyMem s op.proposal) newStore ops).2 := by
  have hstep : ∀ (n : Nat) (m : Model) (s : Store) (op : S3.Op), n < 2 ^ 79 →
      op.proposal.MintsUUIDv7 → Refines n m s →
      (applyMem s op.proposal).1 = (m.step op).1 ∧
        Refines (n + 1) (m.step op).2 (applyMem s op.proposal).2 :=
    fun _ _ _ _ hn hop h => h.step hn hop
  obtain ⟨hout, hrel⟩ := runOutputs_simulation hstep hmint (n := 0) (by omega) refines_empty
  exact ⟨hout, hrel.shows⟩

/-- A null object, an upload that is completed over it, a marker, and a
delete of the bucket that is refused. -/
def uploadOverObject : List S3.Op :=
  let bucket := [97, 97, 97]
  let key := [107]
  let uid := VersionID.newVersionID 4 0 0
  [ .createBucket ⟨1, bucket, false⟩
  , .putObject { proposedAtUnixMS := 2, bucket := bucket, key := key
                 versionID := VersionID.newVersionID 9 0 0 }
  , .setBucketVersioning ⟨3, bucket, versioningEnabled⟩
  , .createMultipartUpload { proposedAtUnixMS := 4, bucket := bucket, key := key
                             uploadID := uid }
  , .uploadPart { proposedAtUnixMS := 5, bucket := bucket, key := key, uploadID := uid
                  partNumber := 1, dataID := VersionID.newVersionID 5 0 0, size := 7
                  etag := [1] }
  , .completeMultipartUpload { proposedAtUnixMS := 6, bucket := bucket, key := key
                               uploadID := uid, versionID := VersionID.newVersionID 6 0 0
                               parts := [⟨1, [1]⟩], etag := [2] }
  , .deleteObject ⟨7, bucket, key, VersionID.newVersionID 10 0 0⟩
  , .deleteBucket ⟨8, bucket⟩ ]

/-- The identifier minted for the completion is older than the newest one of
the key, so the model bumps it as the store does. -/
theorem store_refines_uploadOverObject :
    (runOutputs Model.step S3.empty uploadOverObject).1 =
        [ .ok .nil, .ok (.put ⟨VersionID.newVersionID 9 0 0, []⟩), .ok .nil, .ok .nil
        , .ok (.uploadPart ⟨VersionID.zero⟩)
        , .ok (.complete ⟨(VersionID.newVersionID 9 0 0).next, []⟩)
        , .ok (.deleteObject { markerCreated := true, markerID := VersionID.newVersionID 10 0 0 })
        , .error .bucketNotEmpty ] ∧
      Shows (runOutputs Model.step S3.empty uploadOverObject).2
        (runOutputs (fun s op => applyMem s op.proposal) newStore uploadOverObject).2 := by
  obtain ⟨hout, hshows⟩ :=
    @store_refines_versionLists uploadOverObject (by decide +kernel) (by decide)
  exact ⟨hout.symm.trans (by decide +kernel), hshows⟩

end Hamster.Meta
