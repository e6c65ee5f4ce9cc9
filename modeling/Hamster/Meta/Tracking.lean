import Hamster.Meta.CurrentIndex
import Hamster.Meta.Listing
import Hamster.Meta.Uploads
import Hamster.Meta.VersionLists

/-!
# Tracking the version-list model

`Tracks` relates a model to a store: the same buckets, the version lists
reversed, the same uploads with their parts.  It also carries two facts about
the model that the store's checks rely on: names with NUL have nothing under
them, and what a null write drops is never locked.

An operation changes one bucket row, one version list or one upload, and
there is one lemma for each.  `Matches` pairs an operation of the model with
the body of the apply function that implements it.  Its rules go through both
in step: fetch the bucket, validate the key, refuse for the same reason.
-/

namespace Hamster.Meta

open CodeLib Tx

namespace S3

/-- A bucket with object lock holds no null versions, and a bucket without it
holds no locked ones. -/
structure Bucket.Unlocked (B : Bucket) : Prop where
  enabled : B.lockEnabled = true → B.versioning = versioningEnabled
  noNull : B.lockEnabled = true → ∀ k, ∀ e ∈ B.objects k, e.nullVersion = false
  noLock : B.lockEnabled = false → ∀ k, ∀ e ∈ B.objects k,
    e.legalHold = false ∧ e.retentionMode = retentionNone

end S3

open S3 (Model Bucket Upload)

structure Tracks (m : Model) (s : Store) : Prop where
  buckets : ∀ b, bucketAt s b = (m b).map (fun B => B.config b)
  versions : ∀ ⦃b k⦄, 0 ∉ b → 0 ∉ k → versionList s b k = (m.versions b k).reverse
  uploads : ∀ ⦃b k⦄, 0 ∉ b → 0 ∉ k → ∀ uid,
    uploadAt s b k uid = (m.upload b k uid).map (fun u => u.record uid)
  parts : ∀ ⦃b k⦄, 0 ∉ b → 0 ∉ k → ∀ uid,
    partList s b k uid = ((m.upload b k uid).map Upload.parts).getD []
  plainKeys : ∀ ⦃b k⦄, 0 ∈ k → m.versions b k = [] ∧ ∀ uid, m.upload b k uid = none
  unlocked : ∀ {b B}, m b = some B → B.Unlocked

structure Refines (n : Nat) (m : Model) (s : Store) : Prop where
  sound : Sound n s
  tracks : Tracks m s

/-! ## Views of an updated model -/

section Views

variable {m : Model} {b b' k k' : Bytes} {uid uid' : VersionID}

theorem versions_of_some {B : Bucket} (h : m b = some B) : m.versions b k = B.objects k := by
  simp [Model.versions, h]

theorem upload_of_some {B : Bucket} (h : m b = some B) : m.upload b k uid = B.uploads k uid := by
  simp [Model.upload, h]

theorem set_apply (B : Option Bucket) : m.set b B b' = if b' = b then B else m b' := by
  simp [Model.set, Function.update_apply]

theorem versions_set_of_ne (B : Option Bucket) (h : b' ≠ b) :
    (m.set b B).versions b' k = m.versions b' k := by
  simp [Model.versions, set_apply, h]

theorem upload_set_of_ne (B : Option Bucket) (h : b' ≠ b) :
    (m.set b B).upload b' k uid = m.upload b' k uid := by
  simp [Model.upload, set_apply, h]

theorem versions_set_self (B : Bucket) : (m.set b (some B)).versions b k = B.objects k := by
  simp [Model.versions, set_apply]

theorem upload_set_self (B : Bucket) : (m.set b (some B)).upload b k uid = B.uploads k uid := by
  simp [Model.upload, set_apply]

theorem setVersions_objects (B : Bucket) (l : List VersionEntry) :
    (B.setVersions k l).objects k' = if k' = k then l else B.objects k' := by
  simp [Bucket.setVersions, Function.update_apply]

theorem setUpload_uploads (B : Bucket) (u : Option Upload) :
    (B.setUpload k uid u).uploads k' uid' =
      if k' = k ∧ uid' = uid then u else B.uploads k' uid' := by
  by_cases hk : k' = k
  · subst hk
    simp [Bucket.setUpload, Function.update_apply]
  · simp [Bucket.setUpload, hk]

end Views

/-! ## Updates that keep the relation -/

section Updates

variable {m : Model} {s s' : Store} {b k : Bytes} {uid : VersionID} {B : Bucket}

variable (hT : Tracks m s)

include hT

theorem Tracks.plain_of_some (hs : Typed s) (h : m b = some B) : 0 ∉ b := by
  have hcfg := hT.buckets b
  rw [h] at hcfg
  exact hs.plain_of_bucketAt hcfg

theorem unlocked_set {B' : Option Bucket} (hB' : ∀ B ∈ B', B.Unlocked) {b' : Bytes}
    (h : m.set b B' b' = some B) : B.Unlocked := by
  rw [set_apply] at h
  split at h
  · exact hB' B h
  · exact hT.unlocked h

theorem Tracks.putBucket (hs : Typed s) {c : Option Bucket}
    (hs' : Typed (putBucket s b (c.map (fun B => B.config b))))
    (hobjects : ∀ k, (m.set b c).versions b k = m.versions b k)
    (huploads : ∀ k uid, (m.set b c).upload b k uid = m.upload b k uid)
    (hunlocked : ∀ B ∈ c, B.Unlocked) :
    Tracks (m.set b c) (putBucket s b (c.map (fun B => B.config b))) := by
  have hversions : ∀ b' k, (m.set b c).versions b' k = m.versions b' k := by
    intro b' k
    by_cases hbb : b' = b
    · rw [hbb, hobjects]
    · rw [versions_set_of_ne _ hbb]
  have hupload : ∀ b' k uid, (m.set b c).upload b' k uid = m.upload b' k uid := by
    intro b' k uid
    by_cases hbb : b' = b
    · rw [hbb, huploads]
    · rw [upload_set_of_ne _ hbb]
  have hsame := sameUploads_putBucket (s := s) b (c.map (fun B => B.config b))
  refine ⟨fun b' => ?_, fun {b' k} hb hk => ?_, fun {b' k} hb hk uid => ?_,
    fun {b' k} hb hk uid => ?_, fun {b' k} hk => ?_, unlocked_set hT hunlocked⟩
  · rw [bucketAt_putBucket, set_apply]
    by_cases hbb : b' = b
    · rw [if_pos hbb, if_pos hbb, hbb]
    · rw [if_neg hbb, if_neg hbb, hT.buckets]
  · rw [hversions, ← hT.versions hb hk]
    exact hs.versionList_congr hs' hb hk (fun _ => versionAt_putBucket _)
  · rw [hupload, hsame.uploadAt_eq, hT.uploads hb hk]
  · rw [hupload, hsame.partList_eq hs hs' hb hk, hT.parts hb hk]
  · rw [hversions]
    refine ⟨(hT.plainKeys hk).1, fun uid => ?_⟩
    rw [hupload]
    exact (hT.plainKeys hk).2 uid

theorem Tracks.setBucket (hs : Typed s) (hb : 0 ∉ b) {B' : Bucket}
    (hobjects : ∀ k, B'.objects k = m.versions b k)
    (huploads : ∀ k uid, B'.uploads k uid = m.upload b k uid) (hunlocked : B'.Unlocked) :
    Tracks (m.set b (some B')) (s.set (bucketRowKey b) (.bucketConfig (B'.config b))) := by
  refine hT.putBucket hs (c := some B') (hs.set (r := .bucket b) hb trivial) (fun k => ?_)
    (fun k uid => ?_) (fun B hB => ?_)
  · rw [versions_set_self, hobjects]
  · rw [upload_set_self, huploads]
  · cases hB
    exact hunlocked

theorem Tracks.deleteBucket (hs : Typed s) (hobjects : ∀ k, m.versions b k = [])
    (huploads : ∀ k uid, m.upload b k uid = none) :
    Tracks (m.set b none) (s.delete (bucketRowKey b)) := by
  refine hT.putBucket hs (c := none) (hs.delete _) (fun k => ?_) (fun k uid => ?_)
    (fun B hB => by cases hB)
  · rw [hobjects]
    simp [Model.versions, set_apply]
  · rw [huploads]
    simp [Model.upload, set_apply]

theorem buckets_set (hB : m b = some B) (B' : Bucket)
    (hconfig : ∀ name, B'.config name = B.config name) (b' : Bytes) :
    bucketAt s b' = (m.set b (some B') b').map (fun B => B.config b') := by
  rw [hT.buckets, set_apply]
  by_cases hbb : b' = b
  · subst hbb
    simp [hB, hconfig]
  · rw [if_neg hbb]

theorem Tracks.setVersions (hs : Typed s) (hs' : Typed s') (hB : m b = some B) (hk : 0 ∉ k)
    {l : List VersionEntry} (hbuckets : ∀ b', bucketAt s' b' = bucketAt s b')
    (hlist : versionList s' b k = l.reverse)
    (hother : ∀ {b' k'}, 0 ∉ b' → 0 ∉ k' → ¬ (b' = b ∧ k' = k) →
      versionList s' b' k' = versionList s b' k')
    (hsame : SameUploads s s') (hunlocked : (B.setVersions k l).Unlocked) :
    Tracks (m.set b (some (B.setVersions k l))) s' := by
  have hversions : ∀ b' k', (m.set b (some (B.setVersions k l))).versions b' k' =
      if b' = b ∧ k' = k then l else m.versions b' k' := by
    intro b' k'
    by_cases hbb : b' = b
    · subst hbb
      rw [versions_set_self, setVersions_objects, versions_of_some hB]
      simp
    · rw [versions_set_of_ne _ hbb, if_neg (fun h => hbb h.1)]
  have huploads : ∀ b' k' uid', (m.set b (some (B.setVersions k l))).upload b' k' uid' =
      m.upload b' k' uid' := by
    intro b' k' uid'
    by_cases hbb : b' = b
    · subst hbb
      rw [upload_set_self, upload_of_some hB]
      rfl
    · rw [upload_set_of_ne _ hbb]
  refine ⟨?_, ?_, ?_, ?_, ?_, unlocked_set hT (fun B' hB' => by cases hB'; exact hunlocked)⟩
  · intro b'
    rw [hbuckets]
    exact buckets_set hT hB (B.setVersions k l) (fun _ => rfl) b'
  · intro b' k' hb' hk'
    rw [hversions]
    by_cases heq : b' = b ∧ k' = k
    · obtain ⟨rfl, rfl⟩ := heq
      rw [if_pos ⟨rfl, rfl⟩]
      exact hlist
    · rw [if_neg heq, hother hb' hk' heq, hT.versions hb' hk']
  · intro b' k' hb' hk' uid'
    rw [huploads, hsame.uploadAt_eq, hT.uploads hb' hk']
  · intro b' k' hb' hk' uid'
    rw [huploads, hsame.partList_eq hs hs' hb' hk', hT.parts hb' hk']
  · intro b' k' hk'
    have hne : ¬ (b' = b ∧ k' = k) := fun h => hk (h.2 ▸ hk')
    rw [hversions, if_neg hne]
    refine ⟨(hT.plainKeys hk').1, fun uid' => ?_⟩
    rw [huploads]
    exact (hT.plainKeys hk').2 uid'

theorem Tracks.setUpload (hs : Typed s) (hs' : Typed s') (hB : m b = some B) (hk : 0 ∉ k)
    {u : Option Upload} (hsame : SameHistory s s')
    (hupload : uploadAt s' b k uid = u.map (fun u => u.record uid))
    (hparts : partList s' b k uid = (u.map Upload.parts).getD []) (hrest : SameBut b k uid s s') :
    Tracks (m.set b (some (B.setUpload k uid u))) s' := by
  have hversions : ∀ b' k', (m.set b (some (B.setUpload k uid u))).versions b' k' =
      m.versions b' k' := by
    intro b' k'
    by_cases hbb : b' = b
    · subst hbb
      rw [versions_set_self, versions_of_some hB]
      rfl
    · rw [versions_set_of_ne _ hbb]
  have huploads : ∀ b' k' uid', (m.set b (some (B.setUpload k uid u))).upload b' k' uid' =
      if b' = b ∧ k' = k ∧ uid' = uid then u else m.upload b' k' uid' := by
    intro b' k' uid'
    by_cases hbb : b' = b
    · subst hbb
      rw [upload_set_self, setUpload_uploads, upload_of_some hB]
      simp
    · rw [upload_set_of_ne _ hbb, if_neg (fun h => hbb h.1)]
  have hunlocked : (B.setUpload k uid u).Unlocked :=
    ⟨(hT.unlocked hB).enabled, (hT.unlocked hB).noNull, (hT.unlocked hB).noLock⟩
  refine ⟨?_, ?_, ?_, ?_, ?_, unlocked_set hT (fun B' hB' => by cases hB'; exact hunlocked)⟩
  · intro b'
    rw [hsame.bucketAt_eq]
    exact buckets_set hT hB (B.setUpload k uid u) (fun _ => rfl) b'
  · intro b' k' hb' hk'
    rw [hversions, hsame.versionList_eq hs hs' hb' hk', hT.versions hb' hk']
  · intro b' k' hb' hk' uid'
    rw [huploads]
    by_cases heq : b' = b ∧ k' = k ∧ uid' = uid
    · obtain ⟨rfl, rfl, rfl⟩ := heq
      rw [if_pos ⟨rfl, rfl, rfl⟩]
      exact hupload
    · rw [if_neg heq, hrest.uploadAt_eq hb' hk' heq, hT.uploads hb' hk']
  · intro b' k' hb' hk' uid'
    rw [huploads]
    by_cases heq : b' = b ∧ k' = k ∧ uid' = uid
    · obtain ⟨rfl, rfl, rfl⟩ := heq
      rw [if_pos ⟨rfl, rfl, rfl⟩]
      exact hparts
    · rw [if_neg heq, hrest.partList_eq hs hs' hb' hk' heq, hT.parts hb' hk']
  · intro b' k' hk'
    rw [hversions]
    refine ⟨(hT.plainKeys hk').1, fun uid' => ?_⟩
    have hne : ¬ (b' = b ∧ k' = k ∧ uid' = uid) := fun h => hk (h.2.1 ▸ hk')
    rw [huploads, if_neg hne]
    exact (hT.plainKeys hk').2 uid'

end Updates

/-! ## Both sides in step -/

/-- The model's answer and the body's agree: the same error, or the same
result and states that track each other. -/
def Matches {α : Type} (wrap : α → ApplyResult) (x : Except MetaError (ApplyResult × Model))
    (y : Except MetaError α × Store) : Prop :=
  match x, y.1 with
  | .ok (r, m'), .ok a => wrap a = r ∧ Tracks m' y.2
  | .error e, .error e' => e' = e
  | _, _ => False

section Rules

variable {α β : Type} {wrap : α → ApplyResult} {m : Model} {s : Store}

theorem Matches.require (hT : Tracks m s) (hs : Typed s) {b : Bytes}
    {f : Bucket → Except MetaError (ApplyResult × Model)} {g : BucketConfig → Tx α}
    (h : ∀ B, m b = some B → Matches wrap (f B) ((g (B.config b)).eval s)) :
    Matches wrap (m.require b >>= f) ((requireBucket b >>= g).eval s) := by
  have hcfg := hT.buckets b
  rw [eval, run_bind, hs.run_requireBucket, Model.require]
  cases hB : m b with
  | none =>
    rw [hB] at hcfg
    rw [show bucketAt s b = none from hcfg]
    rfl
  | some B =>
    rw [hB] at hcfg
    rw [show bucketAt s b = some (B.config b) from hcfg]
    exact h B hB

theorem Matches.validate {r : Except MetaError β}
    {f : β → Except MetaError (ApplyResult × Model)} {g : β → Tx α}
    (h : ∀ a, r = .ok a → Matches wrap (f a) ((g a).eval s)) :
    Matches wrap (r >>= f) ((check r >>= g).eval s) := by
  cases r with
  | error e => rfl
  | ok a => exact h a rfl

theorem Matches.refuse {c c' : Prop} [Decidable c] [Decidable c'] {e : MetaError}
    {f : Unit → Except MetaError (ApplyResult × Model)} {g : Unit → Tx α} (hc : c ↔ c')
    (h : ¬ c → Matches wrap (f ()) ((g ()).eval s)) :
    Matches wrap (S3.refuse c e >>= f) ((failIf c' e >>= g).eval s) := by
  rw [eval_failIf_bind]
  by_cases hcond : c
  · rw [if_pos (hc.mp hcond), S3.refuse, if_pos hcond]
    rfl
  · rw [if_neg (fun h' => hcond (hc.mpr h')), S3.refuse, if_neg hcond]
    exact h hcond

theorem Matches.done {m' : Model} {s' : Store} {r : ApplyResult} {a : α} (hr : wrap a = r)
    (hT : Tracks m' s') : Matches wrap (.ok (r, m')) (.ok a, s') := ⟨hr, hT⟩

end Rules

end Hamster.Meta
