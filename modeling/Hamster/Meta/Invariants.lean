import Hamster.CodeLib.Run
import Hamster.Meta.VersionStep

/-!
# Invariants of the version history

The first group of lemmas says how one update shows through the getters.
From it and `VersionStep` follows that every reachable store is typed
(`typed_runMem`), whatever the proposals carry.

`Base` adds what else holds without an assumption on the proposals: versions
belong to buckets that exist, a key has at most one null version, and an
unversioned bucket holds null versions only.  `base_step` is one change of
the history, `base_applyMem` one proposal, and `base_runMem` a whole log.
-/

namespace Hamster.Meta

open CodeLib

/-! ## The getters after one update -/

section Views

variable {s : Store} {b k b' k' : Bytes} {vid vid' : VersionID}

theorem versionAt_set (hb : 0 ∉ b) (hk : 0 ∉ k) (hb' : 0 ∉ b') (hk' : 0 ∉ k')
    (e : VersionEntry) :
    versionAt (s.set (versionRowKey b k vid) (.versionEntry e)) b' k' vid' =
      if b' = b ∧ k' = k ∧ vid' = vid then some e else versionAt s b' k' vid' := by
  have h := look_set (s := s) (.version b k vid) (.version b' k' vid')
    ⟨hb, hk⟩ ⟨hb', hk'⟩ (.versionEntry e)
  unfold versionAt
  rw [show versionRowKey b k vid = (RowKey.version b k vid).encode from rfl, h]
  simp only [RowKey.version.injEq]
  split <;> rfl

theorem versionAt_delete (hb : 0 ∉ b) (hk : 0 ∉ k) (hb' : 0 ∉ b') (hk' : 0 ∉ k') :
    versionAt (s.delete (versionRowKey b k vid)) b' k' vid' =
      if b' = b ∧ k' = k ∧ vid' = vid then none else versionAt s b' k' vid' := by
  have h := look_delete (s := s) (.version b k vid) (.version b' k' vid')
    ⟨hb, hk⟩ ⟨hb', hk'⟩
  unfold versionAt
  rw [show versionRowKey b k vid = (RowKey.version b k vid).encode from rfl, h]
  simp only [RowKey.version.injEq]
  split <;> rfl

/-! Rows of different kinds start with different bytes. -/

theorem versionRowKey_ne_bucketRowKey : versionRowKey b k vid ≠ bucketRowKey b' := by
  simp [versionRowKey, bucketRowKey, bucketScanPrefix]

theorem versionRowKey_ne_currentRowKey : versionRowKey b k vid ≠ currentRowKey b' k' := by
  simp [versionRowKey, currentRowKey]

theorem currentRowKey_ne_bucketRowKey : currentRowKey b k ≠ bucketRowKey b' := by
  simp [currentRowKey, bucketRowKey, bucketScanPrefix]

variable {s' : Store}

theorem versionAt_congr (h : s'.get (versionRowKey b k vid) = s.get (versionRowKey b k vid)) :
    versionAt s' b k vid = versionAt s b k vid := by
  unfold versionAt look RowKey.encode
  rw [h]

theorem bucketAt_congr (h : s'.get (bucketRowKey b) = s.get (bucketRowKey b)) :
    bucketAt s' b = bucketAt s b := by
  unfold bucketAt look RowKey.encode
  rw [h]

theorem currentAt_congr (h : s'.get (currentRowKey b k) = s.get (currentRowKey b k)) :
    currentAt s' b k = currentAt s b k := by
  unfold currentAt look RowKey.encode
  rw [h]

theorem get_putBucket_of_ne {key : Bytes} (h : key ≠ bucketRowKey b)
    (c : Option BucketConfig) : (putBucket s b c).get key = s.get key := by
  cases c with
  | none => exact SortedKV.get_delete_of_ne s h
  | some cfg => exact SortedKV.get_set_of_ne s _ h

theorem get_putCurrent_of_ne {key : Bytes} (h : key ≠ currentRowKey b k)
    (c : Option CurrentRecord) : (putCurrent s b k c).get key = s.get key := by
  cases c with
  | none => exact SortedKV.get_delete_of_ne s h
  | some c => exact SortedKV.get_set_of_ne s _ h

@[simp] theorem versionAt_putBucket (c : Option BucketConfig) :
    versionAt (putBucket s b' c) b k vid = versionAt s b k vid :=
  versionAt_congr (get_putBucket_of_ne versionRowKey_ne_bucketRowKey c)

@[simp] theorem currentAt_putBucket (c : Option BucketConfig) :
    currentAt (putBucket s b' c) b k = currentAt s b k :=
  currentAt_congr (get_putBucket_of_ne currentRowKey_ne_bucketRowKey c)

@[simp] theorem versionAt_putCurrent (c : Option CurrentRecord) :
    versionAt (putCurrent s b' k' c) b k vid = versionAt s b k vid :=
  versionAt_congr (get_putCurrent_of_ne versionRowKey_ne_currentRowKey c)

@[simp] theorem bucketAt_set_version (v : Record) :
    bucketAt (s.set (versionRowKey b k vid) v) b' = bucketAt s b' :=
  bucketAt_congr (SortedKV.get_set_of_ne s v versionRowKey_ne_bucketRowKey.symm)

@[simp] theorem bucketAt_delete_version :
    bucketAt (s.delete (versionRowKey b k vid)) b' = bucketAt s b' :=
  bucketAt_congr (SortedKV.get_delete_of_ne s versionRowKey_ne_bucketRowKey.symm)

@[simp] theorem bucketAt_putCurrent (c : Option CurrentRecord) :
    bucketAt (putCurrent s b k c) b' = bucketAt s b' :=
  bucketAt_congr (get_putCurrent_of_ne currentRowKey_ne_bucketRowKey.symm c)

theorem bucketAt_putBucket (c : Option BucketConfig) :
    bucketAt (putBucket s b c) b' = if b' = b then c else bucketAt s b' := by
  by_cases heq : b' = b
  · subst heq
    cases c with
    | none => simp [putBucket, bucketAt, look, RowKey.encode]
    | some cfg => simp [putBucket, bucketAt, look, RowKey.encode, Record.bucket?]
  · have hne : bucketRowKey b' ≠ bucketRowKey b := fun h => heq (List.append_cancel_left h)
    rw [if_neg heq, bucketAt_congr (get_putBucket_of_ne hne c)]

end Views

/-! ## Typed stores stay typed -/

variable {p : Proposal} {c : Option BucketConfig}

section TypedSteps

variable {s s' : Store} {b k : Bytes}

theorem typed_putCurrent (hs : Typed s) (hb : 0 ∉ b) (hk : 0 ∉ k) (c : Option CurrentRecord) :
    Typed (putCurrent s b k c) := by
  cases c with
  | none => exact hs.delete _
  | some c => exact hs.set (r := .current b k) ⟨hb, hk⟩ trivial

theorem typed_commitBase (hs : Typed s) (isNull : Bool) : Typed (commitBase s b k isNull) := by
  unfold commitBase dropNull
  split
  · split
    · exact hs
    · exact hs.delete _
  · exact hs

theorem typed_commitStore (hs : Typed s) (hb : 0 ∉ b) (hk : 0 ∉ k) (e : VersionEntry) :
    Typed (commitStore s b k e) := by
  have hbase : Typed (commitBase s b k e.nullVersion) := typed_commitBase hs _
  have hset := hbase.set (r := .version b k e.versionID) (v := .versionEntry e) ⟨hb, hk⟩ rfl
  exact typed_putCurrent hset hb hk _

theorem typed_removeStore (hs : Typed s) (hb : 0 ∉ b) (hk : 0 ∉ k) (e : VersionEntry) :
    Typed (removeStore s b k e) := by
  unfold removeStore
  dsimp only
  split
  · exact typed_putCurrent (hs.delete _) hb hk _
  · exact hs.delete _

theorem BucketStep.typed (h : BucketStep s b c) (hs : Typed s) : Typed (putBucket s b c) := by
  cases h with
  | create cfg hb => exact hs.set (r := .bucket b) hb trivial
  | delete => exact hs.delete _
  | configure cfg cfg' hcfg => exact hs.set (r := .bucket b) (hs.plain_of_bucketAt hcfg) trivial

theorem VersionStep.typed (hs : Typed s) (h : VersionStep p s s') : Typed s' := by
  cases h with
  | other htyped _ => exact htyped
  | bucket b c hbucket h =>
    rw [h]
    exact hbucket.typed hs
  | commit b k cfg e minted atUnixMS hk hcfg _ _ _ _ _ _ rows _ h =>
    rw [h]
    exact (typed_commitStore hs (hs.plain_of_bucketAt hcfg) hk e).deleteRows rows
  | removeOnly b k cfg e atUnixMS hk hcfg _ _ _ _ h =>
    rw [h]
    exact typed_putCurrent (hs.delete _) (hs.plain_of_bucketAt hcfg) hk none
  | remove q e _ hold _ h =>
    obtain ⟨hb, hk, -⟩ := hs.of_versionAt hold
    rw [h]
    exact typed_removeStore hs hb hk e
  | rewrite b k e e' hold hnew h =>
    obtain ⟨hb, hk, -⟩ := hs.of_versionAt hold
    rw [h]
    exact hs.set (r := .version b k e.versionID) ⟨hb, hk⟩ hnew.sameContent.versionID

end TypedSteps

theorem typed_applyMem {s : Store} (hs : Typed s) (p : Proposal) : Typed (applyMem s p).2 :=
  (versionStep_applyMem hs p).typed hs

theorem Typed.runMem {s : Store} (hs : Typed s) (ps : List Proposal) : Typed (runMem s ps) :=
  foldl_preserves (I := Typed) (fun _ p hs => typed_applyMem hs p) ps hs

theorem typed_runMem (ps : List Proposal) : Typed (runMem newStore ps) := typed_newStore.runMem ps

theorem Typed.invariant {C : Proposal → Prop} {I : Store → Prop}
    (hstep : ∀ {s p}, Typed s → C p → I s → I (applyMem s p).2) {s : Store} (hs : Typed s)
    {ps : List Proposal} (hps : ∀ p ∈ ps, C p) (h : I s) : I (Meta.runMem s ps) :=
  (foldl_invariant (I := fun s => Typed s ∧ I s)
    (fun _ p hp h => ⟨typed_applyMem h.1 p, hstep h.1 hp h.2⟩) hps ⟨hs, h⟩).2

/-! ## Versions, buckets and null versions -/

/-- What holds of every reachable history, whatever the proposals carry. -/
structure Base (s : Store) : Prop where
  typed : Typed s
  /-- A version belongs to a bucket that exists. -/
  bucket : ∀ {b k vid e}, versionAt s b k vid = some e → ∃ cfg, bucketAt s b = some cfg
  /-- A bucket is in one of the three versioning states. -/
  versioning : ∀ {b cfg}, bucketAt s b = some cfg →
    cfg.versioning = unversioned ∨ cfg.versioning = versioningEnabled ∨
      cfg.versioning = versioningSuspended
  /-- A key has at most one null version. -/
  oneNull : ∀ {b k vid vid' e e'}, versionAt s b k vid = some e →
    versionAt s b k vid' = some e' → e.nullVersion = true → e'.nullVersion = true → vid = vid'
  /-- An unversioned bucket holds null versions only. -/
  onlyNull : ∀ {b cfg k vid e}, bucketAt s b = some cfg → cfg.versioning = unversioned →
    versionAt s b k vid = some e → e.nullVersion = true

theorem base_newStore : Base newStore where
  typed := typed_newStore
  bucket h := by simp [versionAt, look, newStore] at h
  versioning h := by simp [bucketAt, look, newStore] at h
  oneNull h := by simp [versionAt, look, newStore] at h
  onlyNull h := by simp [bucketAt, look, newStore] at h

section BaseSteps

variable {s s' : Store}

/-- Versions may disappear or change, but for their null flag, as long as the buckets
stay. -/
theorem Base.of_fewer (hs : Base s) (htyped : Typed s')
    (hbuckets : ∀ b, bucketAt s' b = bucketAt s b)
    (hback : ∀ {b k vid e}, versionAt s' b k vid = some e →
      ∃ e₀, versionAt s b k vid = some e₀ ∧ e.nullVersion = e₀.nullVersion) : Base s' where
  typed := htyped
  bucket hver := by
    obtain ⟨_, hold, -⟩ := hback hver
    rw [hbuckets]
    exact hs.bucket hold
  versioning hcfg := by
    rw [hbuckets] at hcfg
    exact hs.versioning hcfg
  oneNull hver hver' hnull hnull' := by
    obtain ⟨_, hold, heq⟩ := hback hver
    obtain ⟨_, hold', heq'⟩ := hback hver'
    exact hs.oneNull hold hold' (heq ▸ hnull) (heq' ▸ hnull')
  onlyNull hcfg hun hver := by
    obtain ⟨_, hold, heq⟩ := hback hver
    rw [hbuckets] at hcfg
    rw [heq]
    exact hs.onlyNull hcfg hun hold

theorem Base.of_sameHistory (hs : Base s) (htyped : Typed s') (h : SameHistory s s') : Base s' := by
  refine hs.of_fewer htyped h.bucketAt_eq (fun hver => ?_)
  rw [h.versionAt_eq] at hver
  exact ⟨_, hver, rfl⟩

variable {b k b' k' : Bytes} {e : VersionEntry} {vid' : VersionID} {vid : VersionID}

theorem versionAt_of_delete (h : versionAt (s.delete (versionRowKey b k vid)) b' k' vid' = some e) :
    versionAt s b' k' vid' = some e := by
  rw [versionAt, look, SortedKV.get_delete] at h
  split at h
  · cases h
  · exact h

/-- What the store holds before a commit is what it held, the null version
apart. -/
theorem versionAt_of_commitBase {isNull : Bool}
    (h : versionAt (commitBase s b k isNull) b' k' vid' = some e) :
    versionAt s b' k' vid' = some e := by
  unfold commitBase dropNull at h
  split at h
  · split at h
    · exact h
    · exact versionAt_of_delete h
  · exact h

@[simp] theorem bucketAt_commitBase (b k b' : Bytes) (isNull : Bool) :
    bucketAt (commitBase s b k isNull) b' = bucketAt s b' := by
  unfold commitBase dropNull
  split
  · split
    · rfl
    · exact bucketAt_delete_version
  · rfl

theorem Base.not_null_commitBase (hs : Base s) (hb : 0 ∉ b) (hk : 0 ∉ k)
    (h : versionAt (commitBase s b k true) b k vid = some e) : e.nullVersion = false := by
  have hold := versionAt_of_commitBase h
  by_contra hnull
  have hnull : e.nullVersion = true := by simpa using hnull
  have hmem : e ∈ versionList s b k := by
    rw [hs.typed.mem_versionList hb hk, (hs.typed.of_versionAt hold).2.2]
    exact hold
  -- the scan finds a null version, and there is only this one
  obtain ⟨e₀, hfind⟩ : ∃ e₀, nullEntry s b k = some e₀ :=
    Option.isSome_iff_exists.mp (List.find?_isSome.mpr ⟨e, hmem, hnull⟩)
  have hnull₀ : e₀.nullVersion = true := List.find?_some hfind
  have hold₀ := (hs.typed.mem_versionList hb hk).mp (List.mem_of_find?_eq_some hfind)
  have hsame : vid = e₀.versionID := hs.oneNull hold hold₀ hnull hnull₀
  unfold commitBase dropNull at h
  rw [if_pos rfl, hfind] at h
  simp [versionAt_delete hb hk hb hk, hsame] at h

variable {e' : VersionEntry}

/-- A version after a commit is the new one or an old one under another
name. -/
theorem Typed.versionAt_commitStore (hs : Typed s) (hb : 0 ∉ b) (hk : 0 ∉ k)
    (h : versionAt (commitStore s b k e) b' k' vid' = some e') :
    (b' = b ∧ k' = k ∧ vid' = e.versionID ∧ e' = e) ∨
      (¬ (b' = b ∧ k' = k ∧ vid' = e.versionID) ∧
        versionAt (commitBase s b k e.nullVersion) b' k' vid' = some e') := by
  obtain ⟨hb', hk', -⟩ := (typed_commitStore hs hb hk e).of_versionAt h
  unfold commitStore at h
  rw [versionAt_putCurrent, versionAt_set hb hk hb' hk'] at h
  split at h
  · rename_i heq
    cases h
    exact Or.inl ⟨heq.1, heq.2.1, heq.2.2, rfl⟩
  · rename_i hne
    exact Or.inr ⟨hne, h⟩

@[simp] theorem bucketAt_commitStore (b k b' : Bytes) (e : VersionEntry) :
    bucketAt (commitStore s b k e) b' = bucketAt s b' := by
  unfold commitStore
  rw [bucketAt_putCurrent, bucketAt_set_version, bucketAt_commitBase]

variable {cfg : BucketConfig}

theorem NullFor.null_of_unversioned (h : NullFor cfg e) (hun : cfg.versioning = unversioned) :
    e.nullVersion = true := by
  rcases h with ⟨-, hnull⟩ | ⟨-, hversioned, -⟩
  · rw [hnull, hun]
    decide
  · exact absurd hun hversioned

theorem Base.commit (hs : Base s) (hk : 0 ∉ k) (hcfg : bucketAt s b = some cfg)
    (hnull : NullFor cfg e) : Base (commitStore s b k e) := by
  have hb := hs.typed.plain_of_bucketAt hcfg
  refine ⟨typed_commitStore hs.typed hb hk e, ?_, ?_, ?_, ?_⟩
  · intro b' k' vid' e' h
    rw [bucketAt_commitStore]
    rcases hs.typed.versionAt_commitStore hb hk h with ⟨rfl, -, -, -⟩ | ⟨-, hold⟩
    · exact ⟨cfg, hcfg⟩
    · exact hs.bucket (versionAt_of_commitBase hold)
  · intro b' cfg' h
    rw [bucketAt_commitStore] at h
    exact hs.versioning h
  · intro b' k' vid₁ vid₂ e₁ e₂ h₁ h₂ hnull₁ hnull₂
    rcases hs.typed.versionAt_commitStore hb hk h₁ with ⟨rfl, rfl, rfl, rfl⟩ | ⟨-, hold₁⟩
    · rcases hs.typed.versionAt_commitStore hb hk h₂ with ⟨-, -, rfl, -⟩ | ⟨-, hold₂⟩
      · rfl
      · -- the new version is null, so no old null version is left
        rw [hnull₁] at hold₂
        rw [hs.not_null_commitBase hb hk hold₂] at hnull₂
        cases hnull₂
    · rcases hs.typed.versionAt_commitStore hb hk h₂ with ⟨rfl, rfl, rfl, rfl⟩ | ⟨-, hold₂⟩
      · rw [hnull₂] at hold₁
        rw [hs.not_null_commitBase hb hk hold₁] at hnull₁
        cases hnull₁
      · exact hs.oneNull (versionAt_of_commitBase hold₁) (versionAt_of_commitBase hold₂)
          hnull₁ hnull₂
  · intro b' cfg' k' vid' e' hcfg' hun h
    rw [bucketAt_commitStore] at hcfg'
    rcases hs.typed.versionAt_commitStore hb hk h with ⟨rfl, -, -, rfl⟩ | ⟨-, hold⟩
    · rw [hcfg] at hcfg'
      cases hcfg'
      exact hnull.null_of_unversioned hun
    · exact hs.onlyNull hcfg' hun (versionAt_of_commitBase hold)

theorem Base.putBucket (hs : Base s) (hstep : BucketStep s b c) : Base (putBucket s b c) := by
  refine ⟨hstep.typed hs.typed, ?_, ?_, ?_, ?_⟩
  · intro b' k' vid' e' h
    rw [versionAt_putBucket] at h
    rw [bucketAt_putBucket]
    split
    next heq =>
      subst heq
      cases hstep with
      | create cfg => exact ⟨cfg, rfl⟩
      | configure cfg cfg' => exact ⟨cfg', rfl⟩
      | delete hempty =>
        rw [hempty] at h
        cases h
    next => exact hs.bucket h
  · intro b' cfg₁ h
    rw [bucketAt_putBucket] at h
    split at h
    · cases hstep with
      | create cfg _ _ _ hversioning =>
        cases h
        rw [hversioning]
        cases cfg₁.objectLockEnabled with
        | true => exact Or.inr (Or.inl rfl)
        | false => exact Or.inl rfl
      | configure cfg cfg' hcfg _ _ hversioning =>
        cases h
        rcases hversioning with hsame | henabled | ⟨hsuspended, -⟩
        · rw [hsame]
          exact hs.versioning hcfg
        · exact Or.inr (Or.inl henabled)
        · exact Or.inr (Or.inr hsuspended)
      | delete => cases h
    · exact hs.versioning h
  · intro b' k' vid₁ vid₂ e₁ e₂ h₁ h₂
    rw [versionAt_putBucket] at h₁ h₂
    exact hs.oneNull h₁ h₂
  · intro b' cfg₁ k' vid' e' hcfg₁ hun h
    rw [versionAt_putBucket] at h
    rw [bucketAt_putBucket] at hcfg₁
    split at hcfg₁
    next heq =>
      subst heq
      cases hstep with
      | create cfg _ _ hnew =>
        -- a bucket that did not exist held no versions
        obtain ⟨cfg₀, hcfg₀⟩ := hs.bucket h
        cases hnew.symm.trans hcfg₀
      | configure cfg cfg' hcfg _ _ hversioning =>
        cases hcfg₁
        -- no change of the state leads back to unversioned
        rcases hversioning with hsame | henabled | ⟨hsuspended, -⟩
        · exact hs.onlyNull hcfg (hsame ▸ hun) h
        · exact absurd (henabled.symm.trans hun) (by decide)
        · exact absurd (hsuspended.symm.trans hun) (by decide)
      | delete => cases hcfg₁
    next => exact hs.onlyNull hcfg₁ hun h

theorem Typed.of_mem_bucketVersions (hs : Typed s) (hb : 0 ∉ b) {r : Bytes × Record}
    (h : r ∈ s.rowsUnder (bucketVersionsScanPrefix b)) :
    ∃ k e, r = (versionRowKey b k e.versionID, .versionEntry e) ∧ 0 ∉ k ∧
      versionAt s b k e.versionID = some e := by
  obtain ⟨r₀, hr₀, hkey, hv, hpre⟩ := hs.of_mem_rowsUnder h
  rw [← List.append_nil (bucketVersionsScanPrefix b)] at hpre
  obtain ⟨k, vid, rfl, -⟩ := (RowKey.under_bucketVersions hr₀ hb).mp hpre
  obtain ⟨e, hrec, rfl⟩ := hv.version
  obtain rfl : r = (versionRowKey b k e.versionID, .versionEntry e) := Prod.ext hkey hrec
  exact ⟨k, e, rfl, hr₀.2,
    Option.bind_eq_some_iff.mpr ⟨_, (SortedKV.mem_rowsUnder.mp h).1, rfl⟩⟩

theorem Base.rewrite (hs : Base s) {b k : Bytes} {e e' : VersionEntry}
    (hold : versionAt s b k e.versionID = some e) (hsame : SameContent e e') :
    Base (s.set (versionRowKey b k e.versionID) (.versionEntry e')) := by
  obtain ⟨hb, hk, -⟩ := hs.typed.of_versionAt hold
  have htyped := hs.typed.set (r := .version b k e.versionID) (v := .versionEntry e')
    ⟨hb, hk⟩ hsame.versionID
  refine hs.of_fewer htyped (fun _ => bucketAt_set_version _) (fun {b' k' vid' e₁} h => ?_)
  obtain ⟨hb', hk', -⟩ := htyped.of_versionAt h
  rw [versionAt_set hb hk hb' hk'] at h
  split at h
  next heq =>
    obtain ⟨rfl, rfl, rfl⟩ := heq
    cases h
    exact ⟨e, hold, hsame.nullVersion⟩
  next => exact ⟨e₁, h, rfl⟩

theorem bucketAt_removeStore (b k b' : Bytes) (e : VersionEntry) :
    bucketAt (removeStore s b k e) b' = bucketAt s b' := by
  unfold removeStore
  dsimp only
  split
  · rw [bucketAt_putCurrent, bucketAt_delete_version]
  · exact bucketAt_delete_version

theorem versionAt_of_removeStore (h : versionAt (removeStore s b k e) b' k' vid' = some e') :
    versionAt s b' k' vid' = some e' := by
  unfold removeStore at h
  dsimp only at h
  split at h
  · rw [versionAt_putCurrent] at h
    exact versionAt_of_delete h
  · exact versionAt_of_delete h

theorem base_step (hs : Base s) (h : VersionStep p s s') : Base s' := by
  have htyped := h.typed hs.typed
  cases h with
  | other _ h => exact hs.of_sameHistory htyped h
  | bucket b c hbucket h =>
    rw [h]
    exact hs.putBucket hbucket
  | commit b k cfg e minted atUnixMS hk hcfg _ _ _ _ hnull _ rows hrows h =>
    refine (hs.commit hk hcfg hnull).of_sameHistory htyped ?_
    rw [h]
    exact sameHistory_deleteRows hrows _
  | removeOnly b k cfg e atUnixMS _ _ _ _ _ _ h =>
    refine hs.of_fewer htyped (fun b' => ?_) (fun hver => ?_)
    · rw [h, bucketAt_putCurrent, bucketAt_delete_version]
    · rw [h, versionAt_putCurrent] at hver
      exact ⟨_, versionAt_of_delete hver, rfl⟩
  | remove q e _ _ _ h =>
    refine hs.of_fewer htyped (fun b' => ?_) (fun hver => ?_)
    · rw [h, bucketAt_removeStore]
    · rw [h] at hver
      exact ⟨_, versionAt_of_removeStore hver, rfl⟩
  | rewrite b k e e' hold hnew h =>
    rw [h]
    exact hs.rewrite hold hnew.sameContent

end BaseSteps

theorem base_applyMem {s : Store} (hs : Base s) (p : Proposal) : Base (applyMem s p).2 :=
  base_step hs (versionStep_applyMem hs.typed p)

theorem base_runMem (ps : List Proposal) : Base (runMem newStore ps) :=
  foldl_preserves (I := Base) (fun _ p hs => base_applyMem hs p) ps base_newStore

/-! ## Bucket configurations -/

/-- Where a configuration comes from: it was there, the bucket is new, or an
accepted proposal changed the configuration of the bucket. -/
theorem VersionStep.bucketAt_of {s s' : Store} (h : VersionStep p s s') {b : Bytes}
    {cfg' : BucketConfig} (hcfg' : bucketAt s' b = some cfg') :
    bucketAt s b = some cfg' ∨
      (cfg'.name = b ∧ bucketAt s b = none ∧ cfg'.versioning =
        if cfg'.objectLockEnabled then versioningEnabled else unversioned) ∨
      ∃ cfg, bucketAt s b = some cfg ∧ cfg'.name = cfg.name ∧
        cfg'.objectLockEnabled = cfg.objectLockEnabled ∧
        (cfg'.versioning = cfg.versioning ∨ cfg'.versioning = versioningEnabled ∨
          (cfg'.versioning = versioningSuspended ∧ cfg.objectLockEnabled = false)) := by
  cases h with
  | other _ h =>
    rw [h.bucketAt_eq] at hcfg'
    exact Or.inl hcfg'
  | bucket b₀ c hbucket h =>
    rw [h, bucketAt_putBucket] at hcfg'
    split at hcfg'
    next heq =>
      subst heq
      cases hbucket with
      | create cfg _ hname hnew hversioning =>
        cases hcfg'
        exact Or.inr (Or.inl ⟨hname, hnew, hversioning⟩)
      | delete => cases hcfg'
      | configure cfg _ hcfg hname hlock hversioning =>
        cases hcfg'
        exact Or.inr (Or.inr ⟨cfg, hcfg, hname, hlock, hversioning⟩)
    next => exact Or.inl hcfg'
  | commit b₀ k₀ _ e _ _ _ _ _ _ _ _ _ _ rows hrows h =>
    rw [h, (sameHistory_deleteRows hrows _).bucketAt_eq, bucketAt_commitStore] at hcfg'
    exact Or.inl hcfg'
  | removeOnly b₀ k₀ _ e _ _ _ _ _ _ _ h =>
    rw [h, bucketAt_putCurrent, bucketAt_delete_version] at hcfg'
    exact Or.inl hcfg'
  | remove q e _ _ _ h =>
    rw [h, bucketAt_removeStore] at hcfg'
    exact Or.inl hcfg'
  | rewrite b₀ k₀ e e' _ _ h =>
    rw [h, bucketAt_set_version] at hcfg'
    exact Or.inl hcfg'

/-- A bucket row names the bucket it stands under. -/
def Named (s : Store) : Prop := ∀ ⦃b cfg⦄, bucketAt s b = some cfg → cfg.name = b

theorem Named.step {s s' : Store} (hs : Named s) (h : VersionStep p s s') : Named s' := by
  intro b cfg' hcfg'
  rcases h.bucketAt_of hcfg' with hold | ⟨hname, -⟩ | ⟨cfg, hcfg, hname, -⟩
  · exact hs hold
  · exact hname
  · exact hname.trans (hs hcfg)

theorem named_applyMem {s : Store} (hs : Base s) (hn : Named s) (p : Proposal) :
    Named (applyMem s p).2 :=
  hn.step (versionStep_applyMem hs.typed p)

theorem named_runMem (ps : List Proposal) : Named (runMem newStore ps) := by
  have hnew : Named newStore := by
    intro b cfg h
    simp [bucketAt, look, newStore] at h
  exact (foldl_preserves (I := fun s => Base s ∧ Named s)
    (fun _ p hs => ⟨base_applyMem hs.1 p, named_applyMem hs.1 hs.2 p⟩) ps ⟨base_newStore, hnew⟩).2

end Hamster.Meta
