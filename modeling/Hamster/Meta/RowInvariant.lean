import Hamster.Meta.VersionStep

/-!
# Invariants of single rows

`Written` lists the values that an accepted proposal can store, with the rows that
they are made from, and `Proposal.Touches` the keys that it may write: the row of a
bucket, the versions of one object and its current row, the rows of one upload, or one
row under `s/`.  By `edited_of_ok` the new store is the old one after deletions and
writes of these keys and values.

So a proposal leaves the other rows alone (`get_applyMem`), and a property of records
that the written values have holds in every row of the new store (`allRows_apply`).
-/

namespace Hamster.Meta

open CodeLib

def AllRows (P : Record → Prop) (s : MemKV) : Prop := ∀ k v, s.get k = some v → P v

theorem allRows_newStore (P : Record → Prop) : AllRows P newStore := by
  intro k v h
  cases h

theorem AllRows.set {P : Record → Prop} {s : MemKV} (h : AllRows P s) (k : Bytes) {v : Record}
    (hv : P v) : AllRows P (s.set k v) := by
  intro k' v' hget
  rw [SortedKV.get_set] at hget
  split at hget
  · exact Option.some.inj hget ▸ hv
  · exact h k' v' hget

theorem AllRows.delete {P : Record → Prop} {s : MemKV} (h : AllRows P s) (k : Bytes) :
    AllRows P (s.delete k) := by
  intro k' v' hget
  rw [SortedKV.get_delete] at hget
  split at hget
  · cases hget
  · exact h k' v' hget

/-! ## Writes -/

/-- The values that a proposal can store in a store. -/
inductive Written (s : Store) : Proposal → Record → Prop where
  | createBucket (q : CreateBucket) : Written s (.createBucket q)
      (.bucketConfig (newBucketConfig q))
  | versioning (q : SetBucketVersioning) (cfg : BucketConfig)
      (hold : s.get (bucketRowKey q.bucket) = some (.bucketConfig cfg)) :
      Written s (.setBucketVersioning q) (.bucketConfig { cfg with versioning := q.state })
  | lockConfiguration (q : SetObjectLockConfiguration) (cfg : BucketConfig)
      (hold : s.get (bucketRowKey q.bucket) = some (.bucketConfig cfg)) :
      Written s (.setObjectLockConfiguration q) (.bucketConfig (withDefaultRetention cfg q))
  | put (q : PutObject) (cfg : BucketConfig) (vid : VersionID) :
      Written s (.putObject q) (.versionEntry (putEntry q cfg vid))
  | marker (q : DeleteObject) (cfg : BucketConfig) (vid : VersionID) :
      Written s (.deleteObject q) (.versionEntry (markerEntry q cfg vid))
  | complete (q : CompleteMultipartUpload) (cfg : BucketConfig) (upload : UploadRecord)
      (parts : List PartRecord) (vid : VersionID)
      (hparts : ∀ pr ∈ parts, ∃ key, s.get key = some (.partRecord pr)) :
      Written s (.completeMultipartUpload q)
        (.versionEntry (completeEntry q cfg upload parts vid))
  | current (p : Proposal) (e : VersionEntry) : Written s p (.currentRecord (currentRecordFor e))
  | rewrite {p : Proposal} {b k : Bytes} {vid : VersionID} {e e' : VersionEntry}
      (hold : s.get (versionRowKey b k vid) = some (.versionEntry e))
      (hnew : Rewritten b k vid e e' p) : Written s p (.versionEntry e')
  | upload (q : CreateMultipartUpload) :
      Written s (.createMultipartUpload q) (.uploadRecord (newUploadRecord q))
  | part (q : UploadPart) : Written s (.uploadPart q) (.partRecord (partRecordFor q))
  | system {p : Proposal} {row : RowKey} {v : Record} (h : SystemWrite s p row v) : Written s p v

/-- The rows of an object: its versions, and its current row. -/
def OfObject (b k key : Bytes) : Prop :=
  (∃ vid, key = versionRowKey b k vid) ∨ key = currentRowKey b k

theorem OfObject.version {b k : Bytes} (vid : VersionID) : OfObject b k (versionRowKey b k vid) :=
  Or.inl ⟨vid, rfl⟩

theorem OfObject.current {b k : Bytes} : OfObject b k (currentRowKey b k) := Or.inr rfl

/-- The keys of the rows that a proposal may write. -/
def Proposal.Touches (key : Bytes) : Proposal → Prop
  | .createBucket p => key = bucketRowKey p.bucket
  | .deleteBucket p => key = bucketRowKey p.bucket
  | .setBucketVersioning p => key = bucketRowKey p.bucket
  | .setObjectLockConfiguration p => key = bucketRowKey p.bucket
  | .putObject p => OfObject p.bucket p.key key
  | .deleteObject p => OfObject p.bucket p.key key
  | .deleteVersion p => OfObject p.bucket p.key key
  | .updateRetention p => OfObject p.bucket p.key key
  | .updateLegalHold p => OfObject p.bucket p.key key
  | .reEncodeObject p => OfObject p.bucket p.key key
  | .rewrapDEK p => OfObject p.bucket p.key key
  | .createMultipartUpload p => uploadRowKey p.bucket p.key p.uploadID <+: key
  | .uploadPart p => uploadRowKey p.bucket p.key p.uploadID <+: key
  | .abortMultipartUpload p => uploadRowKey p.bucket p.key p.uploadID <+: key
  | .completeMultipartUpload p =>
    OfObject p.bucket p.key key ∨ uploadRowKey p.bucket p.key p.uploadID <+: key
  | p => ∃ r ∈ p.systemRow, key = r.encode

/-- The second store is the first one after deletions and writes. -/
inductive Edited (T : Bytes → Prop) (W : Record → Prop) (s : Store) : Store → Prop where
  | refl : Edited T W s s
  | set {s' : Store} {k : Bytes} {v : Record} (h : Edited T W s s') (hk : T k) (hv : W v) :
      Edited T W s (s'.set k v)
  | delete {s' : Store} {k : Bytes} (h : Edited T W s s') (hk : T k) :
      Edited T W s (s'.delete k)

namespace Edited

variable {T : Bytes → Prop} {W P : Record → Prop} {s s' : Store} {b k : Bytes}

theorem get_eq (h : Edited T W s s') {key : Bytes} (hkey : ¬T key) :
    s'.get key = s.get key := by
  induction h with
  | refl => rfl
  | set _ hk _ ih =>
    refine (SortedKV.get_set_of_ne _ _ ?_).trans ih
    exact fun heq => hkey (heq ▸ hk)
  | delete _ hk ih =>
    refine (SortedKV.get_delete_of_ne _ ?_).trans ih
    exact fun heq => hkey (heq ▸ hk)

theorem allRows (h : Edited T W s s') (hs : AllRows P s) (hW : ∀ v, W v → P v) : AllRows P s' := by
  induction h with
  | refl => exact hs
  | set _ _ hv ih => exact ih.set _ (hW _ hv)
  | delete _ _ ih => exact ih.delete _

theorem deleteRows (h : Edited T W s s') {ks : List Bytes} (hks : ∀ k ∈ ks, T k) :
    Edited T W s (ks.foldl SortedKV.delete s') := by
  induction ks generalizing s' with
  | nil => exact h
  | cons k rest ih =>
    exact ih (h.delete (hks k List.mem_cons_self))
      (fun k' hk' => hks k' (List.mem_cons_of_mem k hk'))

theorem current (h : Edited T W s s') (hT : ∀ row, OfObject b k row → T row)
    (hW : ∀ e, W (.currentRecord (currentRecordFor e))) (l : List VersionEntry) :
    Edited T W s (putCurrent s' b k (derivedCurrent l)) := by
  unfold derivedCurrent
  split
  · split
    · exact h.set (hT _ .current) (hW _)
    · exact h.delete (hT _ .current)
  · exact h.delete (hT _ .current)

theorem commit (hT : ∀ row, OfObject b k row → T row)
    (hW : ∀ e, W (.currentRecord (currentRecordFor e))) {e : VersionEntry}
    (he : W (.versionEntry e)) : Edited T W s (commitStore s b k e) := by
  have hbase : Edited T W s (commitBase s b k e.nullVersion) := by
    unfold commitBase dropNull
    split
    · split
      · exact refl
      · exact refl.delete (hT _ (.version _))
    · exact refl
  exact (hbase.set (hT _ (.version _)) he).current hT hW [e]

theorem remove (hT : ∀ row, OfObject b k row → T row)
    (hW : ∀ e, W (.currentRecord (currentRecordFor e))) (e : VersionEntry) :
    Edited T W s (removeStore s b k e) := by
  have hdelete := (refl (s := s) (W := W)).delete (hT _ (.version e.versionID))
  unfold removeStore
  dsimp only
  split
  · exact hdelete.current hT hW _
  · exact hdelete

end Edited

theorem of_assembleParts {stored parts : List PartRecord} {cps : List CompletedPart}
    (h : assembleParts stored cps = .ok parts) : (∀ pr ∈ parts, pr ∈ stored) ∧
      parts.map PartRecord.partNumber = cps.map CompletedPart.partNumber := by
  induction cps generalizing parts with
  | nil =>
    cases h
    exact ⟨fun _ hmem => absurd hmem List.not_mem_nil, rfl⟩
  | cons cp rest ih =>
    unfold assembleParts at h
    split at h
    · cases h
    next pr hfind =>
      split at h
      · cases h
      · split at h
        · cases h
        · cases hrest : assembleParts stored rest with
          | error e => rw [hrest] at h; cases h
          | ok parts' =>
            rw [hrest] at h
            cases h
            obtain ⟨hmem, hnumbers⟩ := ih hrest
            have hnum : pr.partNumber = cp.partNumber := by simpa using List.find?_some hfind
            refine ⟨?_, by rw [List.map_cons, List.map_cons, hnum, hnumbers]⟩
            exact List.forall_mem_cons.mpr
              ⟨List.mem_reverse.mp (List.mem_of_find?_eq_some hfind), hmem⟩

variable {p : Proposal}

theorem Rewritten.touches {b k : Bytes} {vid : VersionID} {e e' : VersionEntry}
    (h : Rewritten b k vid e e' p) (row : VersionID) : p.Touches (versionRowKey b k row) := by
  cases h with
  | retention q htarget | hold q htarget | reEncoded q htarget | rewrapped q htarget =>
    obtain ⟨rfl, rfl, -⟩ := htarget
    exact .version row

theorem get_of_mem_partList {s : Store} {b k : Bytes} {uid : VersionID} {pr : PartRecord}
    (h : pr ∈ partList s b k uid) : ∃ key, s.get key = some (.partRecord pr) := by
  obtain ⟨⟨key, v⟩, hrow, hpart⟩ := List.mem_filterMap.mp h
  cases v <;> cases hpart
  exact ⟨key, (SortedKV.mem_rowsUnder.mp hrow).1⟩

theorem Applied.edited {s s' : Store} {r : ApplyResult} (h : Applied s p r s') :
    Edited (p.Touches ·) (Written s p) s s' := by
  cases h with
  | createBucket q => exact Edited.refl.set rfl (.createBucket q)
  | deleteBucket q => exact Edited.refl.delete rfl
  | setBucketVersioning q cfg hcfg =>
    exact Edited.refl.set rfl (.versioning q cfg (look_of_bucketAt hcfg))
  | setObjectLockConfiguration q cfg hcfg =>
    exact Edited.refl.set rfl (.lockConfiguration q cfg (look_of_bucketAt hcfg))
  | putObject q cfg vid => exact Edited.commit (fun _ h => h) (.current _) (.put q cfg vid)
  | deleteNothing | deleteAbsent | rewrappedBefore => exact .refl
  | deleteOnly q => exact (Edited.refl.delete (.version _)).delete .current
  | insertMarker q cfg vid => exact Edited.commit (fun _ h => h) (.current _) (.marker q cfg vid)
  | completeMultipartUpload q cfg u parts vid _ _ _ _ hparts =>
    have hstored : ∀ pr ∈ parts, ∃ key, s.get key = some (.partRecord pr) :=
      fun pr hpr => get_of_mem_partList ((of_assembleParts hparts).1 pr hpr)
    refine (Edited.commit (fun _ h => Or.inl h) (.current _)
      (.complete q cfg u parts vid hstored)).deleteRows (fun key hkey => ?_)
    rcases List.mem_cons.mp hkey with rfl | hkey
    · exact Or.inr (List.prefix_refl _)
    · obtain ⟨pr, -, rfl⟩ := List.mem_map.mp hkey
      exact Or.inr (List.prefix_append _ _)
  | deleteVersion q e => exact Edited.remove (fun _ h => h) (.current _) e
  | rewrite hold _ hnew =>
    exact Edited.refl.set (hnew.touches _) (.rewrite (look_of_versionAt hold) hnew)
  | createMultipartUpload q => exact Edited.refl.set (List.prefix_refl _) (.upload q)
  | uploadPart q => exact Edited.refl.set (List.prefix_append _ _) (.part q)
  | abortMultipartUpload q =>
    refine Edited.refl.deleteRows (fun key hkey => ?_)
    obtain ⟨row, hrow, rfl⟩ := List.mem_map.mp hkey
    exact (SortedKV.mem_rowsUnder.mp hrow).2

theorem Proposal.touches_systemRow {row : RowKey} (h : p.systemRow = some row) :
    p.Touches row.encode := by
  have htouch : ∃ r ∈ p.systemRow, row.encode = r.encode := ⟨row, h, rfl⟩
  cases p <;> first | exact htouch | cases h

theorem edited_of_ok {s s' : Store} {r : ApplyResult} (h : (applyBody p).eval s = (.ok r, s')) :
    Edited (p.Touches ·) (Written s p) s s' := by
  cases hrow : p.systemRow with
  | none => exact (applied_of_ok hrow h).edited
  | some row =>
    rcases systemWrite_of_ok hrow h with ⟨-, rfl⟩ | ⟨v, hwrite, rfl⟩
    · exact .refl
    · exact Edited.refl.set (Proposal.touches_systemRow hrow) (.system hwrite)

theorem edited_applyMem (s : Store) (p : Proposal) :
    Edited (p.Touches ·) (Written s p) s (applyMem s p).2 := by
  rcases applyMem_cases s p with ⟨e, happly⟩ | ⟨r, s', happly, heval⟩
  · rw [happly]
    exact .refl
  · rw [happly]
    exact edited_of_ok heval

theorem get_applyMem (s : Store) {key : Bytes} (hp : ¬p.Touches key) :
    (applyMem s p).2.get key = s.get key :=
  (edited_applyMem s p).get_eq hp

theorem allRows_applyMem {P : Record → Prop} {s : Store} (hrows : AllRows P s)
    (hP : ∀ v, Written s p v → P v) : AllRows P (applyMem s p).2 :=
  (edited_applyMem s p).allRows hrows hP

end Hamster.Meta
