import Hamster.Meta.Addresses
import Hamster.Meta.Frames
import Hamster.Meta.CurrentIndex
import Hamster.Meta.Uploads
import Mathlib.Data.List.Nodup

/-!
# The row that owns a piece of data

A data ID is referred to by the rows of versions and of uploaded parts.
`Reference` says where a reference comes from: the row had it, the proposal
introduces the data ID, or a completion moves it from a part to the new version.

`Sole s d row` says that no other row refers to `d`.  Where every data ID is
introduced once, each has such a row all along: a version keeps what it owns
(`sole_version_applyMem`), a part keeps it until its upload is completed
(`Sole.step`), and what nobody refers to stays that way
(`not_referenced_applyMem`).
-/

namespace Hamster.Meta

open CodeLib Tx

def rowDataIDs : Record → List VersionID
  | .versionEntry e => e.dataIDs
  | .partRecord pr => [pr.dataID]
  | _ => []

/-- A version entry, a part reference or a part row refers to the data. -/
def Referenced (s : Store) (d : VersionID) : Prop := ∃ row ∈ s.rows, d ∈ rowDataIDs row.2
deriving Decidable

inductive DataRow where
  | version (b k : Bytes) (vid : VersionID)
  | part (b k : Bytes) (uid : VersionID) (n : UInt32)

def DataRow.Refers (s : Store) (d : VersionID) : DataRow → Prop
  | .version b k vid => ∃ e, versionAt s b k vid = some e ∧ d ∈ e.dataIDs
  | .part b k uid n => 0 ∉ b ∧ 0 ∉ k ∧ ∃ pr, partAt s b k uid n = some pr ∧ pr.dataID = d

theorem Typed.referenced_iff {s : Store} (hs : Typed s) {d : VersionID} :
    Referenced s d ↔ ∃ row : DataRow, row.Refers s d := by
  constructor
  · rintro ⟨⟨key, v⟩, hrow, hd⟩
    have hget := SortedKV.mem_rows.mp hrow
    obtain ⟨r, hr, henc, hv⟩ := hs key v hget
    have hlook : look s r = some v := by
      rw [look, henc]
      exact hget
    cases v with
    | versionEntry e =>
      cases r with
      | version b k vid => exact ⟨.version b k vid, e, by rw [versionAt, hlook]; rfl, hd⟩
      | _ => exact hv.elim
    | partRecord pr =>
      cases r with
      | part b k uid n =>
        exact ⟨.part b k uid n, hr.1, hr.2, pr, by rw [partAt, hlook]; rfl,
          (List.mem_singleton.mp hd).symm⟩
      | _ => exact hv.elim
    | _ => cases hd
  · rintro ⟨row, hrow⟩
    cases row with
    | version b k vid =>
      obtain ⟨e, hver, hd⟩ := hrow
      exact ⟨(_, _), SortedKV.mem_rows.mpr (look_of_versionAt hver), hd⟩
    | part b k uid n =>
      obtain ⟨-, -, pr, hpart, hd⟩ := hrow
      exact ⟨(_, _), SortedKV.mem_rows.mpr (look_of_partAt hpart), List.mem_singleton.mpr hd.symm⟩

/-! ## Where a reference comes from -/

def Proposal.dataRow (s : Store) : Proposal → Option DataRow
  | .putObject q =>
    some (.version q.bucket q.key (bumpedID q.versionID (versionList s q.bucket q.key).head?))
  | .completeMultipartUpload q =>
    some (.version q.bucket q.key (bumpedID q.versionID (versionList s q.bucket q.key).head?))
  | .reEncodeObject q => some (.version q.bucket q.key q.versionID)
  | .uploadPart q => some (.part q.bucket q.key q.uploadID q.partNumber)
  | _ => none

/-- Where a reference in the store after a proposal comes from. -/
inductive Reference (p : Proposal) (s s' : Store) (row : DataRow) (d : VersionID) : Prop where
  | kept (h : row.Refers s d)
  | introduced (hp : p.introduced = some d) (hrow : p.dataRow s = some row)
  | moved (q : CompleteMultipartUpload) (hp : p = .completeMultipartUpload q)
      (hrow : p.dataRow s = some row) (n : UInt32)
      (hpart : (DataRow.part q.bucket q.key q.uploadID n).Refers s d)
      (hgone : (∀ n, partAt s' q.bucket q.key q.uploadID n = none) ∧
        look s' (.upload q.bucket q.key q.uploadID) = none)

section Parts

variable {p : Proposal} {s s' : Store} {b k : Bytes} {uid : VersionID} {n : UInt32}
  {pr : PartRecord}

theorem Proposal.not_touches_upload (hp : p.multipart = false) {r : RowKey} (hr : r.IsUpload) :
    ¬p.Touches r.encode := by
  intro h
  have hhead := RowKey.head?_encode_of_isUpload hr
  rcases Proposal.cases_of_touches h with h | ⟨hp', -⟩ | ⟨r', hr', heq⟩
  · rw [hhead] at h
    simp at h
  · rw [hp] at hp'
    cases hp'
  · rw [heq, (Proposal.system_systemRow hr').shape.1] at hhead
    cases hhead

/-- What a proposal does to a row of an upload. -/
inductive UploadRowStep (p : Proposal) (s s' : Store) (row : RowKey) : Prop where
  | same (h : look s' row = look s row)
  | gone (h : look s' row = none)
  | created (q : CreateMultipartUpload) (hp : p = .createMultipartUpload q)
      (hrow : row = .upload q.bucket q.key q.uploadID)
  | uploaded (q : UploadPart) (hp : p = .uploadPart q)
      (hrow : row = .part q.bucket q.key q.uploadID q.partNumber)
      (h : look s' row = some (.partRecord (partRecordFor q)))

theorem uploadRowStep_deleteRows {s₀ : Store} {ks : List Bytes} {row : RowKey}
    (hstore : s' = ks.foldl SortedKV.delete s₀) (hbase : look s₀ row = look s row) :
    UploadRowStep p s s' row := by
  have hlook := look_deleteRows s₀ ks row
  rw [← hstore] at hlook
  split at hlook
  · exact .gone hlook
  · exact .same (hlook.trans hbase)

theorem uploadRowStep_applyMem (hs : Typed s) (p : Proposal) {row : RowKey} (hplain : row.Plain)
    (hrow : row.IsUpload) : UploadRowStep p s (applyMem s p).2 row := by
  have hother (hp : p.multipart = false) : UploadRowStep p s (applyMem s p).2 row :=
    .same (get_applyMem s (Proposal.not_touches_upload hp hrow))
  rcases applyMem_cases s p with ⟨e, happly⟩ | ⟨r, s₁, happly, heval⟩
  · rw [happly]
    exact .same rfl
  · rw [happly] at hother ⊢
    cases hsys : p.systemRow with
    | some r => exact hother (by cases p <;> first | rfl | cases hsys)
    | none =>
      cases applied_of_ok hsys heval with
      | createMultipartUpload q cfg hcfg hkey =>
        have hset := look_set (s := s) (.upload q.bucket q.key q.uploadID) row
          ⟨hs.plain_of_bucketAt hcfg, zero_notMem_of_validateObjectKey hkey⟩ hplain
          (.uploadRecord (newUploadRecord q))
        by_cases heq : row = .upload q.bucket q.key q.uploadID
        · exact .created q rfl heq
        · exact .same (hset.trans (if_neg heq))
      | uploadPart q cfg prior hcfg hkey =>
        have hset := look_set (s := s) (.part q.bucket q.key q.uploadID q.partNumber) row
          ⟨hs.plain_of_bucketAt hcfg, zero_notMem_of_validateObjectKey hkey⟩ hplain
          (.partRecord (partRecordFor q))
        by_cases heq : row = .part q.bucket q.key q.uploadID q.partNumber
        · exact .uploaded q rfl heq (hset.trans (if_pos heq))
        · exact .same (hset.trans (if_neg heq))
      | completeMultipartUpload q =>
        exact uploadRowStep_deleteRows rfl (sameUploads_commitStore _ _ _ row hrow)
      | abortMultipartUpload q => exact uploadRowStep_deleteRows rfl rfl
      | rewrite _ _ hnew => exact hother (by cases hnew <;> rfl)
      | _ => exact hother rfl

theorem part_applyMem (hs : Typed s) (hb : 0 ∉ b) (hk : 0 ∉ k)
    (h : partAt (applyMem s p).2 b k uid n = some pr) :
    partAt s b k uid n = some pr ∨
      ∃ q, p = .uploadPart q ∧
        RowKey.part b k uid n = .part q.bucket q.key q.uploadID q.partNumber ∧
        pr = partRecordFor q := by
  have hplain : (RowKey.part b k uid n).Plain := ⟨hb, hk⟩
  cases uploadRowStep_applyMem hs p hplain trivial with
  | same hlook =>
    rw [partAt, hlook] at h
    exact Or.inl h
  | gone hlook =>
    rw [partAt, hlook] at h
    cases h
  | created q _ hrow => cases hrow
  | uploaded q hp hrow hlook =>
    rw [partAt, hlook] at h
    exact Or.inr ⟨q, hp, hrow, (Option.some.inj h).symm⟩

theorem completed_gone (hs : Typed s) (hb : 0 ∉ b) (hk : 0 ∉ k) (e : VersionEntry) :
    (∀ n, partAt ((completedRows s b k uid).foldl SortedKV.delete (commitStore s b k e)) b k uid n =
      none) ∧
    look ((completedRows s b k uid).foldl SortedKV.delete (commitStore s b k e)) (.upload b k uid) =
      none := by
  constructor
  · intro n
    have hbase := sameUploads_commitStore (s := s) b k e (.part b k uid n) trivial
    rw [partAt, look_deleteRows]
    split
    · rfl
    next hrow =>
      rw [hbase]
      -- a part that is there is among the deleted ones
      refine Option.eq_none_iff_forall_ne_some.mpr (fun pr hpr => hrow ?_)
      have hn := hs.partNumber_of_partAt hb hk hpr
      have hmem : pr ∈ partList s b k uid := (hs.mem_partList hb hk).mpr (hn ▸ hpr)
      refine List.mem_cons_of_mem _ (List.mem_map.mpr ⟨pr, hmem, ?_⟩)
      rw [hn]
      rfl
  · rw [look_deleteRows, completedRows, RowKey.encode, if_pos List.mem_cons_self]

end Parts

variable {vid : VersionID}

section References

variable {p : Proposal} {s s' : Store} {d : VersionID} {row row' : DataRow}

theorem mem_dataIDs_whole {e : VersionEntry} (hparts : e.parts = []) (h : d ∈ e.dataIDs) :
    d = e.dataID := by
  rw [VersionEntry.dataIDs, if_neg (by simp [hparts])] at h
  split at h
  · cases h
  · exact List.mem_singleton.mp h

theorem not_mem_dataIDs_marker {q : DeleteObject} {cfg : BucketConfig} :
    d ∉ (markerEntry q cfg vid).dataIDs := by
  intro h
  cases h

theorem dataIDs_completeEntry (q : CompleteMultipartUpload) (cfg : BucketConfig) (u : UploadRecord)
    (parts : List PartRecord) (vid : VersionID) :
    (completeEntry q cfg u parts vid).dataIDs = parts.map PartRecord.dataID := by
  cases parts with
  | nil => rfl
  | cons pr rest => simp [VersionEntry.dataIDs, completeEntry, partRefFor]

variable {b k : Bytes}

/-- A version comes from its row, from a PUT, from a completion or from a
re-encoding. -/
theorem version_reference (hs : Typed s) (hp : ∀ q, p ≠ .completeMultipartUpload q)
    (h : (DataRow.version b k vid).Refers (applyMem s p).2 d) :
    Reference p s (applyMem s p).2 (.version b k vid) d := by
  obtain ⟨e, hver, hd⟩ := h
  cases origin_applyMem hs hver with
  | kept hold => exact .kept ⟨e, hold, hd⟩
  | committed hnew minted hminted hb hk hid =>
    cases hnew with
    | put q cfg hq htarget he =>
      subst hq
      obtain ⟨rfl, rfl⟩ := htarget
      rw [he] at hd
      have hdata : d = q.versionID := mem_dataIDs_whole rfl hd
      obtain rfl : minted = q.versionID := List.mem_singleton.mp hminted
      exact .introduced (congrArg some hdata.symm) (by rw [Proposal.dataRow, ← hid])
    | marker q cfg hq htarget he =>
      rw [he] at hd
      exact absurd hd not_mem_dataIDs_marker
    | completed q cfg upload parts hq => exact absurd hq (hp q)
  | rewritten e₀ hold hnew =>
    cases hnew with
    | retention q _ _ _ he | hold q _ he | rewrapped q _ he =>
      rw [he] at hd
      exact .kept ⟨e₀, hold, hd⟩
    | reEncoded q htarget hwhole he =>
      obtain ⟨rfl, rfl, rfl⟩ := htarget
      rw [he] at hd
      have hdata : d = (reEncodedEntry e₀ q).dataID := mem_dataIDs_whole hwhole.2 hd
      exact .introduced (congrArg some hdata.symm) rfl

theorem completed_reference (hs : Typed s) (q : CompleteMultipartUpload)
    (h : (DataRow.version b k vid).Refers (applyMem s (.completeMultipartUpload q)).2 d) :
    Reference (.completeMultipartUpload q) s (applyMem s (.completeMultipartUpload q)).2
      (.version b k vid) d := by
  rcases applyMem_cases s (.completeMultipartUpload q) with ⟨e, happly⟩ | ⟨r, s₁, happly, heval⟩
  · rw [happly] at h
    exact .kept h
  · rw [happly] at h ⊢
    cases applied_of_ok rfl heval with
    | rewrite _ _ hnew => cases hnew
    | completeMultipartUpload _ cfg u parts vid' hadmitted _ _ _ hparts =>
      obtain ⟨hb, hk⟩ := hadmitted.plain hs
      obtain ⟨e, hver, hd⟩ := h
      rw [(sameHistory_deleteRows outside_completedRows _).versionAt_eq] at hver
      rcases hs.versionAt_commitStore hb hk hver with ⟨rfl, rfl, rfl, rfl⟩ | ⟨-, hold⟩
      · rw [dataIDs_completeEntry] at hd
        obtain ⟨pr, hpr, rfl⟩ := List.mem_map.mp hd
        have hstored := (hs.mem_partList hb hk).mp ((of_assembleParts hparts).1 pr hpr)
        refine .moved q rfl ?_ pr.partNumber ⟨hb, hk, pr, hstored, rfl⟩ (completed_gone hs hb hk _)
        rw [Proposal.dataRow, ← hadmitted.id]
        rfl
      · exact .kept ⟨e, versionAt_of_commitBase hold, hd⟩

theorem reference_applyMem (hs : Typed s) (h : row.Refers (applyMem s p).2 d) :
    Reference p s (applyMem s p).2 row d := by
  cases row with
  | version b k vid =>
    cases p with
    | completeMultipartUpload q => exact completed_reference hs q h
    | _ => exact version_reference hs (by rintro q ⟨⟩) h
  | part b k uid n =>
    obtain ⟨hb, hk, pr, hpart, hd⟩ := h
    rcases part_applyMem hs hb hk hpart with hold | ⟨q, rfl, hrow, rfl⟩
    · exact .kept ⟨hb, hk, pr, hold, hd⟩
    · cases hrow
      exact .introduced (congrArg some hd) rfl

theorem not_referenced_applyMem (hs : Typed s) (hp : p.introduced ≠ some d)
    (h : ¬Referenced s d) : ¬Referenced (applyMem s p).2 d := by
  rw [hs.referenced_iff] at h
  rw [(typed_applyMem hs p).referenced_iff]
  rintro ⟨row, hrow⟩
  cases reference_applyMem hs hrow with
  | kept hold => exact h ⟨row, hold⟩
  | introduced hintroduced => exact hp hintroduced
  | moved q _ _ n hpart => exact h ⟨_, hpart⟩

/-! ## One owner -/

def Sole (s : Store) (d : VersionID) (row : DataRow) : Prop := ∀ row', row'.Refers s d → row' = row

variable (hs : Typed s)

include hs

theorem sole_of_not_referenced (h : ¬Referenced s d) (row : DataRow) : Sole s d row :=
  fun row' hrow' => absurd (hs.referenced_iff.mpr ⟨row', hrow'⟩) h

theorem Sole.not_referenced (h : Sole s d row) (hrow : ¬row.Refers s d) : ¬Referenced s d := by
  rw [hs.referenced_iff]
  rintro ⟨row', hrow'⟩
  exact hrow (h row' hrow' ▸ hrow')

theorem exists_sole_of_introduced (h : ¬Referenced s d) (hp : p.introduced = some d) :
    ∃ row, Sole (applyMem s p).2 d row := by
  have hrow : ∃ row, p.dataRow s = some row := by
    cases p with
    | putObject q | uploadPart q | reEncodeObject q => exact ⟨_, rfl⟩
    | _ => cases hp
  obtain ⟨row, hrow⟩ := hrow
  rw [hs.referenced_iff] at h
  refine ⟨row, fun row' hrow' => ?_⟩
  cases reference_applyMem hs hrow' with
  | kept hold => exact absurd ⟨row', hold⟩ h
  | introduced _ htarget => exact Option.some.inj (htarget.symm.trans hrow)
  | moved q _ _ n hpart => exact absurd ⟨_, hpart⟩ h

/-- The owner stays, or it is a part whose upload is completed and the new version
takes over. -/
theorem Sole.step (h : Sole s d row) (hp : p.introduced ≠ some d) :
    Sole (applyMem s p).2 d row ∨
      ∃ q n row', p = .completeMultipartUpload q ∧ row = .part q.bucket q.key q.uploadID n ∧
        look (applyMem s p).2 (.upload q.bucket q.key q.uploadID) = none ∧
        Sole (applyMem s p).2 d row' := by
  by_cases hkept : ∀ row' : DataRow, row'.Refers (applyMem s p).2 d → row'.Refers s d
  · exact Or.inl (fun row' hrow' => h row' (hkept row' hrow'))
  · -- a row that did not refer to the data before has it from a completion
    obtain ⟨row', hrow'⟩ := not_forall.mp hkept
    obtain ⟨hnew, hold⟩ := Classical.not_imp.mp hrow'
    cases reference_applyMem hs hnew with
    | kept hkept => exact absurd hkept hold
    | introduced hintroduced => exact absurd hintroduced hp
    | moved q hq htarget n hpart hgone =>
      refine Or.inr ⟨q, n, row', hq, (h _ hpart).symm, hgone.2, fun other hother => ?_⟩
      cases reference_applyMem hs hother with
      | kept hkept =>
        obtain rfl := (h other hkept).trans (h _ hpart).symm
        obtain ⟨-, -, pr, hpr, -⟩ := hother
        rw [hgone.1 n] at hpr
        cases hpr
      | introduced hintroduced => exact absurd hintroduced hp
      | moved _ _ htarget' => exact Option.some.inj (htarget'.symm.trans htarget)

theorem sole_version_applyMem (hp : p.introduced ≠ some d) (h : Sole s d (.version b k vid)) :
    Sole (applyMem s p).2 d (.version b k vid) := by
  rcases h.step hs hp with hkept | ⟨q, n, row', -, hrow, -⟩
  · exact hkept
  · cases hrow

end References

/-! ## Removals -/

section Removals

variable {s s' : Store} {d : VersionID}

theorem deleteObject_freed (hs : Typed s) {q : DeleteObject} {r : DeleteObjectResult}
    (h : Applied s (.deleteObject q) (.deleteObject r) s') (hd : d ∈ r.removedDataIDs) :
    ∃ vid, (DataRow.version q.bucket q.key vid).Refers s d ∧
      ¬(DataRow.version q.bucket q.key vid).Refers s' d := by
  cases h with
  | deleteNothing => cases hd
  | deleteOnly _ cfg e hcfg hkey _ hnewest =>
    have hb := hs.plain_of_bucketAt hcfg
    have hk := zero_notMem_of_validateObjectKey hkey
    have hold := (hs.mem_versionList hb hk).mp (List.mem_of_mem_head? hnewest)
    refine ⟨e.versionID, ⟨e, hold, hd⟩, ?_⟩
    rintro ⟨e', hver, -⟩
    rw [versionAt_putCurrent, versionAt_delete hb hk hb hk, if_pos ⟨rfl, rfl, rfl⟩] at hver
    cases hver
  | insertMarker _ cfg vid _ h =>
    -- the null version, if the marker replaces one
    obtain ⟨hb, hk⟩ := h.plain hs
    rw [replacedIDs] at hd
    split at hd
    next hnull =>
      cases hentry : nullEntry s q.bucket q.key with
      | none =>
        rw [hentry] at hd
        cases hd
      | some e =>
        rw [hentry] at hd
        have hold := (hs.mem_versionList hb hk).mp (List.mem_of_find?_eq_some hentry)
        refine ⟨e.versionID, ⟨e, hold, hd⟩, ?_⟩
        rintro ⟨e', hver, hd'⟩
        rcases hs.versionAt_commitStore hb hk hver with ⟨-, -, -, rfl⟩ | ⟨-, hbase⟩
        · exact not_mem_dataIDs_marker hd'
        · rw [hnull, commitBase, if_pos rfl, dropNull, hentry] at hbase
          dsimp only at hbase
          rw [versionAt_delete hb hk hb hk, if_pos ⟨rfl, rfl, rfl⟩] at hbase
          cases hbase
    next => cases hd

theorem deleteVersion_removed (hs : Typed s) {q : DeleteVersion} {r : DeleteVersionResult}
    (h : Applied s (.deleteVersion q) (.deleteVersion r) s') (hr : r.removed = true) :
    versionAt s' q.bucket q.key q.versionID = none ∧ 0 ∉ q.bucket ∧ 0 ∉ q.key := by
  cases h with
  | deleteAbsent => cases hr
  | deleteVersion _ e hold =>
    obtain ⟨hb, hk, hvid⟩ := hs.of_versionAt hold
    have hgone : versionAt (s.delete (versionRowKey q.bucket q.key e.versionID)) q.bucket q.key
        q.versionID = none := by
      rw [versionAt_delete hb hk hb hk, if_pos ⟨rfl, rfl, hvid.symm⟩]
    refine ⟨?_, hb, hk⟩
    unfold removeStore
    dsimp only
    split
    · rw [versionAt_putCurrent]
      exact hgone
    · exact hgone

theorem abortMultipartUpload_gone (hs : Typed s) {q : AbortMultipartUpload} {r : ApplyResult}
    (h : Applied s (.abortMultipartUpload q) r s') :
    0 ∉ q.bucket ∧ 0 ∉ q.key ∧ look s (.upload q.bucket q.key q.uploadID) ≠ none ∧
      ∀ n, partAt s' q.bucket q.key q.uploadID n = none := by
  cases h with
  | rewrite _ _ hnew => cases hnew
  | abortMultipartUpload _ cfg hcfg hkey hupload =>
    refine ⟨hs.plain_of_bucketAt hcfg, zero_notMem_of_validateObjectKey hkey, hupload, fun n => ?_⟩
    rw [partAt, look_deleteRows]
    split
    · rfl
    next hrow =>
      cases hpart : look s (.part q.bucket q.key q.uploadID n) with
      | none => rfl
      | some v =>
        have hmem : (partRowKey q.bucket q.key q.uploadID n, v) ∈
            s.rowsUnder (uploadRowKey q.bucket q.key q.uploadID) :=
          SortedKV.mem_rowsUnder.mpr ⟨hpart, List.prefix_append _ _⟩
        exact absurd (List.mem_map.mpr ⟨_, hmem, rfl⟩) hrow

/-- A version has data of its own or parts. -/
def WholeOrParts (s : Store) : Prop :=
  ∀ b k vid e, versionAt s b k vid = some e → e.parts ≠ [] → e.dataID = VersionID.zero

theorem wholeOrParts_applyMem (hs : Typed s) (h : WholeOrParts s) (p : Proposal) :
    WholeOrParts (applyMem s p).2 := by
  intro b k vid e hver hparts
  cases origin_applyMem hs hver with
  | kept hold => exact h b k vid e hold hparts
  | committed hnew =>
    cases hnew with
    | put q cfg _ _ he | marker q cfg _ _ he =>
      rw [he] at hparts
      exact absurd rfl hparts
    | completed q cfg upload parts _ _ he =>
      rw [he]
      rfl
  | rewritten e₀ hold hnew =>
    cases hnew with
    | retention q _ _ _ he | hold q _ he | rewrapped q _ he =>
      subst he
      exact h b k vid e₀ hold hparts
    | reEncoded q _ hwhole he =>
      -- a version with parts is not re-encoded
      subst he
      exact absurd hwhole.2 hparts

end Removals

/-! ## Whole logs -/

def Proposal.createdUpload : Proposal → Option (Bytes × Bytes × VersionID)
  | .createMultipartUpload q => some (q.bucket, q.key, q.uploadID)
  | _ => none

/-- No data ID enters the log twice, none is zero, and no upload is created twice. -/
structure Unrepeated (log : List Proposal) : Prop where
  ids : (log.filterMap Proposal.introduced).Nodup
  nonzero : VersionID.zero ∉ log.filterMap Proposal.introduced
  uploads : (log.filterMap Proposal.createdUpload).Nodup

section Logs

variable {log log' : List Proposal} {d : VersionID} {b k : Bytes} {uid : VersionID}

theorem runMem_append (s : Store) (log log' : List Proposal) :
    runMem s (log ++ log') = runMem (runMem s log) log' := List.foldl_append

theorem runMem_concat (s : Store) (log : List Proposal) (p : Proposal) :
    runMem s (log ++ [p]) = (applyMem (runMem s log) p).2 := runMem_append s log [p]

theorem mem_introduced_of_referenced (h : Referenced (runMem newStore log) d) :
    d ∈ log.filterMap Proposal.introduced := by
  by_contra hnot
  refine typed_newStore.invariant not_referenced_applyMem
    (fun p hp hd => hnot (List.mem_filterMap.mpr ⟨p, hp, hd⟩)) ?_ h
  exact fun ⟨row, hrow, _⟩ => absurd hrow List.not_mem_nil

theorem exists_sole (h : (log.filterMap Proposal.introduced).Nodup) (d : VersionID) :
    ∃ row, Sole (runMem newStore log) d row := by
  induction log using List.reverseRecOn with
  | nil =>
    have hnone : ¬Referenced (runMem newStore []) d :=
      fun href => absurd (mem_introduced_of_referenced href) List.not_mem_nil
    exact ⟨.version [] [] VersionID.zero, sole_of_not_referenced (typed_runMem []) hnone _⟩
  | append_singleton log p ih =>
    rw [List.filterMap_append] at h
    have hs := typed_runMem log
    rw [runMem_concat]
    by_cases hp : p.introduced = some d
    · refine exists_sole_of_introduced hs (fun href => ?_) hp
      have hmem : d ∈ [p].filterMap Proposal.introduced := by simp [hp]
      exact (List.nodup_append.mp h).2.2 d (mem_introduced_of_referenced href) d hmem rfl
    · obtain ⟨row, hrow⟩ := ih (List.nodup_append.mp h).1
      rcases hrow.step hs hp with hkept | ⟨_, _, row', _, _, _, hmoved⟩
      · exact ⟨row, hkept⟩
      · exact ⟨row', hmoved⟩

theorem sole_of_refers (h : (log.filterMap Proposal.introduced).Nodup) {row : DataRow}
    (hrow : row.Refers (runMem newStore log) d) : Sole (runMem newStore log) d row := by
  obtain ⟨owner, howner⟩ := exists_sole h d
  rw [howner row hrow]
  exact howner

theorem nodup_filterMap_concat {α β : Type} {f : α → Option β} {l : List α} {a : α}
    (h : (l.filterMap f).Nodup) (ha : ∀ y ∈ f a, y ∉ l.filterMap f) :
    ((l ++ [a]).filterMap f).Nodup := by
  rw [List.filterMap_append]
  cases hf : f a with
  | none => simpa [hf] using h
  | some y =>
    rw [List.filterMap_cons_some hf, List.filterMap_nil]
    refine List.nodup_append.mpr ⟨h, List.nodup_singleton y, fun x hx y' hy' heq => ?_⟩
    exact ha y hf (List.mem_singleton.mp hy' ▸ heq ▸ hx)

theorem Unrepeated.of_append (h : Unrepeated (log ++ log')) : Unrepeated log := by
  obtain ⟨hids, hzero, huploads⟩ := h
  rw [List.filterMap_append] at hids hzero huploads
  exact ⟨(List.nodup_append.mp hids).1, fun hmem => hzero (List.mem_append_left _ hmem),
    (List.nodup_append.mp huploads).1⟩

theorem Unrepeated.concat (h : Unrepeated log) {p : Proposal}
    (hids : ∀ d ∈ p.introduced, d ≠ VersionID.zero ∧ d ∉ log.filterMap Proposal.introduced)
    (huploads : ∀ u ∈ p.createdUpload, u ∉ log.filterMap Proposal.createdUpload) :
    Unrepeated (log ++ [p]) where
  ids := nodup_filterMap_concat h.ids (fun d hd => (hids d hd).2)
  nonzero := by
    rw [List.filterMap_append, List.mem_append]
    rintro (hold | hnew)
    · exact h.nonzero hold
    · obtain ⟨p', hp', hzero⟩ := List.mem_filterMap.mp hnew
      rw [List.mem_singleton.mp hp'] at hzero
      exact (hids _ hzero).1 rfl
  uploads := nodup_filterMap_concat h.uploads huploads

theorem Unrepeated.not_introduced (h : Unrepeated (log ++ log'))
    (hd : d ∈ log.filterMap Proposal.introduced ∨ d = VersionID.zero) :
    ∀ p ∈ log', p.introduced ≠ some d := by
  intro p hp hintroduced
  have hmem : d ∈ log'.filterMap Proposal.introduced := List.mem_filterMap.mpr ⟨p, hp, hintroduced⟩
  rcases hd with hd | rfl
  · have hids := h.ids
    rw [List.filterMap_append] at hids
    exact (List.nodup_append.mp hids).2.2 d hd d hmem rfl
  · refine h.nonzero ?_
    rw [List.filterMap_append]
    exact List.mem_append_right _ hmem

theorem not_referenced_run (h : ∀ p ∈ log', p.introduced ≠ some d)
    (hnot : ¬Referenced (runMem newStore log) d) :
    ¬Referenced (runMem newStore (log ++ log')) d := by
  rw [runMem_append]
  exact (typed_runMem log).invariant not_referenced_applyMem h hnot

theorem sole_version_run (h : ∀ p ∈ log', p.introduced ≠ some d)
    (hsole : Sole (runMem newStore log) d (.version b k vid)) :
    Sole (runMem newStore (log ++ log')) d (.version b k vid) := by
  rw [runMem_append]
  exact (typed_runMem log).invariant sole_version_applyMem h hsole

theorem wholeOrParts_run (log : List Proposal) : WholeOrParts (runMem newStore log) := by
  refine typed_newStore.invariant (C := fun _ => True)
    (fun hs _ h => wholeOrParts_applyMem hs h _) (fun _ _ => trivial) ?_
  intro b k vid e hver
  cases hver

/-- The rows of every store that proposals lead to fit together. -/
theorem consistent_runMem (ps : List Proposal) :
    Base (runMem newStore ps) ∧ Named (runMem newStore ps) ∧ Keyed (runMem newStore ps) ∧
      WholeOrParts (runMem newStore ps) :=
  ⟨base_runMem ps, named_runMem ps, keyed_runMem ps, wholeOrParts_run ps⟩

/-! ### Uploads -/

theorem upload_applyMem {s : Store} {p : Proposal} (hs : Typed s) (hb : 0 ∉ b) (hk : 0 ∉ k)
    (h : look (applyMem s p).2 (.upload b k uid) ≠ none) :
    look s (.upload b k uid) ≠ none ∨ p.createdUpload = some (b, k, uid) := by
  have hplain : (RowKey.upload b k uid).Plain := ⟨hb, hk⟩
  cases uploadRowStep_applyMem hs p hplain trivial with
  | same hlook =>
    rw [hlook] at h
    exact Or.inl h
  | gone hlook => exact absurd hlook h
  | created q hp hrow =>
    cases hrow
    exact Or.inr (congrArg Proposal.createdUpload hp)
  | uploaded q _ hrow => cases hrow

theorem mem_created_of_upload (hb : 0 ∉ b) (hk : 0 ∉ k)
    (h : look (runMem newStore log) (.upload b k uid) ≠ none) :
    (b, k, uid) ∈ log.filterMap Proposal.createdUpload := by
  induction log using List.reverseRecOn with
  | nil => exact absurd rfl h
  | append_singleton log p ih =>
    rw [runMem_concat] at h
    rw [List.filterMap_append, List.mem_append]
    rcases upload_applyMem (typed_runMem log) hb hk h with hold | hcreated
    · exact Or.inl (ih hold)
    · exact Or.inr (by simp [hcreated])

theorem Unrepeated.upload_gone (h : Unrepeated (log ++ log')) (hb : 0 ∉ b) (hk : 0 ∉ k)
    (hcreated : (b, k, uid) ∈ log.filterMap Proposal.createdUpload)
    (hgone : look (runMem newStore log) (.upload b k uid) = none) :
    look (runMem newStore (log ++ log')) (.upload b k uid) = none := by
  have hnot : ∀ p ∈ log', p.createdUpload ≠ some (b, k, uid) := by
    intro p hp heq
    have huploads := h.uploads
    rw [List.filterMap_append] at huploads
    exact (List.nodup_append.mp huploads).2.2 _ hcreated _
      (List.mem_filterMap.mpr ⟨p, hp, heq⟩) rfl
  rw [runMem_append]
  refine (typed_runMem log).invariant (I := fun s => look s (.upload b k uid) = none)
    (fun hs hp hnone => ?_) hnot hgone
  by_contra hsome
  exact (upload_applyMem hs hb hk hsome).elim (fun hold => hold hnone) hp

end Logs

end Hamster.Meta
