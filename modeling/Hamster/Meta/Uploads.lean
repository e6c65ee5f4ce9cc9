import Hamster.CodeLib.Lists
import Hamster.Meta.VersionStep

/-!
# The rows of an upload

An upload is one row, and its parts are the rows that have the upload's row
key in front of a part number.  `partList` is what a scan under that key
yields besides the upload itself.  Under `Typed` it holds exactly the stored
parts in part-number order (`mem_partList`, `partList_sorted`), which is the
order in which the source hands data addresses back.

`SameUploads` is the counterpart of `SameHistory`: rows whose first byte is
not that of an upload have no part in it.  `SameBut` is the frame of the
multipart operations: they touch the rows of one upload.
-/

namespace Hamster.Meta

open CodeLib

def partAt (s : Store) (b k : Bytes) (uid : VersionID) (n : UInt32) : Option PartRecord :=
  (look s (.part b k uid n)).bind Record.part?

variable {pr : PartRecord}

section UploadRows

variable {s s' : Store} {b k : Bytes} {uid : VersionID}

/-- The rows under the row key of an upload are its own and those of its
parts. -/
theorem Typed.of_mem_uploadRows (hs : Typed s) (hb : 0 ∉ b) (hk : 0 ∉ k)
    {r : Bytes × Record} (h : r ∈ s.rowsUnder (uploadRowKey b k uid)) :
    (∃ u, r = (uploadRowKey b k uid, .uploadRecord u)) ∨
      ∃ pr, r = (partRowKey b k uid pr.partNumber, .partRecord pr) := by
  obtain ⟨r₀, hr₀, hkey, hv, hpre⟩ := hs.of_mem_rowsUnder h
  rcases (RowKey.under_upload hr₀ hb hk).mp hpre with rfl | ⟨n, rfl⟩
  · obtain ⟨u, hu⟩ := hv.upload
    exact Or.inl ⟨u, Prod.ext hkey hu⟩
  · obtain ⟨pr, hpr, rfl⟩ := hv.part
    exact Or.inr ⟨pr, Prod.ext hkey hpr⟩

theorem Typed.uploadRow_of_mem (hs : Typed s) (hb : 0 ∉ b)
    {row : Bytes × Record} (h : row ∈ s.rowsUnder (uploadsScanPrefix b)) :
    (∃ k uid u, 0 ∉ k ∧ row = (uploadRowKey b k uid, .uploadRecord u)) ∨
      ∃ k uid n pr, 0 ∉ k ∧ row = (partRowKey b k uid n, .partRecord pr) := by
  obtain ⟨r, hr, hkey, hv, hpre⟩ := hs.of_mem_rowsUnder h
  rw [← List.append_nil (uploadsScanPrefix b)] at hpre
  rcases (RowKey.under_uploads hr hb).mp hpre with ⟨k, uid, rfl, -⟩ | ⟨k, uid, n, rfl, -⟩
  · obtain ⟨u, hu⟩ := hv.upload
    exact Or.inl ⟨k, uid, u, hr.2, Prod.ext hkey hu⟩
  · obtain ⟨pr, hpr, -⟩ := hv.part
    exact Or.inr ⟨k, uid, n, pr, hr.2, Prod.ext hkey hpr⟩

variable {n : UInt32}

theorem look_of_partAt (h : partAt s b k uid n = some pr) :
    look s (.part b k uid n) = some (.partRecord pr) := by
  obtain ⟨v, hv, hpr⟩ := Option.bind_eq_some_iff.mp h
  cases v <;> cases hpr
  exact hv

theorem Typed.mem_partList (hs : Typed s) (hb : 0 ∉ b) (hk : 0 ∉ k) :
    pr ∈ partList s b k uid ↔ partAt s b k uid pr.partNumber = some pr := by
  rw [partList, List.mem_filterMap]
  constructor
  · intro h
    obtain ⟨r, hr, hpr⟩ := h
    rcases hs.of_mem_uploadRows hb hk hr with ⟨u, rfl⟩ | ⟨pr', rfl⟩
    · cases hpr
    · cases hpr
      exact Option.bind_eq_some_iff.mpr ⟨_, (SortedKV.mem_rowsUnder.mp hr).1, rfl⟩
  · intro h
    exact ⟨(partRowKey b k uid pr.partNumber, .partRecord pr),
      SortedKV.mem_rowsUnder.mpr ⟨look_of_partAt h, List.prefix_append _ _⟩, rfl⟩

theorem partRowKey_lt_iff {m : UInt32} :
    partRowKey b k uid n < partRowKey b k uid m ↔ n.toNat < m.toNat := by
  have hlen : (putUint32 n).length = (putUint32 m).length := rfl
  rw [partRowKey, partRowKey, append_lt_append_left_iff, lt_iff_beNat_lt hlen,
    beNat_putUint32, beNat_putUint32]

theorem Typed.partList_sorted (hs : Typed s) (hb : 0 ∉ b) (hk : 0 ∉ k) :
    (partList s b k uid).Pairwise (fun p q => p.partNumber.toNat < q.partNumber.toNat) := by
  rw [partList, List.pairwise_filterMap]
  refine (s.rowsUnder_sorted (uploadRowKey b k uid)).imp_of_mem ?_
  intro r r' hr hr' hlt p hp q hq
  rcases hs.of_mem_uploadRows hb hk hr with ⟨u, rfl⟩ | ⟨p', rfl⟩
  · cases hp
  · rcases hs.of_mem_uploadRows hb hk hr' with ⟨u, rfl⟩ | ⟨q', rfl⟩
    · cases hq
    · cases hp
      cases hq
      exact partRowKey_lt_iff.mp hlt

theorem Typed.partList_inj (hs : Typed s) (hb : 0 ∉ b) (hk : 0 ∉ k) (uid : VersionID) :
    ∀ p ∈ partList s b k uid, ∀ q ∈ partList s b k uid,
      p.partNumber = q.partNumber → p = q := by
  intro p hp q hq hnum
  have hlook := (hs.mem_partList hb hk).mp hp
  rw [hnum, (hs.mem_partList hb hk).mp hq] at hlook
  cases hlook
  rfl

theorem Typed.partList_eq (hs : Typed s) (hb : 0 ∉ b) (hk : 0 ∉ k) {l : List PartRecord}
    (hl : l.Pairwise (fun p q => p.partNumber.toNat < q.partNumber.toNat))
    (hmem : ∀ pr, pr ∈ l ↔ partAt s b k uid pr.partNumber = some pr) :
    partList s b k uid = l := by
  have hirrefl : Std.Irrefl (fun p q : PartRecord =>
      p.partNumber.toNat < q.partNumber.toNat) := ⟨fun _ => Nat.lt_irrefl _⟩
  have htrans : IsTrans PartRecord (fun p q =>
      p.partNumber.toNat < q.partNumber.toNat) := ⟨fun _ _ _ h h' => Nat.lt_trans h h'⟩
  refine eq_of_sorted_of_mem_iff (hs.partList_sorted hb hk) hl (fun pr => ?_)
  rw [hs.mem_partList hb hk, hmem]

theorem Typed.partList_congr (hs : Typed s) (hs' : Typed s') (hb : 0 ∉ b) (hk : 0 ∉ k)
    (h : ∀ n, partAt s' b k uid n = partAt s b k uid n) :
    partList s' b k uid = partList s b k uid := by
  refine hs'.partList_eq hb hk (hs.partList_sorted hb hk) (fun pr => ?_)
  rw [hs.mem_partList hb hk, h]

variable (hs : Typed s) (hb : 0 ∉ b) (hk : 0 ∉ k)

include hs hb hk

theorem Typed.get_part (n : UInt32) :
    s.get (partRowKey b k uid n) = (partAt s b k uid n).map .partRecord :=
  look_eq_map (r := .part b k uid n) (fun _ => rfl)
    (fun hv => (hs.holds (r := .part b k uid n) ⟨hb, hk⟩ hv).part.imp (fun _ h => h.1))

theorem Typed.partNumber_of_partAt (h : partAt s b k uid n = some pr) : pr.partNumber = n :=
  hs.holds (r := .part b k uid n) ⟨hb, hk⟩ (look_of_partAt h)

theorem Typed.partAt_eq_find? (n : UInt32) :
    partAt s b k uid n = (partList s b k uid).find? (fun pr => pr.partNumber = n) := by
  cases hfind : (partList s b k uid).find? (fun pr => pr.partNumber = n) with
  | some pr =>
    have hn : pr.partNumber = n := by simpa using List.find?_some hfind
    rw [← hn]
    exact (hs.mem_partList hb hk).mp (List.mem_of_find?_eq_some hfind)
  | none =>
    rw [List.find?_eq_none] at hfind
    rw [Option.eq_none_iff_forall_ne_some]
    intro pr hpr
    have hn := hs.partNumber_of_partAt hb hk hpr
    exact hfind pr ((hs.mem_partList hb hk).mpr (hn ▸ hpr)) (by simpa using hn)

end UploadRows

/-! ## Frames -/

def SameUploads (s s' : Store) : Prop := ∀ r : RowKey, r.IsUpload → look s' r = look s r

section UploadFrame

variable {s s' s'' : Store}

theorem SameUploads.refl (s : Store) : SameUploads s s := fun _ _ => rfl

theorem SameUploads.trans (h : SameUploads s s') (h' : SameUploads s' s'') :
    SameUploads s s'' :=
  fun r hr => (h' r hr).trans (h r hr)

theorem RowKey.head?_encode_of_isUpload {r : RowKey} (hr : r.IsUpload) :
    r.encode.head? = some 117 := by
  cases r with
  | upload b k uid | part b k uid n => rfl
  | _ => exact hr.elim

variable {key : Bytes}

theorem sameUploads_set (hkey : key.head? ≠ some 117) (v : Record) :
    SameUploads s (s.set key v) := by
  intro r hr
  refine SortedKV.get_set_of_ne s v (fun h => hkey ?_)
  rw [← h]
  exact RowKey.head?_encode_of_isUpload hr

theorem sameUploads_delete (hkey : key.head? ≠ some 117) : SameUploads s (s.delete key) := by
  intro r hr
  refine SortedKV.get_delete_of_ne s (fun h => hkey ?_)
  rw [← h]
  exact RowKey.head?_encode_of_isUpload hr

theorem SameUploads.uploadAt_eq (h : SameUploads s s') (b k : Bytes) (uid : VersionID) :
    uploadAt s' b k uid = uploadAt s b k uid := by
  unfold uploadAt
  rw [h (.upload b k uid) trivial]

theorem SameUploads.partList_eq (h : SameUploads s s') (hs : Typed s) (hs' : Typed s')
    {b k : Bytes} (hb : 0 ∉ b) (hk : 0 ∉ k) (uid : VersionID) :
    partList s' b k uid = partList s b k uid :=
  hs.partList_congr hs' hb hk
    (fun n => congrArg (·.bind Record.part?) (h (.part b k uid n) trivial))

theorem sameUploads_putCurrent (b k : Bytes) (c : Option CurrentRecord) :
    SameUploads s (putCurrent s b k c) := by
  have hkey : (currentRowKey b k).head? ≠ some 117 := by simp [currentRowKey]
  cases c with
  | none => exact sameUploads_delete hkey
  | some c => exact sameUploads_set hkey _

theorem sameUploads_putBucket (b : Bytes) (c : Option BucketConfig) :
    SameUploads s (putBucket s b c) := by
  have hkey : (bucketRowKey b).head? ≠ some 117 := by simp [bucketRowKey, bucketScanPrefix]
  cases c with
  | none => exact sameUploads_delete hkey
  | some cfg => exact sameUploads_set hkey _

theorem head?_versionRowKey (b k : Bytes) (vid : VersionID) :
    (versionRowKey b k vid).head? ≠ some 117 := by simp [versionRowKey]

theorem sameUploads_commitStore (b k : Bytes) (e : VersionEntry) :
    SameUploads s (commitStore s b k e) := by
  have hbase : SameUploads s (commitBase s b k e.nullVersion) := by
    unfold commitBase dropNull
    split
    · split
      · exact SameUploads.refl s
      · exact sameUploads_delete (head?_versionRowKey _ _ _)
    · exact SameUploads.refl s
  exact (hbase.trans (sameUploads_set (head?_versionRowKey _ _ _) _)).trans
    (sameUploads_putCurrent b k _)

theorem sameUploads_removeStore (b k : Bytes) (e : VersionEntry) :
    SameUploads s (removeStore s b k e) := by
  have hdel : SameUploads s (s.delete (versionRowKey b k e.versionID)) :=
    sameUploads_delete (head?_versionRowKey _ _ _)
  unfold removeStore
  dsimp only
  split
  · exact hdel.trans (sameUploads_putCurrent b k _)
  · exact hdel

end UploadFrame

/-! ## One upload -/

def RowKey.OfUpload (b k : Bytes) (uid : VersionID) : RowKey → Prop
  | .upload b' k' uid' => b' = b ∧ k' = k ∧ uid' = uid
  | .part b' k' uid' _ => b' = b ∧ k' = k ∧ uid' = uid
  | _ => False

def SameBut (b k : Bytes) (uid : VersionID) (s s' : Store) : Prop :=
  ∀ r : RowKey, r.Plain → ¬ r.OfUpload b k uid → look s' r = look s r

section OneUpload

variable {s s' : Store} {b k : Bytes} {uid : VersionID}

theorem sameBut_set {r : RowKey} (hr : r.Plain) (hof : r.OfUpload b k uid) (v : Record) :
    SameBut b k uid s (s.set r.encode v) := by
  intro r' hr' hnot
  have hne : r' ≠ r := fun h => hnot (h ▸ hof)
  rw [look_set r r' hr hr', if_neg hne]

theorem look_deleteRows (s : Store) (ks : List Bytes) (r : RowKey) :
    look (ks.foldl SortedKV.delete s) r = if r.encode ∈ ks then none else look s r := by
  by_cases h : r.encode ∈ ks
  · rw [look, SortedKV.get_foldl_delete, if_pos h, if_pos h]
  · rw [look, SortedKV.get_foldl_delete, if_neg h, if_neg h, look]

theorem sameBut_deleteRows {ks : List Bytes}
    (hks : ∀ key ∈ ks, ∃ r : RowKey, r.Plain ∧ r.OfUpload b k uid ∧ r.encode = key) :
    SameBut b k uid s (ks.foldl SortedKV.delete s) := by
  intro r hr hnot
  have hmem : r.encode ∉ ks := by
    intro h
    obtain ⟨r', hr', hof, henc⟩ := hks _ h
    exact hnot (RowKey.encode_inj hr' hr henc ▸ hof)
  rw [look_deleteRows, if_neg hmem]

variable {uid' : VersionID} {b' k' : Bytes}

theorem SameBut.uploadAt_eq (h : SameBut b k uid s s') (hb' : 0 ∉ b') (hk' : 0 ∉ k')
    (hne : ¬ (b' = b ∧ k' = k ∧ uid' = uid)) : uploadAt s' b' k' uid' = uploadAt s b' k' uid' := by
  unfold uploadAt
  rw [h (.upload b' k' uid') ⟨hb', hk'⟩ hne]

theorem SameBut.partList_eq (h : SameBut b k uid s s') (hs : Typed s) (hs' : Typed s')
    (hb' : 0 ∉ b') (hk' : 0 ∉ k') (hne : ¬ (b' = b ∧ k' = k ∧ uid' = uid)) :
    partList s' b' k' uid' = partList s b' k' uid' :=
  hs.partList_congr hs' hb' hk'
    (fun n => congrArg (·.bind Record.part?) (h (.part b' k' uid' n) ⟨hb', hk'⟩ hne))

end OneUpload

/-! ## Finding a part -/

section FindPart

variable {stored : List PartRecord}

variable (hinj : ∀ p ∈ stored, ∀ q ∈ stored, p.partNumber = q.partNumber → p = q)

include hinj

theorem findPart_eq_some_iff {n : UInt32} {pr : PartRecord} :
    findPart stored n = some pr ↔ pr ∈ stored ∧ pr.partNumber = n := by
  have hfound : ∀ {a}, findPart stored n = some a → a ∈ stored ∧ a.partNumber = n := by
    intro a ha
    exact ⟨List.mem_reverse.mp (List.mem_of_find?_eq_some ha), by simpa using List.find?_some ha⟩
  constructor
  · exact hfound
  · rintro ⟨hmem, rfl⟩
    cases hfind : findPart stored pr.partNumber with
    | none =>
      exact absurd (List.find?_eq_none.mp hfind pr (List.mem_reverse.mpr hmem)) (by simp)
    | some a =>
      obtain ⟨ha, heq⟩ := hfound hfind
      rw [hinj a ha pr hmem heq]

theorem findPart_eq_find? (n : UInt32) :
    findPart stored n = stored.find? (fun pr => pr.partNumber = n) := by
  cases hfind : stored.find? (fun pr => pr.partNumber = n) with
  | none =>
    rw [findPart, List.find?_eq_none]
    simpa using hfind
  | some pr =>
    exact (findPart_eq_some_iff hinj).mpr
      ⟨List.mem_of_find?_eq_some hfind, by simpa using List.find?_some hfind⟩

end FindPart

/-! ## Listing the parts -/

/-- Up to `max` parts with numbers above `afterPart`, in part-number order, and
whether the upload exists at all. -/
def listUploadParts (s : Store) (bucket key : Bytes) (uid : VersionID) (afterPart : UInt32)
    (max : Int) : Except MetaError (List PartRecord × Bool) :=
  match s.get (uploadRowKey bucket key uid) with
  | none => .ok ([], false)
  | some _ =>
    if max ≤ 0 then .ok ([], true)
    else do
      let scanPrefix := uploadRowKey bucket key uid
      let out ← s.scan (partRowKey bucket key uid (afterPart + 1))
        (fun out k v =>
          if hasPrefix k scanPrefix = false ∨ (out.length : Int) = max then .ok (out, false)
          else do
            let pr ← v.asPartRecord
            .ok (out ++ [pr], true))
        []
      .ok (out, true)

def partsFrom (n : UInt32) (parts : List PartRecord) : List PartRecord :=
  parts.filter (fun pr => n.toNat ≤ pr.partNumber.toNat)

section ListParts

variable {s : Store} {b k : Bytes} {uid : VersionID} (hs : Typed s) (hb : 0 ∉ b) (hk : 0 ∉ k)

include hs hb hk

theorem Typed.filterMap_partRows (n : UInt32) :
    ((s.rowsUnder (uploadRowKey b k uid)).filter
        (fun r => decide (partRowKey b k uid n ≤ r.1))).filterMap (fun r => r.2.part?) =
      partsFrom n (partList s b k uid) := by
  rw [partsFrom, partList, List.filter_filterMap, List.filterMap_filter]
  refine List.filterMap_congr (fun r hr => ?_)
  rcases hs.of_mem_uploadRows hb hk hr with ⟨u, rfl⟩ | ⟨pr, rfl⟩
  · simp [Record.part?]
  · have hle : partRowKey b k uid n ≤ partRowKey b k uid pr.partNumber ↔
        n.toNat ≤ pr.partNumber.toNat := by
      rw [← not_lt, partRowKey_lt_iff, not_lt]
    simp [Record.part?, hle, Option.filter]

theorem Typed.listUploadParts_eq (afterPart : UInt32) (max : Int) :
    listUploadParts s b k uid afterPart max =
      .ok (match uploadAt s b k uid with
        | none => ([], false)
        | some _ => ((partsFrom (afterPart + 1) (partList s b k uid)).take max.toNat, true)) := by
  rw [listUploadParts, hs.get_upload hb hk]
  cases uploadAt s b k uid with
  | none => rfl
  | some u =>
    dsimp only [Option.map_some]
    by_cases hmax : max ≤ 0
    · rw [if_pos hmax, Int.toNat_of_nonpos hmax, List.take_zero]
    · have hstart : uploadRowKey b k uid ≤ partRowKey b k uid (afterPart + 1) :=
        le_of_isPrefix (List.prefix_append _ _)
      rw [if_neg hmax, SortedKV.scan_under s hstart
        (fun out _ v =>
          if (out.length : Int) = max then .ok (out, false)
          else do
            let pr ← v.asPartRecord
            .ok (out ++ [pr], true))
        (fun _ _ _ hp => by simp [hasPrefix_iff.mpr hp])
        (fun _ _ _ hp => if_pos (Or.inl (by simpa using fun h => hp (hasPrefix_iff.mp h)))),
        SortedKV.scanRows_cutTo (g := fun r => r.2.part?) max ?_ []
          (fun h => by simpa using h.le)]
      · rw [List.nil_append, hs.filterMap_partRows hb hk, cutTo, if_pos (not_le.mp hmax)]
        rfl
      · intro r hr
        rw [List.mem_filter, decide_eq_true_eq] at hr
        rcases hs.of_mem_uploadRows hb hk hr.1 with ⟨u, rfl⟩ | ⟨pr, rfl⟩
        · -- the row of the upload comes before those of its parts
          exact absurd (hstart.antisymm hr.2) (uploadRowKey_ne_partRowKey hb hk hb hk)
        · refine ⟨pr, rfl, fun out => ?_⟩
          simp [not_le.mp hmax, Record.asPartRecord, bind, Except.bind]

theorem Typed.of_mem_listUploadParts {afterPart : UInt32} {max : Int} {parts : List PartRecord}
    {found : Bool} (h : listUploadParts s b k uid afterPart max = .ok (parts, found))
    (hpr : pr ∈ parts) :
    s.get (uploadRowKey b k uid) ≠ none ∧ partAt s b k uid pr.partNumber = some pr := by
  rw [hs.listUploadParts_eq hb hk] at h
  rw [hs.get_upload hb hk]
  cases hup : uploadAt s b k uid with
  | none =>
    rw [hup] at h
    cases h
    cases hpr
  | some u =>
    rw [hup] at h
    cases h
    have hmem := (List.mem_filter.mp (List.mem_of_mem_take hpr)).1
    exact ⟨by simp, (hs.mem_partList hb hk).mp hmem⟩

end ListParts

end Hamster.Meta
