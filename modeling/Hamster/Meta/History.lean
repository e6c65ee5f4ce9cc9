import Hamster.Meta.Specs

/-!
# Rows of the version history

The buckets, versions and current rows of a store are its history.  Uploads,
parts and cluster state are not part of it, and most proposals touch only
those: `SameHistory` says that two stores agree on the history.

The first byte of a row tells the two apart, so the lemmas here ask for
nothing else about a row that is set or deleted.
-/

namespace Hamster.Meta

open CodeLib

def RowKey.IsHistory : RowKey → Prop
  | .bucket _ => True
  | .version _ _ _ => True
  | .current _ _ => True
  | _ => False

def OutsideHistory (k : Bytes) : Prop := k.head? = some 117 ∨ k.head? = some 115

/-- Both stores hold the same buckets, versions and current rows. -/
def SameHistory (s s' : Store) : Prop :=
  ∀ r : RowKey, r.IsHistory → look s' r = look s r

theorem RowKey.encode_ne_of_outside {r : RowKey} (hr : r.IsHistory) {k : Bytes}
    (hk : OutsideHistory k) : r.encode ≠ k := by
  intro h
  subst h
  cases r with
  | bucket b =>
    simp [OutsideHistory, encode, bucketRowKey, bucketScanPrefix] at hk
  | version b k vid => simp [OutsideHistory, encode, versionRowKey] at hk
  | current b k => simp [OutsideHistory, encode, currentRowKey] at hk
  | _ => exact hr

theorem outside_uploadRowKey (b k : Bytes) (uid : VersionID) :
    OutsideHistory (uploadRowKey b k uid) := Or.inl rfl

theorem outside_partRowKey (b k : Bytes) (uid : VersionID) (n : UInt32) :
    OutsideHistory (partRowKey b k uid n) := Or.inl rfl

theorem outside_of_uploadPrefix {b k key : Bytes} {uid : VersionID}
    (h : uploadRowKey b k uid <+: key) : OutsideHistory key := by
  obtain ⟨t, rfl⟩ := h
  exact Or.inl rfl

section Frame

variable {s s' s'' : Store}

theorem SameHistory.refl (s : Store) : SameHistory s s := fun _ _ => rfl

theorem SameHistory.trans (h : SameHistory s s') (h' : SameHistory s' s'') :
    SameHistory s s'' :=
  fun r hr => (h' r hr).trans (h r hr)

theorem sameHistory_set {k : Bytes} (hk : OutsideHistory k) (v : Record) :
    SameHistory s (s.set k v) :=
  fun _ hr => SortedKV.get_set_of_ne s v (RowKey.encode_ne_of_outside hr hk)

theorem sameHistory_delete {k : Bytes} (hk : OutsideHistory k) :
    SameHistory s (s.delete k) :=
  fun _ hr => SortedKV.get_delete_of_ne s (RowKey.encode_ne_of_outside hr hk)

theorem eval_deleteRows (ks : List Bytes) (s : Store) :
    (deleteRows ks).eval s = (.ok (), ks.foldl SortedKV.delete s) := by
  have hrun : ∀ t : TxKV, ((deleteRows ks).run t).1 = .ok () ∧
      ((deleteRows ks).run t).2.memKV = ks.foldl SortedKV.delete t.memKV := by
    induction ks with
    | nil => exact fun t => ⟨rfl, rfl⟩
    | cons k rest ih => exact fun t => ih (t.delete k)
  exact Prod.ext (hrun (TxKV.start s)).1 (hrun (TxKV.start s)).2

theorem sameHistory_deleteRows {ks : List Bytes} (hks : ∀ k ∈ ks, OutsideHistory k)
    (s : Store) : SameHistory s (ks.foldl SortedKV.delete s) := by
  induction ks generalizing s with
  | nil => exact SameHistory.refl s
  | cons k rest ih =>
    have hfirst : SameHistory s (s.delete k) := sameHistory_delete (hks k List.mem_cons_self)
    exact hfirst.trans (ih (fun k' hk' => hks k' (List.mem_cons_of_mem k hk')) (s.delete k))

variable (h : SameHistory s s')

include h

theorem SameHistory.bucketAt_eq (b : Bytes) : bucketAt s' b = bucketAt s b := by
  unfold bucketAt
  rw [h (.bucket b) trivial]

theorem SameHistory.versionAt_eq (b k : Bytes) (vid : VersionID) :
    versionAt s' b k vid = versionAt s b k vid := by
  unfold versionAt
  rw [h (.version b k vid) trivial]

theorem SameHistory.currentAt_eq (b k : Bytes) : currentAt s' b k = currentAt s b k := by
  unfold currentAt
  rw [h (.current b k) trivial]

theorem SameHistory.versionList_eq (hs : Typed s) (hs' : Typed s') {b k : Bytes} (hb : 0 ∉ b)
    (hk : 0 ∉ k) : versionList s' b k = versionList s b k :=
  hs.versionList_congr hs' hb hk (h.versionAt_eq b k)

end Frame

end Hamster.Meta
