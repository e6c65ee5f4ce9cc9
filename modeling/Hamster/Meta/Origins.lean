import Hamster.Meta.Invariants

/-!
# Where a version comes from

An accepted proposal changes at most one version row, and most proposals
change none.  `Origin` says how a row of the new store came about: it was there,
a PUT, a marker or a completed upload committed it, or a lock update, a
re-encoding or a rewrap changed some of its fields.  `VersionStep.origin` finds
the origin of every row.

A current row is written for a key that passed the check, or that has a version
(`VersionStep.currentAt_of`), so that no row stands under the empty key
(`keyed_runMem`).
-/

namespace Hamster.Meta

open CodeLib

/-! ## The current row after one update -/

section CurrentViews

variable {s s' : Store} {b k b' k' : Bytes}

theorem currentAt_putCurrent (hb : 0 ∉ b) (hk : 0 ∉ k) (hb' : 0 ∉ b') (hk' : 0 ∉ k')
    (c : Option CurrentRecord) :
    currentAt (putCurrent s b k c) b' k' =
      if b' = b ∧ k' = k then c else currentAt s b' k' := by
  have hrow : ∀ {r : Store}, look r (.current b' k') = r.get (currentRowKey b' k') := rfl
  by_cases heq : b' = b ∧ k' = k
  · obtain ⟨rfl, rfl⟩ := heq
    cases c with
    | none => simp [currentAt, hrow, putCurrent]
    | some c => simp [currentAt, hrow, putCurrent, Record.current?]
  · have hne : currentRowKey b' k' ≠ currentRowKey b k :=
      fun h => heq (currentRowKey_inj_of_plain hb' hk' h)
    rw [if_neg heq]
    cases c with
    | none => exact currentAt_congr (SortedKV.get_delete_of_ne s hne)
    | some c => exact currentAt_congr (SortedKV.get_set_of_ne s _ hne)

@[simp] theorem currentAt_set_version (vid : VersionID) (v : Record) :
    currentAt (s.set (versionRowKey b k vid) v) b' k' = currentAt s b' k' :=
  currentAt_congr (SortedKV.get_set_of_ne s v versionRowKey_ne_currentRowKey.symm)

@[simp] theorem currentAt_delete_version (vid : VersionID) :
    currentAt (s.delete (versionRowKey b k vid)) b' k' = currentAt s b' k' :=
  currentAt_congr (SortedKV.get_delete_of_ne s versionRowKey_ne_currentRowKey.symm)

@[simp] theorem currentAt_commitBase (isNull : Bool) :
    currentAt (commitBase s b k isNull) b' k' = currentAt s b' k' := by
  unfold commitBase dropNull
  split
  · split
    · rfl
    · exact currentAt_delete_version _
  · rfl

end CurrentViews

/-! ## Single rows -/

inductive Origin (p : Proposal) (s : Store) (b k : Bytes) (vid : VersionID)
    (e : VersionEntry) : Prop where
  | kept (hold : versionAt s b k vid = some e)
  | committed (hnew : Committed p b k e) (minted : VersionID) (hminted : minted ∈ p.mintedIDs)
      (hb : 0 ∉ b) (hk : 0 ∉ k)
      (hid : vid = bumpedID minted (versionList s b k).head?)
      (htarget : p.writeTarget = some (b, k)) (hkey : k ≠ [])
  | rewritten (e₀ : VersionEntry) (hold : versionAt s b k vid = some e₀)
      (hnew : Rewritten b k vid e₀ e p)

section Rows

variable {p : Proposal} {s s' : Store} {b k : Bytes} {vid : VersionID} {e : VersionEntry}

theorem VersionStep.origin (hs : Typed s) (h : VersionStep p s s')
    (hver : versionAt s' b k vid = some e) : Origin p s b k vid e := by
  obtain ⟨hb, hk, -⟩ := (h.typed hs).of_versionAt hver
  cases h with
  | other _ h =>
    rw [h.versionAt_eq] at hver
    exact .kept hver
  | bucket b' c _ h =>
    rw [h, versionAt_putBucket] at hver
    exact .kept hver
  | commit b' k' cfg e' minted _ hk' hcfg htarget hminted _ hid _ _ rows hrows h hkey hnew =>
    rw [h, (sameHistory_deleteRows hrows _).versionAt_eq] at hver
    rcases hs.versionAt_commitStore (hs.plain_of_bucketAt hcfg) hk' hver with
      ⟨rfl, rfl, rfl, rfl⟩ | ⟨-, hold⟩
    · exact .committed hnew minted hminted hb hk hid htarget hkey
    · exact .kept (versionAt_of_commitBase hold)
  | removeOnly b' k' cfg e' _ _ _ _ _ _ _ h =>
    rw [h, versionAt_putCurrent] at hver
    exact .kept (versionAt_of_delete hver)
  | remove q e' _ _ _ h =>
    rw [h] at hver
    exact .kept (versionAt_of_removeStore hver)
  | rewrite b' k' e₀ e' hold hnew h =>
    obtain ⟨hb', hk', -⟩ := hs.of_versionAt hold
    rw [h, versionAt_set hb' hk' hb hk] at hver
    split at hver
    · rename_i heq
      obtain ⟨rfl, rfl, rfl⟩ := heq
      obtain rfl := Option.some.inj hver
      exact .rewritten e₀ hold hnew
    · exact .kept hver

theorem origin_applyMem (hs : Typed s) (hver : versionAt (applyMem s p).2 b k vid = some e) :
    Origin p s b k vid e :=
  (versionStep_applyMem hs p).origin hs hver

/-- A version of the new store was there before, or was committed under the
bumped identifier. -/
theorem VersionStep.versionAt_of (hs : Typed s) (h : VersionStep p s s')
    (hver : versionAt s' b k vid = some e) :
    (∃ e₀, versionAt s b k vid = some e₀) ∨ p.writeTarget = some (b, k) ∧
      ∃ minted ∈ p.mintedIDs, vid = bumpedID minted (versionList s b k).head? := by
  cases h.origin hs hver with
  | kept hold => exact Or.inl ⟨e, hold⟩
  | committed _ minted hminted _ _ hid htarget =>
    exact Or.inr ⟨htarget, minted, hminted, hid⟩
  | rewritten e₀ hold => exact Or.inl ⟨e₀, hold⟩

/-- A current row was there before, or belongs to a key that had a version or has
passed the check. -/
theorem VersionStep.currentAt_of (hs : Typed s) (h : VersionStep p s s') {c : CurrentRecord}
    (hcur : currentAt s' b k = some c) :
    currentAt s b k = some c ∨ (∃ vid e, versionAt s b k vid = some e) ∨ k ≠ [] := by
  obtain ⟨hb, hk⟩ := (h.typed hs).of_currentAt hcur
  cases h with
  | other _ h =>
    rw [h.currentAt_eq] at hcur
    exact Or.inl hcur
  | bucket b' c' _ h =>
    rw [h, currentAt_putBucket] at hcur
    exact Or.inl hcur
  | commit b' k' cfg e _ _ hk' hcfg _ _ _ _ _ _ rows hrows h hkey =>
    rw [h, (sameHistory_deleteRows hrows _).currentAt_eq, commitStore,
      currentAt_putCurrent (hs.plain_of_bucketAt hcfg) hk' hb hk, currentAt_set_version,
      currentAt_commitBase] at hcur
    split at hcur
    next heq =>
      rw [heq.2]
      exact Or.inr (Or.inr hkey)
    next => exact Or.inl hcur
  | removeOnly b' k' cfg e _ hk' hcfg _ _ _ _ h =>
    rw [h, currentAt_putCurrent (hs.plain_of_bucketAt hcfg) hk' hb hk,
      currentAt_delete_version] at hcur
    split at hcur
    · cases hcur
    · exact Or.inl hcur
  | remove q e _ hold _ h =>
    obtain ⟨hb', hk', -⟩ := hs.of_versionAt hold
    rw [h] at hcur
    unfold removeStore at hcur
    dsimp only at hcur
    split at hcur
    · rw [currentAt_putCurrent hb' hk' hb hk, currentAt_delete_version] at hcur
      split at hcur
      next heq =>
        obtain ⟨rfl, rfl⟩ := heq
        exact Or.inr (Or.inl ⟨_, e, hold⟩)
      next => exact Or.inl hcur
    · rw [currentAt_delete_version] at hcur
      exact Or.inl hcur
  | rewrite b' k' e e' _ _ h =>
    rw [h, currentAt_set_version] at hcur
    exact Or.inl hcur

end Rows

/-- No version and no current row stands under the empty key. -/
structure Keyed (s : Store) : Prop where
  version : ∀ ⦃b k vid e⦄, versionAt s b k vid = some e → k ≠ []
  current : ∀ ⦃b k c⦄, currentAt s b k = some c → k ≠ []

theorem keyed_newStore : Keyed newStore where
  version := fun _ _ _ _ h => by simp [versionAt, look, newStore] at h
  current := fun _ _ _ h => by simp [currentAt, look, newStore] at h

theorem Keyed.step {p : Proposal} {s s' : Store} (hkeyed : Keyed s) (hs : Typed s)
    (h : VersionStep p s s') : Keyed s' where
  version b k vid e hver := by
    cases h.origin hs hver with
    | kept hold | rewritten e₀ hold => exact hkeyed.version hold
    | committed _ _ _ _ _ _ _ hkey => exact hkey
  current b k c hcur := by
    rcases h.currentAt_of hs hcur with hold | ⟨vid, e, hver⟩ | hkey
    · exact hkeyed.current hold
    · exact hkeyed.version hver
    · exact hkey

theorem keyed_runMem (ps : List Proposal) : Keyed (runMem newStore ps) :=
  typed_newStore.invariant (C := fun _ => True)
    (fun hs _ h => h.step hs (versionStep_applyMem hs _)) (fun _ _ => trivial) keyed_newStore

end Hamster.Meta
