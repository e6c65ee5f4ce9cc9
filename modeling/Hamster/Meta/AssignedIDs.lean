import Hamster.Meta.CurrentIndex

/-!
# Identifiers over a whole history

A PUT, a marker and a completed upload report the identifier that they stored
their version under.  This module collects those identifiers for one key over
a whole log, deleted versions included, and asks when they are distinct.

The bump to the successor of the newest version looks only at versions that
are still there.  After a version with a bumped identifier is deleted, the
next write with a lagging clock gets the same identifier again
(`assignedIDs_repeats`).  The identifiers stay distinct as long as every bump
starts from the highest identifier the key was ever given, and the minted
identifiers leave room for the bumps between them.
-/

namespace Hamster.Meta

open CodeLib

/-- The identifier that an accepted write gave its version. -/
def ApplyResult.assignedID : ApplyResult → Option VersionID
  | .put r => some r.versionID
  | .deleteObject r => if r.markerCreated then some r.markerID else none
  | .complete r => some r.versionID
  | _ => none

/-- The store, and every identifier assigned to versions of one key so far. -/
structure History where
  store : Store
  assigned : List VersionID

/-- Apply one proposal, and note the identifier that it assigned to the key. -/
def assignStep (b k : Bytes) (h : History) (p : Proposal) : History where
  store := (applyMem h.store p).2
  assigned := h.assigned ++
    if p.writeTarget = some (b, k) then
      ((applyMem h.store p).1.toOption.bind ApplyResult.assignedID).toList
    else []

/-- The identifiers assigned to versions of `k` over a log, in order. -/
def assignedIDs (b k : Bytes) (ps : List Proposal) : List VersionID :=
  (ps.foldl (assignStep b k) ⟨newStore, []⟩).assigned

/-- Two identifiers with more than `n` steps between them. -/
def Apart (n : Nat) (v o : VersionID) : Prop :=
  v.toNat + n < o.toNat ∨ o.toNat + n < v.toNat
deriving Decidable

/-- A write of the key that is minted at or below the newest version finds
there the highest identifier that the key was ever given. -/
def BumpsPastAll (b k : Bytes) (h : History) (p : Proposal) : Prop :=
  p.writeTarget = some (b, k) →
    ∀ minted ∈ p.mintedIDs, ∀ newest ∈ (versionList h.store b k).head?,
      minted.toNat ≤ newest.versionID.toNat →
        ∀ v ∈ h.assigned, v.toNat ≤ newest.versionID.toNat
deriving Decidable

/-! ## One proposal -/

section Step

variable {s s' : Store} {p : Proposal} {r : ApplyResult}

theorem assignedID_eq_none (h : (applyBody p).eval s = (.ok r, s')) (hp : p.writeTarget = none) :
    r.assignedID = none := by
  cases p with
  | putObject | deleteObject | completeMultipartUpload => simp [Proposal.writeTarget] at hp
  | unknown => cases h
  | _ =>
    obtain ⟨-, rfl, -⟩ := eval_wrapped_ok h
    rfl

/-- An accepted proposal assigns the bumped identifier under its target, or
brings in no version at all. -/
theorem assignedID_of_ok (hs : Typed s) (h : (applyBody p).eval s = (.ok r, s')) :
    (r.assignedID = none ∧
        ∀ ⦃b k vid e⦄, versionAt s' b k vid = some e → ∃ e₀, versionAt s b k vid = some e₀) ∨
      ∃ b k minted, p.writeTarget = some (b, k) ∧ 0 ∉ b ∧ 0 ∉ k ∧ minted ∈ p.mintedIDs ∧
        r.assignedID = some (bumpedID minted (versionList s b k).head?) := by
  cases htarget : p.writeTarget with
  | none =>
    refine Or.inl ⟨assignedID_eq_none h htarget, fun b k vid e hver => ?_⟩
    rcases (versionStep_of_ok hs h).versionAt_of hs hver with hold | ⟨hwrite, -⟩
    · exact hold
    · rw [htarget] at hwrite
      cases hwrite
  | some target =>
    have hsys : p.systemRow = none := by cases p <;> first | rfl | cases htarget
    cases applied_of_ok hsys h with
    | putObject q cfg vid hadm | insertMarker q cfg vid _ hadm
    | completeMultipartUpload q cfg u parts vid hadm =>
      obtain ⟨hb, hk⟩ := hadm.plain hs
      exact Or.inr ⟨q.bucket, q.key, q.versionID, htarget.symm, hb, hk, List.mem_cons_self,
        congrArg some hadm.id⟩
    | deleteNothing => exact Or.inl ⟨rfl, fun b k vid e hver => ⟨e, hver⟩⟩
    | deleteOnly =>
      refine Or.inl ⟨rfl, fun b k vid e hver => ?_⟩
      rw [versionAt_putCurrent] at hver
      exact ⟨e, versionAt_of_delete hver⟩
    | rewrite _ _ hnew => cases hnew <;> cases htarget
    | _ => cases htarget

end Step

/-! ## Whole logs -/

/-- What holds after `n` proposals that minted `seen`: every identifier assigned
to the key lies within `n` steps past a minted one, and the versions that are
there have assigned identifiers. -/
structure Tracked (b k : Bytes) (n : Nat) (seen : List VersionID) (h : History) : Prop where
  sound : Sound n h.store
  nodup : h.assigned.Nodup
  near : ∀ v ∈ h.assigned, ∃ m ∈ seen, m.toNat ≤ v.toNat ∧ v.toNat ≤ m.toNat + n
  stored : ∀ ⦃vid e⦄, versionAt h.store b k vid = some e → vid ∈ h.assigned

section Run

variable {b k : Bytes} {n N : Nat} {seen : List VersionID} {h : History} {p : Proposal}
  {minted : VersionID}

theorem tracked_newStore : Tracked b k 0 [] ⟨newStore, []⟩ where
  sound := sound_newStore
  nodup := List.nodup_nil
  near := fun v hv => absurd hv List.not_mem_nil
  stored := fun vid e hver => by simp [versionAt, look, newStore] at hver

theorem Tracked.near_mono (ht : Tracked b k n seen h) {seen' : List VersionID}
    (hsub : seen ⊆ seen') {v : VersionID} (hv : v ∈ h.assigned) :
    ∃ m ∈ seen', m.toNat ≤ v.toNat ∧ v.toNat ≤ m.toNat + (n + 1) := by
  obtain ⟨m, hm, hle, hge⟩ := ht.near v hv
  exact ⟨m, hsub hm, hle, by omega⟩

theorem Tracked.notMem_of_apart (ht : Tracked b k n seen h) (hN : n < N)
    (hapart : ∀ m ∈ seen, Apart N m minted) : minted ∉ h.assigned := by
  intro hmem
  obtain ⟨m, hm, hle, hge⟩ := ht.near minted hmem
  rcases hapart m hm with hlt | hlt <;> omega

/-- The identifier of a write is new to its key, and lies within reach of a
minted one. -/
theorem Tracked.bumped (ht : Tracked b k n seen h) (hn : n < 2 ^ 79) (hN : n < N)
    (hapart : ∀ m ∈ seen, Apart N m minted) (hb : 0 ∉ b) (hk : 0 ∉ k)
    (hbump : ∀ newest ∈ (versionList h.store b k).head?,
      minted.toNat ≤ newest.versionID.toNat →
        ∀ v ∈ h.assigned, v.toNat ≤ newest.versionID.toNat) :
    bumpedID minted (versionList h.store b k).head? ∉ h.assigned ∧
      ∃ m ∈ seen ++ [minted],
        m.toNat ≤ (bumpedID minted (versionList h.store b k).head?).toNat ∧
        (bumpedID minted (versionList h.store b k).head?).toNat ≤ m.toNat + (n + 1) := by
  have htyped := ht.sound.base.typed
  have hminted : minted ∉ h.assigned ∧
      ∃ m ∈ seen ++ [minted], m.toNat ≤ minted.toNat ∧ minted.toNat ≤ m.toNat + (n + 1) :=
    ⟨ht.notMem_of_apart hN hapart, minted, by simp, Nat.le_refl _, by omega⟩
  cases hhead : (versionList h.store b k).head? with
  | none => exact hminted
  | some newest =>
    have hver := (htyped.mem_versionList hb hk).mp (List.mem_of_mem_head? hhead)
    have hassigned := ht.stored hver
    by_cases hle : minted.toNat ≤ newest.versionID.toNat
    · -- the write bumps: its identifier lies past every one assigned before
      have hfresh := ht.sound.fresh hver
      have hnext := VersionID.toNat_next_of_lt (v := newest.versionID) (by omega)
      have hid : bumpedID minted (some newest) = newest.versionID.next :=
        if_pos (VersionID.compare_le_zero_iff.mpr hle)
      rw [hid, hnext]
      constructor
      · intro hmem
        have := hbump newest hhead hle _ hmem
        omega
      · obtain ⟨m, hm, hfrom, hto⟩ := ht.near _ hassigned
        exact ⟨m, List.mem_append_left _ hm, by omega, by omega⟩
    · have hid : bumpedID minted (some newest) = minted :=
        if_neg (fun h => hle (VersionID.compare_le_zero_iff.mp h))
      rw [hid]
      exact hminted

theorem Tracked.step (ht : Tracked b k n seen h) (hn : n < 2 ^ 79) (hN : n < N)
    (hp : p.MintsUUIDv7) (hapart : ∀ m ∈ seen, ∀ minted ∈ p.mintedIDs, Apart N m minted)
    (hbump : BumpsPastAll b k h p) :
    Tracked b k (n + 1) (seen ++ p.mintedIDs) (assignStep b k h p) := by
  have hsound : Sound (n + 1) (assignStep b k h p).store := sound_applyMem ht.sound hn hp
  have htyped := ht.sound.base.typed
  have hkeep : ∀ s', (∀ ⦃vid e⦄, versionAt s' b k vid = some e →
        ∃ e₀, versionAt h.store b k vid = some e₀) → (assignStep b k h p).store = s' →
      (assignStep b k h p).assigned = h.assigned →
      Tracked b k (n + 1) (seen ++ p.mintedIDs) (assignStep b k h p) := by
    intro s' hold hstore hsame
    refine ⟨hsound, hsame ▸ ht.nodup, fun v hv => ?_, fun vid e hver => ?_⟩
    · exact ht.near_mono (List.subset_append_left _ _) (hsame ▸ hv)
    · obtain ⟨e₀, hver₀⟩ := hold (hstore ▸ hver)
      exact hsame ▸ ht.stored hver₀
  rcases applyMem_cases h.store p with ⟨err, happly⟩ | ⟨r, s', happly, heval⟩
  · refine hkeep h.store (fun vid e hver => ⟨e, hver⟩) ?_ ?_
    · simp only [assignStep, happly]
    · simp [assignStep, happly, Except.toOption]
  · have hstore : (assignStep b k h p).store = s' := by simp only [assignStep, happly]
    have hassigned : (assignStep b k h p).assigned = h.assigned ++
        if p.writeTarget = some (b, k) then r.assignedID.toList else [] := by
      simp [assignStep, happly, Except.toOption]
    rcases assignedID_of_ok htyped heval with
      ⟨hnone, hold⟩ | ⟨b', k', minted, htarget, hb, hk, hminted, hid⟩
    · exact hkeep s' (fun vid e hver => hold hver) hstore (by simp [hassigned, hnone])
    · by_cases hkey : (b', k') = (b, k)
      · cases hkey
        obtain ⟨hnew, hnear⟩ := ht.bumped hn hN (fun m hm => hapart m hm minted hminted) hb hk
          (hbump htarget minted hminted)
        rw [if_pos htarget, hid] at hassigned
        refine ⟨hsound, ?_, fun v hv => ?_, fun vid e hver => ?_⟩
        · rw [hassigned]
          exact List.nodup_append.mpr ⟨ht.nodup, by simp, by
            rintro v hv o ho rfl
            rw [Option.toList_some, List.mem_singleton] at ho
            exact hnew (ho ▸ hv)⟩
        · rw [hassigned] at hv
          rcases List.mem_append.mp hv with hv | hv
          · exact ht.near_mono (List.subset_append_left _ _) hv
          · rw [Option.toList_some, List.mem_singleton] at hv
            obtain ⟨m, hm, hnear⟩ := hnear
            refine ⟨m, ?_, hv ▸ hnear⟩
            rcases List.mem_append.mp hm with hm | hm
            · exact List.mem_append_left _ hm
            · rw [List.mem_singleton] at hm
              exact List.mem_append_right _ (hm ▸ hminted)
        · rw [hassigned]
          rw [hstore] at hver
          rcases (versionStep_of_ok htyped heval).versionAt_of htyped hver with
            ⟨e₀, hold⟩ | ⟨-, minted', hminted', rfl⟩
          · exact List.mem_append_left _ (ht.stored hold)
          · refine List.mem_append_right _ ?_
            rw [Proposal.mintedIDs_unique hminted' hminted]
            simp
      · have hne : ¬ p.writeTarget = some (b, k) := by
          rw [htarget]
          exact fun h => hkey (Option.some.inj h)
        refine hkeep s' (fun vid e hver => ?_) hstore (by simp [hassigned, hne])
        rcases (versionStep_of_ok htyped heval).versionAt_of htyped hver with
          hold | ⟨hwrite, -⟩
        · exact hold
        · exact absurd hwrite hne

theorem Tracked.run {ps : List Proposal} (ht : Tracked b k n seen h)
    (hlen : n + ps.length ≤ 2 ^ 79) (hN : n + ps.length ≤ N) (hmint : ∀ p ∈ ps, p.MintsUUIDv7)
    (hapart : (seen ++ ps.flatMap Proposal.mintedIDs).Pairwise (Apart N))
    (hbumps : EachStep (assignStep b k) (BumpsPastAll b k) h ps) :
    (ps.foldl (assignStep b k) h).assigned.Nodup := by
  induction ps generalizing n seen h with
  | nil => exact ht.nodup
  | cons p rest ih =>
    rw [List.length_cons] at hlen hN
    rw [List.flatMap_cons, ← List.append_assoc] at hapart
    have hfirst := (List.pairwise_append.mp hapart).1
    have hnext := ht.step (by omega) (by omega) (hmint p List.mem_cons_self)
      (fun m hm => (List.pairwise_append.mp hfirst).2.2 m hm) hbumps.1
    exact ih hnext (by omega) (by omega) (fun q hq => hmint q (List.mem_cons_of_mem p hq))
      hapart hbumps.2

end Run

/-- No identifier is assigned twice to one key, deleted versions included, when
the minted ones leave room for a bump per proposal between them and every bump
starts from the highest identifier the key was ever given. -/
theorem assignedIDs_nodup {ps : List Proposal} (hmint : ∀ p ∈ ps, p.MintsUUIDv7)
    (hlen : ps.length ≤ 2 ^ 79) (b k : Bytes)
    (hapart : (ps.flatMap Proposal.mintedIDs).Pairwise (Apart ps.length))
    (hbumps : EachStep (assignStep b k) (BumpsPastAll b k) ⟨newStore, []⟩ ps) :
    (assignedIDs b k ps).Nodup :=
  tracked_newStore.run (N := ps.length) (by omega) (by omega) hmint (by simpa using hapart) hbumps

/-- A put at a fast clock, and one at a slow clock that is bumped past it. -/
def skewedPuts : List Proposal :=
  [ .createBucket ⟨1, [97, 97, 97], false⟩
  , .setBucketVersioning ⟨2, [97, 97, 97], versioningEnabled⟩
  , .putObject { proposedAtUnixMS := 9, bucket := [97, 97, 97], key := [107], size := 1
                 versionID := VersionID.newVersionID 9 0 0 }
  , .putObject { proposedAtUnixMS := 3, bucket := [97, 97, 97], key := [107], size := 2
                 versionID := VersionID.newVersionID 3 0 0 } ]

/-- The bumped version is deleted, and a third body is put at the slow clock. -/
def deleteAndPut : List Proposal :=
  [ .deleteVersion ⟨4, [97, 97, 97], [107], (VersionID.newVersionID 9 0 0).next, false⟩
  , .putObject { proposedAtUnixMS := 5, bucket := [97, 97, 97], key := [107], size := 3
                 versionID := VersionID.newVersionID 5 0 0 } ]

theorem assignedIDs_skewedPuts :
    assignedIDs [97, 97, 97] [107] skewedPuts =
        [VersionID.newVersionID 9 0 0, (VersionID.newVersionID 9 0 0).next] ∧
      (assignedIDs [97, 97, 97] [107] skewedPuts).Nodup :=
  ⟨by decide +kernel, assignedIDs_nodup (by decide +kernel) (by decide) _ _
    (by decide +kernel) (by decide +kernel)⟩

/-- The third put gets the identifier of the deleted second one, which then
names the third body. -/
theorem assignedIDs_repeats :
    (∀ p ∈ skewedPuts ++ deleteAndPut, p.MintsUUIDv7) ∧
      ((skewedPuts ++ deleteAndPut).flatMap Proposal.mintedIDs).Nodup ∧
      assignedIDs [97, 97, 97] [107] (skewedPuts ++ deleteAndPut) =
        [VersionID.newVersionID 9 0 0, (VersionID.newVersionID 9 0 0).next,
          (VersionID.newVersionID 9 0 0).next] ∧
      (versionAt (runMem newStore skewedPuts) [97, 97, 97] [107]
          (VersionID.newVersionID 9 0 0).next).map (·.size) = some 2 ∧
      (versionAt (runMem newStore (skewedPuts ++ deleteAndPut)) [97, 97, 97] [107]
          (VersionID.newVersionID 9 0 0).next).map (·.size) = some 3 := by
  decide +kernel

end Hamster.Meta
