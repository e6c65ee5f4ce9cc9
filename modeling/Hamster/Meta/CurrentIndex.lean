import Hamster.Meta.Origins

/-!
# The derived current index

A `c/` row is derived from the version rows of its key.  This module proves
that the two never part: in every reachable store the current row of a key
is what its newest version calls for.

The argument rests on new identifiers being new.  A version is committed
under its minted identifier or just past the newest one, so it sorts after
every version of its key as long as `Next` does not wrap.  A minted UUIDv7 is
below `2 ^ 128 - 2 ^ 79`, and one proposal raises the largest identifier by
at most one; a log holds fewer than `2 ^ 64` entries, far below the `2 ^ 79`
that the bound leaves.
-/

namespace Hamster.Meta

open CodeLib

/-! ## New identifiers -/

/-- No identifier has come within reach of the wrap after `n` proposals. -/
def Fresh (n : Nat) (s : Store) : Prop :=
  ∀ ⦃b k vid e⦄, versionAt s b k vid = some e → vid.toNat < 2 ^ 128 - 2 ^ 79 + n

variable {e : VersionEntry} {vid : VersionID} {n : Nat} {newest : VersionEntry}

section Identifiers

variable {s : Store} {b k : Bytes}

theorem Typed.le_head (hs : Typed s) (hb : 0 ∉ b) (hk : 0 ∉ k)
    (hnewest : (versionList s b k).head? = some newest) (he : e ∈ versionList s b k) :
    e.versionID.toNat ≤ newest.versionID.toNat := by
  have hsorted := hs.versionList_sorted hb hk
  cases hlist : versionList s b k with
  | nil =>
    rw [hlist] at he
    exact absurd he List.not_mem_nil
  | cons e₀ rest =>
    rw [hlist] at hnewest he hsorted
    cases hnewest
    rcases List.mem_cons.mp he with rfl | he
    · exact Nat.le_refl _
    · exact ((List.pairwise_cons.mp hsorted).1 e he).le

/-- The identifier of a new version lies past the newest one, and is the
minted one or its successor. -/
theorem bumpedID_spec (minted : VersionID) {newest : Option VersionEntry}
    (hnowrap : ∀ e ∈ newest, e.versionID.toNat + 1 < 2 ^ 128) :
    (∀ e ∈ newest, e.versionID.toNat < (bumpedID minted newest).toNat) ∧
      (bumpedID minted newest = minted ∨
        ∃ e ∈ newest, (bumpedID minted newest).toNat = e.versionID.toNat + 1) := by
  cases newest with
  | none => exact ⟨by simp, Or.inl rfl⟩
  | some e =>
    have hnext := VersionID.toNat_next_of_lt (hnowrap e rfl)
    unfold bumpedID
    dsimp only
    split
    · refine ⟨?_, Or.inr ⟨e, rfl, hnext⟩⟩
      intro e' he'
      cases he'
      omega
    · rename_i hgt
      rw [VersionID.compare_le_zero_iff] at hgt
      refine ⟨?_, Or.inl rfl⟩
      intro e' he'
      cases he'
      omega

theorem Fresh.lt_bumpedID (hfresh : Fresh n s) (hn : n < 2 ^ 79) (hs : Typed s) (hb : 0 ∉ b)
    (hk : 0 ∉ k) (minted : VersionID) (h : versionAt s b k vid = some e) :
    vid.toNat < (bumpedID minted (versionList s b k).head?).toNat := by
  obtain ⟨-, -, rfl⟩ := hs.of_versionAt h
  have hmem : e ∈ versionList s b k := (hs.mem_versionList hb hk).mpr h
  obtain ⟨newest, hnewest⟩ : ∃ newest, (versionList s b k).head? = some newest := by
    cases hlist : versionList s b k with
    | nil =>
      rw [hlist] at hmem
      exact absurd hmem List.not_mem_nil
    | cons e₀ rest => exact ⟨e₀, rfl⟩
  have hin : newest ∈ versionList s b k := List.mem_of_mem_head? hnewest
  have hbound := hfresh ((hs.mem_versionList hb hk).mp hin)
  have hnowrap : ∀ e' ∈ (versionList s b k).head?, e'.versionID.toNat + 1 < 2 ^ 128 := by
    intro e' he'
    rw [hnewest] at he'
    cases he'
    omega
  have hpast := (bumpedID_spec minted hnowrap).1 newest hnewest
  have hle := hs.le_head hb hk hnewest hmem
  omega

end Identifiers

/-! ## Version lists after one update -/

variable {e' : VersionEntry}

section Lists

variable {s s' : Store} {b k b' k' : Bytes}

theorem Typed.versionList_delete (hs : Typed s) (hb : 0 ∉ b) (hk : 0 ∉ k) (vid : VersionID) :
    versionList (s.delete (versionRowKey b k vid)) b k =
      (versionList s b k).filter (fun e => e.versionID ≠ vid) := by
  have hs' := hs.delete (versionRowKey b k vid)
  refine hs'.versionList_eq hb hk ((hs.versionList_sorted hb hk).filter _) (fun e => ?_)
  rw [versionAt_delete hb hk hb hk, List.mem_filter, hs.mem_versionList hb hk]
  by_cases heq : e.versionID = vid
  · simp [heq]
  · simp [heq]

theorem Typed.versionList_delete_of_ne (hs : Typed s) (hb : 0 ∉ b) (hk : 0 ∉ k) (hb' : 0 ∉ b')
    (hk' : 0 ∉ k') (hne : ¬ (b' = b ∧ k' = k)) (vid : VersionID) :
    versionList (s.delete (versionRowKey b k vid)) b' k' = versionList s b' k' := by
  refine hs.versionList_congr (hs.delete _) hb' hk' (fun vid' => ?_)
  rw [versionAt_delete hb hk hb' hk', if_neg]
  intro h
  exact hne ⟨h.1, h.2.1⟩

theorem Typed.versionList_commitStore (hs : Typed s) (hb : 0 ∉ b) (hk : 0 ∉ k)
    (hnew : ∀ {vid e'}, versionAt s b k vid = some e' → vid.toNat < e.versionID.toNat) :
    versionList (commitStore s b k e) b k =
      e :: versionList (commitBase s b k e.nullVersion) b k := by
  have hbase := typed_commitBase (b := b) (k := k) hs e.nullVersion
  have hs' := typed_commitStore hs hb hk e
  have hlt : ∀ e' ∈ versionList (commitBase s b k e.nullVersion) b k,
      e'.versionID.toNat < e.versionID.toNat := by
    intro e' he'
    have hver := (hbase.mem_versionList hb hk).mp he'
    exact hnew (versionAt_of_commitBase hver)
  refine hs'.versionList_eq hb hk
    (List.pairwise_cons.mpr ⟨hlt, hbase.versionList_sorted hb hk⟩) (fun e' => ?_)
  rw [List.mem_cons, hbase.mem_versionList hb hk, commitStore, versionAt_putCurrent,
    versionAt_set hb hk hb hk]
  by_cases heq : e'.versionID = e.versionID
  · -- the base holds nothing under the new identifier
    have hnone : ¬ versionAt (commitBase s b k e.nullVersion) b k e'.versionID = some e' := by
      intro hver
      have hlt' := hnew (versionAt_of_commitBase hver)
      rw [heq] at hlt'
      exact Nat.lt_irrefl _ hlt'
    rw [if_pos ⟨rfl, rfl, heq⟩, or_iff_left hnone, Option.some.injEq, eq_comm]
  · have hne : e' ≠ e := fun h => heq (congrArg VersionEntry.versionID h)
    rw [if_neg (fun h => heq h.2.2), or_iff_right hne]

theorem versionAt_commitStore_of_ne (hb : 0 ∉ b) (hk : 0 ∉ k) (hb' : 0 ∉ b') (hk' : 0 ∉ k')
    (hne : ¬ (b' = b ∧ k' = k)) (e : VersionEntry) (vid' : VersionID) :
    versionAt (commitStore s b k e) b' k' vid' = versionAt s b' k' vid' := by
  have hother : ∀ vid, ¬ (b' = b ∧ k' = k ∧ vid' = vid) := fun vid h => hne ⟨h.1, h.2.1⟩
  rw [commitStore, versionAt_putCurrent, versionAt_set hb hk hb' hk', if_neg (hother _)]
  unfold commitBase dropNull
  split
  · split
    · rfl
    · rw [versionAt_delete hb hk hb' hk', if_neg (hother _)]
  · rfl

theorem Typed.versionList_rewrite (hs : Typed s) (hold : versionAt s b k e.versionID = some e)
    (hid : e'.versionID = e.versionID) :
    versionList (s.set (versionRowKey b k e.versionID) (.versionEntry e')) b k =
      (versionList s b k).map (fun x => if x.versionID = e.versionID then e' else x) := by
  obtain ⟨hb, hk, -⟩ := hs.of_versionAt hold
  have hs' := hs.set (r := .version b k e.versionID) (v := .versionEntry e') ⟨hb, hk⟩ hid
  have hkeep : ∀ x : VersionEntry,
      (if x.versionID = e.versionID then e' else x).versionID = x.versionID := by
    intro x
    split
    · rename_i heq
      rw [hid, heq]
    · rfl
  have hsorted : ((versionList s b k).map
      (fun x => if x.versionID = e.versionID then e' else x)).Pairwise
        (fun x y => y.versionID.toNat < x.versionID.toNat) := by
    rw [List.pairwise_map]
    refine (hs.versionList_sorted hb hk).imp (fun {x y} h => ?_)
    rw [hkeep, hkeep]
    exact h
  refine hs'.versionList_eq hb hk hsorted (fun x => ?_)
  refine Iff.trans ?_ (by
    rw [show (RowKey.version b k e.versionID).encode = versionRowKey b k e.versionID from rfl,
      versionAt_set hb hk hb hk])
  rw [List.mem_map]
  constructor
  · rintro ⟨y, hy, rfl⟩
    rw [hkeep]
    by_cases heq : y.versionID = e.versionID
    · rw [if_pos ⟨rfl, rfl, heq⟩, if_pos heq]
    · rw [if_neg (fun h => heq h.2.2), if_neg heq]
      exact (hs.mem_versionList hb hk).mp hy
  · intro h
    split at h
    · rename_i heq
      cases h
      exact ⟨e, (hs.mem_versionList hb hk).mpr hold, if_pos rfl⟩
    · rename_i hne
      refine ⟨x, (hs.mem_versionList hb hk).mpr h, if_neg (fun heq => ?_)⟩
      exact hne ⟨rfl, rfl, heq⟩

end Lists

/-! ## Identifiers along a run -/

variable {p : Proposal}

theorem Fresh.step {s s' : Store} (hfresh : Fresh n s) (hn : n < 2 ^ 79) (hs : Typed s)
    (hp : p.MintsUUIDv7) (h : VersionStep p s s') : Fresh (n + 1) s' := by
  intro b k vid e hver
  obtain ⟨hb, hk, -⟩ := (h.typed hs).of_versionAt hver
  rcases h.versionAt_of hs hver with ⟨e₀, hold⟩ | ⟨-, minted, hminted, rfl⟩
  · have := hfresh hold
    omega
  · have hhead : ∀ e' ∈ (versionList s b k).head?,
        e'.versionID.toNat < 2 ^ 128 - 2 ^ 79 + n := by
      intro e' he'
      exact hfresh ((hs.mem_versionList hb hk).mp (List.mem_of_mem_head? he'))
    have hnowrap : ∀ e' ∈ (versionList s b k).head?, e'.versionID.toNat + 1 < 2 ^ 128 := by
      intro e' he'
      have := hhead e' he'
      omega
    rcases (bumpedID_spec minted hnowrap).2 with heq | ⟨e', he', heq⟩
    · have hlt := (hp minted hminted).toNat_lt
      rw [heq]
      omega
    · have := hhead e' he'
      omega

theorem exists_newer_applyMem {s : Store} (hs : Typed s) (hfresh : Fresh n s) (hn : n < 2 ^ 79)
    (hp : p.removes = false) {b k : Bytes} (hver : versionAt s b k vid = some e) :
    ∃ vid' e', vid.toNat ≤ vid'.toNat ∧ versionAt (applyMem s p).2 b k vid' = some e' := by
  obtain ⟨hb, hk, -⟩ := hs.of_versionAt hver
  cases versionStep_applyMem hs p with
  | other _ h => exact ⟨vid, e, Nat.le_refl _, (h.versionAt_eq b k vid).trans hver⟩
  | bucket b' c _ h =>
    rw [h]
    exact ⟨vid, e, Nat.le_refl _, (versionAt_putBucket c).trans hver⟩
  | removeOnly _ _ _ _ _ _ _ _ _ _ _ _ hremoves => cases hp.symm.trans hremoves
  | remove q _ hq =>
    subst hq
    cases hp
  | commit b' k' cfg e' minted _ hk' hcfg _ _ _ hid _ _ rows hrows h =>
    have hb' := hs.plain_of_bucketAt hcfg
    by_cases hkeys : b = b' ∧ k = k'
    · -- the new version is the newest one of the key
      obtain ⟨rfl, rfl⟩ := hkeys
      refine ⟨e'.versionID, e', ?_, ?_⟩
      · rw [hid]
        exact Nat.le_of_lt (hfresh.lt_bumpedID hn hs hb hk minted hver)
      · rw [h, (sameHistory_deleteRows hrows _).versionAt_eq, commitStore, versionAt_putCurrent,
          versionAt_set hb hk hb hk, if_pos ⟨rfl, rfl, rfl⟩]
    · refine ⟨vid, e, Nat.le_refl _, ?_⟩
      rw [h, (sameHistory_deleteRows hrows _).versionAt_eq,
        versionAt_commitStore_of_ne hb' hk' hb hk hkeys, hver]
  | rewrite b' k' e₀ e' hold _ h =>
    obtain ⟨hb', hk', -⟩ := hs.of_versionAt hold
    rw [h]
    by_cases hkeys : b = b' ∧ k = k' ∧ vid = e₀.versionID
    · refine ⟨vid, e', Nat.le_refl _, ?_⟩
      rw [versionAt_set hb' hk' hb hk, if_pos hkeys]
    · refine ⟨vid, e, Nat.le_refl _, ?_⟩
      rw [versionAt_set hb' hk' hb hk, if_neg hkeys, hver]

/-! ## The index along a run -/

/-- The current row of every key is the one its version list calls for. -/
def Indexed (s : Store) : Prop :=
  ∀ ⦃b k⦄, 0 ∉ b → 0 ∉ k → currentAt s b k = derivedCurrent (versionList s b k)

section IndexSteps

variable {s s' : Store}

theorem Indexed.congr (hidx : Indexed s) (hs : Typed s) (hs' : Typed s')
    (hver : ∀ b k vid, versionAt s' b k vid = versionAt s b k vid)
    (hcur : ∀ b k, currentAt s' b k = currentAt s b k) : Indexed s' := by
  intro b k hb hk
  rw [hcur, hs.versionList_congr hs' hb hk (hver b k), hidx hb hk]

variable {b k : Bytes}

theorem Indexed.commit (hidx : Indexed s) (hs : Typed s) (hb : 0 ∉ b) (hk : 0 ∉ k)
    (hnew : ∀ {vid e'}, versionAt s b k vid = some e' → vid.toNat < e.versionID.toNat) :
    Indexed (commitStore s b k e) := by
  intro b' k' hb' hk'
  have hs' := typed_commitStore hs hb hk e
  have hcur : currentAt (commitStore s b k e) b' k' =
      if b' = b ∧ k' = k then derivedCurrent [e] else currentAt s b' k' := by
    rw [commitStore, currentAt_putCurrent hb hk hb' hk', currentAt_set_version,
      currentAt_commitBase]
  rw [hcur]
  by_cases heq : b' = b ∧ k' = k
  · obtain ⟨rfl, rfl⟩ := heq
    rw [if_pos ⟨rfl, rfl⟩, hs.versionList_commitStore hb hk hnew]
    rfl
  · have hlist := hs.versionList_congr hs' hb' hk'
      (versionAt_commitStore_of_ne hb hk hb' hk' heq e)
    rw [if_neg heq, hlist, hidx hb' hk']

variable {cfg : BucketConfig}

theorem Base.versionList_delete_only (hs : Base s) (hk : 0 ∉ k) (hcfg : bucketAt s b = some cfg)
    (hun : cfg.versioning = unversioned) (he : e ∈ versionList s b k) :
    versionList (s.delete (versionRowKey b k e.versionID)) b k = [] := by
  have hb := hs.typed.plain_of_bucketAt hcfg
  rw [hs.typed.versionList_delete hb hk, List.filter_eq_nil_iff]
  intro e' he'
  have hver := (hs.typed.mem_versionList hb hk).mp he
  have hver' := (hs.typed.mem_versionList hb hk).mp he'
  have hsame := hs.oneNull hver' hver (hs.onlyNull hcfg hun hver') (hs.onlyNull hcfg hun hver)
  simp [hsame]

theorem Indexed.removeOnly (hidx : Indexed s) (hs : Base s) (hk : 0 ∉ k)
    (hcfg : bucketAt s b = some cfg) (hun : cfg.versioning = unversioned)
    (he : e ∈ versionList s b k) :
    Indexed (putCurrent (s.delete (versionRowKey b k e.versionID)) b k none) := by
  intro b' k' hb' hk'
  have hb := hs.typed.plain_of_bucketAt hcfg
  have hdel := hs.typed.delete (versionRowKey b k e.versionID)
  rw [currentAt_putCurrent hb hk hb' hk', currentAt_delete_version,
    hdel.versionList_congr (typed_putCurrent hdel hb hk none) hb' hk'
      (fun vid => versionAt_putCurrent none)]
  by_cases heq : b' = b ∧ k' = k
  · obtain ⟨rfl, rfl⟩ := heq
    rw [if_pos ⟨rfl, rfl⟩, hs.versionList_delete_only hk hcfg hun he]
    rfl
  · rw [if_neg heq, hs.typed.versionList_delete_of_ne hb hk hb' hk' heq, hidx hb' hk']

theorem Typed.head?_delete (hs : Typed s) (hb : 0 ∉ b) (hk : 0 ∉ k)
    (hnewest : (versionList s b k).head? = some newest) (hne : newest.versionID ≠ vid) :
    (versionList (s.delete (versionRowKey b k vid)) b k).head? = some newest := by
  rw [hs.versionList_delete hb hk, List.head?_filter]
  cases hlist : versionList s b k with
  | nil =>
    rw [hlist] at hnewest
    cases hnewest
  | cons e rest =>
    rw [hlist] at hnewest
    cases hnewest
    exact List.find?_cons_of_pos (by simpa using hne)

theorem Indexed.remove (hidx : Indexed s) (hs : Typed s) (hb : 0 ∉ b) (hk : 0 ∉ k)
    (he : e ∈ versionList s b k) : Indexed (removeStore s b k e) := by
  intro b' k' hb' hk'
  have hdel := hs.delete (versionRowKey b k e.versionID)
  unfold removeStore
  dsimp only
  split
  · -- the newest version went: the row is recomputed from what is left
    rw [currentAt_putCurrent hb hk hb' hk', currentAt_delete_version,
      hdel.versionList_congr (typed_putCurrent hdel hb hk _) hb' hk'
        (fun vid => versionAt_putCurrent _)]
    by_cases heq : b' = b ∧ k' = k
    · obtain ⟨rfl, rfl⟩ := heq
      rw [if_pos ⟨rfl, rfl⟩]
    · rw [if_neg heq, hs.versionList_delete_of_ne hb hk hb' hk' heq, hidx hb' hk']
  · rename_i hnot
    rw [currentAt_delete_version]
    by_cases heq : b' = b ∧ k' = k
    · obtain ⟨rfl, rfl⟩ := heq
      obtain ⟨newest, hnewest⟩ : ∃ newest, (versionList s b' k').head? = some newest :=
        ⟨_, List.head?_eq_some_head (List.ne_nil_of_mem he)⟩
      rw [hnewest, Option.getD_some] at hnot
      rw [hidx hb' hk', derivedCurrent, derivedCurrent, hnewest,
        hs.head?_delete hb hk hnewest hnot]
    · rw [hs.versionList_delete_of_ne hb hk hb' hk' heq, hidx hb' hk']

theorem SameContent.currentRecordFor_eq (h : SameContent e e') :
    currentRecordFor e' = currentRecordFor e := by
  unfold currentRecordFor
  rw [h.versionID, h.size, h.etag, h.createdUnixMS, h.parts]

theorem Indexed.rewrite (hidx : Indexed s) (hs : Typed s) {b k : Bytes}
    {e e' : VersionEntry} (hold : versionAt s b k e.versionID = some e)
    (hsame : SameContent e e') :
    Indexed (s.set (versionRowKey b k e.versionID) (.versionEntry e')) := by
  intro b' k' hb' hk'
  obtain ⟨hb, hk, -⟩ := hs.of_versionAt hold
  have hs' := hs.set (r := .version b k e.versionID) (v := .versionEntry e') ⟨hb, hk⟩
    hsame.versionID
  rw [currentAt_set_version, hidx hb' hk']
  by_cases heq : b' = b ∧ k' = k
  · obtain ⟨rfl, rfl⟩ := heq
    rw [hs.versionList_rewrite hold hsame.versionID, derivedCurrent, derivedCurrent,
      List.head?_map]
    cases hhead : (versionList s b' k').head? with
    | none => rfl
    | some newest =>
      by_cases hid : newest.versionID = e.versionID
      · have hmem := List.mem_of_mem_head? hhead
        have hver := (hs.mem_versionList hb hk).mp hmem
        rw [hid, hold] at hver
        cases hver
        simp [hsame.kind, hsame.currentRecordFor_eq]
      · simp [hid]
  · have hlist : versionList (s.set (versionRowKey b k e.versionID) (.versionEntry e')) b' k' =
        versionList s b' k' := by
      refine hs.versionList_congr hs' hb' hk' (fun vid => ?_)
      exact (versionAt_set hb hk hb' hk' e').trans (if_neg (fun h => heq ⟨h.1, h.2.1⟩))
    rw [hlist]

theorem Indexed.step (hidx : Indexed s) (hs : Base s) (hfresh : Fresh n s) (hn : n < 2 ^ 79)
    (h : VersionStep p s s') : Indexed s' := by
  have htyped := h.typed hs.typed
  cases h with
  | other _ h => exact hidx.congr hs.typed htyped h.versionAt_eq h.currentAt_eq
  | bucket b c _ h =>
    subst h
    exact hidx.congr hs.typed htyped (fun _ _ _ => versionAt_putBucket c)
      (fun _ _ => currentAt_putBucket c)
  | commit b k cfg e minted atUnixMS hk hcfg _ _ _ hid _ _ rows hrows h =>
    have hb := hs.typed.plain_of_bucketAt hcfg
    have hnew : ∀ {vid e'}, versionAt s b k vid = some e' →
        vid.toNat < e.versionID.toNat := by
      intro vid e' hver
      rw [hid]
      exact hfresh.lt_bumpedID hn hs.typed hb hk minted hver
    have hcommit := hidx.commit hs.typed hb hk hnew
    subst h
    have hsame := sameHistory_deleteRows hrows (commitStore s b k e)
    exact hcommit.congr (typed_commitStore hs.typed hb hk e) htyped hsame.versionAt_eq
      hsame.currentAt_eq
  | removeOnly b k cfg e atUnixMS hk hcfg hun _ hnewest _ h =>
    rw [h]
    exact hidx.removeOnly hs hk hcfg hun (List.mem_of_mem_head? hnewest)
  | remove q e _ hold _ h =>
    obtain ⟨hb, hk, hvid⟩ := hs.typed.of_versionAt hold
    rw [h]
    refine hidx.remove hs.typed hb hk ((hs.typed.mem_versionList hb hk).mpr ?_)
    rw [hvid]
    exact hold
  | rewrite b k e e' hold hnew h =>
    rw [h]
    exact hidx.rewrite hs.typed hold hnew.sameContent

end IndexSteps

structure Sound (n : Nat) (s : Store) : Prop where
  base : Base s
  fresh : Fresh n s
  indexed : Indexed s

theorem sound_newStore : Sound 0 newStore where
  base := base_newStore
  fresh b k vid e h := by simp [versionAt, look, newStore] at h
  indexed b k hb hk := by
    have hlist : versionList newStore b k = [] :=
      typed_newStore.versionList_eq hb hk List.Pairwise.nil
        (by simp [versionAt, look, newStore])
    rw [hlist]
    simp [currentAt, look, newStore, derivedCurrent]

theorem sound_applyMem {s : Store} (hs : Sound n s) (hn : n < 2 ^ 79) (hp : p.MintsUUIDv7) :
    Sound (n + 1) (applyMem s p).2 := by
  have hstep := versionStep_applyMem hs.base.typed p
  exact ⟨base_step hs.base hstep, hs.fresh.step hn hs.base.typed hp hstep,
    hs.indexed.step hs.base hs.fresh hn hstep⟩

variable {ps : List Proposal}

theorem sound_runMem {s : Store} (hs : Sound n s) (hmint : ∀ p ∈ ps, p.MintsUUIDv7)
    (hlen : n + ps.length ≤ 2 ^ 79) : Sound (n + ps.length) (runMem s ps) := by
  have hstep : ∀ (n : Nat) (s : Store) (p : Proposal), n < 2 ^ 79 → p.MintsUUIDv7 →
      Sound n s → Sound (n + 1) (applyMem s p).2 :=
    fun _ _ _ hn hp hs => sound_applyMem hs hn hp
  exact foldl_invariant_upto hstep hmint hlen hs

theorem sound_run (hmint : ∀ p ∈ ps, p.MintsUUIDv7) (hlen : ps.length ≤ 2 ^ 79) :
    Sound ps.length (runMem newStore ps) := by
  have h := sound_runMem sound_newStore hmint (n := 0) (by omega)
  rwa [Nat.zero_add] at h

/-! ## Rows of the index -/

variable {row : Record}

theorem Typed.get_currentRowKey_iff {s : Store} (hs : Typed s) {b k : Bytes} :
    s.get (currentRowKey b k) = some row ↔
      ∃ c, currentAt s b k = some c ∧ .currentRecord c = row := by
  rw [hs.get_current, Option.map_eq_some_iff]

theorem Typed.get_versionRowKey_iff {s : Store} (hs : Typed s) {b k : Bytes} :
    s.get (versionRowKey b k vid) = some row ↔
      ∃ e, versionAt s b k vid = some e ∧ .versionEntry e = row := by
  rw [hs.get_version, Option.map_eq_some_iff]

theorem Typed.head?_eq_some_iff {s : Store} (hs : Typed s) {b k : Bytes} (hb : 0 ∉ b)
    (hk : 0 ∉ k) :
    (versionList s b k).head? = some e ↔
      versionAt s b k e.versionID = some e ∧
        ∀ {vid e'}, versionAt s b k vid = some e' → vid.toNat ≤ e.versionID.toNat := by
  constructor
  · intro h
    refine ⟨(hs.mem_versionList hb hk).mp (List.mem_of_mem_head? h), ?_⟩
    intro vid e' hver
    obtain ⟨-, -, rfl⟩ := hs.of_versionAt hver
    exact hs.le_head hb hk h ((hs.mem_versionList hb hk).mpr hver)
  · rintro ⟨hver, hmax⟩
    have hmem := (hs.mem_versionList hb hk).mpr hver
    have hhead := List.head?_eq_some_head (List.ne_nil_of_mem hmem)
    have hver' := (hs.mem_versionList hb hk).mp (List.mem_of_mem_head? hhead)
    have hle := hs.le_head hb hk hhead hmem
    have hge := hmax hver'
    have hid := VersionID.toNat_inj.mp (Nat.le_antisymm hle hge)
    rw [hid, hver'] at hver
    rw [hhead]
    exact hver

theorem derivedCurrent_eq_some_iff {l : List VersionEntry} {c : CurrentRecord} :
    derivedCurrent l = some c ↔
      ∃ e, l.head? = some e ∧ e.kind = kindObject ∧ c = currentRecordFor e := by
  unfold derivedCurrent
  cases l.head? with
  | none => simp
  | some e => simp [eq_comm]

/-- In every reachable store a current row stands under a key exactly when
the version with the greatest identifier is an object, and it is the listing
row of that version. -/
theorem currentRow_iff_newest_object {ps : List Proposal} (hmint : ∀ p ∈ ps, p.MintsUUIDv7)
    (hlen : ps.length ≤ 2 ^ 79) (b k : Bytes) (row : Record) :
    (runMem newStore ps).get (currentRowKey b k) = some row ↔
      ∃ vid e, (runMem newStore ps).get (versionRowKey b k vid) = some (.versionEntry e) ∧
        (∀ vid' row', (runMem newStore ps).get (versionRowKey b k vid') = some row' →
          vid'.toNat ≤ vid.toNat) ∧
        e.kind = kindObject ∧ row = .currentRecord (currentRecordFor e) := by
  have hsound := sound_run hmint hlen
  generalize runMem newStore ps = s at hsound
  have hs := hsound.base.typed
  constructor
  · intro h
    obtain ⟨c, hc, rfl⟩ := hs.get_currentRowKey_iff.mp h
    obtain ⟨hb, hk⟩ := hs.of_currentAt hc
    rw [hsound.indexed hb hk] at hc
    obtain ⟨e, hhead, hkind, rfl⟩ := derivedCurrent_eq_some_iff.mp hc
    obtain ⟨hver, hmax⟩ := (hs.head?_eq_some_iff hb hk).mp hhead
    refine ⟨e.versionID, e, hs.get_versionRowKey_iff.mpr ⟨e, hver, rfl⟩, ?_, hkind, rfl⟩
    intro vid' row' hrow'
    obtain ⟨e', hver', -⟩ := hs.get_versionRowKey_iff.mp hrow'
    exact hmax hver'
  · rintro ⟨vid, e, hget, hmax, hkind, rfl⟩
    obtain ⟨e₀, hver, he₀⟩ := hs.get_versionRowKey_iff.mp hget
    cases he₀
    obtain ⟨hb, hk, rfl⟩ := hs.of_versionAt hver
    have hhead : (versionList s b k).head? = some e := by
      refine (hs.head?_eq_some_iff hb hk).mpr ⟨hver, ?_⟩
      intro vid' e' hver'
      exact hmax vid' _ (hs.get_versionRowKey_iff.mpr ⟨e', hver', rfl⟩)
    refine hs.get_currentRowKey_iff.mpr ⟨currentRecordFor e, ?_, rfl⟩
    rw [hsound.indexed hb hk]
    exact derivedCurrent_eq_some_iff.mpr ⟨e, hhead, hkind, rfl⟩

/-- A put and a marker after it: the history of the witness below. -/
def putThenMarker : List Proposal :=
  [ .createBucket ⟨1, [97, 97, 97], false⟩
  , .setBucketVersioning ⟨2, [97, 97, 97], versioningEnabled⟩
  , .putObject { proposedAtUnixMS := 3, bucket := [97, 97, 97], key := [107]
                 versionID := VersionID.newVersionID 3 0 0 }
  , .deleteObject ⟨4, [97, 97, 97], [107], VersionID.newVersionID 4 0 0⟩
  , .putObject { proposedAtUnixMS := 5, bucket := [97, 97, 97], key := [108], size := 7
                 versionID := VersionID.newVersionID 3 0 0 } ]

/-- The key that was put has its row; the key under the marker has none. -/
theorem currentRow_of_putThenMarker :
    (∃ vid e, (runMem newStore putThenMarker).get (versionRowKey [97, 97, 97] [108] vid) =
        some (.versionEntry e) ∧
      (∀ vid' row', (runMem newStore putThenMarker).get
          (versionRowKey [97, 97, 97] [108] vid') = some row' → vid'.toNat ≤ vid.toNat) ∧
      e.kind = kindObject ∧
      Record.currentRecord ⟨1, VersionID.newVersionID 3 0 0, 7, [], 5, 0, []⟩ =
        .currentRecord (currentRecordFor e)) ∧
    (runMem newStore putThenMarker).get (currentRowKey [97, 97, 97] [107]) = none := by
  refine ⟨?_, by decide +kernel⟩
  exact (currentRow_iff_newest_object (by decide +kernel) (by decide) [97, 97, 97] [108] _).mp
    (by decide +kernel)

end Hamster.Meta
