import Hamster.Meta.CurrentIndex

/-!
# Object lock over whole runs

`Fate` says what one accepted proposal can do to one version: nothing, a
rewrite of fields that are not its content, a removal that the lock check let
pass, or an overwrite by a commit under the same identifier.  An overwrite
needs `Next` to wrap (`Fate.overwritten_wraps`), which minted identifiers rule
out.

* Under COMPLIANCE retention or a legal hold a version survives every
  continuation, with its content.
* Under GOVERNANCE retention that is only so for the three retention modes
  that have a name.  `UpdateRetention` stores any mode byte, and `lockedAt`
  reads an unnamed one as no lock.
-/

namespace Hamster.Meta

open CodeLib

/-! ## What a proposal does to one version -/

def Proposal.bypasses (b k : Bytes) (vid : VersionID) : Proposal → Bool
  | .deleteVersion q => q.bucket = b ∧ q.key = k ∧ q.versionID = vid ∧ q.bypassGovernance
  | .updateRetention q => q.bucket = b ∧ q.key = k ∧ q.versionID = vid ∧ q.bypassGovernance
  | _ => false

/-- The proposal clears the legal hold of the version. -/
def Proposal.clearsHold (b k : Bytes) (vid : VersionID) : Proposal → Bool
  | .updateLegalHold q => q.bucket = b ∧ q.key = k ∧ q.versionID = vid ∧ q.hold = false
  | _ => false

inductive Fate (p : Proposal) (s s' : Store) (b k : Bytes) (e : VersionEntry) : Prop where
  | kept (h : versionAt s' b k e.versionID = some e)
  | rewritten (e' : VersionEntry) (h : versionAt s' b k e.versionID = some e')
      (hnew : Rewritten b k e.versionID e e' p)
  | removed (atUnixMS : Int64) (bypass : Bool) (hat : p.proposedAt = some atUnixMS)
      (hlocked : e.lockedAt atUnixMS bypass = false)
      (hbypass : bypass = true → p.bypasses b k e.versionID = true)
  | overwritten (minted : VersionID) (htarget : p.writeTarget = some (b, k))
      (hid : e.versionID = bumpedID minted (versionList s b k).head?)

variable {e' : VersionEntry} {minted : VersionID}

section Fates

variable {p : Proposal} {s s' : Store} {b k : Bytes} {e : VersionEntry}

theorem Fate.of_sameHistory {s₁ : Store} (h : Fate p s s₁ b k e) (hsame : SameHistory s₁ s') :
    Fate p s s' b k e := by
  have hview := hsame.versionAt_eq b k e.versionID
  cases h with
  | kept h => exact .kept (hview.trans h)
  | rewritten e' h hnew => exact .rewritten e' (hview.trans h) hnew
  | removed atUnixMS bypass hat hlocked hbypass =>
    exact .removed atUnixMS bypass hat hlocked hbypass
  | overwritten minted htarget hid => exact .overwritten minted htarget hid

/-- A commit drops the null version of its key, which is not locked then, and
keeps the others. -/
theorem Typed.fate_commit (hs : Typed s) (hb : 0 ∉ b) (hk : 0 ∉ k)
    (hver : versionAt s b k e.versionID = some e) {atUnixMS : Int64}
    (hat : p.proposedAt = some atUnixMS)
    (hlocked : e'.nullVersion = true → ∀ e₀ ∈ nullEntry s b k, e₀.lockedAt atUnixMS false = false)
    (hne : e.versionID ≠ e'.versionID) : Fate p s (commitStore s b k e') b k e := by
  have hstore : versionAt (commitStore s b k e') b k e.versionID =
      versionAt (commitBase s b k e'.nullVersion) b k e.versionID := by
    rw [commitStore, versionAt_putCurrent, versionAt_set hb hk hb hk,
      if_neg (fun h => hne h.2.2)]
  cases hnull : e'.nullVersion with
  | false =>
    apply Fate.kept
    rw [hstore, hnull]
    exact hver
  | true =>
    rw [hnull, commitBase, if_pos rfl, dropNull] at hstore
    cases hentry : nullEntry s b k with
    | none =>
      apply Fate.kept
      rw [hstore, hentry]
      exact hver
    | some e₀ =>
      rw [hentry, versionAt_delete hb hk hb hk] at hstore
      by_cases hid : e.versionID = e₀.versionID
      · -- the dropped null version is this one
        have hmem := List.mem_of_find?_eq_some hentry
        have hver₀ := (hs.mem_versionList hb hk).mp hmem
        rw [← hid, hver] at hver₀
        cases hver₀
        exact .removed atUnixMS false hat (hlocked hnull e hentry) (fun h => by cases h)
      · apply Fate.kept
        rw [hstore, if_neg (fun h => hid h.2.2)]
        exact hver

theorem VersionStep.fate (hs : Typed s) (h : VersionStep p s s')
    (hver : versionAt s b k e.versionID = some e) : Fate p s s' b k e := by
  obtain ⟨hb, hk, -⟩ := hs.of_versionAt hver
  cases h with
  | other _ h =>
    apply Fate.kept
    rw [h.versionAt_eq]
    exact hver
  | bucket b' c _ h =>
    apply Fate.kept
    rw [h, versionAt_putBucket]
    exact hver
  | commit b' k' cfg e' minted atUnixMS hk' hcfg htarget _ hat hid _ hlocked rows hrows h =>
    have hb' := hs.plain_of_bucketAt hcfg
    have hsame := sameHistory_deleteRows hrows (commitStore s b' k' e')
    by_cases heq : b = b' ∧ k = k'
    · obtain ⟨rfl, rfl⟩ := heq
      by_cases hne : e.versionID = e'.versionID
      · exact .overwritten minted htarget (hne.trans hid)
      · rw [h]
        exact (hs.fate_commit hb hk hver hat hlocked hne).of_sameHistory hsame
    · apply Fate.kept
      rw [h, hsame.versionAt_eq, versionAt_commitStore_of_ne hb' hk' hb hk heq]
      exact hver
  | removeOnly b' k' cfg e' atUnixMS hk' hcfg _ hat hnewest hlocked h =>
    have hb' := hs.plain_of_bucketAt hcfg
    by_cases heq : b = b' ∧ k = k' ∧ e.versionID = e'.versionID
    · obtain ⟨rfl, rfl, hid⟩ := heq
      have hver' := (hs.mem_versionList hb hk).mp (List.mem_of_mem_head? hnewest)
      rw [← hid, hver] at hver'
      cases hver'
      exact .removed atUnixMS false hat hlocked (fun h => by cases h)
    · apply Fate.kept
      rw [h, versionAt_putCurrent, versionAt_delete hb' hk' hb hk, if_neg heq]
      exact hver
  | remove q e' hp hold hlocked h =>
    obtain ⟨hb', hk', hid'⟩ := hs.of_versionAt hold
    by_cases heq : b = q.bucket ∧ k = q.key ∧ e.versionID = e'.versionID
    · obtain ⟨rfl, rfl, hid⟩ := heq
      rw [← hid', ← hid, hver] at hold
      cases hold
      refine .removed q.proposedAtUnixMS q.bypassGovernance (by rw [hp]; rfl) hlocked ?_
      intro hbypass
      rw [hp, Proposal.bypasses]
      simp [hid', hbypass]
    · have hdel : versionAt (s.delete (versionRowKey q.bucket q.key e'.versionID)) b k
          e.versionID = some e := by
        rw [versionAt_delete hb' hk' hb hk, if_neg heq]
        exact hver
      apply Fate.kept
      rw [h]
      unfold removeStore
      dsimp only
      split
      · rw [versionAt_putCurrent]
        exact hdel
      · exact hdel
  | rewrite b' k' e₀ e' hold hnew h =>
    obtain ⟨hb', hk', -⟩ := hs.of_versionAt hold
    by_cases heq : b = b' ∧ k = k' ∧ e.versionID = e₀.versionID
    · obtain ⟨rfl, rfl, hid⟩ := heq
      rw [← hid, hver] at hold
      cases hold
      refine .rewritten e' ?_ hnew
      rw [h, versionAt_set hb hk hb hk, if_pos ⟨rfl, rfl, rfl⟩]
    · apply Fate.kept
      rw [h, versionAt_set hb' hk' hb hk, if_neg heq]
      exact hver

theorem Typed.wraps_of_overwritten (hs : Typed s) (hver : versionAt s b k e.versionID = some e)
    (hid : e.versionID = bumpedID minted (versionList s b k).head?) :
    e.versionID = VersionID.zero ∧
      ∃ newest, (versionList s b k).head? = some newest ∧
        newest.versionID.toNat = 2 ^ 128 - 1 := by
  obtain ⟨hb, hk, -⟩ := hs.of_versionAt hver
  have hmem := (hs.mem_versionList hb hk).mpr hver
  have hhead := List.head?_eq_some_head (List.ne_nil_of_mem hmem)
  have hle := hs.le_head hb hk hhead hmem
  rw [hhead] at hid
  generalize (versionList s b k).head _ = newest at hhead hle hid
  have hlt := newest.versionID.toNat_lt
  have hnat : e.versionID.toNat = (bumpedID minted (some newest)).toNat := by rw [hid]
  rw [bumpedID] at hnat
  split at hnat
  · rename_i hcmp
    rw [VersionID.toNat_next] at hnat
    -- a successor that is not above its origin is zero
    have hall : newest.versionID.toNat = 2 ^ 128 - 1 := by omega
    have hzero : e.versionID.toNat = VersionID.zero.toNat := by
      rw [hnat, hall]
      decide
    exact ⟨VersionID.toNat_inj.mp hzero, newest, hhead, hall⟩
  · rename_i hcmp
    rw [VersionID.compare_le_zero_iff] at hcmp
    omega

end Fates

/-! ## What the lock check refuses -/

section Locked

variable {e : VersionEntry} {t : Int64} {bypass : Bool}

theorem lockedAt_of_hold (h : e.legalHold = true) : e.lockedAt t bypass = true := by
  rw [VersionEntry.lockedAt, if_pos h]

theorem lockedAt_of_compliance (hmode : e.retentionMode = retentionCompliance)
    (ht : t < e.retainUntilUnixMS) : e.lockedAt t bypass = true := by
  unfold VersionEntry.lockedAt
  rw [if_neg (Int64.not_le.mpr ht), if_pos hmode]
  split <;> rfl

theorem lockedAt_of_governance (hmode : e.retentionMode = retentionGovernance)
    (ht : t < e.retainUntilUnixMS) : e.lockedAt t false = true := by
  unfold VersionEntry.lockedAt
  have hne : e.retentionMode ≠ retentionCompliance := by
    rw [hmode]
    decide
  rw [if_neg (Int64.not_le.mpr ht), if_neg hne, if_pos hmode]
  split <;> rfl

end Locked

/-! ## Compliance retention and legal holds -/

theorem SameContent.refl (e : VersionEntry) : SameContent e e :=
  ⟨rfl, rfl, rfl, rfl, rfl, rfl, rfl, rfl, rfl, rfl⟩

theorem SameContent.trans {e₁ e₂ e₃ : VersionEntry} (h : SameContent e₁ e₂)
    (h' : SameContent e₂ e₃) : SameContent e₁ e₃ where
  versionID := h'.versionID.trans h.versionID
  kind := h'.kind.trans h.kind
  size := h'.size.trans h.size
  createdUnixMS := h'.createdUnixMS.trans h.createdUnixMS
  etag := h'.etag.trans h.etag
  contentType := h'.contentType.trans h.contentType
  userMetadata := h'.userMetadata.trans h.userMetadata
  objectChecksum := h'.objectChecksum.trans h.objectChecksum
  parts := h'.parts.trans h.parts
  nullVersion := h'.nullVersion.trans h.nullVersion

def ComplianceUntil (T : Int64) (e : VersionEntry) : Prop :=
  e.retentionMode = retentionCompliance ∧ T ≤ e.retainUntilUnixMS

variable {vid : VersionID} {T : Int64} {e : VersionEntry} {b k : Bytes} {p : Proposal}

theorem Rewritten.compliance (h : Rewritten b k vid e e' p) (hp : p.ProposedBefore T)
    (he : ComplianceUntil T e) : ComplianceUntil T e' := by
  obtain ⟨hmode, huntil⟩ := he
  cases h with
  | retention q _ _ haccept he' =>
    have hbefore : q.proposedAtUnixMS < T := hp q.proposedAtUnixMS rfl
    have hunexpired : ¬ e.retainUntilUnixMS ≤ q.proposedAtUnixMS :=
      Int64.not_le.mpr (Int64.lt_of_lt_of_le hbefore huntil)
    have heffective : effectiveMode e q.proposedAtUnixMS = retentionCompliance := by
      rw [effectiveMode, if_neg (fun h => hunexpired h.2), hmode]
    simp only [retentionRefuses, heffective, if_true, decide_eq_false_iff_not, not_or,
      not_not] at haccept
    obtain ⟨hqmode, hquntil⟩ := haccept
    have hnone : q.mode ≠ retentionNone := by
      rw [hqmode]
      decide
    rw [he', withRetention, ComplianceUntil, if_neg hnone]
    exact ⟨hqmode, Int64.le_trans huntil (Int64.not_lt.mp hquntil)⟩
  | hold q _ he' | reEncoded q _ _ he' | rewrapped q _ he' =>
    rw [he']
    exact ⟨hmode, huntil⟩

theorem Rewritten.legalHold (h : Rewritten b k vid e e' p) (hp : p.clearsHold b k vid = false)
    (he : e.legalHold = true) : e'.legalHold = true := by
  cases h with
  | hold q htarget he' =>
    rw [he']
    rw [Proposal.clearsHold] at hp
    simpa [htarget.1, htarget.2.1, htarget.2.2] using hp
  | retention q _ _ _ he' | reEncoded q _ _ he' | rewrapped q _ he' =>
    rw [he']
    exact he

/-- The version is there with the content it had and a lock that satisfies
`L`. -/
def Survives (L : VersionEntry → Prop) (b k : Bytes) (e : VersionEntry) (s : Store) : Prop :=
  ∃ e', versionAt s b k e.versionID = some e' ∧ L e' ∧ SameContent e e'

variable {L : VersionEntry → Prop} {s : Store}

/-- A lock that refuses every removal and that every rewrite keeps holds
along a step that does not reuse the identifier. -/
theorem Survives.applyMem (hs : Typed s)
    (hnew : ∀ {e' minted}, versionAt s b k e.versionID = some e' →
      p.writeTarget = some (b, k) → e.versionID ≠ bumpedID minted (versionList s b k).head?)
    (hremove : ∀ e' atUnixMS bypass, L e' → p.proposedAt = some atUnixMS →
      (bypass = true → p.bypasses b k e.versionID = true) → e'.lockedAt atUnixMS bypass = true)
    (hrewrite : ∀ e₁ e₂, versionAt s b k e.versionID = some e₁ →
      Rewritten b k e.versionID e₁ e₂ p → L e₁ → L e₂)
    (h : Survives L b k e s) : Survives L b k e (applyMem s p).2 := by
  obtain ⟨e₁, hver, hlock, hcontent⟩ := h
  have hid₁ := hcontent.versionID
  have hver₁ : versionAt s b k e₁.versionID = some e₁ := by rw [hid₁]; exact hver
  cases (versionStep_applyMem hs p).fate hs hver₁ with
  | kept h => exact ⟨e₁, hid₁ ▸ h, hlock, hcontent⟩
  | rewritten e₂ h hnew' =>
    exact ⟨e₂, hid₁ ▸ h, hrewrite e₁ e₂ hver (hid₁ ▸ hnew') hlock,
      hcontent.trans hnew'.sameContent⟩
  | removed atUnixMS bypass hat hunlocked hbypass =>
    rw [hid₁] at hbypass
    rw [hremove e₁ atUnixMS bypass hlock hat hbypass] at hunlocked
    cases hunlocked
  | overwritten minted htarget hid =>
    rw [hid₁] at hid
    exact absurd hid (hnew hver htarget)

theorem Sound.ne_bumpedID {n : Nat} (hs : Sound n s) (hn : n < 2 ^ 79)
    (hver : versionAt s b k vid = some e) : vid ≠ bumpedID minted (versionList s b k).head? := by
  intro hid
  obtain ⟨hb, hk, -⟩ := hs.base.typed.of_versionAt hver
  have hlt := hs.fresh.lt_bumpedID hn hs.base.typed hb hk minted hver
  rw [← hid] at hlt
  exact Nat.lt_irrefl _ hlt

theorem Survives.runMem {C : Proposal → Prop} {n : Nat} {ps : List Proposal} (hs : Sound n s)
    (hmint : ∀ p ∈ ps, p.MintsUUIDv7) (hlen : n + ps.length ≤ 2 ^ 79) (hall : ∀ p ∈ ps, C p)
    (hremove : ∀ p e' atUnixMS bypass, C p → L e' → p.proposedAt = some atUnixMS →
      e'.lockedAt atUnixMS bypass = true)
    (hrewrite : ∀ p e₁ e₂, C p → Rewritten b k e.versionID e₁ e₂ p → L e₁ → L e₂)
    (h : Survives L b k e s) : Survives L b k e (Meta.runMem s ps) := by
  have hstep : ∀ (n : Nat) (s : Store) (p : Proposal), n < 2 ^ 79 → p.MintsUUIDv7 ∧ C p →
      Sound n s ∧ Survives L b k e s →
      Sound (n + 1) (Meta.applyMem s p).2 ∧ Survives L b k e (Meta.applyMem s p).2 := by
    intro n s p hn hp hI
    refine ⟨sound_applyMem hI.1 hn hp.1, ?_⟩
    exact hI.2.applyMem hI.1.base.typed (fun hver _ => hI.1.ne_bumpedID hn hver)
      (fun e' t bypass hL ht _ => hremove p e' t bypass hp.2 hL ht)
      (fun e₁ e₂ _ => hrewrite p e₁ e₂ hp.2)
  exact (foldl_invariant_upto hstep (fun p hp => ⟨hmint p hp, hall p hp⟩) hlen ⟨hs, h⟩).2

/-- What a locked version may not lose: its identifier, size, tags, checksum
and metadata, and where the bytes of its parts are. -/
def VersionEntry.retainedContent (e : VersionEntry) :
    VersionID × Int64 × Bytes × Bytes × StringMap ×
      List (VersionID × Int64 × Bytes) :=
  (e.versionID, e.size, e.etag, e.objectChecksum, e.userMetadata,
    e.parts.map (fun r => (r.dataID, r.size, r.checksum)))

theorem SameContent.retainedContent_eq (h : SameContent e e') :
    e'.retainedContent = e.retainedContent := by
  unfold VersionEntry.retainedContent
  rw [h.versionID, h.size, h.etag, h.objectChecksum, h.userMetadata, h.parts]

/-- From every reachable store, a version under COMPLIANCE retention survives
every continuation proposed before the retention ends, and a version under a
legal hold survives every continuation that does not clear the hold.  Lock and
content stay. -/
theorem lockedVersion_survives {ps ps' : List Proposal}
    (hmint : ∀ p ∈ ps ++ ps', p.MintsUUIDv7) (hlen : (ps ++ ps').length ≤ 2 ^ 79)
    {b k : Bytes} {vid : VersionID} {e : VersionEntry}
    (hrow : (runMem newStore ps).get (versionRowKey b k vid) = some (.versionEntry e)) :
    (e.retentionMode = retentionCompliance →
      (∀ p ∈ ps', p.ProposedBefore e.retainUntilUnixMS) →
      ∃ e', (runMem newStore (ps ++ ps')).get (versionRowKey b k vid) =
          some (.versionEntry e') ∧
        e'.retentionMode = retentionCompliance ∧
        e.retainUntilUnixMS ≤ e'.retainUntilUnixMS ∧
        e'.retainedContent = e.retainedContent) ∧
    (e.legalHold = true → (∀ p ∈ ps', p.clearsHold b k vid = false) →
      ∃ e', (runMem newStore (ps ++ ps')).get (versionRowKey b k vid) =
          some (.versionEntry e') ∧
        e'.legalHold = true ∧ e'.retainedContent = e.retainedContent) := by
  have hmint₀ : ∀ p ∈ ps, p.MintsUUIDv7 := fun p hp => hmint p (List.mem_append_left _ hp)
  have hmint' : ∀ p ∈ ps', p.MintsUUIDv7 := fun p hp => hmint p (List.mem_append_right _ hp)
  rw [List.length_append] at hlen
  have hs : Sound ps.length (runMem newStore ps) := sound_run hmint₀ (by omega)
  have hrun : runMem newStore (ps ++ ps') = runMem (runMem newStore ps) ps' :=
    List.foldl_append
  have hend : Typed (runMem (runMem newStore ps) ps') := by
    rw [← hrun]
    exact typed_runMem (ps ++ ps')
  obtain ⟨e₀, hver, he₀⟩ := hs.base.typed.get_versionRowKey_iff.mp hrow
  cases he₀
  obtain ⟨-, -, rfl⟩ := hs.base.typed.of_versionAt hver
  rw [hrun]
  constructor
  · intro hmode hbefore
    have hstart : Survives (ComplianceUntil e.retainUntilUnixMS) b k e (runMem newStore ps) :=
      ⟨e, hver, ⟨hmode, Int64.le_refl _⟩, SameContent.refl e⟩
    obtain ⟨e', hver', hlock, hcontent⟩ := hstart.runMem hs hmint' hlen hbefore
      (fun p e' t bypass hp hL ht =>
        lockedAt_of_compliance hL.1 (Int64.lt_of_lt_of_le (hp t ht) hL.2))
      (fun p e₁ e₂ hp hrw hL => hrw.compliance hp hL)
    exact ⟨e', hend.get_versionRowKey_iff.mpr ⟨e', hver', rfl⟩, hlock.1, hlock.2,
      hcontent.retainedContent_eq⟩
  · intro hhold hclear
    have hstart : Survives (fun e' => e'.legalHold = true) b k e (runMem newStore ps) :=
      ⟨e, hver, hhold, SameContent.refl e⟩
    obtain ⟨e', hver', hlock, hcontent⟩ := hstart.runMem hs hmint' hlen hclear
      (fun p e' t bypass _ hL _ => lockedAt_of_hold hL)
      (fun p e₁ e₂ hp hrw hL => hrw.legalHold hp hL)
    exact ⟨e', hend.get_versionRowKey_iff.mpr ⟨e', hver', rfl⟩, hlock,
      hcontent.retainedContent_eq⟩

/-- A bucket with object lock and one version under COMPLIANCE retention until
`100` and a legal hold. -/
def lockedHistory : List Proposal :=
  [ .createBucket ⟨1, [97, 97, 97], true⟩
  , .putObject { proposedAtUnixMS := 3, bucket := [97, 97, 97], key := [107]
                 versionID := VersionID.newVersionID 3 0 0
                 retentionMode := retentionCompliance, retainUntilUnixMS := 100
                 legalHold := true } ]

def lockedAttempts : List Proposal :=
  [ .deleteVersion ⟨50, [97, 97, 97], [107], VersionID.newVersionID 3 0 0, true⟩
  , .updateRetention ⟨51, [97, 97, 97], [107], VersionID.newVersionID 3 0 0,
      retentionNone, 0, true⟩
  , .deleteObject ⟨52, [97, 97, 97], [107], VersionID.newVersionID 52 0 0⟩ ]

def lockedEntry : VersionEntry :=
  { formatVersion := 1, versionID := VersionID.newVersionID 3 0 0
    dataID := VersionID.newVersionID 3 0 0, kind := kindObject, createdUnixMS := 3
    retentionMode := retentionCompliance, retainUntilUnixMS := 100, legalHold := true }

theorem lockedVersion_survives_attempts :
    (∃ e', (runMem newStore (lockedHistory ++ lockedAttempts)).get
        (versionRowKey [97, 97, 97] [107] (VersionID.newVersionID 3 0 0)) =
          some (.versionEntry e') ∧
      e'.retentionMode = retentionCompliance ∧ 100 ≤ e'.retainUntilUnixMS ∧
      e'.retainedContent = lockedEntry.retainedContent) ∧
    (∃ e', (runMem newStore (lockedHistory ++ lockedAttempts)).get
        (versionRowKey [97, 97, 97] [107] (VersionID.newVersionID 3 0 0)) =
          some (.versionEntry e') ∧
      e'.legalHold = true ∧ e'.retainedContent = lockedEntry.retainedContent) := by
  have hrow : (runMem newStore lockedHistory).get
      (versionRowKey [97, 97, 97] [107] (VersionID.newVersionID 3 0 0)) =
        some (.versionEntry lockedEntry) := by decide +kernel
  have h := @lockedVersion_survives lockedHistory lockedAttempts (by decide +kernel) (by decide)
    _ _ _ _ hrow
  exact ⟨h.1 rfl (by decide +kernel), h.2 rfl (by decide +kernel)⟩

/-! ## Governance retention -/

/-- Retention of a named mode that runs until `T` at least. -/
def NamedRetentionUntil (T : Int64) (e : VersionEntry) : Prop :=
  (e.retentionMode = retentionGovernance ∨ e.retentionMode = retentionCompliance) ∧
    T ≤ e.retainUntilUnixMS

theorem NamedRetentionUntil.lockedAt {t : Int64} (h : NamedRetentionUntil T e) (ht : t < T) :
    e.lockedAt t false = true := by
  have hlt : t < e.retainUntilUnixMS := Int64.lt_of_lt_of_le ht h.2
  rcases h.1 with hmode | hmode
  · exact lockedAt_of_governance hmode hlt
  · exact lockedAt_of_compliance hmode hlt

/-- The proposal stores a mode byte without a name over the GOVERNANCE
retention of the version. -/
def UnnamesRetention (b k : Bytes) (vid : VersionID) (s : Store) (p : Proposal) : Prop :=
  ∃ q e, p = .updateRetention q ∧ (q.bucket = b ∧ q.key = k ∧ q.versionID = vid) ∧
    versionAt s b k vid = some e ∧ e.retentionMode = retentionGovernance ∧
    q.mode ≠ retentionNone ∧ q.mode ≠ retentionGovernance ∧ q.mode ≠ retentionCompliance ∧
    e.retainUntilUnixMS ≤ q.retainUntilUnixMS

/-- The proposal commits to the key while the successor of its newest
identifier is that of the version: the all-ones identifier wraps to zero. -/
def WrapsOnto (b k : Bytes) (vid : VersionID) (s : Store) (p : Proposal) : Prop :=
  p.writeTarget = some (b, k) ∧ vid = VersionID.zero ∧
    ∃ newest, (versionList s b k).head? = some newest ∧ newest.versionID.toNat = 2 ^ 128 - 1

/-- A rewrite without bypass keeps a named retention, unless it stores an
unnamed mode. -/
theorem Rewritten.named (h : Rewritten b k vid e e' p) (hver : versionAt s b k vid = some e)
    (hp : p.ProposedBefore T) (hbypass : p.bypasses b k vid = false)
    (hnamed : ¬ UnnamesRetention b k vid s p) (he : NamedRetentionUntil T e) :
    NamedRetentionUntil T e' := by
  rcases he.1 with hmode | hmode
  · cases h with
    | retention q htarget _ haccept he' =>
      have hbefore : q.proposedAtUnixMS < T := hp q.proposedAtUnixMS rfl
      have hunexpired : ¬ e.retainUntilUnixMS ≤ q.proposedAtUnixMS :=
        Int64.not_le.mpr (Int64.lt_of_lt_of_le hbefore he.2)
      have heffective : effectiveMode e q.proposedAtUnixMS = retentionGovernance := by
        rw [effectiveMode, if_neg (fun h => hunexpired h.2), hmode]
      have hqbypass : q.bypassGovernance = false := by
        rw [Proposal.bypasses] at hbypass
        simpa [htarget.1, htarget.2.1, htarget.2.2] using hbypass
      have hne : retentionGovernance ≠ retentionCompliance := by decide
      simp only [retentionRefuses, heffective, if_neg hne, if_true, hqbypass, true_and,
        decide_eq_false_iff_not, not_or] at haccept
      obtain ⟨hnone, hlater⟩ := haccept
      have hle := Int64.not_lt.mp hlater
      rw [he', withRetention, NamedRetentionUntil, if_neg hnone]
      refine ⟨?_, Int64.le_trans he.2 hle⟩
      by_contra hunnamed
      rw [not_or] at hunnamed
      exact hnamed ⟨q, e, rfl, htarget, hver, hmode, hnone, hunnamed.1, hunnamed.2, hle⟩
    | hold q _ he' | reEncoded q _ _ he' | rewrapped q _ he' =>
      rw [he']
      exact he
  · have hcompliance := h.compliance hp ⟨hmode, he.2⟩
    exact ⟨Or.inr hcompliance.1, hcompliance.2⟩

theorem Survives.governance (hs : Typed s) (hp : p.ProposedBefore T)
    (hbypass : p.bypasses b k e.versionID = false)
    (hsafe : ¬ UnnamesRetention b k e.versionID s p ∧ ¬ WrapsOnto b k e.versionID s p)
    (h : Survives (NamedRetentionUntil T) b k e s) :
    Survives (NamedRetentionUntil T) b k e (Meta.applyMem s p).2 := by
  refine h.applyMem hs ?_ ?_ ?_
  · intro e' minted hver htarget hid
    obtain ⟨-, -, hid'⟩ := hs.of_versionAt hver
    rw [← hid'] at hver hid
    have hwraps := hs.wraps_of_overwritten hver hid
    rw [hid'] at hwraps
    exact hsafe.2 ⟨htarget, hwraps.1, hwraps.2⟩
  · intro e' t bypass hL ht hby
    cases bypass with
    | false => exact hL.lockedAt (hp t ht)
    | true =>
      rw [hby rfl] at hbypass
      cases hbypass
  · intro e₁ e₂ hver hrw hL
    exact hrw.named hver hp hbypass hsafe.1 hL

/-- From every reachable store, a version under GOVERNANCE retention stays
locked along every continuation without bypass that is proposed before the
retention ends, whatever its fields, as long as no step stores an unnamed mode
over it and no commit wraps onto its identifier. -/
theorem governanceVersion_stays_locked {ps ps' : List Proposal} {b k : Bytes}
    {vid : VersionID} {e : VersionEntry}
    (hrow : (runMem newStore ps).get (versionRowKey b k vid) = some (.versionEntry e))
    (hmode : e.retentionMode = retentionGovernance)
    (hbefore : ∀ p ∈ ps', p.ProposedBefore e.retainUntilUnixMS)
    (hbypass : ∀ p ∈ ps', p.bypasses b k vid = false)
    (hsafe : EachStep (fun s p => (applyMem s p).2)
      (fun s p => ¬ UnnamesRetention b k vid s p ∧ ¬ WrapsOnto b k vid s p)
      (runMem newStore ps) ps')
    {qs : List Proposal} (hqs : qs <+: ps') :
    ∃ e', (runMem newStore (ps ++ qs)).get (versionRowKey b k vid) = some (.versionEntry e') ∧
      ∀ t, t < e.retainUntilUnixMS → e'.lockedAt t false = true := by
  have hs : Typed (runMem newStore ps) := typed_runMem ps
  obtain ⟨e₀, hver, he₀⟩ := hs.get_versionRowKey_iff.mp hrow
  cases he₀
  obtain ⟨-, -, rfl⟩ := hs.of_versionAt hver
  have hstart : Typed (runMem newStore ps) ∧
      Survives (NamedRetentionUntil e.retainUntilUnixMS) b k e (runMem newStore ps) :=
    ⟨hs, e, hver, ⟨Or.inl hmode, Int64.le_refl _⟩, SameContent.refl e⟩
  have hall : ∀ p ∈ ps', p.ProposedBefore e.retainUntilUnixMS ∧
      p.bypasses b k e.versionID = false := fun p hp => ⟨hbefore p hp, hbypass p hp⟩
  have hsteps := EachStep.and_of_forall hall hsafe
  have hend := hsteps.invariant
    (I := fun s => Typed s ∧ Survives (NamedRetentionUntil e.retainUntilUnixMS) b k e s)
    (fun s p hp hI => ⟨typed_applyMem hI.1 p, hI.2.governance hI.1 hp.1.1 hp.1.2 hp.2⟩)
    hstart hqs
  obtain ⟨htyped, e', hver', hlock, -⟩ := hend
  rw [runMem, List.foldl_append]
  exact ⟨e', htyped.get_versionRowKey_iff.mpr ⟨e', hver', rfl⟩, fun t ht => hlock.lockedAt ht⟩

def governedHistory : List Proposal :=
  [ .createBucket ⟨1, [97, 97, 97], true⟩
  , .putObject { proposedAtUnixMS := 3, bucket := [97, 97, 97], key := [107]
                 versionID := VersionID.newVersionID 3 0 0
                 retentionMode := retentionGovernance, retainUntilUnixMS := 100 } ]

def governedEntry : VersionEntry :=
  { formatVersion := 1, versionID := VersionID.newVersionID 3 0 0
    dataID := VersionID.newVersionID 3 0 0, kind := kindObject, createdUnixMS := 3
    retentionMode := retentionGovernance, retainUntilUnixMS := 100 }

/-- Attempts without bypass: a deletion, an earlier date, a legal hold. -/
def governedAttempts : List Proposal :=
  [ .deleteVersion ⟨50, [97, 97, 97], [107], VersionID.newVersionID 3 0 0, false⟩
  , .updateRetention ⟨51, [97, 97, 97], [107], VersionID.newVersionID 3 0 0,
      retentionGovernance, 60, false⟩
  , .updateLegalHold ⟨52, [97, 97, 97], [107], VersionID.newVersionID 3 0 0, false⟩ ]

theorem governanceVersion_stays_locked_attempts :
    ∃ e', (runMem newStore (governedHistory ++ governedAttempts)).get
        (versionRowKey [97, 97, 97] [107] (VersionID.newVersionID 3 0 0)) =
          some (.versionEntry e') ∧
      ∀ t, t < 100 → e'.lockedAt t false = true := by
  have hrow : (runMem newStore governedHistory).get
      (versionRowKey [97, 97, 97] [107] (VersionID.newVersionID 3 0 0)) =
        some (.versionEntry governedEntry) := by decide +kernel
  refine @governanceVersion_stays_locked governedHistory governedAttempts _ _ _ governedEntry
    hrow rfl (by decide +kernel) (by decide +kernel)
    ⟨⟨?_, ?_⟩, ⟨?_, ?_⟩, ⟨?_, ?_⟩, trivial⟩ _ (List.prefix_refl _)
  · rintro ⟨q, e, h, -⟩
    cases h
  · rintro ⟨h, -⟩
    cases h
  · rintro ⟨q, e, h, -, -, -, -, hmode, -⟩
    cases h
    exact hmode rfl
  · rintro ⟨h, -⟩
    cases h
  · rintro ⟨q, e, h, -⟩
    cases h
  · rintro ⟨h, -⟩
    cases h

/-- Without bypass, an update to mode byte `3` and a later date is accepted,
and the next deletion finds no lock.  Both are proposed before `100`. -/
theorem governanceVersion_deleted_without_bypass :
    (runMem newStore governedHistory).get
        (versionRowKey [97, 97, 97] [107] (VersionID.newVersionID 3 0 0)) =
          some (.versionEntry governedEntry) ∧
    governedEntry.retentionMode = retentionGovernance ∧
    governedEntry.retainUntilUnixMS = 100 ∧
    (∀ p ∈ [ Proposal.updateRetention ⟨50, [97, 97, 97], [107], VersionID.newVersionID 3 0 0,
          3, 200, false⟩
        , .deleteVersion ⟨51, [97, 97, 97], [107], VersionID.newVersionID 3 0 0, false⟩ ],
      p.ProposedBefore 100 ∧
        p.bypasses [97, 97, 97] [107] (VersionID.newVersionID 3 0 0) = false) ∧
    (runMem newStore (governedHistory ++
        [ .updateRetention ⟨50, [97, 97, 97], [107], VersionID.newVersionID 3 0 0,
            3, 200, false⟩
        , .deleteVersion ⟨51, [97, 97, 97], [107], VersionID.newVersionID 3 0 0, false⟩ ])).get
        (versionRowKey [97, 97, 97] [107] (VersionID.newVersionID 3 0 0)) = none := by
  decide +kernel

end Hamster.Meta
