import Hamster.Meta.SystemRows

/-!
# Rewriting a row

Fourteen proposals read a row, change some of its fields and write it back.  A row
may carry more than the proposal knows of: fields that other proposals own, and the
raw bytes of fields that a newer writer added.  `Proposal.rest` is a record without
the fields that the proposal carries, and `ShedsNothing` says that a rewrite leaves
the rest as it was.

Twelve of them copy the row they read.  A registration builds the record of a node
anew and carries over its version alone, and an affirmed posture carries over its
fingerprints alone.  `Proposal.Spares` says that the row they write over holds nothing
else.
-/

namespace Hamster.Meta

open CodeLib Tx

def Proposal.rewrites : Proposal → Option RowKey
  | .setBucketVersioning q => some (.bucket q.bucket)
  | .setObjectLockConfiguration q => some (.bucket q.bucket)
  | .updateRetention q => some (.version q.bucket q.key q.versionID)
  | .updateLegalHold q => some (.version q.bucket q.key q.versionID)
  | .reEncodeObject q => some (.version q.bucket q.key q.versionID)
  | .rewrapDEK q => some (.version q.bucket q.key q.versionID)
  | .setClusterLayout _ | .setTrustBundle _ => none
  | p => p.systemRow

/-- The record without the fields that the proposal carries.  A posture proposal
carries the current fingerprint only when its own is not zero. -/
def Proposal.rest : Proposal → Record → Record
  | .setBucketVersioning _, .bucketConfig c => .bucketConfig { c with versioning := unversioned }
  | .setObjectLockConfiguration _, .bucketConfig c =>
    .bucketConfig
      { c with
        defaultRetentionMode := retentionNone
        defaultRetentionDays := 0
        defaultRetentionYears := 0 }
  | .updateRetention _, .versionEntry e =>
    .versionEntry { e with retentionMode := retentionNone, retainUntilUnixMS := 0 }
  | .updateLegalHold _, .versionEntry e => .versionEntry { e with legalHold := false }
  | .reEncodeObject _, .versionEntry e =>
    .versionEntry
      { e with
        dataID := VersionID.zero
        ecDataShards := 0
        ecParityShards := 0
        shardChecksums := [] }
  | .rewrapDEK _, .versionEntry e => .versionEntry { e with wrappedDEK := [], kekFingerprint := 0 }
  | .setEncryptionPosture q, .encryptionPosture post =>
    .encryptionPosture
      { post with
        algorithm := encNone
        currentKEKFingerprint := if q.kekFingerprint = 0 then post.currentKEKFingerprint else 0 }
  | .beginKEKRotation _, .encryptionPosture post =>
    .encryptionPosture { post with rotatingToKEKFingerprint := 0 }
  | .completeKEKRotation _, .encryptionPosture post =>
    .encryptionPosture { post with currentKEKFingerprint := 0, rotatingToKEKFingerprint := 0 }
  | .registerNode _, .nodeRecord n =>
    .nodeRecord
      { n with nodeID := [], host := [], zone := [], capacity := 0, leafCAFingerprint := 0 }
  | .setNodeVersion _, .nodeRecord n => .nodeRecord { n with binaryVersion := [], generation := 0 }
  | .setNodeLeafCA _, .nodeRecord n => .nodeRecord { n with leafCAFingerprint := 0 }
  | .setNodeDraining _, .nodeRecord n => .nodeRecord { n with draining := false }
  | .setNodeReplacedBy _, .nodeRecord n => .nodeRecord { n with replacedBy := [] }
  | _, v => v

/-- A rewritten row keeps everything that the proposal does not carry, and no other
proposal changes a drain flag or a replacement. -/
structure ShedsNothing (p : Proposal) (s s' : Store) : Prop where
  rewritten : ∀ ⦃row v⦄, p.rewrites = some row → look s row = some v →
    ∃ v', look s' row = some v' ∧ p.rest v' = p.rest v
  draining : (∀ q, p ≠ .setNodeDraining q) → ∀ ⦃id n⦄, nodeAt s id = some n →
    (nodeAt s' id).map NodeRecord.draining = some n.draining
  replacedBy : (∀ q, p ≠ .setNodeReplacedBy q) → ∀ ⦃id n⦄, nodeAt s id = some n →
    (nodeAt s' id).map NodeRecord.replacedBy = some n.replacedBy

/-- The record holds nothing that the proposal would drop: a registration drops the
drain flag and the replacement, and both it and a posture proposal drop the unknown
fields and a newer format. -/
def Proposal.Spares : Proposal → Record → Prop
  | .registerNode _, .nodeRecord n =>
    n.formatVersion = currentFormatVersion ∧ n.draining = false ∧ n.replacedBy = [] ∧
      n.unknown = []
  | .setEncryptionPosture _, .encryptionPosture post =>
    post.formatVersion = currentFormatVersion ∧ post.unknown = []
  | _, _ => True

section Rows

variable {s s' : Store} {p : Proposal} {row : RowKey} {v : Record}

theorem look_set_self (s : Store) (row : RowKey) (v : Record) :
    look (s.set row.encode v) row = some v :=
  SortedKV.get_set_self _ _ _

theorem look_of_nodeAt {id : Bytes} {n : NodeRecord} (h : nodeAt s id = some n) :
    look s (.node id) = some (.nodeRecord n) := by
  obtain ⟨v, hv, hn⟩ := Option.bind_eq_some_iff.mp h
  cases v <;> cases hn
  exact hv

theorem rest_establishedPosture (q : SetEncryptionPosture) (post : EncryptionPosture) :
    Proposal.rest (.setEncryptionPosture q)
          (.encryptionPosture (establishedPosture q (some post))) =
        Proposal.rest (.setEncryptionPosture q) (.encryptionPosture post) ↔
      Proposal.Spares (.setEncryptionPosture q) (.encryptionPosture post) := by
  by_cases hzero : q.kekFingerprint = 0
  · simp [Proposal.rest, Proposal.Spares, establishedPosture, carriedPosture, hzero,
      eq_comm (a := currentFormatVersion)]
  · by_cases hcurrent : post.currentKEKFingerprint = 0 <;>
      simp [Proposal.rest, Proposal.Spares, establishedPosture, carriedPosture, hzero, hcurrent,
        eq_comm (a := currentFormatVersion)]

theorem SystemWrite.rest_iff {v' : Record} (h : SystemWrite s p row v')
    (hrow : p.rewrites = some row)
    (hv : look s row = some v) : p.rest v' = p.rest v ↔ p.Spares v := by
  cases h with
  | layout | trust => cases hrow
  | posture q prev hprev =>
    cases prev with
    | none => cases hprev.symm.trans hv
    | some post =>
      cases hprev.symm.trans hv
      exact rest_establishedPosture q post
  | beginRotation q post hold | completeRotation q post hold =>
    cases hold.symm.trans hv
    exact ⟨fun _ => trivial, fun _ => rfl⟩
  | register q prev hprev =>
    cases prev with
    | none => cases hprev.symm.trans hv
    | some n =>
      cases hprev.symm.trans hv
      simp [Proposal.rest, Proposal.Spares, registeredNode, eq_comm (a := currentFormatVersion)]
  | update hp n hold =>
    cases hold.symm.trans hv
    cases p with
    | setNodeDraining | setNodeReplacedBy | setNodeLeafCA | setNodeVersion =>
      cases hp
      exact ⟨fun _ => trivial, fun _ => rfl⟩
    | _ => cases hp

theorem rewritten_iff (hs : Typed s) {r : ApplyResult} (h : (applyBody p).eval s = (.ok r, s'))
    (hrow : p.rewrites = some row) (hv : look s row = some v) :
    ∃ v', look s' row = some v' ∧ (p.rest v' = p.rest v ↔ p.Spares v) := by
  cases hsys : p.systemRow with
  | some row' =>
    obtain rfl : row' = row := by cases p <;> cases hsys <;> cases hrow <;> rfl
    rcases systemWrite_of_ok hsys h with ⟨⟨q, rfl⟩, rfl⟩ | ⟨v', hwrite, rfl⟩
    · exact ⟨v, hv, fun _ => by cases v <;> trivial, fun _ => rfl⟩
    · exact ⟨v', look_set_self s _ v', hwrite.rest_iff hrow hv⟩
  | none =>
    cases applied_of_ok hsys h with
    | setBucketVersioning q cfg hcfg | setObjectLockConfiguration q cfg hcfg =>
      cases hrow
      cases (look_of_bucketAt hcfg).symm.trans hv
      exact ⟨_, look_set_self s (.bucket q.bucket) _, fun _ => trivial, fun _ => rfl⟩
    | rewrite hold hrow' hnew =>
      obtain rfl := hrow'.elim id (fun h => h.trans (hs.of_versionAt hold).2.2)
      cases hnew with
      | retention q htarget _ _ he | hold q htarget he | reEncoded q htarget _ he
      | rewrapped q htarget he =>
        obtain ⟨rfl, rfl, rfl⟩ := htarget
        subst he
        cases hrow
        cases (look_of_versionAt hold).symm.trans hv
        exact ⟨_, look_set_self s (.version q.bucket q.key q.versionID) _, fun _ => trivial,
          fun _ => rfl⟩
    | rewrappedBefore q => exact ⟨v, hv, fun _ => by cases v <;> trivial, fun _ => rfl⟩
    | _ => cases hrow

theorem node_kept (h : ∀ ⦃row v⦄, p.rewrites = some row → look s row = some v → p.Spares v)
    {id : Bytes} {n : NodeRecord} (hn : nodeAt s id = some n) :
    ∃ n', nodeAt (applyMem s p).2 id = some n' ∧
      ((∀ q, p ≠ .setNodeDraining q) → n'.draining = n.draining) ∧
      ((∀ q, p ≠ .setNodeReplacedBy q) → n'.replacedBy = n.replacedBy) := by
  cases nodeStep_applyMem s p id with
  | same hsame => exact ⟨n, hsame.trans hn, fun _ => rfl, fun _ => rfl⟩
  | registered q n' hp hid hnew hnode hdraining hreplaced hleaf =>
    subst hp hid
    obtain ⟨-, hd, hr, -⟩ := h rfl (look_of_nodeAt hn)
    exact ⟨n', hnew, fun _ => hdraining.trans hd.symm, fun _ => hreplaced.trans hr.symm⟩
  | draining q r hp hid hold hnew =>
    cases hold.symm.trans hn
    exact ⟨_, hnew, fun hq => absurd hp (hq q), fun _ => rfl⟩
  | replacedBy q r hp hid hold hnew =>
    cases hold.symm.trans hn
    exact ⟨_, hnew, fun _ => rfl, fun hq => absurd hp (hq q)⟩
  | leafCA q r hp hid hold hnew | version q r hp hid hold hnew =>
    cases hold.symm.trans hn
    exact ⟨_, hnew, fun _ => rfl, fun _ => rfl⟩

end Rows

/-- In every state of a log over a store of rows of any age, an accepted proposal
sheds nothing exactly when it spares the row that it rewrites. -/
theorem shedsNothing_iff {s : Store} (hs : Typed s) (log : List Proposal) {p : Proposal}
    {r : ApplyResult} (hok : (applyMem (runMem s log) p).1 = .ok r) :
    ShedsNothing p (runMem s log) (applyMem (runMem s log) p).2 ↔
      ∀ ⦃row v⦄, p.rewrites = some row → look (runMem s log) row = some v → p.Spares v := by
  have htyped := hs.runMem log
  have heval := eval_of_applyMem_eq_ok hok
  constructor
  · intro h row v hrow hv
    obtain ⟨v', hnew, hrest⟩ := h.rewritten hrow hv
    obtain ⟨v'', hnew', hiff⟩ := rewritten_iff htyped heval hrow hv
    cases hnew.symm.trans hnew'
    exact hiff.mp hrest
  · intro h
    refine ⟨fun row v hrow hv => ?_, fun hp id n hn => ?_, fun hp id n hn => ?_⟩
    · obtain ⟨v', hnew, hiff⟩ := rewritten_iff htyped heval hrow hv
      exact ⟨v', hnew, hiff.mpr (h hrow hv)⟩
    · obtain ⟨n', hnew, hdraining, -⟩ := node_kept h hn
      rw [hnew, Option.map_some, hdraining hp]
    · obtain ⟨n', hnew, -, hreplaced⟩ := node_kept h hn
      rw [hnew, Option.map_some, hreplaced hp]

/-- A draining node with a field of a newer writer. -/
def newerNode : NodeRecord where
  formatVersion := 2
  nodeID := [110]
  host := [104]
  zone := [122]
  capacity := 1
  draining := true
  leafCAFingerprint := 0
  unknown := [90, 1, 120]

def restoredNode : Store := newStore.set (nodeRowKey [110]) (.nodeRecord newerNode)

/-- The node is replaced by another, and keeps its drain flag and its unknown field. -/
theorem shedsNothing_replaced :
    ShedsNothing (.setNodeReplacedBy ⟨1, [110], [109]⟩) restoredNode
        (applyMem restoredNode (.setNodeReplacedBy ⟨1, [110], [109]⟩)).2 ∧
      nodeAt (applyMem restoredNode (.setNodeReplacedBy ⟨1, [110], [109]⟩)).2 [110] =
        some { newerNode with replacedBy := [109] } := by
  have htyped : Typed restoredNode := typed_newStore.set (r := .node [110]) trivial trivial
  refine ⟨(shedsNothing_iff htyped [] (r := .nil) (by decide +kernel)).mpr ?_, by decide +kernel⟩
  intro row v _ _
  cases v <;> trivial

/-- A node is registered, drained, and registered again with another zone. -/
def relabelled : List Proposal :=
  [ .registerNode ⟨1, [110], [104], [122], 1, 0⟩
  , .setNodeDraining ⟨2, [110], true⟩
  , .registerNode ⟨3, [110], [104], [121], 1, 0⟩ ]

/-- The second registration ends the drain. -/
theorem drain_ends_with_registration :
    (applyMem (runMem newStore (relabelled.take 2))
      (.registerNode ⟨3, [110], [104], [121], 1, 0⟩)).1 =
        .ok .nil ∧
      ¬ShedsNothing (.registerNode ⟨3, [110], [104], [121], 1, 0⟩)
        (runMem newStore (relabelled.take 2)) (runMem newStore relabelled) := by
  refine ⟨by decide +kernel, fun h => ?_⟩
  have hbefore : (nodeAt (runMem newStore (relabelled.take 2)) [110]).map NodeRecord.draining =
      some true := by decide +kernel
  obtain ⟨n, hn, hdraining⟩ := Option.map_eq_some_iff.mp hbefore
  have hkept := h.draining (fun q hq => by cases hq) hn
  have hafter : (nodeAt (runMem newStore relabelled) [110]).map NodeRecord.draining =
      some false := by decide +kernel
  rw [hafter, hdraining] at hkept
  cases hkept

end Hamster.Meta
