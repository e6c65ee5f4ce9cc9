import Hamster.Meta.Frames
import Hamster.Meta.Scans

/-!
# The rows of the cluster

The rows under `s/` are the layout, the encryption posture, the trust bundle and
one record for each registered node.  A proposal writes at most one of them,
`Proposal.systemRow`, and `look_applyMem` says that the others stay as they are.

`layoutAt_applyMem` is what a proposal does to the layout: it counts its versions up
by one.  `NodeStep` is what a proposal does to the record of one node.  No proposal
deletes a record.
-/

namespace Hamster.Meta

open CodeLib

/-! ## The row that a proposal writes -/

section Rows

theorem Proposal.eq_of_touches_system {p : Proposal} {r : RowKey} (hr : r.System)
    (h : p.Touches r.encode) : p.systemRow = some r := by
  obtain ⟨hhead, hplain⟩ := hr.shape
  rcases Proposal.cases_of_touches h with h | ⟨-, h⟩ | ⟨r', hr', heq⟩
  · rw [hhead] at h
    simp at h
  · cases hhead.symm.trans h
  · rw [hr', RowKey.encode_inj hplain (Proposal.system_systemRow hr').shape.2 heq]

theorem look_applyMem (s : Store) {p : Proposal} {r : RowKey} (hr : r.System)
    (hp : p.systemRow ≠ some r) : look (applyMem s p).2 r = look s r :=
  get_applyMem s (fun h => hp (Proposal.eq_of_touches_system hr h))

end Rows

/-! ## The layout -/

section LayoutRow

open Tx

variable {s s' : Store}

theorem layoutAt_applyMem (s : Store) (p : Proposal) :
    layoutAt (applyMem s p).2 = layoutAt s ∨
      ∃ q, p = .setClusterLayout q ∧ (applyMem s p).1.isOk = true ∧
        q.version = nextGeneration ((layoutAt s).map ClusterLayout.version) ∧
        layoutAt (applyMem s p).2 = some q.layout := by
  by_cases hrow : p.systemRow = some .clusterLayout
  · cases p with
    | setClusterLayout q =>
      rcases applyMem_cases s (.setClusterLayout q) with ⟨e, happly⟩ | ⟨r, s', happly, heval⟩
      · exact Or.inl (by rw [happly])
      · rw [happly]
        rcases systemWrite_of_ok hrow heval with ⟨-, rfl⟩ | ⟨v, hwrite, rfl⟩
        · exact Or.inl rfl
        · cases hwrite with
          | layout q prev hprev hversion =>
            refine Or.inr ⟨q, rfl, rfl, ?_, ?_⟩
            · rw [layoutAt, look, RowKey.encode, hprev, hversion]
              cases prev <;> rfl
            · rw [layoutAt, look, SortedKV.get_set, if_pos rfl]
              rfl
    | _ => cases hrow
  · exact Or.inl (congrArg (Option.bind · Record.layout?) (look_applyMem s trivial hrow))

end LayoutRow

/-! ## The registry -/

def nodeAt (s : Store) (id : Bytes) : Option NodeRecord := (look s (.node id)).bind Record.node?

/-- What a proposal does to the record of one node. -/
inductive NodeStep (p : Proposal) (s s' : Store) (id : Bytes) : Prop where
  | same (h : nodeAt s' id = nodeAt s id)
  | registered (q : RegisterNode) (r : NodeRecord) (hp : p = .registerNode q) (hid : q.nodeID = id)
      (h : nodeAt s' id = some r) (hnode : r.nodeID = id) (hdraining : r.draining = false)
      (hreplaced : r.replacedBy = []) (hleaf : r.leafCAFingerprint = q.leafCAFingerprint)
  | draining (q : SetNodeDraining) (r : NodeRecord) (hp : p = .setNodeDraining q)
      (hid : q.nodeID = id) (hold : nodeAt s id = some r)
      (h : nodeAt s' id = some { r with draining := q.draining })
  | replacedBy (q : SetNodeReplacedBy) (r : NodeRecord) (hp : p = .setNodeReplacedBy q)
      (hid : q.nodeID = id) (hold : nodeAt s id = some r)
      (h : nodeAt s' id = some { r with replacedBy := q.replacedBy })
  | leafCA (q : SetNodeLeafCA) (r : NodeRecord) (hp : p = .setNodeLeafCA q)
      (hid : q.nodeID = id) (hold : nodeAt s id = some r)
      (h : nodeAt s' id = some { r with leafCAFingerprint := q.leafCAFingerprint })
  | version (q : SetNodeVersion) (r : NodeRecord) (hp : p = .setNodeVersion q)
      (hid : q.nodeID = id) (hold : nodeAt s id = some r)
      (h : nodeAt s' id =
        some { r with binaryVersion := q.binaryVersion, generation := q.generation })

section Registry

open Tx

variable {s s' : Store} {id : Bytes}

theorem nodeAt_set_self (s : Store) (id : Bytes) (r : NodeRecord) :
    nodeAt (s.set (nodeRowKey id) (.nodeRecord r)) id = some r := by
  rw [nodeAt, look, RowKey.encode, SortedKV.get_set, if_pos rfl]
  rfl

theorem nodeStep_applyMem (s : Store) (p : Proposal) (id : Bytes) :
    NodeStep p s (applyMem s p).2 id := by
  by_cases hrow : p.systemRow = some (.node id)
  · rcases applyMem_cases s p with ⟨e, happly⟩ | ⟨r, s', happly, heval⟩
    · rw [happly]
      exact .same rfl
    · rw [happly]
      rcases systemWrite_of_ok hrow heval with ⟨-, rfl⟩ | ⟨v, hwrite, rfl⟩
      · exact .same rfl
      · cases hwrite with
        | register q prev hprev =>
          exact .registered q _ rfl rfl (nodeAt_set_self s q.nodeID _) rfl rfl rfl rfl
        | update hp n hold =>
          have hat : nodeAt s id = some n := by rw [nodeAt, look, RowKey.encode, hold]; rfl
          cases p with
          | setNodeDraining q =>
            cases hp
            exact .draining q n rfl rfl hat (nodeAt_set_self s q.nodeID _)
          | setNodeReplacedBy q =>
            cases hp
            exact .replacedBy q n rfl rfl hat (nodeAt_set_self s q.nodeID _)
          | setNodeLeafCA q =>
            cases hp
            exact .leafCA q n rfl rfl hat (nodeAt_set_self s q.nodeID _)
          | setNodeVersion q =>
            cases hp
            exact .version q n rfl rfl hat (nodeAt_set_self s q.nodeID _)
          | _ => cases hp
  · refine .same ?_
    have hsame := look_applyMem s (r := .node id) trivial hrow
    rw [nodeAt, hsame, nodeAt]

def NodesNamed (s : Store) : Prop := ∀ ⦃id r⦄, nodeAt s id = some r → r.nodeID = id

theorem nodesNamed_newStore : NodesNamed newStore := by
  intro id r h
  cases h

theorem NodesNamed.applyMem (hs : NodesNamed s) (p : Proposal) : NodesNamed (applyMem s p).2 := by
  intro id r h
  cases nodeStep_applyMem s p id with
  | same hsame => exact hs (hsame.symm.trans h)
  | registered q r' hp hid h' hnode =>
    cases h'.symm.trans h
    exact hnode
  | draining q r' hp hid hold h' | replacedBy q r' hp hid hold h' | leafCA q r' hp hid hold h'
  | version q r' hp hid hold h' =>
    cases h'.symm.trans h
    exact (hs hold : r'.nodeID = id)

theorem mem_nodeRows (hn : NodesNamed s) {r : NodeRecord} :
    r ∈ nodeRows s ↔ nodeAt s r.nodeID = some r := by
  rw [nodeRows, List.mem_filterMap]
  constructor
  · rintro ⟨⟨key, v⟩, hmem, hv⟩
    obtain ⟨hget, id, rfl⟩ := SortedKV.mem_rowsUnder.mp hmem
    have hat : nodeAt s id = some r := by
      rw [nodeAt, look, RowKey.encode, nodeRowKey, hget]
      exact hv
    rw [hn hat]
    exact hat
  · intro h
    obtain ⟨v, hv, hrec⟩ := Option.bind_eq_some_iff.mp h
    exact ⟨(nodeRowKey r.nodeID, v), SortedKV.mem_rowsUnder.mpr ⟨hv, List.prefix_append _ _⟩, hrec⟩

end Registry

/-! ## The master key -/

section Posture

open Tx

/-- A store that encrypts, under the master key `kek` or under one to which a
rotation among `ps` was begun and completed.  Its posture is `b`. -/
structure Rotated (ps : List Proposal) (kek : UInt64) (s : Store) (b : EncryptionPosture) :
    Prop where
  row : look s .encryptionPosture = some (.encryptionPosture b)
  algorithm : b.algorithm ≠ encNone
  known : b.currentKEKFingerprint ≠ 0
  current : b.currentKEKFingerprint = kek ∨
    (∃ q, .beginKEKRotation q ∈ ps ∧ q.toFingerprint = b.currentKEKFingerprint) ∧
      ∃ q, .completeKEKRotation q ∈ ps ∧ q.toFingerprint = b.currentKEKFingerprint
  rotating : b.rotatingToKEKFingerprint = 0 ∨
    b.rotatingToKEKFingerprint ≠ b.currentKEKFingerprint ∧
      ∃ q, .beginKEKRotation q ∈ ps ∧ q.toFingerprint = b.rotatingToKEKFingerprint

variable {ps : List Proposal} {kek : UInt64} {s : Store} {b : EncryptionPosture}

theorem Rotated.applyMem (h : Rotated ps kek s b) {p : Proposal} (hp : p ∈ ps) :
    ∃ b', Rotated ps kek (applyMem s p).2 b' := by
  by_cases hrow : p.systemRow = some .encryptionPosture
  · rcases applyMem_cases s p with ⟨e, happly⟩ | ⟨r, s', happly, heval⟩
    · exact ⟨b, by rw [happly]; exact h⟩
    rw [happly]
    cases p with
    | setEncryptionPosture q =>
      obtain ⟨_, -, heval⟩ := eval_wrapped_ok heval
      obtain ⟨-, heval⟩ := eval_failIf_ok heval
      obtain ⟨prev, hread, heval⟩ := eval_read_ok heval
      obtain ⟨hdown, heval⟩ := eval_failIf_ok heval
      obtain ⟨-, heval⟩ := eval_failIf_ok heval
      have hprev : prev = some b := by
        have hsame := (get_of_getTyped of_asEncryptionPosture hread).symm.trans h.row
        cases prev <;> cases hsame
        rfl
      subst hprev
      cases heval
      refine ⟨carriedPosture q (some b), ?_, fun hnone => hdown ⟨b, rfl, h.algorithm, hnone⟩,
        h.known, h.current, h.rotating⟩
      -- the fingerprint is known, so the proposal does not establish one
      rw [if_neg (fun hnew => h.known hnew.2)]
      exact SortedKV.get_set_self _ _ _
    | beginKEKRotation q =>
      obtain ⟨_, -, heval⟩ := eval_wrapped_ok heval
      obtain ⟨post, hpost, heval⟩ := requirePosture_ok heval
      obtain ⟨-, heval⟩ := eval_failIf_ok heval
      obtain ⟨hto, heval⟩ := eval_failIf_ok heval
      obtain ⟨-, heval⟩ := eval_failIf_ok heval
      obtain ⟨-, heval⟩ := eval_failIf_ok heval
      cases heval
      cases hpost.symm.trans h.row
      exact ⟨_, SortedKV.get_set_self _ _ _, h.algorithm, h.known, h.current,
        Or.inr ⟨fun heq => hto (Or.inr heq), q, hp, rfl⟩⟩
    | completeKEKRotation q =>
      obtain ⟨_, -, heval⟩ := eval_wrapped_ok heval
      obtain ⟨post, hpost, heval⟩ := requirePosture_ok heval
      cases hpost.symm.trans h.row
      split at heval
      · split at heval
        · cases heval
          exact ⟨_, h⟩
        · cases heval
      · rename_i hopen
        obtain ⟨hto, heval⟩ := eval_failIf_ok heval
        cases heval
        obtain ⟨-, hbegun⟩ := h.rotating.resolve_left hopen
        exact ⟨_, SortedKV.get_set_self _ _ _, h.algorithm, hopen,
          Or.inr ⟨hbegun, q, hp, (not_not.mp hto).symm⟩, Or.inl rfl⟩
    | _ => cases hrow
  · have hsame := look_applyMem s (r := .encryptionPosture) trivial hrow
    exact ⟨b, hsame.trans h.row, h.algorithm, h.known, h.current, h.rotating⟩

/-- A store that encrypts does so for ever, and its master key changes only when
a rotation to it is begun and completed. -/
theorem rotated_runMem (h : Rotated [] kek s b) (ps : List Proposal) :
    ∃ b', Rotated ps kek (runMem s ps) b' := by
  refine foldl_invariant (P := (· ∈ ps)) (I := fun s => ∃ b, Rotated ps kek s b) ?_ (fun _ => id) ?_
  · rintro s p hp ⟨b, hb⟩
    exact hb.applyMem hp
  · refine ⟨b, h.row, h.algorithm, h.known, h.current.imp_right ?_, h.rotating.imp_right ?_⟩
    · rintro ⟨⟨q, hq, -⟩, -⟩
      cases hq
    · rintro ⟨-, q, hq, -⟩
      cases hq

def rotateToNine : List Proposal := [.beginKEKRotation ⟨2, 7, 9⟩, .completeKEKRotation ⟨3, 9⟩]

theorem rotated_rotateToNine : ∃ b, Rotated rotateToNine 7
    (runMem (runMem newStore [.setEncryptionPosture ⟨1, encAES256GCM, 7⟩]) rotateToNine) b :=
  rotated_runMem (b := ⟨1, encAES256GCM, 7, 0, []⟩)
    ⟨by decide +kernel, by decide, by decide, Or.inl rfl, Or.inl rfl⟩ _

end Posture

end Hamster.Meta
