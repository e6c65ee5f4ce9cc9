import Hamster.CodeLib.Run
import Hamster.Meta.Dispatch
import Hamster.Raftnode.Raft
import Mathlib.Data.List.Sort
import Mathlib.Tactic.Tauto

/-!
# Cluster membership

The membership half of `internal/raftnode/raftnode.go`: which configuration
changes a leader proposes (`AddNode`, `RemoveNode`, `maybePromote`), and what
`applyEntry` does with a committed entry.  A replica keeps the address book, the
identifiers that were removed, and the configuration that the raft library
reports after each change.

The library's `ApplyConfChange` is a parameter, `ConfChanger`, and
`LawfulConfChanger` is what its documentation says about single changes.  A
change that would leave no voter makes the library panic, so a replica never
sees a configuration after one.
-/

namespace Hamster.Raftnode

open CodeLib Meta

/-! ## Configuration changes -/

inductive ConfChangeType where
  | addNode
  | removeNode
  | updateNode
  | addLearnerNode
deriving DecidableEq

/-- One entry of the address book: the transport identity and the address it
dials to. -/
structure PeerInfo where
  node : Bytes := []
  dial : Bytes := []
deriving DecidableEq, Inhabited

/-- `raftpb.ConfChange`.  The context of an admission is the member record that
the proposer encodes with the identifier of the change. -/
structure ConfChange where
  type : ConfChangeType
  nodeID : UInt64
  context : Option PeerInfo := none
deriving DecidableEq

class ConfChanger where
  applyConfChange : ConfState → ConfChange → ConfState

/-- What the library documents about single changes.  A change of the identifier
zero is one that raft decided to drop.  Voters and learners are disjoint sets. -/
class LawfulConfChanger [ConfChanger] : Prop where
  addNode (cs : ConfState) (cc : ConfChange) (x : UInt64) (htype : cc.type = .addNode)
    (hid : cc.nodeID ≠ 0) :
    (x ∈ (ConfChanger.applyConfChange cs cc).voters ↔ x = cc.nodeID ∨ x ∈ cs.voters) ∧
      (x ∈ (ConfChanger.applyConfChange cs cc).learners ↔ x ≠ cc.nodeID ∧ x ∈ cs.learners)
  addLearnerNode (cs : ConfState) (cc : ConfChange) (x : UInt64)
    (htype : cc.type = .addLearnerNode) (hid : cc.nodeID ≠ 0) :
    (x ∈ (ConfChanger.applyConfChange cs cc).voters ↔ x ≠ cc.nodeID ∧ x ∈ cs.voters) ∧
      (x ∈ (ConfChanger.applyConfChange cs cc).learners ↔ x = cc.nodeID ∨ x ∈ cs.learners)
  removeNode (cs : ConfState) (cc : ConfChange) (x : UInt64) (htype : cc.type = .removeNode)
    (hid : cc.nodeID ≠ 0) :
    (x ∈ (ConfChanger.applyConfChange cs cc).voters ↔ x ≠ cc.nodeID ∧ x ∈ cs.voters) ∧
      (x ∈ (ConfChanger.applyConfChange cs cc).learners ↔ x ≠ cc.nodeID ∧ x ∈ cs.learners)
  unchanged (cs : ConfState) (cc : ConfChange) (x : UInt64)
    (h : cc.type = .updateNode ∨ cc.nodeID = 0) :
    (x ∈ (ConfChanger.applyConfChange cs cc).voters ↔ x ∈ cs.voters) ∧
      (x ∈ (ConfChanger.applyConfChange cs cc).learners ↔ x ∈ cs.learners)
  nodup (cs : ConfState) (cc : ConfChange) (h : (cs.voters ++ cs.learners).Nodup) :
    ((ConfChanger.applyConfChange cs cc).voters ++
      (ConfChanger.applyConfChange cs cc).learners).Nodup

/-! ## A replica -/

/-- What a replica derives from the log: the metadata and the membership. -/
structure Replica where
  store : Store := newStore
  confState : ConfState := {}
  peers : UInt64 → Option PeerInfo := fun _ => none
  removed : UInt64 → Bool := fun _ => false

/-- A committed entry, decoded.  The commit barrier of a new leader is empty. -/
inductive Command where
  | barrier
  | proposal (p : Proposal)
  | confChange (cc : ConfChange)

namespace Replica

variable [ConfChanger] (r : Replica)

/-- The address book after a change: an admission's context carries the address,
a removal drops it. -/
def changedPeers (cc : ConfChange) (id : UInt64) : Option PeerInfo :=
  match cc.type, cc.context with
  | .addNode, some info | .addLearnerNode, some info =>
    if id = cc.nodeID then some info else r.peers id
  | .removeNode, _ => if id = cc.nodeID then none else r.peers id
  | _, _ => r.peers id

def changedRemoved (cc : ConfChange) : UInt64 → Bool :=
  if cc.type = .removeNode then fun id => id == cc.nodeID || r.removed id else r.removed

/-- `applyEntry`, as far as it changes the state of the replica. -/
def applyEntry : Command → Replica
  | .barrier => r
  | .proposal p => { r with store := (applyMem r.store p).2 }
  | .confChange cc =>
    { r with
      peers := r.changedPeers cc
      removed := r.changedRemoved cc
      confState := ConfChanger.applyConfChange r.confState cc }

def run (es : List Command) : Replica := es.foldl applyEntry r

end Replica

structure Member where
  id : UInt64
  addr : Bytes
  dial : Bytes
  learner : Bool := false
deriving DecidableEq

namespace Replica

variable (r : Replica)

/-- A member with its addresses; a missing entry of the book reads as empty. -/
def member (learner : Bool) (id : UInt64) : Member :=
  ⟨id, ((r.peers id).getD {}).node, ((r.peers id).getD {}).dial, learner⟩

/-- The membership that the replica has applied, sorted by identifier. -/
def members : List Member :=
  (r.confState.voters.map (r.member false) ++
    r.confState.learners.map (r.member true)).insertionSort (fun a b => a.id ≤ b.id)

def isMember (id : UInt64) : Bool := id ∈ r.confState.voters ∨ id ∈ r.confState.learners

def maxVoters : Nat := 5

/-- `AddNode` on a leader: nothing for a member, an error for an identifier that
was removed, and otherwise an admission as a learner. -/
def addNode (id : UInt64) (addr dial : Bytes) : Except Unit (Option ConfChange) :=
  if r.isMember id then .ok none
  else if r.removed id then .error ()
  else .ok (some ⟨.addLearnerNode, id, some ⟨addr, dial⟩⟩)

def removeNode (id : UInt64) : ConfChange := ⟨.removeNode, id, none⟩

/-- `maybePromote` on a leader: the lowest learner that has caught up takes a
vacancy among the voters. -/
def maybePromote (confCooldown : Nat) (caughtUp : UInt64 → Bool) : Option ConfChange :=
  if confCooldown > 0 ∨ r.confState.voters.length ≥ maxVoters ∨ r.confState.learners = [] then none
  else
    ((r.confState.learners.insertionSort (· ≤ ·)).find? caughtUp).map
      (fun id => ⟨.addNode, id, some ((r.peers id).getD {})⟩)

/-! ## Who is a member -/

def HasMember (x : Bytes) : Prop := ∃ m ∈ r.members, m.addr = x
deriving Decidable

/-- The transport identity that the book has for an identifier. -/
def addr (id : UInt64) : Bytes := ((r.peers id).getD {}).node

variable {r}

theorem isMember_iff {id : UInt64} :
    r.isMember id = true ↔ id ∈ r.confState.voters ∨ id ∈ r.confState.learners := by
  rw [isMember, decide_eq_true_eq]

theorem hasMember_iff {x : Bytes} :
    r.HasMember x ↔ ∃ id, r.isMember id = true ∧ r.addr id = x := by
  simp only [HasMember, members, List.mem_insertionSort, List.mem_append, List.mem_map,
    isMember_iff]
  constructor
  · rintro ⟨m, ⟨id, hid, rfl⟩ | ⟨id, hid, rfl⟩, hx⟩
    · exact ⟨id, Or.inl hid, hx⟩
    · exact ⟨id, Or.inr hid, hx⟩
  · rintro ⟨id, hid | hid, hx⟩
    · exact ⟨r.member false id, Or.inl ⟨id, hid, rfl⟩, hx⟩
    · exact ⟨r.member true id, Or.inr ⟨id, hid, rfl⟩, hx⟩

section Changes

variable [ConfChanger] {cc : ConfChange} {id : UInt64}

/-- An identifier keeps its address unless the change is its own removal or
gives it a new one. -/
theorem addr_applyEntry (hremove : cc.type = .removeNode → id ≠ cc.nodeID)
    (hcontext : ∀ info, cc.context = some info → id = cc.nodeID → info.node = r.addr id) :
    (r.applyEntry (.confChange cc)).addr id = r.addr id := by
  show ((r.changedPeers cc id).getD {}).node = r.addr id
  unfold changedPeers
  split
  · rename_i info _ hinfo
    split
    · rename_i heq
      exact hcontext info hinfo heq
    · rfl
  · rename_i info _ hinfo
    split
    · rename_i heq
      exact hcontext info hinfo heq
    · rfl
  · rename_i htype
    rw [if_neg (hremove htype)]
    rfl
  · rfl

theorem addr_added {info : PeerInfo} (htype : cc.type = .addNode ∨ cc.type = .addLearnerNode)
    (hinfo : cc.context = some info) :
    (r.applyEntry (.confChange cc)).addr cc.nodeID = info.node := by
  show ((r.changedPeers cc cc.nodeID).getD {}).node = info.node
  unfold changedPeers
  obtain htype | htype := htype
  · rw [htype, hinfo]
    simp
  · rw [htype, hinfo]
    simp

omit [ConfChanger] in
theorem changedRemoved_mono (h : r.removed id = true) : r.changedRemoved cc id = true := by
  unfold changedRemoved
  split_ifs
  · exact (congrArg (id == cc.nodeID || ·) h).trans (Bool.or_true _)
  · exact h

variable [LawfulConfChanger]

/-- A removal takes its own identifier out of the membership and no other; every
other change keeps all members. -/
theorem isMember_applyEntry (h : r.isMember id = true)
    (hkeep : cc.type = .removeNode → id ≠ cc.nodeID) :
    (r.applyEntry (.confChange cc)).isMember id = true := by
  rw [isMember_iff] at h ⊢
  show id ∈ (ConfChanger.applyConfChange r.confState cc).voters ∨
    id ∈ (ConfChanger.applyConfChange r.confState cc).learners
  by_cases hzero : cc.nodeID = 0
  · obtain ⟨hv, hl⟩ := LawfulConfChanger.unchanged r.confState cc id (Or.inr hzero)
    rwa [hv, hl]
  cases htype : cc.type with
  | addNode =>
    obtain ⟨hv, hl⟩ := LawfulConfChanger.addNode r.confState cc id htype hzero
    rw [hv, hl]
    tauto
  | removeNode =>
    obtain ⟨hv, hl⟩ := LawfulConfChanger.removeNode r.confState cc id htype hzero
    rw [hv, hl]
    have hne := hkeep htype
    tauto
  | updateNode =>
    obtain ⟨hv, hl⟩ := LawfulConfChanger.unchanged r.confState cc id (Or.inl htype)
    rwa [hv, hl]
  | addLearnerNode =>
    obtain ⟨hv, hl⟩ := LawfulConfChanger.addLearnerNode r.confState cc id htype hzero
    rw [hv, hl]
    tauto

theorem isMember_of_applyEntry (h : (r.applyEntry (.confChange cc)).isMember id = true) :
    r.isMember id = true ∨
      (cc.type = .addNode ∨ cc.type = .addLearnerNode) ∧ id = cc.nodeID := by
  rw [isMember_iff] at h ⊢
  change id ∈ (ConfChanger.applyConfChange r.confState cc).voters ∨
    id ∈ (ConfChanger.applyConfChange r.confState cc).learners at h
  by_cases hzero : cc.nodeID = 0
  · obtain ⟨hv, hl⟩ := LawfulConfChanger.unchanged r.confState cc id (Or.inr hzero)
    rw [hv, hl] at h
    exact Or.inl h
  cases htype : cc.type with
  | addNode =>
    obtain ⟨hv, hl⟩ := LawfulConfChanger.addNode r.confState cc id htype hzero
    rw [hv, hl] at h
    tauto
  | removeNode =>
    obtain ⟨hv, hl⟩ := LawfulConfChanger.removeNode r.confState cc id htype hzero
    rw [hv, hl] at h
    tauto
  | updateNode =>
    obtain ⟨hv, hl⟩ := LawfulConfChanger.unchanged r.confState cc id (Or.inl htype)
    rw [hv, hl] at h
    exact Or.inl h
  | addLearnerNode =>
    obtain ⟨hv, hl⟩ := LawfulConfChanger.addLearnerNode r.confState cc id htype hzero
    rw [hv, hl] at h
    tauto

theorem not_isMember_removed (htype : cc.type = .removeNode) (hid : cc.nodeID ≠ 0) :
    (r.applyEntry (.confChange cc)).isMember cc.nodeID ≠ true := by
  intro h
  rw [isMember_iff] at h
  change cc.nodeID ∈ (ConfChanger.applyConfChange r.confState cc).voters ∨
    cc.nodeID ∈ (ConfChanger.applyConfChange r.confState cc).learners at h
  obtain ⟨hv, hl⟩ := LawfulConfChanger.removeNode r.confState cc cc.nodeID htype hid
  rw [hv, hl] at h
  tauto

/-- A transport identity stays a member's unless a change removes it or gives a
member another one. -/
theorem HasMember.confChange {x : Bytes} (h : r.HasMember x)
    (hremove : cc.type = .removeNode → r.addr cc.nodeID ≠ x)
    (hcontext : ∀ info, cc.context = some info → r.isMember cc.nodeID = true →
      info.node = r.addr cc.nodeID) : (r.applyEntry (.confChange cc)).HasMember x := by
  obtain ⟨id, hid, rfl⟩ := hasMember_iff.mp h
  have hkeep : cc.type = .removeNode → id ≠ cc.nodeID := by
    rintro htype rfl
    exact hremove htype rfl
  refine hasMember_iff.mpr ⟨id, isMember_applyEntry hid hkeep, addr_applyEntry hkeep ?_⟩
  rintro info hinfo rfl
  exact hcontext info hinfo hid

end Changes

end Replica

/-! ## Single changes on lists -/

def listChange (cs : ConfState) (cc : ConfChange) : ConfState :=
  let added (ids : List UInt64) := (cc.nodeID :: ids.filter (· ≠ cc.nodeID)).insertionSort (· ≤ ·)
  let dropped (ids : List UInt64) := ids.filter (· ≠ cc.nodeID)
  if cc.nodeID = 0 then cs
  else
    match cc.type with
    | .addNode => { cs with voters := added cs.voters, learners := dropped cs.learners }
    | .removeNode => { cs with voters := dropped cs.voters, learners := dropped cs.learners }
    | .updateNode => cs
    | .addLearnerNode => { cs with voters := dropped cs.voters, learners := added cs.learners }

@[reducible] def listConfChanger : ConfChanger := ⟨listChange⟩

private theorem mem_added (ids : List UInt64) (id x : UInt64) :
    x ∈ (id :: ids.filter (· ≠ id)).insertionSort (· ≤ ·) ↔ x = id ∨ x ∈ ids := by
  rw [List.mem_insertionSort, List.mem_cons, List.mem_filter, decide_eq_true_eq]
  tauto

private theorem mem_dropped (ids : List UInt64) (id x : UInt64) :
    x ∈ ids.filter (· ≠ id) ↔ x ≠ id ∧ x ∈ ids := by
  rw [List.mem_filter, decide_eq_true_eq, and_comm]

private theorem nodup_listChange (cs : ConfState) (cc : ConfChange)
    (h : (cs.voters ++ cs.learners).Nodup) :
    ((listChange cs cc).voters ++ (listChange cs cc).learners).Nodup := by
  rw [List.nodup_append'] at h
  obtain ⟨hv, hl, hdisjoint⟩ := h
  have hadded : ∀ ids : List UInt64, ids.Nodup →
      ((cc.nodeID :: ids.filter (· ≠ cc.nodeID)).insertionSort (· ≤ ·)).Nodup := by
    intro ids hids
    rw [(List.perm_insertionSort _ _).nodup_iff, List.nodup_cons]
    exact ⟨by simp, hids.filter _⟩
  have hdrop : ∀ ids : List UInt64, ids.filter (· ≠ cc.nodeID) ⊆ ids :=
    fun ids x hx => (List.mem_filter.mp hx).1
  unfold listChange
  split_ifs with hzero
  · exact List.nodup_append'.mpr ⟨hv, hl, hdisjoint⟩
  cases cc.type with
  | addNode =>
    refine List.nodup_append'.mpr ⟨hadded _ hv, hl.filter _, fun x hx hx' => ?_⟩
    obtain rfl | hx := (mem_added _ _ x).mp hx
    · exact ((mem_dropped _ _ _).mp hx').1 rfl
    · exact hdisjoint hx (hdrop _ hx')
  | removeNode =>
    refine List.nodup_append'.mpr ⟨hv.filter _, hl.filter _, fun x hx hx' => ?_⟩
    exact hdisjoint (hdrop _ hx) (hdrop _ hx')
  | updateNode => exact List.nodup_append'.mpr ⟨hv, hl, hdisjoint⟩
  | addLearnerNode =>
    refine List.nodup_append'.mpr ⟨hv.filter _, hadded _ hl, fun x hx hx' => ?_⟩
    obtain rfl | hx' := (mem_added _ _ x).mp hx'
    · exact ((mem_dropped _ _ _).mp hx).1 rfl
    · exact hdisjoint (hdrop _ hx) hx'

theorem listConfChanger_lawful : @LawfulConfChanger listConfChanger := by
  refine @LawfulConfChanger.mk listConfChanger ?_ ?_ ?_ ?_ nodup_listChange
  pick_goal 4
  · intro cs cc x h
    show (x ∈ (listChange cs cc).voters ↔ _) ∧ (x ∈ (listChange cs cc).learners ↔ _)
    by_cases hid : cc.nodeID = 0
    · simp only [listChange, if_pos hid, and_self]
    · obtain htype | hzero := h
      · simp only [listChange, if_neg hid, htype, and_self]
      · exact absurd hzero hid
  all_goals
    intro cs cc x htype hid
    show (x ∈ (listChange cs cc).voters ↔ _) ∧ (x ∈ (listChange cs cc).learners ↔ _)
    simp only [listChange, if_neg hid, htype, mem_added, mem_dropped, and_self]

end Hamster.Raftnode
