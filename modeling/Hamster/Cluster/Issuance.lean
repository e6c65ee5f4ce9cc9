import Hamster.Cluster.Layout
import Mathlib.Data.List.Pairwise

/-!
# Issuing identities

The issuing side of a join, `handleJoin` and `issueIdentity` of
`internal/cluster/join.go`, over the machines of a cluster: what `Init` and `Join`
of `lifecycle.go` write to disk, what a restart reads back, and the last phase of
`runRotateCA` (`trust.go`), which makes the driver an issuer.

Raft IDs come from a counter in the issuer's own configuration, saved before an ID
is handed out.  A node that joined has no counter of its own, so after a rotation
another issuer starts from zero.  The save renames a file and does not sync the
directory, so a power loss can bring the old counter back.  A node ID is checked
against the members only, and a joiner is no member before its admission commits.
`identities_distinct` is what holds when the founding node issues every identity, no
rename of its is lost and no node ID is asked for twice.
-/

namespace Hamster.Cluster

open CodeLib Meta Place Raftnode

/-! ## The issuing side -/

structure JoinRequest where
  nodeID : NodeID
  clusterAddr : Bytes
  host : Bytes := []
  zone : Bytes := []
  capacity : UInt32 := 0
  replaces : NodeID := []

/-- A node: its configuration in memory and on disk, and its keys.  A CA is known by
its fingerprint. -/
structure Machine where
  nodeID : NodeID
  raftID : UInt64
  clusterAddr : Bytes
  nextRaftID : UInt64
  nodeLabels : List NodeLabel
  savedNextRaftID : UInt64
  savedNodeLabels : List NodeLabel
  /-- What the saves since then replaced, newest first: `saveConfig` renames without a
  sync of the directory, so a power loss may bring any of them back. -/
  replaced : List (UInt64 × List NodeLabel)
  /-- The CA whose key the process holds. -/
  ca : Option UInt64
  /-- The CA whose key is on disk. -/
  savedCA : Option UInt64
  /-- The CA that signed the node's certificate. -/
  leafCA : UInt64

/-- Record a node's labels, in place of an earlier entry. -/
def upsertLabel (labels : List NodeLabel) (m : NodeLabel) : List NodeLabel :=
  match labels.findIdx? (fun l => l.nodeID = m.nodeID) with
  | some i => labels.set i m
  | none => labels ++ [m]

/-- The labels of a joiner, with the defaults filled in. -/
def joinLabel (req : JoinRequest) : NodeLabel :=
  let host := if req.host = [] then req.nodeID else req.host
  ⟨req.nodeID, host, if req.zone = [] then host else req.zone, req.capacity⟩

/-- The next Raft ID, counted in memory and then saved.  Without the save no
identity is issued. -/
def issueIdentity (m : Machine) (req : JoinRequest) (members : List Member) (saves : Bool) :
    Option UInt64 × Machine :=
  if ∃ x ∈ members, x.addr = req.nodeID then (none, m)
  else
    let counted := { m with
      nextRaftID := m.nextRaftID + 1
      nodeLabels := upsertLabel m.nodeLabels (joinLabel req) }
    if saves then
      (some m.nextRaftID, { counted with
        savedNextRaftID := counted.nextRaftID
        savedNodeLabels := counted.nodeLabels
        replaced := (m.savedNextRaftID, m.savedNodeLabels) :: m.replaced })
    else (none, counted)

/-- A restart reads `node.conf` back.  In a power loss the `lost` last renames are
lost, and what is there then is durable. -/
def Machine.restart (m : Machine) (lost : Nat) : Machine :=
  let saved := (m.savedNextRaftID, m.savedNodeLabels)
  let (next, labels) := (saved :: m.replaced)[lost]?.getD saved
  { m with
    nextRaftID := next
    nodeLabels := labels
    savedNextRaftID := next
    savedNodeLabels := labels
    replaced := if lost = 0 then m.replaced else []
    ca := m.savedCA }

/-- A join with a valid token.  `members` is what the issuer sees of the membership,
and `completes` says that the certificate is issued and a replacement is paired. -/
def handleJoin (m : Machine) (req : JoinRequest) (members : List Member) (saves completes : Bool) :
    Option UInt64 × Machine :=
  if m.ca.isNone ∨ req.nodeID = [] ∨ req.clusterAddr = [] ∨ req.replaces = req.nodeID ∨
      (req.replaces ≠ [] ∧ ¬∃ x ∈ members, x.addr = req.replaces) then (none, m)
  else
    let (id, m') := issueIdentity m req members saves
    (if completes then id else none, m')

/-! ## A cluster of machines -/

structure Issued where
  raftID : UInt64
  nodeID : NodeID
  signedBy : UInt64

def joined (req : JoinRequest) (x : Issued) : Machine where
  nodeID := req.nodeID
  raftID := x.raftID
  clusterAddr := req.clusterAddr
  nextRaftID := 0
  nodeLabels := [joinLabel req]
  savedNextRaftID := 0
  savedNodeLabels := [joinLabel req]
  replaced := []
  ca := none
  savedCA := none
  leafCA := x.signedBy

structure JoinWorld where
  machines : List Machine
  replica : Replica
  issued : List Issued := []

inductive JoinEvent where
  | join (i : Nat) (req : JoinRequest) (members : List Member) (saves completes : Bool)
  | restart (i : Nat) (lost : Nat)
  /-- A rotation that this node drove has completed. -/
  | rotated (i : Nat) (ca : UInt64)
  /-- The leader takes up the admission request of a node. -/
  | requested (i : Nat)
  | promote (caughtUp : List UInt64)
  | remove (id : UInt64)
  | metadata (p : Proposal)

namespace JoinWorld

variable [ConfChanger]

/-- What `Init` writes, and the configuration that the first boot makes of it. -/
def found (node : NodeLabel) (addr : Bytes) (ca : UInt64) : JoinWorld where
  machines := [⟨node.nodeID, 1, addr, 2, [node], 2, [node], [], some ca, some ca, ca⟩]
  replica := Replica.run {} [.confChange ⟨.addNode, 1, some ⟨node.nodeID, addr⟩⟩]

def onMachine (machines : List Machine) (i : Nat) (f : Machine → Machine) : List Machine :=
  match machines[i]? with
  | none => machines
  | some m => machines.set i (f m)

def commits (w : JoinWorld) (cc : Option ConfChange) : JoinWorld :=
  match cc with
  | none => w
  | some cc => { w with replica := w.replica.applyEntry (.confChange cc) }

/-- What the issuer `i` answers, and the joiner that a response makes. -/
def answer (w : JoinWorld) (i : Nat) (req : JoinRequest) (ca : UInt64) :
    Option UInt64 × Machine → JoinWorld
  | (none, m) => { w with machines := w.machines.set i m }
  | (some id, m) =>
    { w with
      machines := w.machines.set i m ++ [joined req ⟨id, req.nodeID, ca⟩]
      issued := w.issued ++ [⟨id, req.nodeID, ca⟩] }

def step (w : JoinWorld) : JoinEvent → JoinWorld
  | .join i req members saves completes =>
    match w.machines[i]? with
    | none => w
    | some m => w.answer i req (m.ca.getD 0) (handleJoin m req members saves completes)
  | .restart i lost => { w with machines := onMachine w.machines i (·.restart lost) }
  | .rotated i ca =>
    { w with
      machines := onMachine w.machines i (fun m => { m with ca := some ca, savedCA := some ca }) }
  | .requested i =>
    match w.machines[i]? with
    | none => w
    | some m =>
      match w.replica.addNode m.raftID m.nodeID m.clusterAddr with
      | .ok cc => w.commits cc
      | .error _ => w
  | .promote caughtUp => w.commits (w.replica.maybePromote 0 (fun id => id ∈ caughtUp))
  | .remove id => w.commits (some (Replica.removeNode id))
  | .metadata p => { w with replica := w.replica.applyEntry (.proposal p) }

def run (w : JoinWorld) (es : List JoinEvent) : JoinWorld := es.foldl step w

end JoinWorld

/-- Joins go to the founding node, whose counter does not wrap, and ask for node IDs
of which every bearer was evicted.  The founding node loses no rename. -/
def Orderly (w : JoinWorld) : JoinEvent → Prop
  | .join i req _ _ _ =>
    i = 0 ∧ (∀ m ∈ w.machines, m.nodeID = req.nodeID → w.replica.removed m.raftID = true) ∧
      ∀ m ∈ w.machines[0]?, m.nextRaftID.toNat + 1 < 2 ^ 64
  | .restart i lost => i = 0 → lost = 0
  | _ => True

instance orderlyDecidable (w : JoinWorld) (e : JoinEvent) : Decidable (Orderly w e) := by
  unfold Orderly
  split <;> infer_instance

/-! ## Distinct identities -/

def Machine.identity (m : Machine) : UInt64 × NodeID := (m.raftID, m.nodeID)

def Issued.identity (x : Issued) : UInt64 × NodeID := (x.raftID, x.nodeID)

structure Counted (issued : List Issued) (m : Machine) : Prop where
  first : 1 < m.savedNextRaftID
  saved : m.savedNextRaftID ≤ m.nextRaftID
  below : ∀ x ∈ issued, x.raftID < m.savedNextRaftID

/-- Two identities that may both be admitted have two node IDs. -/
def Apart (removed : UInt64 → Bool) (x y : UInt64 × NodeID) : Prop :=
  x.2 = y.2 → removed x.1 = true ∨ removed y.1 = true

instance apartSymm (removed : UInt64 → Bool) : Std.Symm (Apart removed) :=
  ⟨fun _ _ h heq => (h heq.symm).symm⟩

structure DistinctIdentities (w : JoinWorld) : Prop where
  issued : w.machines.map Machine.raftID = 1 :: w.issued.map Issued.raftID
  counted : ∀ m ∈ w.machines[0]?, Counted w.issued m
  raftIDs : (0 :: 1 :: w.issued.map Issued.raftID).Nodup
  nodeIDs : (w.machines.map Machine.identity).Pairwise (Apart w.replica.removed)
  members : ∀ id, w.replica.isMember id = true →
    (id, w.replica.addr id) ∈ w.machines.map Machine.identity
  present : ∀ id, w.replica.isMember id = true → w.replica.removed id = false
  configuration : (w.replica.confState.voters ++ w.replica.confState.learners).Nodup

section Machines

variable {machines : List Machine} {i : Nat} {m' : Machine}

theorem map_identity_set {m : Machine} (h : machines[i]? = some m) (hid : m'.identity = m.identity)
    : (machines.set i m').map Machine.identity = machines.map Machine.identity := by
  refine List.ext_getElem? (fun j => ?_)
  rw [List.getElem?_map, List.getElem?_map, List.getElem?_set]
  split_ifs with hij hlt
  · subst hij
    rw [h]
    exact congrArg some hid
  · subst hij
    rw [List.getElem?_eq_none (Nat.not_lt.mp hlt)] at h
    cases h
  · rfl

variable {f : Machine → Machine}

theorem map_identity_onMachine (hf : ∀ m, (f m).identity = m.identity) :
    (JoinWorld.onMachine machines i f).map Machine.identity = machines.map Machine.identity := by
  unfold JoinWorld.onMachine
  cases h : machines[i]? with
  | none => rfl
  | some m => exact map_identity_set h (hf m)

theorem map_raftID (machines : List Machine) :
    machines.map Machine.raftID = (machines.map Machine.identity).map Prod.fst := by
  rw [List.map_map]
  rfl

theorem first_onMachine (h : m' ∈ (JoinWorld.onMachine machines i f)[0]?) :
    ∃ m ∈ machines[0]?, m' = m ∨ i = 0 ∧ m' = f m := by
  unfold JoinWorld.onMachine at h
  cases hi : machines[i]? with
  | none =>
    rw [hi] at h
    exact ⟨m', h, Or.inl rfl⟩
  | some m =>
    rw [hi] at h
    dsimp only at h
    rw [List.getElem?_set] at h
    split_ifs at h with hzero hlt
    · subst hzero
      exact ⟨m, hi, Or.inr ⟨rfl, (Option.some.inj h).symm⟩⟩
    · exact absurd h (by simp)
    · exact ⟨m', h, Or.inl rfl⟩

theorem first_set {m m' : Machine} (h : machines[0]? = some m) (more : List Machine) :
    (machines.set 0 m' ++ more)[0]? = some m' := by
  cases machines with
  | nil => cases h
  | cons m₀ rest => rfl

end Machines

section Joining

variable {m m' : Machine} {req : JoinRequest} {members : List Member} {saves completes : Bool}
  {id : Option UInt64}

/-- What a join does to the issuer: nothing, or one count.  A response carries the
counted ID, and the count is saved then. -/
theorem handleJoin_cases (h : handleJoin m req members saves completes = (id, m')) :
    (id = none ∧ m' = m) ∨
      (m'.identity = m.identity ∧ m'.nextRaftID = m.nextRaftID + 1 ∧
        (m'.savedNextRaftID = m.nextRaftID + 1 ∧ (∀ x, id = some x → x = m.nextRaftID) ∨
          id = none ∧ m'.savedNextRaftID = m.savedNextRaftID)) := by
  unfold handleJoin issueIdentity at h
  split_ifs at h <;> cases h
  -- refused or taken; saved, with a response or without; not saved
  all_goals first
    | exact Or.inl ⟨rfl, rfl⟩
    | exact Or.inr ⟨rfl, rfl, Or.inl ⟨rfl, fun x hx => by cases hx <;> rfl⟩⟩
    | exact Or.inr ⟨rfl, rfl, Or.inr ⟨rfl, rfl⟩⟩

end Joining

theorem lt_add_one_of_noWrap {n : UInt64} (h : n.toNat + 1 < 2 ^ 64) : n < n + 1 := by
  rw [UInt64.lt_iff_toNat_lt, UInt64.toNat_add]
  show n.toNat < (n.toNat + 1) % 2 ^ 64
  rw [Nat.mod_eq_of_lt h]
  exact Nat.lt_succ_self _

namespace DistinctIdentities

variable {w : JoinWorld} {e : JoinEvent} {node : NodeID} {id : UInt64} {cc : ConfChange}
  {m : Machine} {m' : Machine} {req : JoinRequest}

section

variable (h : DistinctIdentities w)

include h

theorem mem_raftIDs (hid : (id, node) ∈ w.machines.map Machine.identity) :
    id ∈ 1 :: w.issued.map Issued.raftID := by
  rw [← h.issued, map_raftID]
  exact List.mem_map_of_mem hid

theorem ne_zero (hid : (id, node) ∈ w.machines.map Machine.identity) : id ≠ 0 := by
  rintro rfl
  exact (List.nodup_cons.mp h.raftIDs).1 (h.mem_raftIDs hid)

theorem withMachines {machines : List Machine}
    (hmap : machines.map Machine.identity = w.machines.map Machine.identity)
    (hcounted : ∀ m ∈ machines[0]?, Counted w.issued m) :
    DistinctIdentities { w with machines := machines } :=
  { h with
    issued := by
      show machines.map Machine.raftID = _
      rw [map_raftID, hmap, ← map_raftID]
      exact h.issued
    counted := hcounted
    nodeIDs := hmap ▸ h.nodeIDs
    members := fun id hid => hmap ▸ h.members id hid }

theorem next_notMem (hm : w.machines[0]? = some m) :
    m.nextRaftID ∉ 0 :: 1 :: w.issued.map Issued.raftID := by
  obtain ⟨hfirst, hsaved, hissued⟩ := h.counted m hm
  have hnext : 1 < m.nextRaftID := UInt64.lt_of_lt_of_le hfirst hsaved
  intro hmem
  rw [List.mem_cons, List.mem_cons, List.mem_map] at hmem
  obtain heq | heq | ⟨x, hx, heq⟩ := hmem
  · rw [heq] at hnext
    exact absurd hnext (by decide)
  · rw [heq] at hnext
    exact absurd hnext (by decide)
  · have hbelow := UInt64.lt_of_lt_of_le (hissued x hx) hsaved
    rw [heq] at hbelow
    exact UInt64.lt_irrefl _ hbelow

theorem counts (hm : w.machines[0]? = some m) (hnext : m'.nextRaftID = m.nextRaftID + 1)
    (hwrap : m.nextRaftID.toNat + 1 < 2 ^ 64)
    (hsaved : m'.savedNextRaftID = m.nextRaftID + 1 ∨ m'.savedNextRaftID = m.savedNextRaftID) :
    Counted w.issued m' := by
  obtain ⟨hfirst, hle, hissued⟩ := h.counted m hm
  have hlt : m.savedNextRaftID ≤ m.nextRaftID + 1 :=
    UInt64.le_of_lt (UInt64.lt_of_le_of_lt hle (lt_add_one_of_noWrap hwrap))
  obtain ⟨hlow, hhigh⟩ : m.savedNextRaftID ≤ m'.savedNextRaftID ∧
      m'.savedNextRaftID ≤ m'.nextRaftID := by
    rw [hnext]
    obtain hsaved | hsaved := hsaved <;> rw [hsaved]
    · exact ⟨hlt, UInt64.le_refl _⟩
    · exact ⟨UInt64.le_refl _, hlt⟩
  exact ⟨UInt64.lt_of_lt_of_le hfirst hlow, hhigh, fun x hx =>
    UInt64.lt_of_lt_of_le (hissued x hx) hlow⟩

theorem issues {x : Issued} (hm : w.machines[0]? = some m) (hid : m'.identity = m.identity)
    (hnext : m'.nextRaftID = m.nextRaftID + 1) (hsaved : m'.savedNextRaftID = m.nextRaftID + 1)
    (hraft : x.raftID = m.nextRaftID)
    (hevicted : ∀ y ∈ w.machines, y.nodeID = req.nodeID → w.replica.removed y.raftID = true)
    (hwrap : m.nextRaftID.toNat + 1 < 2 ^ 64) :
    DistinctIdentities { w with
      machines := w.machines.set 0 m' ++ [joined req x], issued := w.issued ++ [x] } := by
  have hmap : (w.machines.set 0 m' ++ [joined req x]).map Machine.identity =
      w.machines.map Machine.identity ++ [(x.raftID, req.nodeID)] := by
    rw [List.map_append, map_identity_set hm hid]
    rfl
  constructor
  · show (w.machines.set 0 m' ++ [joined req x]).map Machine.raftID = _
    rw [map_raftID, hmap, List.map_append, ← map_raftID, h.issued, List.map_append]
    rfl
  · intro m₀ hm₀
    cases (first_set hm _).symm.trans hm₀
    obtain ⟨hfirst, hle, hissued⟩ := h.counts hm hnext hwrap (Or.inl hsaved)
    refine ⟨hfirst, hle, fun y hy => ?_⟩
    obtain hy | hy := List.mem_append.mp hy
    · exact hissued y hy
    · rw [List.mem_singleton.mp hy, hraft, hsaved]
      exact lt_add_one_of_noWrap hwrap
  · have hnew := h.next_notMem hm
    rw [← hraft] at hnew
    show (0 :: 1 :: (w.issued ++ [x]).map Issued.raftID).Nodup
    rw [List.map_append, List.map_singleton, ← List.cons_append, ← List.cons_append,
      ← List.concat_eq_append]
    exact List.Nodup.concat hnew h.raftIDs
  · show ((w.machines.set 0 m' ++ [joined req x]).map Machine.identity).Pairwise _
    rw [hmap, List.pairwise_append]
    refine ⟨h.nodeIDs, List.pairwise_singleton _ _, fun a ha b hb heq => ?_⟩
    rw [List.mem_singleton] at hb
    subst hb
    obtain ⟨y, hy, rfl⟩ := List.mem_map.mp ha
    exact Or.inl (hevicted y hy heq)
  · intro id hmember
    show (id, w.replica.addr id) ∈ (w.machines.set 0 m' ++ [joined req x]).map Machine.identity
    rw [hmap]
    exact List.mem_append_left _ (h.members id hmember)
  · exact h.present
  · exact h.configuration

theorem answers {members : List Member} {saves completes : Bool} {id : Option UInt64} {ca : UInt64}
    (hm : w.machines[0]? = some m) (hjoin : handleJoin m req members saves completes = (id, m'))
    (hevicted : ∀ y ∈ w.machines, y.nodeID = req.nodeID → w.replica.removed y.raftID = true)
    (hwrap : m.nextRaftID.toNat + 1 < 2 ^ 64) :
    DistinctIdentities (w.answer 0 req ca (id, m')) := by
  have hfirst : ∀ m₀ ∈ (w.machines.set 0 m')[0]?, m₀ = m' := by
    intro m₀ hm₀
    have hset := @first_set w.machines m m' hm []
    rw [List.append_nil] at hset
    exact (Option.some.inj (hset.symm.trans hm₀)).symm
  obtain ⟨rfl, rfl⟩ | ⟨hid, hnext, ⟨hsaved, hraft⟩ | ⟨rfl, hsaved⟩⟩ := handleJoin_cases hjoin
  · refine h.withMachines (map_identity_set hm rfl) (fun m₀ hm₀ => ?_)
    rw [hfirst m₀ hm₀]
    exact h.counted _ hm
  · cases id with
    | none =>
      refine h.withMachines (map_identity_set hm hid) (fun m₀ hm₀ => ?_)
      rw [hfirst m₀ hm₀]
      exact h.counts hm hnext hwrap (Or.inl hsaved)
    | some x => exact h.issues hm hid hnext hsaved (hraft x rfl) hevicted hwrap
  · refine h.withMachines (map_identity_set hm hid) (fun m₀ hm₀ => ?_)
    rw [hfirst m₀ hm₀]
    exact h.counts hm hnext hwrap (Or.inr hsaved)

theorem addr_inj {x y : UInt64} (hx : w.replica.isMember x = true)
    (hy : w.replica.isMember y = true) (heq : w.replica.addr x = w.replica.addr y) : x = y := by
  by_contra hne
  have hapart := h.nodeIDs.forall (h.members x hx) (h.members y hy)
    (fun hpair => hne (congrArg Prod.fst hpair)) heq
  obtain hgone | hgone := hapart
  · exact absurd ((h.present x hx).symm.trans hgone) Bool.false_ne_true
  · exact absurd ((h.present y hy).symm.trans hgone) Bool.false_ne_true

theorem nodup_addrs : (w.replica.members.map Member.addr).Nodup := by
  have hperm : (w.replica.members.map Member.addr).Perm
      ((w.replica.confState.voters ++ w.replica.confState.learners).map w.replica.addr) := by
    refine ((List.perm_insertionSort _ _).map _).trans (List.Perm.of_eq ?_)
    rw [List.map_append, List.map_append, List.map_map, List.map_map]
    rfl
  refine hperm.nodup_iff.mpr (List.Nodup.map_on (fun x hx y hy heq => ?_) h.configuration)
  rw [List.mem_append] at hx hy
  exact h.addr_inj (Replica.isMember_iff.mpr hx) (Replica.isMember_iff.mpr hy) heq

end

variable [ConfChanger] [LawfulConfChanger]

/-- A change of the membership that gives members their own addresses and brings no
evicted node back. -/
theorem withChange (h : DistinctIdentities w)
    (hmembers : ∀ id, (w.replica.applyEntry (.confChange cc)).isMember id = true →
      (id, (w.replica.applyEntry (.confChange cc)).addr id) ∈ w.machines.map Machine.identity)
    (hpresent : ∀ id, (w.replica.applyEntry (.confChange cc)).isMember id = true →
      w.replica.changedRemoved cc id = false) : DistinctIdentities (w.commits (some cc)) :=
  { h with
    nodeIDs := by
      refine h.nodeIDs.imp (fun hapart heq => ?_)
      exact (hapart heq).imp Replica.changedRemoved_mono Replica.changedRemoved_mono
    members := hmembers
    present := hpresent
    configuration := LawfulConfChanger.nodup w.replica.confState cc h.configuration }

theorem adds (h : DistinctIdentities w) {info : PeerInfo}
    (htype : cc.type = .addNode ∨ cc.type = .addLearnerNode) (hinfo : cc.context = some info)
    (hid : (cc.nodeID, info.node) ∈ w.machines.map Machine.identity)
    (hthere : w.replica.removed cc.nodeID = false) : DistinctIdentities (w.commits (some cc)) := by
  have hadd : ¬cc.type = .removeNode := by
    rintro heq
    rw [heq] at htype
    obtain htype | htype := htype <;> cases htype
  refine h.withChange (fun id hmember => ?_) (fun id hmember => ?_)
  · by_cases hsame : id = cc.nodeID
    · subst hsame
      rw [Replica.addr_added htype hinfo]
      exact hid
    · obtain hold | ⟨-, heq⟩ := Replica.isMember_of_applyEntry hmember
      · rw [Replica.addr_applyEntry (fun _ => hsame) (fun _ _ heq => absurd heq hsame)]
        exact h.members id hold
      · exact absurd heq hsame
  · rw [Replica.changedRemoved, if_neg hadd]
    obtain hold | ⟨-, rfl⟩ := Replica.isMember_of_applyEntry hmember
    · exact h.present id hold
    · exact hthere

theorem removes (h : DistinctIdentities w) (id : UInt64) :
    DistinctIdentities (w.commits (some (Replica.removeNode id))) := by
  -- whoever is a member then was one before and is not the evicted node
  have hold : ∀ x, (w.replica.applyEntry (.confChange (Replica.removeNode id))).isMember x = true →
      w.replica.isMember x = true ∧ x ≠ id := by
    intro x hmember
    have hx : w.replica.isMember x = true := by
      obtain hx | ⟨htype, -⟩ := Replica.isMember_of_applyEntry hmember
      · exact hx
      · obtain htype | htype := htype <;> cases htype
    refine ⟨hx, ?_⟩
    rintro rfl
    exact Replica.not_isMember_removed rfl (h.ne_zero (h.members x hx)) hmember
  refine h.withChange (fun x hmember => ?_) (fun x hmember => ?_)
  · obtain ⟨hx, hne⟩ := hold x hmember
    rw [Replica.addr_applyEntry (fun _ => hne) (fun _ hinfo => by cases hinfo)]
    exact h.members x hx
  · obtain ⟨hx, hne⟩ := hold x hmember
    show (x == id || w.replica.removed x) = false
    rw [h.present x hx, Bool.or_false]
    exact beq_false_of_ne hne

theorem step (h : DistinctIdentities w) (he : Orderly w e) : DistinctIdentities (w.step e) := by
  cases e with
  | join i req members saves completes =>
    obtain ⟨rfl, hevicted, hwrap⟩ := he
    rw [JoinWorld.step]
    cases hm : w.machines[0]? with
    | none => exact h
    | some m => exact h.answers hm rfl hevicted (hwrap m hm)
  | restart i lost =>
    refine h.withMachines (map_identity_onMachine fun _ => rfl) (fun m' hm' => ?_)
    obtain ⟨m, hm, rfl | ⟨rfl, rfl⟩⟩ := first_onMachine hm'
    · exact h.counted _ hm
    · rw [he rfl]
      exact { h.counted m hm with saved := UInt64.le_refl _ }
  | rotated i ca =>
    refine h.withMachines (map_identity_onMachine fun _ => rfl) (fun m' hm' => ?_)
    obtain ⟨m, hm, rfl | ⟨-, rfl⟩⟩ := first_onMachine hm'
    · exact h.counted _ hm
    · exact { h.counted m hm with }
  | requested i =>
    rw [JoinWorld.step]
    cases hm : w.machines[i]? with
    | none => exact h
    | some m =>
      dsimp only
      unfold Replica.addNode
      split_ifs with hmember hremoved
      · exact h
      · exact h
      · refine h.adds (Or.inr rfl) rfl ?_ (Bool.eq_false_iff.mpr hremoved)
        exact List.mem_map.mpr ⟨m, List.mem_of_getElem? hm, rfl⟩
  | promote caughtUp =>
    rw [JoinWorld.step, Replica.maybePromote]
    split_ifs with hno
    · exact h
    · cases hfind : (w.replica.confState.learners.insertionSort (· ≤ ·)).find?
          (fun id => id ∈ caughtUp) with
      | none => exact h
      | some id =>
        have hid : w.replica.isMember id = true := by
          rw [Replica.isMember_iff]
          exact Or.inr ((List.mem_insertionSort _).mp (List.mem_of_find?_eq_some hfind))
        exact h.adds (Or.inl rfl) rfl (h.members id hid) (h.present id hid)
  | remove id => exact h.removes id
  | metadata p => exact { h with }

theorem found (node : NodeLabel) (addr : Bytes) (ca : UInt64) :
    DistinctIdentities (JoinWorld.found node addr ca) := by
  have hmember : ∀ id, (JoinWorld.found node addr ca).replica.isMember id = true → id = 1 := by
    intro id hid
    obtain hid | ⟨-, hid⟩ := Replica.isMember_of_applyEntry hid
    · rw [Replica.isMember_iff] at hid
      obtain hid | hid := hid <;> exact absurd hid List.not_mem_nil
    · exact hid
  refine ⟨rfl, ?_, ?_, List.pairwise_singleton _ _, ?_, fun _ _ => rfl, ?_⟩
  · intro m hm
    cases hm
    exact ⟨(by decide : (1 : UInt64) < 2), UInt64.le_refl 2, fun x hx => absurd hx List.not_mem_nil⟩
  · exact (by decide : ([0, 1] : List UInt64).Nodup)
  · intro id hid
    have haddr : (JoinWorld.found node addr ca).replica.addr 1 = node.nodeID :=
      @Replica.addr_added {} _ ⟨.addNode, 1, some ⟨node.nodeID, addr⟩⟩ _ (Or.inl rfl) rfl
    rw [hmember id hid, haddr]
    exact List.mem_singleton.mpr rfl
  · exact LawfulConfChanger.nodup _ _ List.nodup_nil

theorem not_isMember_issued (h : DistinctIdentities w) (he : Orderly w e) {x : Issued}
    (hx : (w.step e).issued = w.issued ++ [x]) : w.replica.isMember x.raftID = false := by
  have hnew := (h.step he).raftIDs
  rw [hx, List.map_append, ← List.cons_append, ← List.cons_append, List.nodup_append] at hnew
  rw [Bool.eq_false_iff]
  intro hmember
  have hold := List.mem_cons_of_mem 0 (h.mem_raftIDs (h.members x.raftID hmember))
  exact hnew.2.2 _ hold _ (List.mem_singleton.mpr rfl) rfl

end DistinctIdentities

/-! ## The composed layout -/

variable {desired : List LayoutNode} {recs : List NodeRecord}

theorem desired_sublist {all members : List Member} {acc : List LayoutNode}
    (h : members.foldlM (desiredStep recs all) acc = some desired) :
    ∃ ids, desired.map LayoutNode.id = acc.map LayoutNode.id ++ ids ∧
      ids.Sublist (members.map Member.addr) := by
  induction members generalizing acc with
  | nil =>
    cases h
    exact ⟨[], (List.append_nil _).symm, List.Sublist.slnil⟩
  | cons m rest ih =>
    rw [List.foldlM_cons] at h
    obtain ⟨acc', hstep, hrest⟩ := Option.bind_eq_some_iff.mp h
    obtain ⟨ids, hids, hsub⟩ := ih hrest
    obtain ⟨r, hr, hacc⟩ := Option.bind_eq_some_iff.mp hstep
    have hname : r.nodeID = m.addr := by
      have hfound := List.find?_some hr
      exact of_decide_eq_true hfound
    split_ifs at hacc with hreplaced
    · cases hacc
      exact ⟨ids, hids, hsub.cons _⟩
    · cases hacc
      refine ⟨m.addr :: ids, ?_, hsub.cons_cons _⟩
      rw [hids, List.map_append, List.append_assoc, ← hname]
      rfl

theorem desiredLayout_nodup {members : List Member} (h : desiredLayout recs members = some desired)
    (hmembers : (members.map Member.addr).Nodup) : (desired.map LayoutNode.id).Nodup := by
  obtain ⟨nodes, hnodes, hsorted⟩ := Option.bind_eq_some_iff.mp h
  split_ifs at hsorted with hempty
  cases hsorted
  obtain ⟨ids, hids, hsub⟩ := desired_sublist hnodes
  have hperm := (List.perm_insertionSort (fun a b : LayoutNode => a.id ≤ b.id) nodes).map
    LayoutNode.id
  rw [hperm.nodup_iff, hids]
  exact hsub.nodup hmembers

/-! ## Every history -/

/-- While the founding node serves the joins and loses no rename, and no two nodes that
are not evicted ask for one node ID: the Raft IDs are distinct, none is a member's when it is
issued, and no two members, and so no two nodes of a layout, share a node ID. -/
theorem identities_distinct [ConfChanger] [LawfulConfChanger] (node : NodeLabel)
    (addr : Bytes) (ca : UInt64) (es : List JoinEvent)
    (h : EachStep JoinWorld.step Orderly (JoinWorld.found node addr ca) es) :
    let w := (JoinWorld.found node addr ca).run es
    (w.issued.map Issued.raftID).Nodup ∧
      (∀ e x, Orderly w e → (w.step e).issued = w.issued ++ [x] →
        w.replica.isMember x.raftID = false) ∧
      (w.replica.members.map Member.addr).Nodup ∧
      ∀ recs desired, desiredLayout recs w.replica.members = some desired →
        (desired.map LayoutNode.id).Nodup := by
  have hw : DistinctIdentities ((JoinWorld.found node addr ca).run es) :=
    h.invariant (fun w e he hw => hw.step he) (DistinctIdentities.found node addr ca)
      (List.prefix_refl es)
  refine ⟨?_, fun e x he hx => hw.not_isMember_issued he hx, hw.nodup_addrs,
    fun recs desired hd => ?_⟩
  · exact (List.nodup_cons.mp (List.nodup_cons.mp hw.raftIDs).2).2
  · exact desiredLayout_nodup hd hw.nodup_addrs

/-- A request for this name, seen and served by machine `i`. -/
def joinAt (i : Nat) (name : UInt8) (members : List Member) : JoinEvent :=
  .join i ⟨[name], [name], [], [], 1, []⟩ members true true

/-- What the founding node sees before anybody was admitted. -/
def aloneView : List Member := [⟨1, [97], [97], false⟩]

def foundA : JoinWorld := @JoinWorld.found listConfChanger ⟨[97], [97], [97], 1⟩ [97] 7

/-- The second node is evicted and comes back under its name, after a rotation that
it drove and a restart of the founding node. -/
def rejoins : List JoinEvent :=
  [joinAt 0 98 aloneView, .requested 1, .promote [2], .rotated 1 9, .remove 2, .restart 0 0,
    joinAt 0 98 aloneView, .requested 2]

/-- Both identities of the node are distinct, and only the second is a member. -/
theorem identities_distinct_rejoins :
    (@JoinWorld.run listConfChanger foundA rejoins).issued.map Issued.identity =
        [(2, [98]), (3, [98])] ∧
      ((@JoinWorld.run listConfChanger foundA rejoins).replica.members.map Member.addr).Nodup :=
  ⟨by decide +kernel,
    (@identities_distinct listConfChanger listConfChanger_lawful ⟨[97], [97], [97], 1⟩ [97] 7
      rejoins (by decide +kernel)).2.2.1⟩

/-- The view of a member once the second node votes. -/
def pairView : List Member := [⟨1, [97], [97], false⟩, ⟨2, [98], [98], false⟩]

/-- The second node joins and drives a rotation, and then serves three joins. -/
def secondIssuer : List JoinEvent :=
  [joinAt 0 98 aloneView, .requested 1, .promote [2], .rotated 1 9, joinAt 1 99 pairView,
    joinAt 1 100 pairView, joinAt 1 101 pairView]

/-- Two machines ask for one name before either is admitted. -/
def sameName : List JoinEvent :=
  [joinAt 0 98 aloneView, joinAt 0 98 aloneView, .requested 1, .requested 2,
    .metadata (.registerNode ⟨5, [97], [97], [97], 1, 0⟩),
    .metadata (.registerNode ⟨5, [98], [98], [98], 1, 0⟩)]

/-- The founding node loses its power after the answer to a join. -/
def lostRename : List JoinEvent :=
  [joinAt 0 98 aloneView, .restart 0 1, joinAt 0 99 aloneView]

/-- The issuer that took over counts from zero: it hands out the zero ID and the IDs
of both members.  The counter that came back hands out its ID again.  Two
identities with one node ID are issued and admitted, and the leader proposes a
layout that lists the node twice. -/
theorem identities_collide :
    (@JoinWorld.run listConfChanger foundA secondIssuer).issued.map Issued.raftID = [2, 0, 1, 2] ∧
      (@JoinWorld.run listConfChanger foundA (secondIssuer.take 4)).replica.members = pairView ∧
      (@JoinWorld.run listConfChanger foundA lostRename).issued.map Issued.raftID = [2, 2] ∧
      (@JoinWorld.run listConfChanger foundA sameName).issued.map Issued.identity =
        [(2, [98]), (3, [98])] ∧
      (@JoinWorld.run listConfChanger foundA sameName).replica.members.map Member.addr =
        [[97], [98], [98]] ∧
      reconcileLayout 5 (@JoinWorld.run listConfChanger foundA sameName).replica =
        .ok (.propose ⟨5, 1, defaultPartitionCount, [],
          [⟨[97], [97], [97], 1, false⟩, ⟨[98], [98], [98], 1, false⟩,
            ⟨[98], [98], [98], 1, false⟩], []⟩) := by
  decide +kernel

end Hamster.Cluster
