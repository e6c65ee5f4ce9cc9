import Hamster.Cluster.Removal
import Hamster.Meta.SystemRows
import Hamster.Raftnode.Membership

/-!
# Reconciling the layout

`internal/cluster/layout.go`: a leader composes the layout that the registry and
the membership imply, and moves the stored layout toward it, one transition at a
time.

`reconcileLayout` is one pass over the state, up to the proposal it makes.  A
layout with a `previous` member set is a transition; it is opened when a node
stops being placed or when objects are stored, and `closeTransition` ends it.
-/

namespace Hamster.Cluster

open CodeLib Meta Place Raftnode

def defaultPartitionCount : UInt32 := 4096

/-- The map of the registry by node: a later record of a name replaces an earlier
one. -/
def recordOf (recs : List NodeRecord) (id : NodeID) : Option NodeRecord :=
  recs.reverse.find? (fun r => r.nodeID = id)

/-- Whether the node is paired with a replacement that has joined. -/
def hasReplacement (members : List Member) (r : NodeRecord) : Bool :=
  r.replacedBy ≠ [] ∧ ∃ m ∈ members, m.addr = r.replacedBy

def layoutNodeFor (r : NodeRecord) : LayoutNode :=
  ⟨r.nodeID, r.host, r.zone, r.capacity, r.draining⟩

def desiredStep (recs : List NodeRecord) (members : List Member) (desired : List LayoutNode)
    (m : Member) : Option (List LayoutNode) := do
  let r ← recordOf recs m.addr
  if hasReplacement members r then some desired else some (desired ++ [layoutNodeFor r])

/-- The layout that the registry and the membership imply: every member but those
whose replacement is there.  None while a member has no record. -/
def desiredLayout (recs : List NodeRecord) (members : List Member) : Option (List LayoutNode) := do
  let desired ← members.foldlM (desiredStep recs members) []
  if desired = [] then none else some (desired.insertionSort (fun a b => a.id ≤ b.id))

/-- Whether the node is placed: the first entry of its name does not drain. -/
def activeIn (nodes : List LayoutNode) (id : NodeID) : Bool :=
  match nodes.find? (fun m => m.id = id) with
  | some m => !m.draining
  | none => false

/-- Whether a node that was placed no longer is. -/
def subtractiveLayout (old next : List LayoutNode) : Bool :=
  old.any (fun o => !o.draining && !activeIn next o.id)

/-- Whether the node is one of the layout's effective members. -/
def inLayout (cl : ClusterLayout) (id : NodeID) : Bool := cl.effectiveNodes.any (fun m => m.id = id)

/-- Whether any object is stored whole.  The scan stops at the first. -/
def hasStoredObjects (s : Store) : Except MetaError Bool := do
  let buckets ← listBuckets s
  buckets.foldlM
    (fun found b =>
      if found then .ok true
      else scanVersions s b.name
        (fun found _ e => if isWhole e then (true, false) else (found, true))
        false)
    false

inductive Reconciled where
  /-- A member's record has not committed yet. -/
  | hold
  /-- A transition is open; a sweep may close it. -/
  | driveTransitionClose
  /-- `evictReplaced` -/
  | evict (cc : ConfChange)
  | current
  | propose (p : SetClusterLayout)
deriving DecidableEq

/-- The member to evict: its replacement has joined and it is out of the layout. -/
def evictReplaced (recs : List NodeRecord) (members : List Member) (cur : ClusterLayout) :
    Option ConfChange := do
  let m ← members.find? (fun m =>
    match recordOf recs m.addr with
    | some r => hasReplacement members r && !inLayout cur m.addr
    | none => false)
  let first ← members.find? (fun m' => m'.addr = m.addr)
  some ⟨.removeNode, first.id, none⟩

def reconcileLayout (now : Int64) (r : Replica) : Except MetaError Reconciled := do
  let recs ← listNodes r.store
  match desiredLayout recs r.members with
  | none => .ok .hold
  | some desired =>
    match ← clusterLayout r.store with
    | none => .ok (.propose ⟨now, 1, defaultPartitionCount, [], desired, []⟩)
    | some cur =>
      if cur.previous.length > 0 then .ok .driveTransitionClose
      else
        match evictReplaced recs r.members cur with
        | some cc => .ok (.evict cc)
        | none =>
          if cur.effectiveNodes = desired then .ok .current
          else do
            -- objects are looked for only when no placed node leaves
            let opens ←
              if subtractiveLayout cur.effectiveNodes desired then .ok true
              else hasStoredObjects r.store
            .ok (.propose ⟨now, cur.version + 1, cur.partitionCount, [], desired,
              if opens then cur.effectiveNodes else []⟩)

structure NodeLabel where
  nodeID : NodeID
  host : Bytes
  zone : Bytes
  capacity : UInt32

/-- The registration step of `reconcileLayout`, for one known node: nothing when
the record has these labels. -/
def registration (now : Int64) (s : Store) (m : NodeLabel) :
    Except MetaError (Option RegisterNode) := do
  let cur ← getTyped Record.asNodeRecord s (nodeRowKey m.nodeID)
  match cur with
  | some cur =>
    if cur.host = m.host ∧ cur.zone = m.zone ∧ cur.capacity = m.capacity then .ok none
    else .ok (some ⟨now, m.nodeID, m.host, m.zone, m.capacity, 0⟩)
  | none => .ok (some ⟨now, m.nodeID, m.host, m.zone, m.capacity, 0⟩)

def closeTransition (now : Int64) (s : Store) : Except MetaError (Option SetClusterLayout) := do
  match ← clusterLayout s with
  | none => .ok none
  | some cur =>
    if cur.previous.length = 0 then .ok none
    else .ok (some ⟨now, cur.version + 1, cur.partitionCount, [], cur.effectiveNodes, []⟩)

/-- Whether the stored layout is the one that the membership implies. -/
def layoutSettled (r : Replica) : Except MetaError Bool := do
  match ← clusterLayout r.store with
  | none => .ok false
  | some cur =>
    if cur.previous.length > 0 then .ok false
    else do
      let recs ← listNodes r.store
      match desiredLayout recs r.members with
      | none => .ok false
      | some desired => .ok (cur.effectiveNodes = desired)

end Hamster.Cluster
