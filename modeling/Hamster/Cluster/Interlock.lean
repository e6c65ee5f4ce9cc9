import Hamster.Cluster.Control
import Hamster.Coord.Placement

/-!
# The health interlock

`canStop` of `internal/cluster/interlock.go` answers whether a node may be taken
down: no other member is down, no layout transition is open, and the voters keep a
majority without it.

The answer is right about the voters.  For the data it relies on every object having
a parity shard, and an object that was written while one node was active has none.
`canStop_sound_iff` says in which states the answer is right: no address without
parity has its shard on the node.
-/

namespace Hamster.Cluster

open CodeLib Meta Place Raftnode

/-! ## The check -/

inductive StopVerdict where
  | notMember
  | anotherDown (node : NodeID)
  | transition
  | losesQuorum (remaining voters majority : Nat)
  | safe
deriving DecidableEq

def transitionOpen (s : Store) : Except MetaError Bool := do
  match ← clusterLayout s with
  | some cl => .ok (cl.previous.length > 0)
  | none => .ok false

def voters (members : List Member) : List Member := members.filter (!·.learner)

/-- The quorum condition for a target: a learner does not count. -/
def quorumVerdict (members : List Member) (target : Member) : StopVerdict :=
  if target.learner then .safe
  else
    let n := (voters members).length
    if n - 1 < n / 2 + 1 then .losesQuorum (n - 1) n (n / 2 + 1) else .safe

/-- The interlock, from the membership, the layout and the nodes that this node
takes to be down.  The last member of a name is the target. -/
def canStop (r : Replica) (down : NodeID → Bool) (nodeID : NodeID) : Except MetaError StopVerdict :=
  match r.members.reverse.find? (fun m => m.addr = nodeID) with
  | none => .ok .notMember
  | some target =>
    match r.members.find? (fun m => m.addr ≠ nodeID ∧ down m.addr) with
    | some m => .ok (.anotherDown m.addr)
    | none => do
      let transition ← transitionOpen r.store
      if transition then .ok .transition else .ok (quorumVerdict r.members target)

/-! ## What a stop must leave -/

/-- The voters that are up without the node are a majority. -/
def QuorumWithout (r : Replica) (down : NodeID → Bool) (x : NodeID) : Prop :=
  (voters r.members).length <
    2 * ((voters r.members).filter (fun m => m.addr ≠ x ∧ down m.addr = false)).length

/-- The nodes that the layout in force gives the shards of an address. -/
def placement (s : Store) (a : DataAddress) : List NodeID :=
  match layoutAt s with
  | none => []
  | some cl => ((spread a.partition (placeNodes cl.effectiveNodes) a.width).toOption).getD []

/-- The shards of an address that are intact on members other than the node. -/
def shardsWithout (r : Replica) (intact : VersionID → Nat → NodeID → Bool) (x : NodeID)
    (a : DataAddress) : Nat :=
  ((placement r.store a).zipIdx.filter
    (fun p => p.1 ≠ x ∧ r.HasMember p.1 ∧ intact a.dataID p.2 p.1)).length

/-- All shards of every stored address are intact at their placed nodes. -/
def AllIntact (r : Replica) (intact : VersionID → Nat → NodeID → Bool) : Prop :=
  ∀ a, StoredAddress r.store a → (placement r.store a).length = a.width ∧
    ∀ p ∈ (placement r.store a).zipIdx, intact a.dataID p.2 p.1 = true

/-- The layout places on members only.  It keeps a removed node as long as some member
has not registered. -/
def PlacedOnMembers (r : Replica) : Prop :=
  ∀ a, StoredAddress r.store a → ∀ n ∈ placement r.store a, r.HasMember n

def OneMember (r : Replica) (x : NodeID) : Prop :=
  (r.members.filter (fun m => m.addr = x)).length ≤ 1

section Sound

variable {r : Replica} {down : NodeID → Bool} {x : NodeID}

theorem canStop_eq_safe (h : canStop r down x = .ok .safe) :
    ∃ target ∈ r.members, target.addr = x ∧ (∀ m ∈ r.members, m.addr ≠ x → down m.addr = false) ∧
      quorumVerdict r.members target = .safe := by
  unfold canStop at h
  cases htarget : r.members.reverse.find? (fun m => m.addr = x) with
  | none =>
    rw [htarget] at h
    cases h
  | some target =>
    rw [htarget] at h
    cases hdown : r.members.find? (fun m => m.addr ≠ x ∧ down m.addr) with
    | some m =>
      rw [hdown] at h
      cases h
    | none =>
      rw [hdown] at h
      refine ⟨target, List.mem_reverse.mp (List.mem_of_find?_eq_some htarget), ?_, ?_, ?_⟩
      · simpa using List.find?_some htarget
      · intro m hm hne
        simpa [hne] using List.find?_eq_none.mp hdown m hm
      · cases hopen : transitionOpen r.store with
        | error e => simp [hopen, bind, Except.bind] at h
        | ok opened =>
          cases opened with
          | true => simp [hopen, bind, Except.bind] at h
          | false => simpa [hopen, bind, Except.bind] using h

theorem length_voters_pos (hvoters : r.confState.voters ≠ []) : 0 < (voters r.members).length := by
  obtain ⟨id, hid⟩ := List.exists_mem_of_ne_nil _ hvoters
  have hmem : r.member false id ∈ r.members := by
    rw [Replica.members, List.mem_insertionSort]
    exact List.mem_append_left _ (List.mem_map.mpr ⟨id, hid, rfl⟩)
  exact List.length_pos_of_mem (List.mem_filter.mpr ⟨hmem, rfl⟩)

theorem length_filter_add {α : Type} (l : List α) (p : α → Prop) [DecidablePred p] :
    (l.filter (fun a => ¬p a)).length + (l.filter p).length = l.length := by
  have hsplit := List.length_eq_countP_add_countP (fun a => decide (p a)) (l := l)
  simp only [List.countP_eq_length_filter, decide_eq_true_eq] at hsplit
  omega

theorem quorumWithout_of_safe (hvoters : r.confState.voters ≠ []) (hone : OneMember r x)
    (h : canStop r down x = .ok .safe) : QuorumWithout r down x := by
  obtain ⟨target, hmem, haddr, hup, hquorum⟩ := canStop_eq_safe h
  -- the target is the only member of its name
  have hnamed : r.members.filter (fun m => m.addr = x) = [target] := by
    have htarget : target ∈ r.members.filter (fun m => m.addr = x) :=
      List.mem_filter.mpr ⟨hmem, by simpa using haddr⟩
    obtain ⟨m, hm⟩ := List.length_eq_one_iff.mp
      (Nat.le_antisymm hone (List.length_pos_of_mem htarget))
    rw [hm] at htarget ⊢
    rw [List.mem_singleton.mp htarget]
  have hlost : ((voters r.members).filter (fun m => m.addr = x)).length =
      if target.learner then 0 else 1 := by
    rw [voters, List.filter_comm, hnamed]
    cases hlearner : target.learner <;> simp [hlearner]
  have hrest : (voters r.members).filter (fun m => m.addr ≠ x ∧ down m.addr = false) =
      (voters r.members).filter (fun m => ¬m.addr = x) := by
    refine List.filter_congr (fun m hm => ?_)
    have hdown := hup m (List.mem_filter.mp hm).1
    simp only [decide_eq_decide]
    tauto
  have hsplit := length_filter_add (voters r.members) (fun m => m.addr = x)
  have hpos := length_voters_pos hvoters
  rw [QuorumWithout, hrest]
  unfold quorumVerdict at hquorum
  rw [hlost] at hsplit
  cases hlearner : target.learner with
  | true =>
    rw [hlearner, if_pos rfl] at hsplit
    omega
  | false =>
    rw [hlearner, if_neg (by decide)] at hsplit hquorum
    dsimp only at hquorum
    split_ifs at hquorum with hfew
    omega

theorem nodup_placement (hids : DistinctMembers r.store) (a : DataAddress) :
    (placement r.store a).Nodup := by
  unfold placement
  cases hl : layoutAt r.store with
  | none => exact List.nodup_nil
  | some cl =>
    have hnodes : ((placeNodes cl.effectiveNodes).map (·.id)).Nodup := by
      rw [ids_placeNodes]
      exact hids cl hl
    show ((spread a.partition (placeNodes cl.effectiveNodes) a.width).toOption.getD []).Nodup
    cases hns : spread a.partition (placeNodes cl.effectiveNodes) a.width with
    | error e => exact List.nodup_nil
    | ok ns => exact spread_nodup hnodes hns

theorem shardsWithout_add (hids : DistinctMembers r.store)
    (hplaced : PlacedOnMembers r) {intact : VersionID → Nat → NodeID → Bool}
    (hintact : AllIntact r intact) {a : DataAddress} (ha : StoredAddress r.store a) :
    shardsWithout r intact x a + (if x ∈ placement r.store a then 1 else 0) = a.width := by
  obtain ⟨hlen, hall⟩ := hintact a ha
  have hfilter : (placement r.store a).zipIdx.filter
      (fun p => p.1 ≠ x ∧ r.HasMember p.1 ∧ intact a.dataID p.2 p.1) =
      (placement r.store a).zipIdx.filter (fun p => p.1 ≠ x) := by
    refine List.filter_congr (fun p hp => ?_)
    simp [hall p hp, hplaced a ha p.1 (List.fst_mem_of_mem_zipIdx hp)]
  have hmap : ((placement r.store a).zipIdx.filter (fun p => p.1 ≠ x)).length =
      ((placement r.store a).filter (fun n => ¬n = x)).length := by
    rw [← List.countP_eq_length_filter, ← List.countP_eq_length_filter]
    conv_rhs => rw [← List.zipIdx_map_fst 0 (placement r.store a), List.countP_map]
    rfl
  have hcount : ((placement r.store a).filter (fun n => n = x)).length =
      if x ∈ placement r.store a then 1 else 0 := by
    rw [← (nodup_placement hids a).count, List.count_eq_countP, List.countP_eq_length_filter]
    congr 1
    exact List.filter_congr (fun n _ => by rw [Bool.eq_iff_iff]; simp)
  have hsplit := length_filter_add (placement r.store a) (fun n => n = x)
  rw [shardsWithout, hfilter, hmap, ← hcount, hsplit, hlen]

/-- A safe answer is right exactly when no address without parity has its shard on
the node.  The node is one member, the layout has each node once, and it places on
members. -/
theorem canStop_sound_iff (hvoters : r.confState.voters ≠ []) (hone : OneMember r x)
    (hids : DistinctMembers r.store) (hplaced : PlacedOnMembers r)
    {intact : VersionID → Nat → NodeID → Bool}
    (hintact : AllIntact r intact) (hsafe : canStop r down x = .ok .safe) :
    (QuorumWithout r down x ∧ ∀ a, StoredAddress r.store a →
        a.ecDataShards.toNat ≤ shardsWithout r intact x a) ↔
      ∀ a, StoredAddress r.store a → a.ecParityShards = 0 → x ∉ placement r.store a := by
  constructor
  · intro ⟨_, hshards⟩ a ha hparity hmem
    have hfew := hshards a ha
    have hsum := @shardsWithout_add r x hids hplaced intact hintact a ha
    rw [if_pos hmem, DataAddress.width, hparity] at hsum
    have hzero : (0 : UInt32).toNat = 0 := rfl
    omega
  · intro hfree
    refine ⟨quorumWithout_of_safe hvoters hone hsafe, fun a ha => ?_⟩
    have hsum := @shardsWithout_add r x hids hplaced intact hintact a ha
    rw [DataAddress.width] at hsum
    by_cases hmem : x ∈ placement r.store a
    · have hparity : a.ecParityShards.toNat ≠ 0 := by
        intro hzero
        exact hfree a ha (UInt32.toNat_inj.mp hzero) hmem
      rw [if_pos hmem] at hsum
      omega
    · rw [if_neg hmem] at hsum
      omega

end Sound

/-! ## An object that was written on one node -/

/-- A small object, written as the coordinator plans it under the layout of these
nodes. -/
def plannedPut (nodes : List NodeLabel) : Operation :=
  let vid := VersionID.newVersionID 2 0 0
  let layout : Layout :=
    ⟨1, defaultPartitionCount,
      nodes.map (fun m => ⟨m.nodeID, m.host, m.zone, m.capacity, false⟩), []⟩
  match Coord.planPut layout vid 10 with
  | .error _ => .client .unknown
  | .ok plan =>
    .client (.putObject
      { proposedAtUnixMS := 2, bucket := [97, 97, 97], key := [107], versionID := vid, size := 10
        partition := plan.partition, ecDataShards := UInt32.ofNat plan.k
        ecParityShards := UInt32.ofNat plan.m })

private def makeBucket : Operation :=
  .client (.createBucket { proposedAtUnixMS := 1, bucket := [97, 97, 97]
                           objectLockEnabled := false })

/-- A node joins and votes; with data stored, the transition that this opens is
closed. -/
def joins (id : UInt64) (c : UInt8) : List Operation :=
  [.join id [c] [], .register (nodeLabel c), .reconcile, .close, .promote [id]]

/-- Three nodes form the cluster, and then the object is written. -/
def writtenOnThree : Replica :=
  @Replica.run listConfChanger {} (historyLog
    ([.register (nodeLabel 97), .reconcile] ++ joins 2 98 ++ joins 3 99 ++
      [makeBucket, plannedPut [nodeLabel 97, nodeLabel 98, nodeLabel 99]]))

/-- The object is written while the founding node is alone, and two nodes join. -/
def writtenOnOne : Replica :=
  @Replica.run listConfChanger {} (historyLog
    ([.register (nodeLabel 97), .reconcile, makeBucket, plannedPut [nodeLabel 97]] ++ joins 2 98 ++
      joins 3 99))

private theorem allIntact_of_rows {r : Replica}
    (h : ∀ row ∈ r.store.rows, ∀ a ∈ rowAddresses row.2, (placement r.store a).length = a.width ∧
      ∀ n ∈ placement r.store a, r.HasMember n) :
    AllIntact r (fun _ _ _ => true) ∧ PlacedOnMembers r := by
  refine ⟨fun a ha => ?_, fun a ha => ?_⟩
  all_goals obtain ⟨row, hrow, hmem⟩ := mem_rowAddresses ha
  · exact ⟨(h row hrow a hmem).1, fun _ _ => rfl⟩
  · exact (h row hrow a hmem).2

/-- The object has a copy on another node. -/
theorem canStop_sound_writtenOnThree :
    canStop writtenOnThree (fun _ => false) [99] = .ok .safe ∧
      QuorumWithout writtenOnThree (fun _ => false) [99] ∧
      ∀ a, StoredAddress writtenOnThree.store a →
        a.ecDataShards.toNat ≤ shardsWithout writtenOnThree (fun _ _ _ => true) [99] a := by
  have hsafe : canStop writtenOnThree (fun _ => false) [99] = .ok .safe := by decide +kernel
  have hone : OneMember writtenOnThree [99] := by
    show _ ≤ 1
    decide +kernel
  have hids : DistinctMembers writtenOnThree.store := by
    have hall : ∀ cl ∈ layoutAt writtenOnThree.store, (cl.effectiveNodes.map (·.id)).Nodup := by
      decide +kernel
    exact hall
  obtain ⟨hintact, hplaced⟩ := @allIntact_of_rows writtenOnThree (by decide +kernel)
  refine ⟨hsafe, (canStop_sound_iff (by decide +kernel) hone hids hplaced hintact hsafe).mpr ?_⟩
  intro a ha hparity
  obtain ⟨row, hrow, hmem⟩ := mem_rowAddresses ha
  have hrows : ∀ row ∈ writtenOnThree.store.rows, ∀ a ∈ rowAddresses row.2,
      a.ecParityShards ≠ 0 := by decide +kernel
  exact absurd hparity (hrows row hrow a hmem)

/-- The object has one shard, which the transitions moved to the third node.  With
all members up and every shard intact the interlock lets that node stop. -/
theorem canStop_strands_object :
    canStop writtenOnOne (fun _ => false) [99] = .ok .safe ∧
      AllIntact writtenOnOne (fun _ _ _ => true) ∧ PlacedOnMembers writtenOnOne ∧
      ∃ a, StoredAddress writtenOnOne.store a ∧
        shardsWithout writtenOnOne (fun _ _ _ => true) [99] a < a.ecDataShards.toNat := by
  obtain ⟨hintact, hplaced⟩ := @allIntact_of_rows writtenOnOne (by decide +kernel)
  refine ⟨by decide +kernel, hintact, hplaced, ?_⟩
  have hversion : (versionAt writtenOnOne.store [97, 97, 97] [107]
      (VersionID.newVersionID 2 0 0)).map (fun e => (e.versionID, e.kind, e.addresses)) =
      some (VersionID.newVersionID 2 0 0, kindObject,
        [⟨VersionID.newVersionID 2 0 0, 25, 1, 0⟩]) := by decide +kernel
  obtain ⟨e, he, hfields⟩ := Option.map_eq_some_iff.mp hversion
  obtain ⟨hid, hkind, haddresses⟩ := Prod.mk.inj hfields |>.imp_right Prod.mk.inj
  refine ⟨⟨VersionID.newVersionID 2 0 0, 25, 1, 0⟩, .version (hid ▸ he) hkind ?_, by decide +kernel⟩
  rw [haddresses]
  exact List.mem_singleton.mpr rfl

end Hamster.Cluster
