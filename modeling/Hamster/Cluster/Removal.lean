import Hamster.Meta.Addresses
import Hamster.Meta.Scans
import Hamster.Place.Spread

/-!
# Removing a node

`removeBlockedReason` of `internal/cluster/control.go` decides whether a node
may leave the cluster: no transition is open, the node is draining, and the
active members are as many as the widest stored object has shards
(`maxStoredWidth` of `internal/cluster/layout.go`).

A removal is safe when every address that the metadata names keeps its
placement.  `maxStoredWidth` looks at whole objects only, so the check misses
the parts.  `removal_safe_iff` says in which states the check is right all the
same.
-/

namespace Hamster.Meta

open CodeLib

/-- The labelled member set: `Nodes`, or the bare members of an old layout. -/
def ClusterLayout.effectiveNodes (l : ClusterLayout) : List LayoutNode :=
  if l.nodes.length > 0 then l.nodes
  else l.members.map (fun id => { id := id, host := id, zone := id })

end Hamster.Meta

namespace Hamster.Cluster

open CodeLib Meta Place

/-- Committed layout members as the nodes of the placement function. -/
def placeNodes (members : List LayoutNode) : List Node :=
  members.map (fun e => ⟨e.id, e.host, e.zone, e.weight, e.draining⟩)

/-- Whether the shard width of an entry counts: objects stored whole. -/
def isWhole (e : VersionEntry) : Bool := e.kind = kindObject ∧ e.parts.length = 0

/-- The largest width of a stored object.  The sum wraps at 32 bits. -/
def maxStoredWidth (s : Store) : Except MetaError Nat :=
  scanBuckets s
    (fun _ maxW _ e =>
      if isWhole e then max maxW (e.ecDataShards + e.ecParityShards).toNat else maxW)
    0

inductive Blocked where
  | transition
  | notDrained (node : NodeID)
  | tooNarrow (node : NodeID) (active width : Nat)
deriving DecidableEq

def drainStep (nodeID : NodeID) (st : Bool × Nat) (m : LayoutNode) : Bool × Nat :=
  (if m.id = nodeID then m.draining else st.1, if m.draining then st.2 else st.2 + 1)

/-- Whether the named node drains, and how many members do not.  The last
member of a name counts. -/
def drainStatus (nodeID : NodeID) (nodes : List LayoutNode) : Bool × Nat :=
  nodes.foldl (drainStep nodeID) (false, 0)

/-- No reason means that the removal may go on. -/
def removeBlockedReason (s : Store) (nodeID : NodeID) : Except MetaError (Option Blocked) := do
  match ← clusterLayout s with
  | none => .ok none
  | some cl =>
    if cl.previous.length > 0 then .ok (some .transition)
    else
      let (draining, active) := drainStatus nodeID cl.effectiveNodes
      if !draining then .ok (some (.notDrained nodeID))
      else do
        let w ← maxStoredWidth s
        if w > active then .ok (some (.tooNarrow nodeID active w)) else .ok none

/-! ## What the check sees -/

section Check

variable {s : Store} {x : NodeID}

def activeNodes (cl : ClusterLayout) : List LayoutNode := cl.effectiveNodes.filter (!·.draining)

theorem drainStatus_active (x : NodeID) (nodes : List LayoutNode) :
    (drainStatus x nodes).2 = (nodes.filter (!·.draining)).length := by
  suffices h : ∀ st : Bool × Nat,
      (nodes.foldl (drainStep x) st).2 = st.2 + (nodes.filter (!·.draining)).length by
    rw [drainStatus, h, Nat.zero_add]
  induction nodes with
  | nil => intro st; rfl
  | cons m rest ih =>
    intro st
    rw [List.foldl_cons, ih, drainStep]
    cases hm : m.draining with
    | true => simp [hm]
    | false =>
      simp [hm]
      omega

theorem drainStatus_draining {nodes : List LayoutNode} (hids : (nodes.map (·.id)).Nodup) :
    (drainStatus x nodes).1 = true ↔ ∃ m ∈ nodes, m.id = x ∧ m.draining = true := by
  suffices h : ∀ st : Bool × Nat, (nodes.foldl (drainStep x) st).1 = true ↔
      (∃ m ∈ nodes, m.id = x ∧ m.draining = true) ∨ (st.1 = true ∧ ∀ m ∈ nodes, m.id ≠ x) by
    rw [drainStatus, h]
    simp
  induction nodes with
  | nil => intro st; simp
  | cons m rest ih =>
    intro st
    rw [List.map_cons, List.nodup_cons] at hids
    rw [List.foldl_cons, ih hids.2, drainStep]
    by_cases hm : m.id = x
    · have hrest : ∀ m' ∈ rest, m'.id ≠ x := by
        intro m' hm' heq
        exact hids.1 (List.mem_map.mpr ⟨m', hm', heq.trans hm.symm⟩)
      have hno : ¬∃ m' ∈ rest, m'.id = x ∧ m'.draining = true :=
        fun ⟨m', hm', heq, _⟩ => hrest m' hm' heq
      simp [hm, hno]
      exact fun _ => hrest
    · simp [hm]

/-- A stored object whose width the check finds too large. -/
def TooWide (s : Store) (active : Nat) : Prop :=
  ∃ b k e, versionAt s b k e.versionID = some e ∧ isWhole e = true ∧
    active < (e.ecDataShards + e.ecParityShards).toNat

theorem lt_foldl_max_iff {α : Type} {counts : α → Bool} {width : α → Nat} {n : Nat} (rows : List α)
    (start : Nat) :
    n < rows.foldl (fun w r => if counts r then max w (width r) else w) start ↔
      n < start ∨ ∃ r ∈ rows, counts r = true ∧ n < width r := by
  induction rows generalizing start with
  | nil => simp
  | cons r rest ih =>
    rw [List.foldl_cons, ih]
    by_cases hr : counts r = true
    · simp [hr, or_assoc]
    · simp [hr]

theorem maxStoredWidth_spec (hs : Base s) (hn : Named s) :
    ∃ w, maxStoredWidth s = .ok w ∧ ∀ active, active < w ↔ TooWide s active := by
  refine ⟨_, hs.typed.scanBuckets_eq hn _ _, fun active => ?_⟩
  have hmax := @lt_foldl_max_iff _ (fun r => isWhole r.2.2)
    (fun r => (r.2.2.ecDataShards + r.2.2.ecParityShards).toNat) active (versionRows s) 0
  constructor
  · intro h
    obtain h | ⟨⟨b, k, e⟩, hmem, hwhole, hlt⟩ := hmax.mp h
    · exact absurd h (Nat.not_lt_zero active)
    · exact ⟨b, k, e, (hs.mem_versionRows hn).mp hmem, hwhole, hlt⟩
  · intro ⟨b, k, e, hver, hwhole, hlt⟩
    exact hmax.mpr (Or.inr ⟨(b, k, e), (hs.mem_versionRows hn).mpr hver, hwhole, hlt⟩)

theorem removeBlockedReason_eq_none_iff (hs : Base s) (hn : Named s) :
    removeBlockedReason s x = .ok none ↔
      ∀ cl, layoutAt s = some cl → cl.previous = [] ∧
        (drainStatus x cl.effectiveNodes).1 = true ∧ ¬TooWide s (activeNodes cl).length := by
  obtain ⟨w, hw, hwide⟩ := maxStoredWidth_spec hs hn
  rw [removeBlockedReason, hs.typed.clusterLayout_eq]
  cases hl : layoutAt s with
  | none => simp [bind, Except.bind]
  | some cl =>
    simp only [bind, Except.bind, hw, Option.some.injEq, forall_eq']
    rw [← hwide, drainStatus_active]
    change _ ↔ _ ∧ _ ∧ ¬(cl.effectiveNodes.filter (!·.draining)).length < w
    split_ifs with hprev hdrain hw'
    · simp [List.ne_nil_of_length_pos hprev]
    · simp_all
    · simp [hw']
    · simp_all

end Check

/-! ## When a removal is safe -/

/-- The address is placed at its full width on members other than `x`, and
the members without `x` give it the same nodes. -/
def StaysPlaced (cl : ClusterLayout) (x : NodeID) (a : DataAddress) : Prop :=
  ∃ ns, spread a.partition (placeNodes cl.effectiveNodes) a.width = .ok ns ∧ x ∉ ns ∧
    spread a.partition ((placeNodes cl.effectiveNodes).filter (·.id ≠ x)) a.width = .ok ns

/-- Removing the node strands nothing that the metadata names. -/
def RemovalSafe (s : Store) (x : NodeID) : Prop :=
  ∀ a, StoredAddress s a → ∃ cl, layoutAt s = some cl ∧ StaysPlaced cl x a

/-- One layout entry for each member, as the layout is composed. -/
def DistinctMembers (s : Store) : Prop :=
  ∀ cl, layoutAt s = some cl → (cl.effectiveNodes.map (·.id)).Nodup

def FitsActive (s : Store) (cl : ClusterLayout) : Prop :=
  ∀ a, StoredAddress s a → 0 < a.width ∧ a.width ≤ (activeNodes cl).length

/-- The states in which the check is right: without a layout nothing is stored;
with one, its members are distinct, and no removal can pass or every address
fits. -/
def CheckSuffices (s : Store) : Prop :=
  match layoutAt s with
  | none => ∀ a, ¬StoredAddress s a
  | some cl =>
    (cl.effectiveNodes.map (·.id)).Nodup ∧
      (cl.previous ≠ [] ∨ (∀ m ∈ cl.effectiveNodes, m.draining = false) ∨
        TooWide s (activeNodes cl).length ∨ FitsActive s cl)

section Safe

variable {s : Store} {cl : ClusterLayout} {x : NodeID} {a : DataAddress}

theorem ids_placeNodes (nodes : List LayoutNode) :
    (placeNodes nodes).map (·.id) = nodes.map (·.id) := by
  rw [placeNodes, List.map_map]
  rfl

theorem length_active_placeNodes (nodes : List LayoutNode) :
    ((placeNodes nodes).filter (!·.draining)).length = (nodes.filter (!·.draining)).length := by
  rw [placeNodes, List.filter_map, List.length_map]
  rfl

theorem staysPlaced_of_fits (hids : (cl.effectiveNodes.map (·.id)).Nodup)
    (hx : ∃ m ∈ cl.effectiveNodes, m.id = x ∧ m.draining = true)
    (hpos : 0 < a.width) (hw : a.width ≤ (activeNodes cl).length) : StaysPlaced cl x a := by
  have hids' : ((placeNodes cl.effectiveNodes).map (·.id)).Nodup := by
    rwa [ids_placeNodes]
  have hw' : a.width ≤ ((placeNodes cl.effectiveNodes).filter (!·.draining)).length := by
    rwa [length_active_placeNodes]
  have hdrains : ∀ m ∈ placeNodes cl.effectiveNodes, m.id = x → m.draining = true := by
    intro m hm hid
    obtain ⟨l, hl, rfl⟩ := List.mem_map.mp hm
    obtain ⟨l', hl', hid', hdrain⟩ := hx
    rwa [List.inj_on_of_nodup_map hids hl hl' (hid.trans hid'.symm)]
  have hfit : a.width ≤ (placeNodes cl.effectiveNodes).length :=
    hw'.trans (List.length_filter_le _ _)
  obtain ⟨ns, hns⟩ : ∃ ns, spread a.partition (placeNodes cl.effectiveNodes) a.width = .ok ns :=
    spread_isOk_iff.mpr ⟨hpos, hfit, duplicateMember_rank_of_nodup hids'⟩
  refine ⟨ns, hns, fun hmem => ?_, (spread_remove hids' hw' hdrains).trans hns⟩
  -- the nodes of the placement are active, and the node is not
  rw [spread_eq_active hids' hw'] at hns
  obtain ⟨m, hm, hid⟩ := mem_of_mem_spread hns hmem
  obtain ⟨hm, hactive⟩ := List.mem_filter.mp hm
  rw [hdrains m hm hid] at hactive
  cases hactive

theorem exists_stranded (hw : (activeNodes cl).length < a.width) {ns : List NodeID}
    (hns : spread a.partition (placeNodes cl.effectiveNodes) a.width = .ok ns) :
    ∃ m ∈ cl.effectiveNodes, m.draining = true ∧ m.id ∈ ns := by
  obtain ⟨-, hfit, -, rfl⟩ := spread_eq_ok_iff.mp hns
  rw [activeNodes, ← length_active_placeNodes] at hw
  obtain ⟨r, hr, hdrain⟩ : ∃ r ∈ picks a.partition (placeNodes cl.effectiveNodes) a.width,
      r.node.draining = true := exists_draining_pick hw hfit
  obtain ⟨n, hn, rfl⟩ := mem_rank.mp (mem_of_mem_greedy hr)
  obtain ⟨m, hm, rfl⟩ := List.mem_map.mp hn
  exact ⟨m, hm, hdrain, List.mem_map.mpr ⟨_, hr, rfl⟩⟩

theorem passes_iff (hs : Base s) (hn : Named s) (hl : layoutAt s = some cl)
    (hids : (cl.effectiveNodes.map (·.id)).Nodup) :
    removeBlockedReason s x = .ok none ↔ cl.previous = [] ∧
      (∃ m ∈ cl.effectiveNodes, m.id = x ∧ m.draining = true) ∧
      ¬TooWide s (activeNodes cl).length := by
  rw [removeBlockedReason_eq_none_iff hs hn, hl]
  simp only [Option.some.injEq, forall_eq', drainStatus_draining hids]

/-- The check of every reachable state is right where it suffices, and, with
distinct members, nowhere else. -/
theorem removal_safe_iff (ps : List Proposal) :
    (CheckSuffices (runMem newStore ps) →
      ∀ x, removeBlockedReason (runMem newStore ps) x = .ok none →
        RemovalSafe (runMem newStore ps) x) ∧
    (DistinctMembers (runMem newStore ps) →
      (∀ x, removeBlockedReason (runMem newStore ps) x = .ok none →
        RemovalSafe (runMem newStore ps) x) → CheckSuffices (runMem newStore ps)) := by
  have hbase := base_runMem ps
  have hnamed := named_runMem ps
  generalize runMem newStore ps = s at *
  unfold CheckSuffices
  cases hl : layoutAt s with
  | none =>
    refine ⟨fun hnone x _ a ha => absurd ha (hnone a), fun _ h a ha => ?_⟩
    have hfree : removeBlockedReason s [] = .ok none :=
      (removeBlockedReason_eq_none_iff hbase hnamed).mpr (fun cl hcl => by simp [hl] at hcl)
    obtain ⟨cl, hcl, -⟩ := h [] hfree a ha
    rw [hl] at hcl
    cases hcl
  | some cl =>
    constructor
    · rintro ⟨hids, h⟩ x hx a ha
      obtain ⟨hprev, hdrain, hwide⟩ := (passes_iff hbase hnamed hl hids).mp hx
      refine ⟨cl, hl, ?_⟩
      rcases h with h | h | h | h
      · exact absurd hprev h
      · obtain ⟨m, hm, -, hyes⟩ := hdrain
        rw [h m hm] at hyes
        cases hyes
      · exact absurd h hwide
      · exact staysPlaced_of_fits hids hdrain (h a ha).1 (h a ha).2
    · intro hdistinct h
      have hids := hdistinct cl hl
      refine ⟨hids, ?_⟩
      by_contra hbad
      simp only [not_or, not_not, not_forall] at hbad
      obtain ⟨hprev, ⟨m, hm, hdrain⟩, hwide, hfits⟩ := hbad
      -- every draining member passes the check, so each has to be safe
      have hsafe : ∀ m ∈ cl.effectiveNodes, m.draining = true → ∀ a, StoredAddress s a →
          StaysPlaced cl m.id a := by
        intro m hm hyes a ha
        obtain ⟨cl', hcl', hstays⟩ := h m.id
          ((passes_iff hbase hnamed hl hids).mpr ⟨hprev, ⟨m, hm, rfl, hyes⟩, hwide⟩) a ha
        cases hl.symm.trans hcl'
        exact hstays
      refine hfits (fun a ha => ?_)
      obtain ⟨ns, hns, -⟩ := hsafe m hm (by simpa using hdrain) a ha
      refine ⟨(spread_eq_ok_iff.mp hns).1, Nat.not_lt.mp (fun hw => ?_)⟩
      obtain ⟨m', hm', hyes, hmem⟩ := exists_stranded hw hns
      obtain ⟨ns', hns', hnot, -⟩ := hsafe m' hm' hyes a ha
      cases hns.symm.trans hns'
      exact hnot hmem

end Safe

/-! ## A part that the check misses -/

private def member (c : UInt8) (draining : Bool) : LayoutNode where
  id := [c]
  host := [c]
  zone := [c]
  draining := draining

private def sixMembers (draining : Bool) : List LayoutNode :=
  [member 97 false, member 98 false, member 99 false, member 100 false, member 101 false,
    member 102 draining]

/-- The sixth of six members drains, and the transition that this opens
closes; `writes` come before. -/
def drainSixth (writes : List Proposal) : List Proposal :=
  let layout (version : UInt64) (nodes previous : List LayoutNode) : Proposal :=
    .setClusterLayout ⟨1, version, 4096, [], nodes, previous⟩
  layout 1 (sixMembers false) [] :: .createBucket ⟨1, [97, 97, 97], false⟩ :: writes ++
    [layout 2 (sixMembers true) (sixMembers false), layout 3 (sixMembers true) []]

def writeObject : List Proposal :=
  [ .putObject { proposedAtUnixMS := 2, bucket := [97, 97, 97], key := [107]
                 versionID := VersionID.newVersionID 2 0 0, size := 10, partition := 7
                 ecDataShards := 3, ecParityShards := 2 } ]

/-- The object has five shards and stays where it is. -/
theorem removal_safe_of_object :
    removeBlockedReason (runMem newStore (drainSixth writeObject)) [102] = .ok none ∧
      RemovalSafe (runMem newStore (drainSixth writeObject)) [102] := by
  have hfree : removeBlockedReason (runMem newStore (drainSixth writeObject)) [102] = .ok none := by
    decide +kernel
  have hlayout : layoutAt (runMem newStore (drainSixth writeObject)) =
      some ⟨1, 3, 4096, [], sixMembers true, [], []⟩ := by decide +kernel
  have hrows : ∀ row ∈ (runMem newStore (drainSixth writeObject)).rows,
      ∀ a ∈ rowAddresses row.2, 0 < a.width ∧ a.width ≤ 5 := by decide +kernel
  refine ⟨hfree, (removal_safe_iff (drainSixth writeObject)).1 ?_ [102] hfree⟩
  unfold CheckSuffices
  rw [hlayout]
  refine ⟨by decide, Or.inr (Or.inr (Or.inr (fun a ha => ?_)))⟩
  obtain ⟨row, hrow, hmem⟩ := mem_rowAddresses ha
  exact hrows row hrow a hmem

/-- A multipart object of one part, six shards wide. -/
def writeMultipart : List Proposal :=
  let uid := VersionID.newVersionID 2 0 0
  [ .createMultipartUpload { proposedAtUnixMS := 2, bucket := [97, 97, 97], key := [107]
                             uploadID := uid }
  , .uploadPart { proposedAtUnixMS := 3, bucket := [97, 97, 97], key := [107], uploadID := uid
                  partNumber := 1, dataID := VersionID.newVersionID 3 0 0, size := 1000000
                  etag := [1], partition := 7, ecDataShards := 4, ecParityShards := 2 }
  , .completeMultipartUpload { proposedAtUnixMS := 4, bucket := [97, 97, 97], key := [107]
                               uploadID := uid, versionID := VersionID.newVersionID 4 0 0
                               parts := [⟨1, [1]⟩], etag := [2] } ]

/-- The six shards of the part do not fit on the five members that the
removal leaves, and nothing blocks it. -/
theorem removal_strands_part :
    removeBlockedReason (runMem newStore (drainSixth writeMultipart)) [102] = .ok none ∧
      ¬RemovalSafe (runMem newStore (drainSixth writeMultipart)) [102] := by
  refine ⟨by decide +kernel, fun hsafe => ?_⟩
  have hlayout : layoutAt (runMem newStore (drainSixth writeMultipart)) =
      some ⟨1, 3, 4096, [], sixMembers true, [], []⟩ := by decide +kernel
  have hstored : StoredAddress (runMem newStore (drainSixth writeMultipart))
      ⟨VersionID.newVersionID 3 0 0, 7, 4, 2⟩ := by
    have hversion : (versionAt (runMem newStore (drainSixth writeMultipart)) [97, 97, 97] [107]
        (VersionID.newVersionID 4 0 0)).map (fun e => (e.versionID, e.kind, e.addresses)) =
        some (VersionID.newVersionID 4 0 0, kindObject,
          [⟨VersionID.newVersionID 3 0 0, 7, 4, 2⟩]) := by decide +kernel
    obtain ⟨e, he, hfields⟩ := Option.map_eq_some_iff.mp hversion
    obtain ⟨hid, hkind, haddresses⟩ := Prod.mk.inj hfields |>.imp_right Prod.mk.inj
    refine .version (hid ▸ he) hkind ?_
    rw [haddresses]
    exact List.mem_singleton.mpr rfl
  obtain ⟨cl, hcl, ns, -, -, hns⟩ := hsafe _ hstored
  cases hlayout.symm.trans hcl
  have hfit := (spread_eq_ok_iff.mp hns).2.1
  revert hfit
  decide

end Hamster.Cluster
