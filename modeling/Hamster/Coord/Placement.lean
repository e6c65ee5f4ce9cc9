import Hamster.CodeLib.Lists
import Hamster.Ec.Profile
import Hamster.Meta.Addresses
import Hamster.Place.Spread

/-!
# Where the coordinator puts shards and looks for them

The placement steps of the operations in `internal/coord`: `beginPut`
(`put.go`), `getEntry` (`get.go`), `ReEncode` (`reencode.go`) and `nextItem`
(`repair.go`).  Each resolves the layout once, and each can fail there.

A layout with a `Previous` member set is mid-transition.  What was written
under the layout before stands on the old set, what is written since on the new
one, and a sweep moves the shards over.  What is older may stand anywhere, if no
sweep has moved it.  `Committed` keeps track of the holders.

A reader resolves both placements; this fails when either set has fewer members
than the object has shards, whichever set holds it.  `readable_iff` says
exactly when the readers find every shard.
-/

namespace Hamster.Coord

open CodeLib Meta Place Ec

/-! ## The placement steps -/

/-- What `beginPut` resolves for a new object or part. -/
structure PutPlan where
  k : Nat
  m : Nat
  partition : UInt64
  nodes : List NodeID
deriving DecidableEq

/-- The profile, the partition and the nodes of a write. -/
def planPut (layout : Layout) (vid : VersionID) (size : Int64) : Except PlaceError PutPlan := do
  let (k, m) := (autoProfile layout.activeCount).params size
  match partitionOf vid layout.partitionCount with
  | none => .error .zeroPartitionCount
  | some partition =>
    let nodes ← layout.nodes partition (k + m)
    .ok ⟨k, m, partition, nodes⟩

/-- The width that a reader takes from the metadata.  The sum wraps at 32
bits. -/
def readWidth (a : DataAddress) : Nat := (a.ecDataShards + a.ecParityShards).toNat

def planGet (layout : Layout) (a : DataAddress) :
    Except PlaceError (List NodeID × Option (List NodeID)) :=
  layout.locate a.partition (readWidth a)

/-- Where `getEntry` looks for shard `i`: at its new home, and at its old one
when that differs. -/
def candidates (nodes : List NodeID) (oldNodes : Option (List NodeID)) (i : Nat) : List NodeID :=
  match nodes[i]?, oldNodes.bind (·[i]?) with
  | some n, some o => if o ≠ n then [n, o] else [n]
  | some n, none => [n]
  | none, _ => []

/-- The nodes that `ReEncode` reads the old shards from and writes the new ones
to. -/
def planReEncode (layout : Layout) (a : DataAddress) (newK newM : Nat) :
    Except PlaceError (List NodeID × List NodeID) := do
  let (readNew, readOld) ← layout.locate a.partition a.width
  let newNodes ← layout.nodes a.partition (newK + newM)
  .ok (readOld.getD readNew, newNodes)

inductive SweepPlan where
  | reEncode (k m : Nat) (oldNodes newNodes : List NodeID)
  | scrub (nodes : List NodeID) (oldNodes : Option (List NodeID))
deriving DecidableEq

/-- The routing of `nextItem`: an object wider than the active members is
re-encoded, one narrower than the profile only on request. -/
def planSweep (layout : Layout) (optimize : Bool) (a : DataAddress) (size : Int64) :
    Except PlaceError SweepPlan :=
  let active := layout.activeCount
  let (tk, tm) := (autoProfile active).params size
  if readWidth a > active ∨ (optimize ∧ tk + tm > readWidth a) then do
    let (oldNodes, newNodes) ← planReEncode layout a tk tm
    .ok (.reEncode tk tm oldNodes newNodes)
  else do
    let (nodes, oldNodes) ← layout.locate a.partition (readWidth a)
    .ok (.scrub nodes oldNodes)

/-! ## What was committed, and where it sits -/

/-- The coordinator committed the address, at any time and under any layout, as a
PUT, an uploaded part or a re-encoded object, and shard `i` is now on the `i`-th
holder: where it was written, or where a sweep moved it. -/
inductive Committed (a : DataAddress) : List NodeID → Prop where
  | put (L : Layout) (vid : VersionID) (size : Int64) (plan : PutPlan)
      (h : planPut L vid size = .ok plan)
      (ha : a = ⟨vid, plan.partition, UInt32.ofNat plan.k, UInt32.ofNat plan.m⟩) :
      Committed a plan.nodes
  | reEncode (L : Layout) (optimize : Bool) (a₀ : DataAddress) (newDID : VersionID) (size : Int64)
      (k m : Nat) (oldNodes holders : List NodeID)
      (h : planSweep L optimize a₀ size = .ok (.reEncode k m oldNodes holders))
      (ha : a = ⟨newDID, a₀.partition, UInt32.ofNat k, UInt32.ofNat m⟩) : Committed a holders
  | moved {holders : List NodeID} (hold : Committed a holders) (L : Layout) (optimize : Bool)
      (size : Int64) (nodes : List NodeID) (oldNodes : Option (List NodeID)) (i : Nat) (n : NodeID)
      (h : planSweep L optimize a size = .ok (.scrub nodes oldNodes)) (hn : nodes[i]? = some n) :
      Committed a (holders.set i n)

/-- No reader and no sweep fails on the address for a reason of placement. -/
structure Readable (L : Layout) (a : DataAddress) (holders : List NodeID) : Prop where
  /-- Both placements exist, and every shard sits in one of them. -/
  locates : ∃ newNodes oldNodes, L.locate a.partition a.width = .ok (newNodes, some oldNodes) ∧
    ∀ (i : Nat) n, holders[i]? = some n → newNodes[i]? = some n ∨ oldNodes[i]? = some n
  /-- A read asks the holder of a shard for it. -/
  get : ∃ nodes oldNodes, planGet L a = .ok (nodes, oldNodes) ∧
    ∀ (i : Nat) n, holders[i]? = some n → n ∈ candidates nodes oldNodes i
  /-- A sweep finds a place for every shard. -/
  sweep : ∀ optimize size, ∃ plan, planSweep L optimize a size = .ok plan

/-- The placement of the address on the members has the node at `i`. -/
def PlacedAt (members : List Node) (a : DataAddress) (i : Nat) (n : NodeID) : Prop :=
  ∃ nodes, spread a.partition members a.width = .ok nodes ∧ nodes[i]? = some n

/-- Every shard stands where one of the two member sets places it. -/
def OnPlacements (L : Layout) (a : DataAddress) (holders : List NodeID) : Prop :=
  ∀ (i : Nat) n, holders[i]? = some n → PlacedAt L.members a i n ∨ PlacedAt L.previous a i n

/-- The member set can hold the shards of the address. -/
def Fits (members : List Node) (a : DataAddress) : Prop :=
  a.width ≤ members.length ∧ duplicateMember (rank a.partition members) = none
deriving Decidable

section Readable

variable {L : Layout} {a : DataAddress} {holders : List NodeID} {size : Int64}

theorem width_of_profile {k m : Nat} {nodes : Nat} (h : (autoProfile nodes).params size = (k, m))
    (did : VersionID) (partition : UInt64) :
    let a : DataAddress := ⟨did, partition, UInt32.ofNat k, UInt32.ofNat m⟩
    a.width = k + m ∧ readWidth a = a.width := by
  have hfits := (autoProfile_fits nodes).params size
  rw [h] at hfits
  have hsix : k + m ≤ 6 := hfits.le_six
  have hsize : 6 < UInt32.size := by decide
  have hk : (UInt32.ofNat k).toNat = k := UInt32.toNat_ofNat_of_lt' (by omega)
  have hm : (UInt32.ofNat m).toNat = m := UInt32.toNat_ofNat_of_lt' (by omega)
  refine ⟨by rw [DataAddress.width, hk, hm], ?_⟩
  rw [readWidth, DataAddress.width, UInt32.toNat_add, hk, hm, Nat.mod_eq_of_lt]
  omega

variable {oldNodes : List NodeID}

theorem planSweep_reEncode {optimize : Bool} {k m : Nat}
    (h : planSweep L optimize a size = .ok (.reEncode k m oldNodes holders)) :
    (autoProfile L.activeCount).params size = (k, m) ∧
      L.nodes a.partition (k + m) = .ok holders := by
  unfold planSweep at h
  dsimp only at h
  split at h
  · obtain ⟨⟨old, new⟩, hplan, hres⟩ := bind_eq_ok_iff.mp h
    cases hres
    obtain ⟨located, -, hnodes⟩ := bind_eq_ok_iff.mp hplan
    obtain ⟨new, hnew, hres⟩ := bind_eq_ok_iff.mp hnodes
    cases hres
    exact ⟨rfl, hnew⟩
  · obtain ⟨located, -, hres⟩ := bind_eq_ok_iff.mp h
    cases hres

theorem planPut_ok {vid : VersionID} {plan : PutPlan} (h : planPut L vid size = .ok plan) :
    (autoProfile L.activeCount).params size = (plan.k, plan.m) ∧
      L.nodes plan.partition (plan.k + plan.m) = .ok plan.nodes := by
  unfold planPut at h
  dsimp only at h
  split at h
  · cases h
  · obtain ⟨nodes, hnodes, hplan⟩ := bind_eq_ok_iff.mp h
    cases hplan
    exact ⟨rfl, hnodes⟩

theorem Committed.width (h : Committed a holders) : readWidth a = a.width ∧ 0 < a.width := by
  induction h with
  | put L vid size plan h ha =>
    obtain ⟨hparams, hnodes⟩ := planPut_ok h
    obtain ⟨hwidth, hread⟩ := width_of_profile hparams vid plan.partition
    subst ha
    rw [hread, hwidth]
    exact ⟨rfl, (spread_eq_ok_iff.mp hnodes).1⟩
  | reEncode L optimize a₀ newDID size k m oldNodes holders h ha =>
    obtain ⟨hparams, hnodes⟩ := planSweep_reEncode h
    obtain ⟨hwidth, hread⟩ := width_of_profile hparams newDID a₀.partition
    subst ha
    rw [hread, hwidth]
    exact ⟨rfl, (spread_eq_ok_iff.mp hnodes).1⟩
  | moved _ _ _ _ _ _ _ _ _ _ ih => exact ih

/-- What a PUT writes under the open layout, or under the one that it opened from,
stands on a placement. -/
theorem onPlacements_planPut {L₀ : Layout} {vid : VersionID} {plan : PutPlan}
    (hL₀ : L₀.members = L.members ∨ L₀.members = L.previous)
    (h : planPut L₀ vid size = .ok plan) :
    OnPlacements L ⟨vid, plan.partition, UInt32.ofNat plan.k, UInt32.ofNat plan.m⟩ plan.nodes := by
  obtain ⟨hparams, hnodes⟩ := planPut_ok h
  have hwidth := (width_of_profile hparams vid plan.partition).1
  intro i n hn
  unfold PlacedAt
  rw [hwidth]
  rcases hL₀ with hmembers | hmembers
  · exact Or.inl ⟨plan.nodes, hmembers ▸ hnodes, hn⟩
  · exact Or.inr ⟨plan.nodes, hmembers ▸ hnodes, hn⟩

variable {newNodes : List NodeID}

theorem locate_eq_ok_iff (hopen : L.previous ≠ []) {oldNodes : Option (List NodeID)} {p : UInt64}
    {w : Nat} :
    L.locate p w = .ok (newNodes, oldNodes) ↔
      spread p L.members w = .ok newNodes ∧
        ∃ old, spread p L.previous w = .ok old ∧ oldNodes = some old := by
  have hlen : ¬L.previous.length = 0 := fun h => hopen (List.length_eq_zero_iff.mp h)
  rw [Layout.locate, bind_eq_ok_iff]
  simp only [if_neg hlen, bind_eq_ok_iff, Except.ok.injEq, Prod.mk.injEq]
  constructor
  · intro h
    obtain ⟨new, hnew, old, hold, rfl, rfl⟩ := h
    exact ⟨hnew, old, hold, rfl⟩
  · intro h
    obtain ⟨hnew, old, hold, rfl⟩ := h
    exact ⟨newNodes, hnew, old, hold, rfl, rfl⟩

theorem mem_candidates (hlen : newNodes.length = oldNodes.length) {i : Nat} {n : NodeID}
    (h : newNodes[i]? = some n ∨ oldNodes[i]? = some n) :
    n ∈ candidates newNodes (some oldNodes) i := by
  have hi : i < newNodes.length := by
    rcases h with h | h
    · exact (List.getElem?_eq_some_iff.mp h).1
    · exact hlen ▸ (List.getElem?_eq_some_iff.mp h).1
  have hi' : i < oldNodes.length := hlen ▸ hi
  rw [candidates, Option.bind_some, List.getElem?_eq_getElem hi, List.getElem?_eq_getElem hi']
  rw [List.getElem?_eq_getElem hi, List.getElem?_eq_getElem hi', Option.some.injEq,
    Option.some.injEq] at h
  dsimp only
  split
  · rcases h with rfl | rfl
    · exact List.mem_cons_self
    · exact List.mem_cons_of_mem _ List.mem_cons_self
  · rename_i heq
    rcases h with rfl | rfl
    · exact List.mem_cons_self
    · exact List.mem_singleton.mpr (not_not.mp heq)

theorem planSweep_isOk (hopen : L.previous ≠ []) (hread : readWidth a = a.width)
    (hnew : spread a.partition L.members a.width = .ok newNodes)
    (hold : spread a.partition L.previous a.width = .ok oldNodes) (optimize : Bool) (size : Int64) :
    ∃ plan, planSweep L optimize a size = .ok plan := by
  have hlocate := (locate_eq_ok_iff hopen).mpr ⟨hnew, oldNodes, hold, rfl⟩
  obtain ⟨hpos, hfit, hdup, -⟩ := spread_eq_ok_iff.mp hnew
  have hactive : L.activeCount ≤ L.members.length := List.length_filter_le _ _
  -- the target width is within the members whatever drains
  have htarget := (autoProfile_fits L.activeCount).params size
  obtain ⟨ns, hns⟩ : ∃ ns, spread a.partition L.members
      (((autoProfile L.activeCount).params size).1 +
        ((autoProfile L.activeCount).params size).2) = .ok ns := by
    have hdata := htarget.data_pos
    have hnodes := htarget.le_nodes
    dsimp only at hdata hnodes
    exact spread_isOk_iff.mpr ⟨by omega, by omega, hdup⟩
  unfold planSweep planReEncode
  dsimp only
  rw [hread, hlocate]
  split
  · rw [bind_ok, Layout.nodes, hns]
    exact ⟨_, rfl⟩
  · exact ⟨_, rfl⟩

/-- During a transition, what the coordinator committed can be read and
repaired exactly when both member sets can hold its shards and every shard
stands where one of them places it. -/
theorem readable_iff (hopen : L.previous ≠ []) (h : Committed a holders) :
    Readable L a holders ↔
      Fits L.members a ∧ Fits L.previous a ∧ OnPlacements L a holders := by
  obtain ⟨hread, hpos⟩ := h.width
  constructor
  · intro hr
    obtain ⟨newNodes, oldNodes, hlocate, hsits⟩ := hr.locates
    obtain ⟨hnew, old, hold, heq⟩ := (locate_eq_ok_iff hopen).mp hlocate
    cases heq
    obtain ⟨-, hfit, hdup, -⟩ := spread_eq_ok_iff.mp hnew
    obtain ⟨-, hfit', hdup', -⟩ := spread_eq_ok_iff.mp hold
    exact ⟨⟨hfit, hdup⟩, ⟨hfit', hdup'⟩, fun i n hn =>
      (hsits i n hn).imp (fun h => ⟨newNodes, hnew, h⟩) (fun h => ⟨oldNodes, hold, h⟩)⟩
  · intro ⟨⟨hfit, hdup⟩, ⟨hfit', hdup'⟩, hplaced⟩
    obtain ⟨newNodes, hnew⟩ := spread_isOk_iff.mpr ⟨hpos, hfit, hdup⟩
    obtain ⟨oldNodes, hold⟩ := spread_isOk_iff.mpr ⟨hpos, hfit', hdup'⟩
    have hlocate := (locate_eq_ok_iff hopen).mpr ⟨hnew, oldNodes, hold, rfl⟩
    have hlen := (length_of_spread hnew).trans (length_of_spread hold).symm
    have hsits : ∀ (i : Nat) n, holders[i]? = some n →
        newNodes[i]? = some n ∨ oldNodes[i]? = some n := by
      intro i n hn
      rcases hplaced i n hn with ⟨nodes, hnodes, hi⟩ | ⟨nodes, hnodes, hi⟩
      · cases hnew.symm.trans hnodes
        exact Or.inl hi
      · cases hold.symm.trans hnodes
        exact Or.inr hi
    refine ⟨⟨newNodes, oldNodes, hlocate, hsits⟩, ?_, planSweep_isOk hopen hread hnew hold⟩
    refine ⟨newNodes, some oldNodes, by rw [planGet, hread]; exact hlocate, fun i n hn => ?_⟩
    exact mem_candidates hlen (hsits i n hn)

end Readable

/-! ## Growing a cluster by one node -/

private def nodesUpTo (n : Nat) : List Node :=
  (List.range n).map (fun i => ⟨[UInt8.ofNat i], [UInt8.ofNat i], [UInt8.ofNat i], 1, false⟩)

/-- A cluster of `n` nodes that one more node is joining. -/
def joining (n : Nat) : Layout where
  version := 2
  partitionCount := 4096
  members := nodesUpTo (n + 1)
  previous := nodesUpTo n

/-- From three nodes to four the profile stays 2+1, and what is written in
between can be read. -/
theorem readable_joining_fourth :
    Committed ⟨VersionID.zero, 2058, 2, 1⟩ [[2], [3], [1]] ∧
      Readable (joining 3) ⟨VersionID.zero, 2058, 2, 1⟩ [[2], [3], [1]] := by
  have hplan : planPut (joining 3) VersionID.zero 200000 =
      .ok ⟨2, 1, 2058, [[2], [3], [1]]⟩ := by decide +kernel
  have hcommitted : Committed ⟨VersionID.zero, 2058, 2, 1⟩ [[2], [3], [1]] :=
    .put (joining 3) VersionID.zero 200000 _ hplan rfl
  have hfits : Fits (joining 3).members ⟨VersionID.zero, 2058, 2, 1⟩ ∧
      Fits (joining 3).previous ⟨VersionID.zero, 2058, 2, 1⟩ := by decide +kernel
  exact ⟨hcommitted, (readable_iff (by decide) hcommitted).mpr
    ⟨hfits.1, hfits.2, onPlacements_planPut (Or.inl rfl) hplan⟩⟩

/-- From four nodes to five the profile becomes 3+2, and what is written in
between cannot be read: its five shards have no place on the old four. -/
theorem unreadable_joining_fifth :
    Committed ⟨VersionID.zero, 2058, 3, 2⟩ [[2], [3], [4], [1], [0]] ∧
      planGet (joining 4) ⟨VersionID.zero, 2058, 3, 2⟩ = .error (.doNotFit 5 4) ∧
      planSweep (joining 4) false ⟨VersionID.zero, 2058, 3, 2⟩ 200000 = .error (.doNotFit 5 4) ∧
      ¬Readable (joining 4) ⟨VersionID.zero, 2058, 3, 2⟩ [[2], [3], [4], [1], [0]] := by
  have hplan : planPut (joining 4) VersionID.zero 200000 =
      .ok ⟨3, 2, 2058, [[2], [3], [4], [1], [0]]⟩ := by decide +kernel
  have hget : planGet (joining 4) ⟨VersionID.zero, 2058, 3, 2⟩ = .error (.doNotFit 5 4) := by
    decide +kernel
  refine ⟨.put (joining 4) VersionID.zero 200000 _ hplan rfl, hget, by decide +kernel,
    fun hreadable => ?_⟩
  obtain ⟨nodes, oldNodes, hok, -⟩ := hreadable.get
  rw [hget] at hok
  cases hok

end Hamster.Coord
