import Hamster.Cluster.Control
import Hamster.Coord.Put

/-!
# Writes across layout changes

A write resolves its nodes when it begins (`beginPut`, `internal/coord/put.go`), from
the layout that its node has applied by then, and its metadata commits later.  A
leader composes a layout change from the state that it has applied
(`reconcileLayout`, `internal/cluster/layout.go`), and the change commits later too.
In a `SwapWorld` each of these reads some prefix of the log, and each commit is at
its end.

A layout change is accepted only as the next version, so it starts from the layout
that it replaces (`layout_of_version`).  What it may miss is data: the parts of
multipart uploads, which `hasStoredObjects` does not look for, and the writes that
were placed before it and commit after it.  `nothing_stranded` says what a run has to
avoid for every stored address to stay where `Locate` looks.
-/

namespace Hamster.Cluster

open CodeLib Meta Place Raftnode

/-! ## Versions of the layout -/

variable {cl : ClusterLayout}

section Versions

def layoutGeneration (s : Store) : Nat := ((layoutAt s).map (·.version.toNat)).getD 0

theorem toNat_nextGeneration (s : Store) :
    (nextGeneration ((layoutAt s).map ClusterLayout.version)).toNat =
      (layoutGeneration s + 1) % 2 ^ 64 := by
  unfold layoutGeneration
  cases layoutAt s with
  | none => rfl
  | some cl => exact UInt64.toNat_add _ _

variable [ConfChanger]

theorem layoutAt_applyEntry (r : Replica) (c : Command) :
    layoutAt (r.applyEntry c).store = layoutAt r.store ∨
      layoutGeneration (r.applyEntry c).store = (layoutGeneration r.store + 1) % 2 ^ 64 := by
  cases c with
  | barrier | confChange cc => exact Or.inl rfl
  | proposal p =>
    obtain hsame | ⟨q, -, -, hversion, hlayout⟩ := layoutAt_applyMem r.store p
    · exact Or.inl hsame
    · right
      rw [← toNat_nextGeneration, ← hversion]
      exact congrArg (fun cl? => (cl?.map (·.version.toNat)).getD 0) hlayout

theorem run_append (log more : List Command) :
    Replica.run {} (log ++ more) = Replica.run (Replica.run {} log) more :=
  List.foldl_append

theorem layoutGeneration_le_length (log : List Command) :
    layoutGeneration (Replica.run {} log).store ≤ log.length := by
  induction log using List.reverseRecOn with
  | nil => exact Nat.le_refl 0
  | append_singleton log c ih =>
    rw [run_append, List.length_append, List.length_singleton]
    obtain hsame | hnext := layoutAt_applyEntry (Replica.run {} log) c
    · unfold layoutGeneration at ih ⊢
      exact Nat.le_succ_of_le (hsame ▸ ih)
    · exact hnext.trans_le ((Nat.mod_le _ _).trans (Nat.succ_le_succ ih))

theorem layout_grows (log more : List Command) (hlen : (log ++ more).length < 2 ^ 64) :
    layoutAt (Replica.run {} (log ++ more)).store = layoutAt (Replica.run {} log).store ∨
      layoutGeneration (Replica.run {} log).store <
        layoutGeneration (Replica.run {} (log ++ more)).store := by
  induction more using List.reverseRecOn with
  | nil =>
    rw [List.append_nil]
    exact Or.inl rfl
  | append_singleton more c ih =>
    rw [← List.append_assoc, List.length_append, List.length_singleton] at hlen
    have hle := layoutGeneration_le_length (log ++ more)
    rw [← List.append_assoc, run_append]
    obtain hsame | hnext := layoutAt_applyEntry (Replica.run {} (log ++ more)) c
    · unfold layoutGeneration at ih ⊢
      exact hsame ▸ ih (Nat.lt_of_succ_lt hlen)
    · refine Or.inr (Nat.lt_of_lt_of_eq ?_ hnext.symm)
      rw [Nat.mod_eq_of_lt (by omega)]
      obtain hold | hlt := ih (Nat.lt_of_succ_lt hlen)
      · unfold layoutGeneration
        rw [hold]
        exact Nat.lt_succ_self _
      · exact Nat.lt_succ_of_lt hlt

/-- A proposal for the version after the layout that its node has read is accepted
only while this layout is in force. -/
theorem layout_of_version {log : List Command} (hlen : log.length + 1 < 2 ^ 64) (n : Nat)
    (h : nextGeneration ((layoutAt (Replica.run {} (log.take n)).store).map ClusterLayout.version) =
      nextGeneration ((layoutAt (Replica.run {} log).store).map ClusterLayout.version)) :
    layoutAt (Replica.run {} (log.take n)).store = layoutAt (Replica.run {} log).store := by
  have hgrows := layout_grows (log.take n) (log.drop n)
    (by rw [List.take_append_drop]; exact Nat.lt_of_succ_lt hlen)
  have hle := layoutGeneration_le_length log
  have heq := congrArg UInt64.toNat h
  rw [toNat_nextGeneration, toNat_nextGeneration] at heq
  rw [List.take_append_drop] at hgrows
  rcases hgrows with hsame | hlt
  · exact hsame.symm
  · omega

end Versions

/-! ## Shards and writes -/

def placeLayout (cl : ClusterLayout) : Layout :=
  ⟨cl.version, cl.partitionCount, placeNodes cl.effectiveNodes, placeNodes cl.previous⟩

structure Shard where
  dataID : VersionID
  index : Nat
  node : NodeID
deriving DecidableEq

/-- How many shards are on these nodes, shard `i` on the `i`-th. -/
def held (disk : List Shard) (dataID : VersionID) (nodes : List NodeID) (width : Nat) : Nat :=
  (List.range width).countP (fun i => ∃ n ∈ nodes[i]?, ⟨dataID, i, n⟩ ∈ disk)

/-- How many shards of an address are where `Locate` names them. -/
def located (disk : List Shard) (layout : Layout) (a : DataAddress) : Nat :=
  match layout.locate a.partition a.width with
  | .error _ => 0
  | .ok (newNodes, oldNodes) =>
    (List.range a.width).countP (fun i =>
      ∃ n ∈ Coord.candidates newNodes oldNodes i, ⟨a.dataID, i, n⟩ ∈ disk)

/-- A write of an object or a part that has begun: its data ID, the members of the
layout it was placed under, and its placement. -/
structure Write where
  vid : VersionID
  members : List Node
  plan : Coord.PutPlan

namespace Write

variable (x : Write)

def address : DataAddress :=
  ⟨x.vid, x.plan.partition, UInt32.ofNat x.plan.k, UInt32.ofNat x.plan.m⟩

def durable (disk : List Shard) : Nat := held disk x.vid x.plan.nodes (x.plan.k + x.plan.m)

/-- The shards that have to be durable before the metadata is proposed. -/
def floor : Nat := min (x.plan.k + 1) (x.plan.k + x.plan.m)

end Write

/-! ## Runs -/

structure SwapWorld where
  log : List Command := []
  writes : List Write := []
  disk : List Shard := []

/-- What may happen.  `applied` is the length of the log that the acting node has
applied. -/
inductive SwapEvent where
  | begin (applied : Nat) (vid : VersionID) (size : Int64)
  /-- A holder makes a shard of a write durable. -/
  | durable (j i : Nat)
  /-- The metadata of a write commits. -/
  | commit (j : Nat) (p : Proposal)
  /-- A proposal without an address of its own commits, such as the completion of
  an upload. -/
  | client (p : Proposal)
  | confChange (cc : ConfChange)
  | reconcile (applied : Nat) (now : Int64)
  /-- A sweep copies a shard. -/
  | copied (shard : Shard)
  | close (applied : Nat) (now : Int64)

namespace SwapWorld

variable [ConfChanger] (w : SwapWorld)

def replica : Replica := Replica.run {} w.log

/-- The state of a node that has applied this much. -/
def replicaAt (applied : Nat) : Replica := Replica.run {} (w.log.take applied)

def appended (p : Proposal) : SwapWorld := { w with log := w.log ++ [.proposal p] }

def begins (applied : Nat) (vid : VersionID) (size : Int64) : Option Write := do
  let cl ← layoutAt (w.replicaAt applied).store
  let plan ← (Coord.planPut (placeLayout cl) vid size).toOption
  some ⟨vid, placeNodes cl.effectiveNodes, plan⟩

def reconciles (applied : Nat) (now : Int64) : Option SetClusterLayout :=
  match reconcileLayout now (w.replicaAt applied) with
  | .ok (.propose p) => some p
  | _ => none

/-- The end of a transition that a leader proposes. -/
def closes (applied : Nat) (now : Int64) : Option SetClusterLayout :=
  match closeTransition now (w.replicaAt applied).store with
  | .ok p => p
  | .error _ => none

def step : SwapEvent → SwapWorld
  | .begin applied vid size =>
    match w.begins applied vid size with
    | none => w
    | some x => { w with writes := w.writes ++ [x] }
  | .durable j i =>
    match w.writes[j]? with
    | none => w
    | some x =>
      match x.plan.nodes[i]? with
      | none => w
      | some n => { w with disk := ⟨x.vid, i, n⟩ :: w.disk }
  | .commit j p =>
    match w.writes[j]? with
    | none => w
    | some x =>
      if p.stores = some x.address ∧ x.floor ≤ x.durable w.disk then w.appended p else w
  | .client p =>
    if p.stores = none ∧ p.reEncodes = false ∧ p.systemRow ≠ some .clusterLayout then w.appended p
    else w
  | .confChange cc => { w with log := w.log ++ [.confChange cc] }
  | .reconcile applied now =>
    match w.reconciles applied now with
    | none => w
    | some p => w.appended (.setClusterLayout p)
  | .copied shard => { w with disk := shard :: w.disk }
  | .close applied now =>
    match w.closes applied now with
    | none => w
    | some p => w.appended (.setClusterLayout p)

def run (es : List SwapEvent) : SwapWorld := es.foldl step w

/-- How many shards of an address the layout in force finds. -/
def found (a : DataAddress) : Nat :=
  match layoutAt w.replica.store with
  | none => 0
  | some cl => located w.disk (placeLayout cl) a

end SwapWorld

/-! ## What a run has to avoid -/

/-- The write stands on the members in force, or on those that the open transition
moves away from; and then each set can hold its shards. -/
def StillPlaced (cl : ClusterLayout) (x : Write) : Prop :=
  if cl.previous = [] then x.members = placeNodes cl.effectiveNodes
  else (x.members = placeNodes cl.effectiveNodes ∨ x.members = placeNodes cl.previous) ∧
    Coord.Fits (placeNodes cl.effectiveNodes) x.address ∧
      Coord.Fits (placeNodes cl.previous) x.address
deriving Decidable

/-- Whether a leader with this state opens a transition: a placed node leaves, or an
object is stored whole. -/
def opensTransition (s : Store) (desired : List LayoutNode) : Bool :=
  match layoutAt s with
  | none => false
  | some cur =>
    subtractiveLayout cur.effectiveNodes desired || (hasStoredObjects s).toOption.getD false

/-- A change without a transition finds nothing stored when it commits.  One with a
transition finds nothing that is too wide for the new members.  The leader has read
`r`, and the store is `s` by then. -/
def SafeSwap (r : Replica) (s : Store) : Prop :=
  ∀ desired ∈ desiredLayout (nodeRows r.store) r.members,
    if opensTransition r.store desired then
      ∀ a ∈ storedAddresses s, Coord.Fits (placeNodes desired) a
    else storedAddresses s = []
deriving Decidable

def targetLayout (cl : ClusterLayout) : Layout := { placeLayout cl with previous := [] }

/-- A transition ends when enough shards of everything are at their new homes. -/
def SafeClose (disk : List Shard) (s : Store) : Prop :=
  ∀ cl ∈ layoutAt s, ∀ a ∈ storedAddresses s,
    a.ecDataShards.toNat ≤ located disk (targetLayout cl) a
deriving Decidable

/-- The condition on a step.  A layout proposal matters only while the layout that
its leader has read is still in force. -/
def Undisturbed [ConfChanger] (w : SwapWorld) : SwapEvent → Prop
  | .commit j _ => ∀ x ∈ w.writes[j]?, ∃ cl ∈ layoutAt w.replica.store, StillPlaced cl x
  | .reconcile applied now =>
    w.log.length + 1 < 2 ^ 64 ∧
      ((w.reconciles applied now).isSome = true →
        layoutAt (w.replicaAt applied).store = layoutAt w.replica.store →
          SafeSwap (w.replicaAt applied) w.replica.store)
  | .close applied now =>
    w.log.length + 1 < 2 ^ 64 ∧
      ((w.closes applied now).isSome = true →
        layoutAt (w.replicaAt applied).store = layoutAt w.replica.store →
          SafeClose w.disk w.replica.store)
  | _ => True

instance undisturbedDecidable [ConfChanger] (w : SwapWorld) (e : SwapEvent) :
    Decidable (Undisturbed w e) := by
  unfold Undisturbed
  split <;> infer_instance

/-! ## Counting shards -/

section Counting

variable {disk disk' : List Shard} {L : Layout} {a : DataAddress}

theorem located_congr {L' : Layout} (hmembers : L.members = L'.members)
    (hprevious : L.previous = L'.previous) : located disk L a = located disk L' a := by
  unfold located Layout.locate
  rw [hmembers, hprevious]

theorem located_mono (h : disk ⊆ disk') : located disk L a ≤ located disk' L a := by
  unfold located
  cases L.locate a.partition a.width with
  | error e => exact Nat.le_refl 0
  | ok found =>
    refine List.countP_mono_left (fun i _ hi => ?_)
    obtain ⟨n, hn, hmem⟩ := of_decide_eq_true hi
    exact decide_eq_true ⟨n, hn, h hmem⟩

variable {nodes : List NodeID}

theorem located_steady (hsteady : L.previous = [])
    (hnodes : spread a.partition L.members a.width = .ok nodes) :
    located disk L a = held disk a.dataID nodes a.width := by
  have hlocate : L.locate a.partition a.width = .ok (nodes, none) := by
    rw [Layout.locate, hnodes, hsteady]
    rfl
  unfold located held
  rw [hlocate]
  refine List.countP_congr (fun i _ => ?_)
  rw [decide_eq_true_iff, decide_eq_true_iff]
  show (∃ n ∈ Coord.candidates nodes none i, _) ↔ _
  unfold Coord.candidates
  cases nodes[i]? with
  | none | some n => simp

theorem spread_of_located (h : 0 < located disk L a) :
    ∃ nodes, spread a.partition L.members a.width = .ok nodes := by
  unfold located Layout.locate at h
  cases hnodes : spread a.partition L.members a.width with
  | error e =>
    rw [hnodes] at h
    exact absurd h (Nat.lt_irrefl 0)
  | ok nodes => exact ⟨nodes, rfl⟩

theorem held_le_located_open (hopen : L.previous ≠ []) {newNodes oldNodes : List NodeID}
    (hnew : spread a.partition L.members a.width = .ok newNodes)
    (hold : spread a.partition L.previous a.width = .ok oldNodes)
    (hnodes : nodes = newNodes ∨ nodes = oldNodes) :
    held disk a.dataID nodes a.width ≤ located disk L a := by
  have hlen : newNodes.length = oldNodes.length :=
    (length_of_spread hnew).trans (length_of_spread hold).symm
  rw [located, (Coord.locate_eq_ok_iff hopen).mpr ⟨hnew, oldNodes, hold, rfl⟩]
  refine List.countP_mono_left (fun i _ hi => ?_)
  obtain ⟨n, hn, hmem⟩ := of_decide_eq_true hi
  refine decide_eq_true ⟨n, Coord.mem_candidates hlen ?_, hmem⟩
  obtain rfl | rfl := hnodes
  · exact Or.inl hn
  · exact Or.inr hn

theorem exists_spread {members : List Node} (hpos : 0 < a.width) (h : Coord.Fits members a) :
    ∃ nodes, spread a.partition members a.width = .ok nodes :=
  spread_isOk_iff.mpr ⟨hpos, h.1, h.2⟩

end Counting

/-! ## What a leader proposes -/

section Proposed

variable {r : Replica} {now : Int64} {p : SetClusterLayout}

theorem effectiveNodes_layout (hmembers : p.members = []) : p.layout.effectiveNodes = p.nodes := by
  show (if p.nodes.length > 0 then p.nodes else p.members.map _) = p.nodes
  split_ifs with hlen
  · rfl
  · rw [hmembers, List.length_eq_zero_iff.mp (Nat.eq_zero_of_not_pos hlen)]
    rfl

/-- The change that a pass proposes: the next version, with the desired members, from
a layout without a transition. -/
theorem reconcileLayout_propose (hs : Typed r.store)
    (h : reconcileLayout now r = .ok (.propose p)) :
    ∃ desired, desiredLayout (nodeRows r.store) r.members = some desired ∧ p.members = [] ∧
      p.nodes = desired ∧ p.version =
        nextGeneration ((layoutAt r.store).map ClusterLayout.version) ∧
      (∀ cur ∈ layoutAt r.store, cur.previous = []) ∧
      p.previous = if opensTransition r.store desired
        then ((layoutAt r.store).map ClusterLayout.effectiveNodes).getD [] else [] := by
  unfold reconcileLayout at h
  rw [hs.listNodes_eq, bind_ok] at h
  cases hdesired : desiredLayout (nodeRows r.store) r.members with
  | none =>
    rw [hdesired] at h
    cases h
  | some desired =>
    rw [hdesired, hs.clusterLayout_eq] at h
    dsimp only at h
    rw [bind_ok] at h
    refine ⟨desired, rfl, ?_⟩
    cases hcur : layoutAt r.store with
    | none =>
      rw [hcur] at h
      cases h
      exact ⟨rfl, rfl, rfl, (fun _ hnone => nomatch hnone), (ite_self _).symm⟩
    | some cur =>
      rw [hcur] at h
      dsimp only at h
      by_cases htransition : cur.previous.length > 0
      · rw [if_pos htransition] at h
        cases h
      rw [if_neg htransition] at h
      cases hevict : evictReplaced (nodeRows r.store) r.members cur with
      | some cc =>
        rw [hevict] at h
        cases h
      | none =>
        rw [hevict] at h
        dsimp only at h
        by_cases hcurrent : cur.effectiveNodes = desired
        · rw [if_pos hcurrent] at h
          cases h
        rw [if_neg hcurrent] at h
        have hsteady : ∀ cur' ∈ some cur, cur'.previous = [] := by
          intro cur' hcur'
          cases hcur'
          exact List.length_eq_zero_iff.mp (Nat.eq_zero_of_not_pos htransition)
        have hopens : opensTransition r.store desired =
            (subtractiveLayout cur.effectiveNodes desired ||
              (hasStoredObjects r.store).toOption.getD false) := by
          rw [opensTransition, hcur]
        rw [hopens]
        by_cases hsub : subtractiveLayout cur.effectiveNodes desired = true
        · rw [if_pos hsub] at h
          cases h
          rw [hsub, Bool.true_or]
          exact ⟨rfl, rfl, rfl, hsteady, rfl⟩
        · rw [if_neg hsub] at h
          obtain ⟨stored, hstored, h⟩ := bind_eq_ok_iff.mp h
          cases h
          rw [hstored, Bool.eq_false_iff.mpr hsub, Bool.false_or]
          exact ⟨rfl, rfl, rfl, hsteady, rfl⟩

theorem closeTransition_some (hs : Typed r.store) (h : closeTransition now r.store = .ok (some p)) :
    ∃ cur, layoutAt r.store = some cur ∧ p.members = [] ∧ p.nodes = cur.effectiveNodes ∧
      p.version = nextGeneration (some cur.version) ∧ p.previous = [] := by
  unfold closeTransition at h
  rw [hs.clusterLayout_eq, bind_ok] at h
  cases hcur : layoutAt r.store with
  | none =>
    rw [hcur] at h
    cases h
  | some cur =>
    rw [hcur] at h
    dsimp only at h
    split_ifs at h with hopen
    · cases h
    · cases h
      exact ⟨cur, rfl, rfl, rfl, rfl, rfl⟩

end Proposed

/-! ## Every run -/

/-- The nodes of a write are the placement on its members, at the recorded width. -/
structure Write.Planned (x : Write) : Prop where
  nodes : spread x.plan.partition x.members (x.plan.k + x.plan.m) = .ok x.plan.nodes
  width : x.address.width = x.plan.k + x.plan.m
  data : x.address.ecDataShards.toNat = x.plan.k

structure AllFound [ConfChanger] (w : SwapWorld) : Prop where
  found : ∀ a ∈ storedAddresses w.replica.store, a.ecDataShards.toNat ≤ w.found a
  planned : ∀ x ∈ w.writes, x.Planned

theorem planned_of_planPut {L : Layout} {vid : VersionID} {size : Int64} {plan : Coord.PutPlan}
    (h : Coord.planPut L vid size = .ok plan) : Write.Planned ⟨vid, L.members, plan⟩ := by
  obtain ⟨hparams, hnodes⟩ := Coord.planPut_ok h
  refine ⟨hnodes, (Coord.width_of_profile hparams vid plan.partition).1, ?_⟩
  have hsix := ((Ec.autoProfile_fits L.activeCount).params size).le_six
  rw [hparams] at hsix
  have hsize : 6 < UInt32.size := by decide
  exact UInt32.toNat_ofNat_of_lt' (Nat.lt_of_le_of_lt ((Nat.le_add_right _ _).trans hsix) hsize)

theorem found_of_stillPlaced {x : Write} (hx : x.Planned) (hplaced : StillPlaced cl x)
    {disk : List Shard} (hdurable : x.floor ≤ x.durable disk) :
    x.address.ecDataShards.toNat ≤ located disk (placeLayout cl) x.address := by
  have hnodes : spread x.address.partition x.members x.address.width = .ok x.plan.nodes := by
    rw [hx.width]
    exact hx.nodes
  have hpos : 0 < x.address.width := (spread_isOk_iff.mp ⟨_, hnodes⟩).1
  have hheld : x.address.ecDataShards.toNat ≤
      held disk x.address.dataID x.plan.nodes x.address.width := by
    rw [hx.data, hx.width]
    refine Nat.le_trans ?_ hdurable
    exact Nat.le_min.mpr ⟨Nat.le_succ _, Nat.le_add_right _ _⟩
  refine hheld.trans ?_
  unfold StillPlaced at hplaced
  split_ifs at hplaced with hopen
  · rw [hplaced] at hnodes
    refine Nat.le_of_eq (located_steady ?_ hnodes).symm
    show placeNodes cl.previous = []
    rw [hopen]
    rfl
  · obtain ⟨hmembers, hnew, hold⟩ := hplaced
    obtain ⟨newNodes, hnew⟩ := exists_spread hpos hnew
    obtain ⟨oldNodes, hold⟩ := exists_spread hpos hold
    refine held_le_located_open (fun hnil => hopen (List.map_eq_nil_iff.mp hnil)) hnew hold ?_
    obtain heq | heq := hmembers
    · rw [heq] at hnodes
      exact Or.inl (Except.ok.inj (hnodes.symm.trans hnew))
    · rw [heq] at hnodes
      exact Or.inr (Except.ok.inj (hnodes.symm.trans hold))

theorem found_of_opened {L L' : Layout} {disk : List Shard} {a : DataAddress}
    (hsteady : L.previous = []) (hprevious : L'.previous = L.members)
    (hfits : Coord.Fits L'.members a) : located disk L a ≤ located disk L' a := by
  by_cases hzero : located disk L a = 0
  · rw [hzero]
    exact Nat.zero_le _
  obtain ⟨nodes, hnodes⟩ := spread_of_located (Nat.pos_of_ne_zero hzero)
  obtain ⟨hpos, hlen, -⟩ := spread_isOk_iff.mp ⟨_, hnodes⟩
  obtain ⟨newNodes, hnew⟩ := exists_spread hpos hfits
  have hopen : L'.previous ≠ [] := by
    rw [hprevious]
    exact List.ne_nil_of_length_pos (Nat.lt_of_lt_of_le hpos hlen)
  rw [located_steady hsteady hnodes]
  exact held_le_located_open hopen hnew (hprevious ▸ hnodes) (Or.inr rfl)

theorem of_stores {p : Proposal} {a : DataAddress} (h : p.stores = some a) :
    p.reEncodes = false ∧ p.systemRow ≠ some .clusterLayout := by
  cases p with
  | putObject q | uploadPart q => exact ⟨rfl, nofun⟩
  | _ => cases h

namespace AllFound

variable [ConfChanger] {w : SwapWorld} {e : SwapEvent}

theorem withDisk (h : AllFound w) (shard : Shard) :
    AllFound { w with disk := shard :: w.disk } := by
  refine ⟨fun a ha => (h.found a ha).trans ?_, h.planned⟩
  show (match layoutAt w.replica.store with | none => 0 | some cl => _) ≤
    (match layoutAt w.replica.store with | none => 0 | some cl => _)
  cases layoutAt w.replica.store with
  | none => exact Nat.le_refl 0
  | some cl => exact located_mono (List.subset_cons_self _ _)

theorem replica_appended (w : SwapWorld) (p : Proposal) :
    (w.appended p).replica.store = (applyMem w.replica.store p).2 := by
  show (Replica.run {} (w.log ++ [.proposal p])).store = _
  rw [run_append]
  rfl

theorem keeps (h : AllFound w) {p : Proposal} (hp : p.reEncodes = false)
    (hlayout : layoutAt (applyMem w.replica.store p).2 = layoutAt w.replica.store)
    (hstores : ∀ a, p.stores = some a → a.ecDataShards.toNat ≤ w.found a) :
    AllFound (w.appended p) := by
  refine ⟨fun a ha => ?_, h.planned⟩
  rw [replica_appended] at ha
  have hsame : (w.appended p).found a = w.found a := by
    rw [SwapWorld.found, SwapWorld.found, replica_appended, hlayout]
    rfl
  rw [hsame]
  obtain hold | hnew | rfl := mem_storedAddresses_applyMem hp ha
  · exact h.found a hold
  · exact hstores a hnew
  · exact Nat.zero_le _

variable {p : SetClusterLayout}

theorem installs (h : AllFound w)
    (hinstalled : p.version =
        nextGeneration ((layoutAt w.replica.store).map ClusterLayout.version) →
      ∀ a ∈ storedAddresses w.replica.store,
        a.ecDataShards.toNat ≤ located w.disk (placeLayout p.layout) a) :
    AllFound (w.appended (.setClusterLayout p)) := by
  obtain hsame | ⟨q, hq, -, hversion, hlayout⟩ :=
    layoutAt_applyMem (Replica.run {} w.log).store (.setClusterLayout p)
  · exact h.keeps rfl hsame (fun a ha => nomatch ha)
  · cases hq
    refine ⟨fun a ha => ?_, h.planned⟩
    rw [replica_appended] at ha
    have hfound : (w.appended (.setClusterLayout p)).found a =
        located w.disk (placeLayout p.layout) a := by
      rw [SwapWorld.found, replica_appended]
      show (match layoutAt (applyMem (Replica.run {} w.log).store _).2 with
        | none => 0 | some cl => located w.disk (placeLayout cl) a) = _
      rw [hlayout]
    rw [hfound]
    obtain hold | hnew | rfl := mem_storedAddresses_applyMem rfl ha
    · exact hinstalled hversion a hold
    · cases hnew
    · exact Nat.zero_le _

theorem reconciled (h : AllFound w) {applied : Nat} {now : Int64}
    (hp : w.reconciles applied now = some p) (hlen : w.log.length + 1 < 2 ^ 64)
    (hsafe : layoutAt (w.replicaAt applied).store = layoutAt w.replica.store →
      SafeSwap (w.replicaAt applied) w.replica.store) :
    AllFound (w.appended (.setClusterLayout p)) := by
  have hpropose : reconcileLayout now (w.replicaAt applied) = .ok (.propose p) := by
    unfold SwapWorld.reconciles at hp
    split at hp
    · rename_i hok
      cases hp
      exact hok
    · cases hp
  have htyped : Typed (w.replicaAt applied).store := (wellFormed_run (w.log.take applied)).1
  obtain ⟨desired, hdesired, hmembers, hnodes, hversion, hsteady, hprevious⟩ :=
    reconcileLayout_propose htyped hpropose
  refine h.installs (fun hnext a ha => ?_)
  have hread : layoutAt (w.replicaAt applied).store = layoutAt w.replica.store :=
    layout_of_version hlen applied (hversion.symm.trans hnext)
  have hswap := hsafe hread desired hdesired
  split_ifs at hswap with hopens
  · -- the layout in force is the one that the leader moves from
    cases hcur : layoutAt w.replica.store with
    | none =>
      rw [opensTransition, hread.trans hcur] at hopens
      cases hopens
    | some cur =>
      rw [if_pos hopens, hread, hcur] at hprevious
      have hfound := h.found a ha
      rw [SwapWorld.found, hcur] at hfound
      refine hfound.trans (found_of_opened ?_ ?_ ?_)
      · show placeNodes cur.previous = []
        rw [hsteady cur (hread.trans hcur)]
        rfl
      · exact congrArg placeNodes hprevious
      · show Coord.Fits (placeNodes p.layout.effectiveNodes) a
        rw [effectiveNodes_layout hmembers, hnodes]
        exact hswap a ha
  · rw [hswap] at ha
    cases ha

theorem closed (h : AllFound w) {applied : Nat} {now : Int64} (hp : w.closes applied now = some p)
    (hlen : w.log.length + 1 < 2 ^ 64)
    (hsafe : layoutAt (w.replicaAt applied).store = layoutAt w.replica.store →
      SafeClose w.disk w.replica.store) : AllFound (w.appended (.setClusterLayout p)) := by
  have hclose : closeTransition now (w.replicaAt applied).store = .ok (some p) := by
    unfold SwapWorld.closes at hp
    split at hp
    · rename_i hok
      rw [hok, hp]
    · cases hp
  obtain ⟨cur, hcur, hmembers, hnodes, hversion, hprevious⟩ :=
    closeTransition_some (wellFormed_run (w.log.take applied)).1 hclose
  refine h.installs (fun hnext a ha => ?_)
  have hread : layoutAt (w.replicaAt applied).store = layoutAt w.replica.store := by
    refine layout_of_version hlen applied ?_
    rw [hcur]
    exact hversion.symm.trans hnext
  have henough := hsafe hread cur (hread.symm.trans hcur) a ha
  have hsame : (placeLayout p.layout).members = (targetLayout cur).members :=
    congrArg placeNodes ((effectiveNodes_layout hmembers).trans hnodes)
  rw [located_congr hsame (congrArg placeNodes hprevious)]
  exact henough

theorem step (h : AllFound w) (he : Undisturbed w e) : AllFound (w.step e) := by
  cases e with
  | begin applied vid size =>
    rw [SwapWorld.step]
    cases hx : w.begins applied vid size with
    | none => exact h
    | some x =>
      obtain ⟨cl, -, hx⟩ := Option.bind_eq_some_iff.mp hx
      obtain ⟨plan, hplan, hx⟩ := Option.bind_eq_some_iff.mp hx
      cases hx
      refine ⟨h.found, fun y hy => ?_⟩
      obtain hy | hy := List.mem_append.mp hy
      · exact h.planned y hy
      · rw [List.mem_singleton.mp hy]
        exact planned_of_planPut (Coord.toOption_eq_some_iff.mp hplan)
  | durable j i =>
    rw [SwapWorld.step]
    cases w.writes[j]? with
    | none => exact h
    | some x =>
      dsimp only
      cases x.plan.nodes[i]? with
      | none => exact h
      | some n => exact h.withDisk _
  | commit j p =>
    rw [SwapWorld.step]
    cases hx : w.writes[j]? with
    | none => exact h
    | some x =>
      dsimp only
      split_ifs with hcommit
      · obtain ⟨hstores, hdurable⟩ := hcommit
        obtain ⟨cl, hcl, hplaced⟩ := he x hx
        obtain ⟨hreEncodes, hrow⟩ := of_stores hstores
        refine h.keeps hreEncodes ?_ (fun a ha => ?_)
        · exact congrArg (Option.bind · Record.layout?) (look_applyMem _ trivial hrow)
        · cases hstores.symm.trans ha
          rw [SwapWorld.found, hcl]
          exact found_of_stillPlaced (h.planned x (List.mem_of_getElem? hx)) hplaced hdurable
      · exact h
  | client p =>
    rw [SwapWorld.step]
    split_ifs with hclient
    · obtain ⟨hstores, hreEncodes, hrow⟩ := hclient
      refine h.keeps hreEncodes ?_ (fun a ha => nomatch hstores.symm.trans ha)
      exact congrArg (Option.bind · Record.layout?) (look_applyMem _ trivial hrow)
    · exact h
  | confChange cc =>
    have hstore : (w.step (.confChange cc)).replica.store = w.replica.store := by
      show (Replica.run {} (w.log ++ [.confChange cc])).store = _
      rw [run_append]
      rfl
    refine ⟨fun a ha => ?_, h.planned⟩
    rw [hstore] at ha
    rw [SwapWorld.found, hstore]
    exact h.found a ha
  | reconcile applied now =>
    rw [SwapWorld.step]
    cases hp : w.reconciles applied now with
    | none => exact h
    | some p => exact h.reconciled hp he.1 (he.2 (by rw [hp]; rfl))
  | copied shard => exact h.withDisk shard
  | close applied now =>
    rw [SwapWorld.step]
    cases hp : w.closes applied now with
    | none => exact h
    | some p => exact h.closed hp he.1 (he.2 (by rw [hp]; rfl))

end AllFound

/-- In every run in which each write commits under the layout that it was placed
under, or during the transition from it, and no layout change passes over stored
data: every stored address, of a whole object, of a part or of an upload in progress,
has as many shards as it has data shards at positions that `Locate` names. -/
theorem nothing_stranded [ConfChanger] (es : List SwapEvent)
    (h : EachStep SwapWorld.step Undisturbed {} es) (es' : List SwapEvent) (hes' : es' <+: es)
    (a : DataAddress) (ha : StoredAddress (SwapWorld.run {} es').replica.store a) :
    a.ecDataShards.toNat ≤ (SwapWorld.run {} es').found a := by
  have hstart : AllFound ({} : SwapWorld) :=
    ⟨fun a ha => absurd ha List.not_mem_nil, fun x hx => absurd hx List.not_mem_nil⟩
  have hall : AllFound (SwapWorld.run {} es') :=
    h.invariant (fun w e he hw => hw.step he) hstart hes'
  exact hall.found a (mem_storedAddresses ha)

/-! ## A second node joins -/

/-- A node is admitted and registered, and the layout is reconciled with all that has
been applied. -/
def grows (id : UInt64) (c : UInt8) : List SwapEvent :=
  [.confChange ⟨.addLearnerNode, id, some ⟨[c], []⟩⟩,
    .client (.registerNode ⟨5, [c], [c], [c], 1, 0⟩), .reconcile 100 5]

def firstNode : List SwapEvent :=
  .confChange ⟨.addNode, 1, some ⟨[97], []⟩⟩ :: (grows 1 97).drop 1 ++
    [.client (.createBucket
        { proposedAtUnixMS := 1, bucket := [97, 97, 97], objectLockEnabled := false })]

private def writeID : VersionID := VersionID.newVersionID 2 0 1

def smallPut : Proposal :=
  .putObject
    { proposedAtUnixMS := 2, bucket := [97, 97, 97], key := [107], versionID := writeID, size := 10
      partition := 1851, ecDataShards := 1, ecParityShards := 0 }

/-- The object is stored before the second node joins, and the sweep copies its shard
before the transition ends. -/
def storedBefore : List SwapEvent :=
  firstNode ++ [.begin 100 writeID 10, .durable 0 0, .commit 0 smallPut] ++ grows 2 98 ++
    [.copied ⟨writeID, 0, [98]⟩, .close 100 6]

private def listRun (es : List SwapEvent) : SwapWorld := @SwapWorld.run listConfChanger {} es

/-- The object is found at its new home. -/
theorem nothing_stranded_storedBefore :
    let w := listRun storedBefore
    (storedAddresses (@SwapWorld.replica listConfChanger w).store).length = 1 ∧
      ∀ a, StoredAddress (@SwapWorld.replica listConfChanger w).store a →
        a.ecDataShards.toNat ≤ @SwapWorld.found listConfChanger w a :=
  ⟨by decide +kernel, fun a ha =>
    @nothing_stranded listConfChanger storedBefore (by decide +kernel) storedBefore
      (List.prefix_refl _) a ha⟩

private def uploadID : VersionID := VersionID.newVersionID 2 0 9

/-- A part is stored before the second node joins.  No object is stored whole, so the
layout changes without a transition. -/
def partBefore : List SwapEvent :=
  firstNode ++
    [.client (.createMultipartUpload
        { proposedAtUnixMS := 2, bucket := [97, 97, 97], key := [107], uploadID := uploadID }),
      .begin 100 writeID 10, .durable 0 0,
      .commit 0 (.uploadPart
        { proposedAtUnixMS := 2, bucket := [97, 97, 97], key := [107], uploadID := uploadID
          partNumber := 1, dataID := writeID, size := 10, etag := []
          partition := 1851, ecDataShards := 1, ecParityShards := 0 })] ++ grows 2 98

/-- A write begins before the second node joins and commits after it. -/
def acrossSwap : List SwapEvent :=
  firstNode ++ [.begin 100 writeID 10, .durable 0 0] ++ grows 2 98 ++ [.commit 0 smallPut]

/-- The one stored address has its one shard durable on the first node, and is looked for
on the second. -/
def strandedIn (w : SwapWorld) : Bool :=
  storedAddresses (@SwapWorld.replica listConfChanger w).store = [⟨writeID, 1851, 1, 0⟩] ∧
    w.disk = [⟨writeID, 0, [97]⟩] ∧ @SwapWorld.found listConfChanger w ⟨writeID, 1851, 1, 0⟩ = 0

/-- A part that was stored before the layout changed, and an object placed before. -/
theorem parts_stranded : strandedIn (listRun partBefore) ∧ strandedIn (listRun acrossSwap) := by
  decide +kernel

end Hamster.Cluster
