import Hamster.Cluster.Layout

/-!
# One layout operation at a time

The guards of `internal/cluster/control.go` and `internal/cluster/trust.go`: a
drain, a replacement or an optimize sweep is refused while another layout
operation runs, and a CA rotation ends when no straggler is left.  The guards read
the replicated registry.

A record stays in the registry when its node leaves the cluster, and so does its
mark: a node is removed while it drains, and evicted while it is paired with its
replacement.  `guards_release` gives the histories in which the guards are free
whenever no member is marked: no step removes a marked member, or marks a node that
is no member.
-/

namespace Hamster.Cluster

open CodeLib Meta Place Raftnode

/-! ## The guards -/

inductive LayoutOp where
  | transition
  | draining (node : NodeID)
  | replacing (node replacedBy : NodeID)
deriving DecidableEq

def recordOp (r : NodeRecord) : Option LayoutOp :=
  if r.draining then some (.draining r.nodeID)
  else if r.replacedBy ≠ [] then some (.replacing r.nodeID r.replacedBy)
  else none

/-- The operation in flight, if the cluster is not quiescent.  The record of the
node `except` is ignored. -/
def layoutOpInProgress (s : Store) (except : NodeID) : Except MetaError (Option LayoutOp) := do
  match ← clusterLayout s with
  | some cl =>
    if cl.previous.length > 0 then .ok (some .transition)
    else do
      let recs ← listNodes s
      .ok (recs.findSome? (fun r => if r.nodeID = except then none else recordOp r))
  | none => do
    let recs ← listNodes s
    .ok (recs.findSome? (fun r => if r.nodeID = except then none else recordOp r))

/-- A new drain is refused while any layout operation is in flight. -/
def drainBlockedReason (s : Store) (nodeID : NodeID) : Except MetaError (Option LayoutOp) :=
  layoutOpInProgress s nodeID

inductive Refusal where
  | idsRequired
  | replacesItself
  | removesItself
  | notMember (node : NodeID)
  | alreadyMember (node : NodeID)
  | busy (op : LayoutOp)
  | blocked (reason : Blocked)
deriving DecidableEq

def proposeSetDraining (now : Int64) (s : Store) (nodeID : NodeID) (draining : Bool) :
    Except MetaError (Except Refusal SetNodeDraining) := do
  let reason ← if draining then drainBlockedReason s nodeID else .ok none
  match reason with
  | some op => .ok (.error (.busy op))
  | none => .ok (.ok ⟨now, nodeID, draining⟩)

/-- `proposeReplace` on the leader: the old node is a member, the new one is not. -/
def proposeReplace (now : Int64) (r : Replica) (oldNode newNode : NodeID) :
    Except MetaError (Except Refusal SetNodeReplacedBy) :=
  if oldNode = [] ∨ newNode = [] then .ok (.error .idsRequired)
  else if oldNode = newNode then .ok (.error .replacesItself)
  else if ¬r.HasMember oldNode then .ok (.error (.notMember oldNode))
  else if r.HasMember newNode then .ok (.error (.alreadyMember newNode))
  else do
    match ← layoutOpInProgress r.store [] with
    | some op => .ok (.error (.busy op))
    | none => .ok (.ok ⟨now, oldNode, newNode⟩)

/-- `removeAttempt` on the leader with the identifier `self`.  A node that is gone
needs no change. -/
def removeAttempt (r : Replica) (self : UInt64) (nodeID : NodeID) :
    Except MetaError (Except Refusal (Option ConfChange)) :=
  match r.members.find? (fun m => m.addr = nodeID) with
  | none => .ok (.ok none)
  | some m =>
    if m.id = self then .ok (.error .removesItself)
    else do
      match ← removeBlockedReason r.store nodeID with
      | some reason => .ok (.error (.blocked reason))
      | none => .ok (.ok (some (Replica.removeNode m.id)))

inductive OptimizeRefusal where
  | notLeader
  | draining (node : NodeID)
  | replacing (node : NodeID)
  /-- The layout is still reconciling; the caller asks again. -/
  | reconciling
  | sweeping
deriving DecidableEq

/-- The refusal is for a drain or a replacement, and not to be waited out. -/
def OptimizeRefusal.forOperation : OptimizeRefusal → Bool
  | .draining _ | .replacing _ => true
  | _ => false

def optimizeRecord (r : NodeRecord) : Option OptimizeRefusal :=
  if r.draining then some (.draining r.nodeID)
  else if r.replacedBy ≠ [] then some (.replacing r.nodeID)
  else none

def optimizeRefusal (r : Replica) (leads sweeping : Bool) :
    Except MetaError (Option OptimizeRefusal) :=
  if !leads then .ok (some .notLeader)
  else do
    let recs ← listNodes r.store
    match recs.findSome? optimizeRecord with
    | some refusal => .ok (some refusal)
    | none => do
      let settled ← layoutSettled r
      if !settled then .ok (some .reconciling)
      else if sweeping then .ok (some .sweeping)
      else .ok none

/-- The records whose leaf is not signed by the issuing CA. -/
def caStragglerCount (s : Store) (issuer : UInt64) : Except MetaError Nat := do
  let recs ← listNodes s
  .ok (recs.foldl (fun c r => if r.leafCAFingerprint ≠ issuer then c + 1 else c) 0)

/-! ## What a leader does -/

inductive Operation where
  | register (m : NodeLabel)
  | reconcile
  /-- A sweep found nothing left to move. -/
  | close
  | drain (node : NodeID)
  | undrain (node : NodeID)
  | replace (oldNode newNode : NodeID)
  | remove (node : NodeID)
  | join (id : UInt64) (addr dial : Bytes)
  | promote (caughtUp : List UInt64)
  /-- A rotation has reissued the node and records its new CA. -/
  | recordLeafCA (node : NodeID) (fingerprint : UInt64)
  /-- A proposal of the data path. -/
  | client (p : Proposal)

/-- The entry that the operation proposes, if it is not refused. -/
def Operation.command (now : Int64) (self : UInt64) (r : Replica) :
    Operation → Except MetaError (Option Command)
  | .register m => do
    let p ← registration now r.store m
    .ok (p.map (fun p => .proposal (.registerNode p)))
  | .reconcile => do
    match ← reconcileLayout now r with
    | .propose p => .ok (some (.proposal (.setClusterLayout p)))
    | .evict cc => .ok (some (.confChange cc))
    | _ => .ok none
  | .close => do
    let p ← closeTransition now r.store
    .ok (p.map (fun p => .proposal (.setClusterLayout p)))
  | .drain node => do
    match ← proposeSetDraining now r.store node true with
    | .ok p => .ok (some (.proposal (.setNodeDraining p)))
    | .error _ => .ok none
  | .undrain node => do
    match ← proposeSetDraining now r.store node false with
    | .ok p => .ok (some (.proposal (.setNodeDraining p)))
    | .error _ => .ok none
  | .replace oldNode newNode => do
    match ← proposeReplace now r oldNode newNode with
    | .ok p => .ok (some (.proposal (.setNodeReplacedBy p)))
    | .error _ => .ok none
  | .remove node => do
    match ← removeAttempt r self node with
    | .ok cc => .ok (cc.map .confChange)
    | .error _ => .ok none
  | .join id addr dial =>
    match r.addNode id addr dial with
    | .ok cc => .ok (cc.map .confChange)
    | .error _ => .ok none
  | .promote caughtUp => .ok ((r.maybePromote 0 (fun id => id ∈ caughtUp)).map .confChange)
  | .recordLeafCA node fingerprint =>
    .ok (some (.proposal (.setNodeLeafCA ⟨now, node, fingerprint⟩)))
  | .client p => .ok (some (.proposal p))

/-- The log that the operations make, each committed before the next. -/
def operationLog [ConfChanger] (now : Int64) (self : UInt64) :
    Replica → List Operation → List Command
  | _, [] => []
  | r, op :: rest =>
    match op.command now self r with
    | .ok (some c) => c :: operationLog now self (r.applyEntry c) rest
    | _ => operationLog now self r rest

/-! ## The registry and the membership -/

def Marked (r : NodeRecord) : Prop := r.draining = true ∨ r.replacedBy ≠ []
deriving Decidable

/-- The node's record, if it has one, carries no mark. -/
def Unmarked (s : Store) (node : NodeID) : Prop := ∀ r ∈ nodeAt s node, ¬Marked r
deriving Decidable

def NoTransition (s : Store) : Prop := ∀ cl ∈ layoutAt s, cl.previous = []
deriving Decidable

/-- A change that gives a member the address it has. -/
def KeepsAddress (r : Replica) (cc : ConfChange) : Prop :=
  ∀ info ∈ cc.context, r.isMember cc.nodeID = true → info.node = r.addr cc.nodeID
deriving Decidable

def marks : Proposal → Option NodeID
  | .setNodeDraining p => if p.draining then some p.nodeID else none
  | .setNodeReplacedBy p => if p.replacedBy ≠ [] then some p.nodeID else none
  | _ => none

def registers : Proposal → Option NodeID
  | .registerNode p => some p.nodeID
  | _ => none

/-- A step that leaves no mark behind: it removes no marked node, and marks members
only. -/
def LeavesNoMark (r : Replica) : Command → Prop
  | .barrier => True
  | .proposal p => ∀ node ∈ marks p, r.HasMember node
  | .confChange cc =>
    KeepsAddress r cc ∧ (cc.type = .removeNode → Unmarked r.store (r.addr cc.nodeID))

instance leavesNoMarkDecidable (r : Replica) (c : Command) : Decidable (LeavesNoMark r c) := by
  unfold LeavesNoMark
  split <;> infer_instance

/-- A step that keeps every registered node a member. -/
def KeepsRegistry (r : Replica) : Command → Prop
  | .barrier => True
  | .proposal p => ∀ node ∈ registers p, r.HasMember node
  | .confChange cc => KeepsAddress r cc ∧ cc.type ≠ .removeNode

instance keepsRegistryDecidable (r : Replica) (c : Command) : Decidable (KeepsRegistry r c) := by
  unfold KeepsRegistry
  split <;> infer_instance

def MarksAreMembers (r : Replica) : Prop :=
  ∀ node rec, nodeAt r.store node = some rec → Marked rec → r.HasMember node

def RegisteredAreMembers (r : Replica) : Prop :=
  ∀ node rec, nodeAt r.store node = some rec → r.HasMember node

section Guards

variable {s : Store}

theorem recordOp_eq_none_iff {r : NodeRecord} : recordOp r = none ↔ ¬Marked r := by
  unfold recordOp Marked
  split_ifs with hdrain hrepl
  · simp [hdrain]
  · simp [hrepl]
  · simp [hdrain, hrepl]

theorem optimizeRecord_eq_none_iff {r : NodeRecord} : optimizeRecord r = none ↔ ¬Marked r := by
  unfold optimizeRecord Marked
  split_ifs with hdrain hrepl
  · simp [hdrain]
  · simp [hrepl]
  · simp [hdrain, hrepl]

theorem layoutOpInProgress_eq_none (hs : Typed s) (hopen : NoTransition s)
    (hrecs : ∀ r ∈ nodeRows s, ¬Marked r) (except : NodeID) :
    layoutOpInProgress s except = .ok none := by
  have hfind : (nodeRows s).findSome?
      (fun r => if r.nodeID = except then none else recordOp r) = none := by
    rw [List.findSome?_eq_none_iff]
    intro r hr
    split_ifs
    · rfl
    · exact recordOp_eq_none_iff.mpr (hrecs r hr)
  rw [layoutOpInProgress, hs.clusterLayout_eq, hs.listNodes_eq]
  cases hl : layoutAt s with
  | none =>
    show Except.ok _ = _
    rw [hfind]
  | some cl =>
    show (if cl.previous.length > 0 then _ else Except.ok _) = _
    rw [hopen cl hl, if_neg (List.length_nil.not_gt), hfind]

theorem forOperation_eq_false {r : Replica} (hs : Typed r.store)
    (hrecs : ∀ rec ∈ nodeRows r.store, ¬Marked rec) {leads sweeping : Bool}
    {refusal : OptimizeRefusal} (h : optimizeRefusal r leads sweeping = .ok (some refusal)) :
    refusal.forOperation = false := by
  have hfind : (nodeRows r.store).findSome? optimizeRecord = none := by
    rw [List.findSome?_eq_none_iff]
    exact fun rec hrec => optimizeRecord_eq_none_iff.mpr (hrecs rec hrec)
  unfold optimizeRefusal at h
  cases leads with
  | false =>
    cases h
    rfl
  | true =>
    rw [if_neg (by decide), hs.listNodes_eq] at h
    simp only [bind, Except.bind, hfind] at h
    cases hsettled : layoutSettled r with
    | error e =>
      rw [hsettled] at h
      cases h
    | ok settled =>
      rw [hsettled] at h
      cases settled <;> cases sweeping <;> cases h <;> rfl

theorem caStragglerCount_eq_zero (hs : Typed s) {issuer : UInt64}
    (h : ∀ r ∈ nodeRows s, r.leafCAFingerprint = issuer) : caStragglerCount s issuer = .ok 0 := by
  have hcount : ∀ c : Nat, (nodeRows s).foldl
      (fun c r => if r.leafCAFingerprint ≠ issuer then c + 1 else c) c = c := by
    generalize nodeRows s = recs at h
    induction recs with
    | nil => exact fun c => rfl
    | cons r rest ih =>
      intro c
      rw [List.foldl_cons, if_neg (not_not.mpr (h r List.mem_cons_self))]
      exact ih (fun r' hr' => h r' (List.mem_cons_of_mem r hr')) c
  rw [caStragglerCount, hs.listNodes_eq]
  exact congrArg Except.ok (hcount 0)

end Guards

section Histories

variable [ConfChanger] {r : Replica} {c : Command}

theorem wellFormed_run (es : List Command) :
    Typed (Replica.run {} es).store ∧ NodesNamed (Replica.run {} es).store := by
  have hstep : ∀ (r : Replica) (c : Command), Typed r.store ∧ NodesNamed r.store →
      Typed (r.applyEntry c).store ∧ NodesNamed (r.applyEntry c).store := by
    intro r c h
    cases c with
    | barrier | confChange cc => exact h
    | proposal p => exact ⟨typed_applyMem h.1 p, h.2.applyMem p⟩
  exact foldl_preserves hstep es ⟨typed_newStore, nodesNamed_newStore⟩

theorem MarksAreMembers.applyEntry [LawfulConfChanger] (h : MarksAreMembers r)
    (hc : LeavesNoMark r c) : MarksAreMembers (r.applyEntry c) := by
  cases c with
  | barrier => exact h
  | confChange cc =>
    obtain ⟨haddr, hremove⟩ := hc
    intro node rec hrec hmark
    refine (h node rec hrec hmark).confChange (fun htype heq => ?_) haddr
    exact hremove htype rec (heq ▸ hrec) hmark
  | proposal p =>
    -- the membership stays, so only a new mark needs a member
    intro node rec hrec hmark
    show r.HasMember node
    cases nodeStep_applyMem r.store p node with
    | same hsame => exact h node rec (hsame ▸ hrec) hmark
    | registered q rec' hp hid hnew hnode hdrain hrepl hleaf =>
      cases hnew.symm.trans hrec
      exact absurd hmark (by simp [Marked, hdrain, hrepl])
    | draining q rec' hp hid hold hnew =>
      cases hnew.symm.trans hrec
      subst hp hid
      obtain hdrain | hrepl := hmark
      · exact hc q.nodeID (if_pos hdrain)
      · exact h _ rec' hold (Or.inr hrepl)
    | replacedBy q rec' hp hid hold hnew =>
      cases hnew.symm.trans hrec
      subst hp hid
      obtain hdrain | hrepl := hmark
      · exact h _ rec' hold (Or.inl hdrain)
      · exact hc q.nodeID (if_pos hrepl)
    | leafCA q rec' hp hid hold hnew | version q rec' hp hid hold hnew =>
      cases hnew.symm.trans hrec
      exact h _ rec' hold hmark

theorem RegisteredAreMembers.applyEntry [LawfulConfChanger] (h : RegisteredAreMembers r)
    (hc : KeepsRegistry r c) : RegisteredAreMembers (r.applyEntry c) := by
  cases c with
  | barrier => exact h
  | confChange cc =>
    obtain ⟨haddr, hkeep⟩ := hc
    intro node rec hrec
    exact (h node rec hrec).confChange (fun htype => absurd htype hkeep) haddr
  | proposal p =>
    intro node rec hrec
    show r.HasMember node
    cases nodeStep_applyMem r.store p node with
    | same hsame => exact h node rec (hsame ▸ hrec)
    | registered q rec' hp hid =>
      subst hp hid
      exact hc q.nodeID rfl
    | draining q rec' hp hid hold | replacedBy q rec' hp hid hold | leafCA q rec' hp hid hold
    | version q rec' hp hid hold => exact h _ rec' hold

/-- The guards are free: nothing is in progress, whichever node is ignored, and an
optimize sweep is not refused for an operation. -/
def GuardsFree (r : Replica) : Prop :=
  (∀ except, layoutOpInProgress r.store except = .ok none) ∧
    ∀ leads sweeping refusal, optimizeRefusal r leads sweeping = .ok (some refusal) →
      refusal.forOperation = false

/-- Every member is registered with a leaf of this CA. -/
def Reissued (r : Replica) (issuer : UInt64) : Prop :=
  ∀ m ∈ r.members, ∃ rec ∈ nodeAt r.store m.addr, rec.leafCAFingerprint = issuer
deriving Decidable

/-- In a history that leaves no mark behind, the guards are free in every state in
which no transition is open and no member is marked.  A CA rotation that starts with
members only in the registry, and keeps it so, has no straggler once every member is
reissued. -/
theorem guards_release [LawfulConfChanger] (es : List Command) :
    (EachStep Replica.applyEntry LeavesNoMark {} es → ∀ es', es' <+: es →
      NoTransition (Replica.run {} es').store →
      (∀ m ∈ (Replica.run {} es').members, Unmarked (Replica.run {} es').store m.addr) →
      GuardsFree (Replica.run {} es')) ∧
    ∀ before rotation, es = before ++ rotation →
      RegisteredAreMembers (Replica.run {} before) →
      EachStep Replica.applyEntry KeepsRegistry (Replica.run {} before) rotation →
      ∀ issuer, Reissued (Replica.run {} es) issuer →
        caStragglerCount (Replica.run {} es).store issuer = .ok 0 := by
  constructor
  · intro hes es' hes' hopen hmembers
    obtain ⟨htyped, hnamed⟩ := wellFormed_run es'
    have hmarks : MarksAreMembers (Replica.run {} es') :=
      hes.invariant (fun r c hc h => h.applyEntry hc) (fun node rec h => by cases h) hes'
    have hrecs : ∀ rec ∈ nodeRows (Replica.run {} es').store, ¬Marked rec := by
      intro rec hrec hmark
      have hat := (mem_nodeRows hnamed).mp hrec
      obtain ⟨m, hm, haddr⟩ := hmarks rec.nodeID rec hat hmark
      exact hmembers m hm rec (haddr ▸ hat) hmark
    exact ⟨layoutOpInProgress_eq_none htyped hopen hrecs,
      fun _ _ _ h => forOperation_eq_false htyped hrecs h⟩
  · intro before rotation hes hbefore hsteps issuer hissued
    obtain ⟨htyped, hnamed⟩ := wellFormed_run es
    have hreg : RegisteredAreMembers (Replica.run {} es) := by
      subst hes
      rw [Replica.run, List.foldl_append]
      exact hsteps.invariant (fun r c hc h => h.applyEntry hc) hbefore (List.prefix_refl rotation)
    refine caStragglerCount_eq_zero htyped (fun rec hrec => ?_)
    have hat := (mem_nodeRows hnamed).mp hrec
    obtain ⟨m, hm, haddr⟩ := hreg rec.nodeID rec hat
    obtain ⟨rec', hat', hleaf⟩ := hissued m hm
    rw [haddr, hat] at hat'
    cases hat'
    exact hleaf

end Histories

/-! ## A node that left -/

def nodeLabel (c : UInt8) : NodeLabel := ⟨[c], [c], [c], 1⟩

def founding : Command := .confChange ⟨.addNode, 1, some ⟨[97], []⟩⟩

/-- Two nodes join, and vote once they have caught up. -/
def formation : List Operation :=
  [.register (nodeLabel 97), .reconcile, .join 2 [98] [], .register (nodeLabel 98), .reconcile,
    .promote [2], .join 3 [99] [], .register (nodeLabel 99), .reconcile, .promote [3]]

def historyLog (ops : List Operation) : List Command :=
  founding :: @operationLog listConfChanger 0 1 (@Replica.run listConfChanger {} [founding]) ops

def drained : List Operation := formation ++ [.drain [98], .reconcile, .close]

def undone : List Operation := drained ++ [.undrain [98], .reconcile]

/-- A rotation records the new leaf of each of these nodes. -/
def rotation (nodes : List NodeID) : List Command :=
  nodes.map (fun node => .proposal (.setNodeLeafCA ⟨0, node, 7⟩))

/-- The drain leaves no mark, and every registered node is reissued. -/
theorem guards_release_undone :
    GuardsFree (@Replica.run listConfChanger {} (historyLog undone)) ∧
      caStragglerCount (@Replica.run listConfChanger {}
        (historyLog undone ++ rotation [[97], [98], [99]])).store 7 = .ok 0 := by
  have hguards := @guards_release listConfChanger listConfChanger_lawful (historyLog undone)
  have hstragglers := @guards_release listConfChanger listConfChanger_lawful
    (historyLog undone ++ rotation [[97], [98], [99]])
  constructor
  · exact hguards.1 (by decide +kernel) _ (List.prefix_refl _) (by decide +kernel)
      (by decide +kernel)
  · refine hstragglers.2 _ _ rfl ?_ (by decide +kernel) 7 (by decide +kernel)
    intro node rec hrec
    have hnamed := (@wellFormed_run listConfChanger (historyLog undone)).2
    have hall : ∀ rec ∈ nodeRows (@Replica.run listConfChanger {} (historyLog undone)).store,
        (@Replica.run listConfChanger {} (historyLog undone)).HasMember rec.nodeID := by
      decide +kernel
    have hid := hnamed hrec
    subst hid
    exact hall rec ((mem_nodeRows hnamed).mpr hrec)

def removed : List Operation := drained ++ [.remove [98], .reconcile]

/-- The node that left holds the guards: no transition is open, no member is marked
and every member is reissued, but its record still drains and is on no CA. -/
theorem guards_held_by_removed :
    let r := @Replica.run listConfChanger {} (historyLog removed ++ rotation [[97], [99]])
    ¬r.HasMember [98] ∧ NoTransition r.store ∧ (∀ m ∈ r.members, Unmarked r.store m.addr) ∧
      Reissued r 7 ∧ layoutOpInProgress r.store [] = .ok (some (.draining [98])) ∧
      optimizeRefusal r true false = .ok (some (.draining [98])) ∧
      caStragglerCount r.store 7 = .ok 1 := by
  decide +kernel

end Hamster.Cluster
