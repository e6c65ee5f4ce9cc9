import Hamster.Cluster.Forward
import Hamster.Cluster.Layout
import Hamster.Coord.Sweep

/-!
# Callbacks inside the Ready loop

`processReady` (`internal/raftnode/raftnode.go`) takes a `Ready` from the library, applies
its committed entries and then calls `Advance`.  `applyEntry` runs the callbacks of
proposals in between, and the hooks of a configuration change (`onMembership`,
`onRemoved`).  The library must not be given another proposal there.

`Callback` lists the callbacks that the node ever passes to `Propose`: those of
`internal/coord`, which `forwardingProposer` wraps, and those of `internal/cluster`.
`Callback.run` is what one does on the loop.  What it leaves to a goroutine, a timer, a
message or a posted closure runs in a later turn.

The one long chain starts at a re-encoding.  Its end moves the sweep on to the next item
and possibly to the end, and the end of a transition's sweep may propose the closing
layout.  It does not in this case: the report of a sweep that has just re-encoded an
object, or failed to, has not converged.

`Loop` is the loop with the stages of `processReady`.  What a handler does outside of it
is left open.
-/

namespace Hamster.Cluster

open CodeLib Meta Coord Place

/-! ## Callbacks -/

/-- Who is told that a repair sweep has ended. -/
inductive SweepEnd where
  /-- `driveTransitionClose` -/
  | transition
  /-- `runOptimize` -/
  | optimize
  /-- The scrubber, with what is left of its pass. -/
  | scrub (pending : List SweepItem)

/-- One call of `Propose`, by the callback that it passes. -/
inductive Callback where
  /-- `commitPutObject` and `commitUploadPart` -/
  | put (op : PutOp)
  | reEncode (started : StartedReEncode) (sweep : SweepOp) (item : SweepItem) (stop : SweepEnd)
  | rewrap (op : RewrapOp) (item : SweepItem)
  | completeRotation (op : RewrapOp)
  | seedTrustBundle
  | registerNode
  /-- A layout of `reconcileLayout`, or a node's version: the outcome is dropped. -/
  | dropped
  /-- `closeTransition` -/
  | closed (version : UInt64)
  /-- A goroutine waits for the outcome: `proposeLocal`, `proposeAsLeader` and the
  control handlers. -/
  | awaited

inductive Posted where
  | refreshTrust
  | reconcileLayout
  | rewrapNext (op : RewrapOp)
  | scrubTick

/-- What a handler or a callback does that another part of the node sees. -/
inductive LoopEffect where
  /-- `raft.Propose` -/
  | propose (done : Callback)
  /-- `proposeConfChange` -/
  | confChange
  /-- The library was stepped or ticked, and `processReady` runs. -/
  | processReady
  | send (dest : NodeID)
  /-- A channel that a goroutine waits on. -/
  | answer
  | post (f : Posted)
  /-- `go` -/
  | spawn
  | log

namespace LoopEffect

def usesRaft : LoopEffect → Bool
  | .propose _ | .confChange | .processReady => true
  | _ => false

end LoopEffect

structure LoopEnv where
  now : Int64
  store : Store
  layout : Option Place.Layout
  /-- The next ID that is minted. -/
  newID : VersionID
  /-- `err.Error()` -/
  errorText : ProposeError → Bytes

namespace SweepEnd

def run (env : LoopEnv) (report : RepairReport) : SweepEnd → List LoopEffect
  | .transition =>
    if report.Converged then
      match closeTransition env.now env.store with
      | .ok (some p) => [.propose (.closed p.version)]
      | _ => []
    else []
  | .optimize => [.answer]
  | .scrub _ =>
    (if report.rebuiltShards > 0 ∨ report.migratedShards > 0 ∨ report.reEncoded > 0 then [.log]
      else []) ++ [.post .scrubTick]

end SweepEnd

def sweepEffects (env : LoopEnv) (stop : SweepEnd) : SweepStep → List LoopEffect
  | .finished report => stop.run env report
  | .scrubbing _ _ nodes _ => nodes.map .send
  | .reEncoding _ _ started => started.oldNodes.map .send

def putEffects (op : PutOp) : PutAction → List LoopEffect
  | .delete i => [.send (op.setup.nodes.getD i [])]
  | .done _ => [.answer]
  | .propose _ => [.propose (.put op)]
  | _ => []

def reEncodeEffects (started : StartedReEncode) (cb : Callback) : Action → List LoopEffect
  | .deleteOld i => [.send (started.oldNodes.getD i [])]
  | .deleteNew i => [.send (started.newNodes.getD i [])]
  | .send .propose => [.propose cb]
  | .send (.write i) => [.send (started.newNodes.getD i [])]
  | .send (.verify i) | .send (.fetch i _ _) => [.send (started.oldNodes.getD i [])]

/-- The version ID that a commit of the coordinator assigned. -/
def assignedID : ApplyResult → VersionID
  | .put r => r.versionID
  | _ => VersionID.zero

/-- The wrapper of `forwardingProposer.Propose`: a node that does not lead forwards. -/
def forwarding (outcome : Except ProposeError ApplyResult) (done : List LoopEffect) :
    List LoopEffect :=
  match outcome with
  | .error .notLeader => [.spawn]
  | _ => done

namespace Callback

def run (env : LoopEnv) (outcome : Except ProposeError ApplyResult) : Callback → List LoopEffect
  | .put op =>
    forwarding outcome
      ((op.onProposed ((outcome.mapError env.errorText).map assignedID)).2.flatMap
        (putEffects op))
  | .reEncode started sweep item stop =>
    let (op, actions) := started.op.onProposed outcome.isOk
    let cb := Callback.reEncode started sweep item stop
    forwarding outcome (actions.flatMap (reEncodeEffects started cb) ++
      match started.op.result, op.result with
      | none, some result =>
        -- `finish` has called `done`
        let sweep := sweep.reEncoded item (result.mapError .failed)
        sweepEffects env stop (sweep.nextItem env.layout env.newID)
      | _, _ => [])
  | .rewrap op item =>
    forwarding outcome
      [.post (.rewrapNext (op.rewrapped item ((outcome.mapError env.errorText).map (fun _ => ()))))]
  | .completeRotation _ => forwarding outcome [.answer]
  | .seedTrustBundle => if outcome.isOk then [.post .refreshTrust] else []
  | .registerNode => if outcome.isOk then [.post .reconcileLayout] else []
  | .dropped => []
  | .closed _ => if outcome.isOk then [.log] else []
  | .awaited => [.answer]

end Callback

/-! ## Hooks -/

/-- The roster as it is logged: every member's address, and whether it learns. -/
def rosterLine (members : List (Bytes × Bool)) : Bytes :=
  List.intercalate [32] (members.map (fun (addr, learner) =>
    addr ++ 61 :: if learner then [108, 101, 97, 114, 110, 101, 114] else [118, 111, 116, 101, 114]))

def onMembership (lastRoster : Bytes) (members : List (Bytes × Bool)) : List LoopEffect :=
  if rosterLine members = lastRoster then [] else [.log]

def onRemoved : List LoopEffect := [.log, .spawn]

/-! ## The loop -/

/-- The loop of a node, at the level of `processReady`. -/
structure Loop where
  /-- What is left of the handler that runs. -/
  agenda : List LoopEffect := []
  /-- `processReady` runs. -/
  draining : Bool := false
  /-- Between `Ready` and `Advance`. -/
  inside : Bool := false
  /-- What is left of the callback that `applyEntry` has called. -/
  inner : List LoopEffect := []
  /-- The callbacks of accepted proposals. -/
  waiters : List Callback := []
  lastRoster : Bytes := []
  /-- The library was used between `Ready` and `Advance`. -/
  reentered : Bool := false

inductive LoopEvent where
  /-- The loop takes the next message, timer or posted closure. -/
  | turn (effects : List LoopEffect)
  /-- The handler goes on.  A proposal is accepted, or refused with an error. -/
  | act (refusal : Option ProposeError) (env : LoopEnv)
  | ready
  /-- `applyEntry` calls the `i`-th waiting callback. -/
  | apply (i : Nat) (result : Except MetaError ApplyResult) (env : LoopEnv)
  /-- `applyEntry` applies a configuration change, or `restoreSnapshot` adopts one.
  It may evict this node. -/
  | membership (members : List (Bytes × Bool)) (evicted : Bool)
  /-- The callback goes on. -/
  | actInner
  | advance
  /-- `HasReady` is false. -/
  | quiet

namespace Loop

/-- The next effect of a handler, outside of `processReady`. -/
def act (l : Loop) (refusal : Option ProposeError) (env : LoopEnv) (rest : List LoopEffect) :
    LoopEffect → Loop
  | .propose done =>
    match refusal with
    | some e => { l with agenda := done.run env (.error e) ++ rest }
    | none => { l with agenda := rest, waiters := l.waiters ++ [done], draining := true }
  | .confChange =>
    match refusal with
    | some _ => { l with agenda := rest }
    | none => { l with agenda := rest, draining := true }
  | .processReady => { l with agenda := rest, draining := true }
  | _ => { l with agenda := rest }

def step (l : Loop) : LoopEvent → Loop
  | .turn effects => if l.agenda = [] ∧ l.draining = false then { l with agenda := effects } else l
  | .act refusal env =>
    if l.draining then l
    else
      match l.agenda with
      | [] => l
      | e :: rest => l.act refusal env rest e
  | .ready => if l.draining ∧ l.inside = false then { l with inside := true } else l
  | .apply i result env =>
    if l.inside ∧ l.inner = [] then
      match l.waiters[i]? with
      | none => l
      | some done =>
        { l with
          waiters := l.waiters.eraseIdx i
          inner := done.run env (applied result) }
    else l
  | .membership members evicted =>
    if l.inside ∧ l.inner = [] then
      { l with
        lastRoster := rosterLine members
        inner := onMembership l.lastRoster members ++ if evicted then onRemoved else [] }
    else l
  | .actInner =>
    match l.inner with
    | [] => l
    | e :: rest => { l with inner := rest, reentered := l.reentered || e.usesRaft }
  | .advance => if l.inside ∧ l.inner = [] then { l with inside := false } else l
  | .quiet => if l.inside then l else { l with draining := false }

def run (l : Loop) (es : List LoopEvent) : Loop := es.foldl step l

end Loop

/-! ## Callbacks leave the library alone -/

def Quiet (effects : List LoopEffect) : Prop := ∀ e ∈ effects, e.usesRaft = false

theorem Quiet.append {es fs : List LoopEffect} (hes : Quiet es) (hfs : Quiet fs) :
    Quiet (es ++ fs) := by
  intro e he
  rcases List.mem_append.mp he with he | he
  · exact hes e he
  · exact hfs e he

theorem quiet_flatMap {α : Type} {f : α → List LoopEffect} {l : List α}
    (h : ∀ a ∈ l, Quiet (f a)) : Quiet (l.flatMap f) := by
  intro e he
  obtain ⟨a, ha, hmem⟩ := List.mem_flatMap.mp he
  exact h a ha e hmem

theorem quiet_sends (nodes : List NodeID) : Quiet (nodes.map .send) := by
  intro e he
  obtain ⟨n, -, rfl⟩ := List.mem_map.mp he
  rfl

theorem quiet_single {e : LoopEffect} (h : e.usesRaft = false) : Quiet [e] :=
  fun _ he => List.mem_singleton.mp he ▸ h

theorem quiet_nil : Quiet [] := fun _ he => nomatch he

theorem Quiet.forwarding {es : List LoopEffect} (h : Quiet es)
    (outcome : Except ProposeError ApplyResult) : Quiet (forwarding outcome es) := by
  unfold Cluster.forwarding
  split
  · exact quiet_single rfl
  · exact h

theorem SweepEnd.quiet_run (stop : SweepEnd) (env : LoopEnv) {report : RepairReport}
    (h : ¬ report.Converged) : Quiet (stop.run env report) := by
  cases stop with
  | transition =>
    rw [SweepEnd.run, if_neg h]
    exact quiet_nil
  | optimize => exact quiet_single rfl
  | scrub pending =>
    refine Quiet.append ?_ (quiet_single rfl)
    split
    · exact quiet_single rfl
    · exact quiet_nil

theorem quiet_sweepEffects (env : LoopEnv) (stop : SweepEnd) {op : SweepOp}
    (h : ¬ op.report.Converged) :
    Quiet (sweepEffects env stop (op.nextItem env.layout env.newID)) := by
  cases hstep : op.nextItem env.layout env.newID with
  | finished report => exact stop.quiet_run env (SweepOp.nextItems_finished h hstep)
  | scrubbing op item nodes oldNodes => exact quiet_sends nodes
  | reEncoding op item started => exact quiet_sends started.oldNodes

theorem quiet_putEffects (op : PutOp) (result : Except Bytes VersionID) :
    Quiet ((op.onProposed result).2.flatMap (putEffects op)) := by
  apply quiet_flatMap
  intro a ha
  rw [PutOp.onProposed] at ha
  split at ha
  · cases ha
  · cases result with
    | error text =>
      simp only [failWith, List.mem_cons, List.mem_append, List.mem_map, List.not_mem_nil,
        or_false] at ha
      rcases ha with rfl | ⟨i, -, rfl⟩ | rfl | rfl
      · exact quiet_nil
      · exact quiet_single rfl
      · exact quiet_nil
      · exact quiet_single rfl
    | ok assigned =>
      simp only [List.mem_cons, List.not_mem_nil, or_false] at ha
      rcases ha with rfl | rfl | rfl
      · exact quiet_nil
      · exact quiet_nil
      · exact quiet_single rfl

theorem quiet_reEncodeEffects (started : StartedReEncode) (cb : Callback) (ok : Bool) :
    Quiet ((started.op.onProposed ok).2.flatMap (reEncodeEffects started cb)) := by
  apply quiet_flatMap
  intro a ha
  rw [ReEncodeOp.onProposed] at ha
  split at ha
  · obtain ⟨i, -, rfl⟩ := List.mem_map.mp ha
    exact quiet_single rfl
  · obtain ⟨i, -, rfl⟩ := List.mem_map.mp ha
    exact quiet_single rfl

theorem Callback.quiet_run (cb : Callback) (env : LoopEnv)
    (outcome : Except ProposeError ApplyResult) : Quiet (cb.run env outcome) := by
  cases cb with
  | put op => exact (quiet_putEffects op _).forwarding outcome
  | reEncode started sweep item stop =>
    refine Quiet.forwarding ((quiet_reEncodeEffects started _ _).append ?_) outcome
    split
    · exact quiet_sweepEffects env stop (sweep.not_converged_reEncoded item _)
    · exact quiet_nil
  | rewrap op item | completeRotation op => exact (quiet_single rfl).forwarding outcome
  | seedTrustBundle | registerNode | closed version =>
    rw [Callback.run]
    split
    · exact quiet_single rfl
    · exact quiet_nil
  | dropped => exact quiet_nil
  | awaited => exact quiet_single rfl

theorem quiet_onMembership (lastRoster : Bytes) (members : List (Bytes × Bool)) (evicted : Bool) :
    Quiet (onMembership lastRoster members ++ if evicted then onRemoved else []) := by
  refine Quiet.append ?_ ?_
  · unfold onMembership
    split
    · exact quiet_nil
    · exact quiet_single rfl
  · cases evicted with
    | false => exact quiet_nil
    | true => exact (quiet_single rfl).append (quiet_single rfl)

/-! ## The loop is not re-entered -/

/-- The callback that runs has only quiet effects left. -/
structure Loop.Orderly (l : Loop) : Prop where
  inner : Quiet l.inner
  reentered : l.reentered = false

theorem Loop.act_inner (l : Loop) (refusal : Option ProposeError) (env : LoopEnv)
    (rest : List LoopEffect) (e : LoopEffect) :
    (l.act refusal env rest e).inner = l.inner ∧
      (l.act refusal env rest e).reentered = l.reentered := by
  cases e <;> cases refusal <;> exact ⟨rfl, rfl⟩

theorem Loop.Orderly.step {l : Loop} (h : l.Orderly) (ev : LoopEvent) : (l.step ev).Orderly := by
  cases ev with
  | turn effects | ready | advance =>
    rw [Loop.step]
    split
    · exact ⟨h.inner, h.reentered⟩
    · exact h
  | act refusal env =>
    rw [Loop.step]
    split
    · exact h
    · split
      · exact h
      · rename_i e rest _
        obtain ⟨hinner, hreentered⟩ := l.act_inner refusal env rest e
        exact ⟨hinner ▸ h.inner, hreentered.trans h.reentered⟩
  | apply i result env =>
    rw [Loop.step]
    split
    · split
      · exact h
      · rename_i done _
        exact ⟨done.quiet_run env (applied result), h.reentered⟩
    · exact h
  | membership members evicted =>
    rw [Loop.step]
    split
    · exact ⟨quiet_onMembership l.lastRoster members evicted, h.reentered⟩
    · exact h
  | actInner =>
    rw [Loop.step]
    split
    · exact h
    · rename_i e rest heq
      have hquiet : Quiet (e :: rest) := heq ▸ h.inner
      refine ⟨fun e' he' => hquiet e' (List.mem_cons_of_mem e he'), ?_⟩
      rw [h.reentered, hquiet e List.mem_cons_self]
      rfl
  | quiet =>
    rw [Loop.step]
    split
    · exact h
    · exact ⟨h.inner, h.reentered⟩

/-- In every run of a node, nothing is proposed between `Ready` and `Advance`. -/
theorem ready_loop_not_reentered (es : List LoopEvent) : (Loop.run {} es).reentered = false := by
  have horderly : (Loop.run {} es).Orderly :=
    foldl_preserves (I := Loop.Orderly) (fun _ ev h => h.step ev) es ⟨quiet_nil, rfl⟩
  exact horderly.reentered

end Hamster.Cluster
