import Hamster.Cluster.Forward
import Hamster.Coord.Admission
import Hamster.Coord.ReEncodeSafety
import Hamster.Meta.Addresses

/-!
# Cleaning up after a failed commit

A PUT, an uploaded part and a re-encoding write their shards under a fresh data
ID, propose the row that names it, and delete the shards when the proposal comes
back with an error.  `System` is one such operation, the call of its proposal and
the log of the cluster.

The deletes are right as long as the error says that the row will never be there.
`not_names_of_deleted` proves it for the runs in which no answer of a committed
entry is lost.

`Operation` says what the three have in common, and `Lawful` what the argument
needs of them.
-/

namespace Hamster.Coord

open CodeLib Meta
open Cluster (ProposeError Reported Told)

/-! ## Operations -/

/-- An operation that commits shards under one data ID. -/
structure Operation (σ ι : Type) where
  step : σ → ι → σ
  /-- The proposal whose callback it waits for. -/
  proposed : σ → Option Proposal
  answer : σ → Except ProposeError ApplyResult → σ
  /-- It has sent deletes for the shards under its data ID. -/
  deleted : σ → Bool

/-- The operation and the plane that commits its proposal. -/
structure System (σ : Type) where
  op : σ
  plane : Cluster.World

/-- An input of the operation, with what raft says should it propose; or an event
of the plane. -/
inductive SystemEvent (ι : Type) where
  | input (i : ι) (offer : Cluster.Offer)
  | plane (e : Cluster.Event)

namespace System

variable {σ ι : Type} (O : Operation σ ι)

/-- The callback fires once the call has its answer. -/
def settle (w : System σ) : System σ :=
  match w.plane.call with
  | none => w
  | some c =>
    match c.phase with
    | .answered result =>
      if (O.proposed w.op).isSome then { w with op := O.answer w.op result } else w
    | _ => w

def step (w : System σ) : SystemEvent ι → System σ
  | .input i offer =>
    let op := O.step w.op i
    match O.proposed op with
    | none => { w with op := op }
    | some p => settle O { op := op, plane := w.plane.step (.begin p false offer) }
  | .plane (.begin _ _ _) => w
  | .plane e => settle O { w with plane := w.plane.step e }

end System

/-- What the operation does in which order: it waits for one answer, deletes only
after it is over, and after a successful answer not at all. -/
structure Operation.Lawful {σ ι : Type} (O : Operation σ ι) (Inv Over : σ → Prop) : Prop where
  step : ∀ s i, Inv s → Inv (O.step s i) ∧
    ((O.proposed s).isSome → (O.proposed (O.step s i)).isSome) ∧
    (Over s → Over (O.step s i) ∧ O.deleted (O.step s i) = O.deleted s)
  answer : ∀ s r, Inv s → (O.proposed s).isSome → Inv (O.answer s r) ∧ Over (O.answer s r) ∧
    (r.isOk = true → O.deleted (O.answer s r) = false)
  over_of_deleted : ∀ s, Inv s → O.deleted s = true → Over s
  not_proposed : ∀ s, Inv s → Over s → O.proposed s = none

namespace System

section Safety

variable {σ ι : Type} {O : Operation σ ι} {Inv Over : σ → Prop} {I : Store → Prop} {w : System σ}

variable (O Over) in
inductive Stage (w : System σ) : Prop where
  | working (hproposed : O.proposed w.op = none) (hcall : w.plane.call = none)
  | waiting {c : Cluster.Call} (hproposed : (O.proposed w.op).isSome)
      (hcall : w.plane.call = some c) (hphase : ∀ r, c.phase ≠ .answered r)
  | ended (hover : Over w.op) (hcall : ∀ c, w.plane.call = some c →
      ∃ r, c.phase = .answered r ∧ (O.deleted w.op = true → r.isOk = false))

variable (O Inv Over I) in
structure Good (w : System σ) : Prop where
  inv : Inv w.op
  reported : Reported I w.plane
  stage : Stage O Over w

theorem good_settle (hO : O.Lawful Inv Over) (hinv : Inv w.op) (hreported : Reported I w.plane)
    (hproposed : (O.proposed w.op).isSome) {c : Cluster.Call} (hcall : w.plane.call = some c) :
    Good O Inv Over I (w.settle O) := by
  unfold settle
  rw [hcall]
  dsimp only
  cases hphase : c.phase with
  | answered r =>
    dsimp only
    rw [if_pos hproposed]
    obtain ⟨hinv', hover, hkept⟩ := hO.answer _ r hinv hproposed
    refine ⟨hinv', hreported, .ended hover (fun c' hc' => ?_)⟩
    obtain rfl := Option.some.inj (hcall.symm.trans hc')
    refine ⟨r, hphase, fun hdeleted => ?_⟩
    by_contra hok
    rw [hkept (Bool.not_eq_false _ ▸ hok)] at hdeleted
    cases hdeleted
  | own | resolving | exchanging =>
    refine ⟨hinv, hreported, .waiting hproposed hcall (fun r hr => ?_)⟩
    rw [hphase] at hr
    cases hr

variable (hO : O.Lawful Inv Over) (h : Good O Inv Over I w)

include hO h

theorem Good.input (i : ι) (offer : Cluster.Offer) :
    Good O Inv Over I (w.step O (.input i offer)) := by
  obtain ⟨hinv, hwaits, hends⟩ := hO.step _ i h.inv
  have hbegin (p : Proposal) : Reported I (w.plane.step (.begin p false offer)) :=
    h.reported.step (by unfold Told; split <;> trivial) (fun _ heq => by cases heq)
  rw [step]
  cases hproposed : O.proposed (O.step w.op i) with
  | none =>
    refine ⟨hinv, h.reported, ?_⟩
    cases h.stage with
    | working _ hcall => exact .working hproposed hcall
    | waiting hwaiting =>
      have hstill := hwaits hwaiting
      rw [hproposed] at hstill
      cases hstill
    | ended hover hcall =>
      obtain ⟨hover', hdeleted⟩ := hends hover
      exact .ended hover' (by rwa [hdeleted])
  | some p =>
    have hsome : (O.proposed (O.step w.op i)).isSome := by rw [hproposed]; rfl
    have hbegun : ∃ c, (w.plane.step (.begin p false offer)).call = some c := by
      cases hcall : w.plane.call with
      | none => exact ⟨_, by rw [Cluster.World.step, hcall]⟩
      | some c =>
        obtain ⟨c', hc', -⟩ := Cluster.call_step_of_some hcall (e := .begin p false offer)
        exact ⟨c', hc'⟩
    obtain ⟨c, hcall⟩ := hbegun
    exact good_settle hO hinv (hbegin p) hsome hcall

theorem Good.plane {e : Cluster.Event} (htold : Told w.plane e)
    (hother : ∀ p, e = .commitOther p → ∀ s, I s → I (applyMem s p).2) :
    Good O Inv Over I (w.step O (.plane e)) := by
  by_cases hbegin : ∃ p timed offer, e = .begin p timed offer
  · obtain ⟨p, timed, offer, rfl⟩ := hbegin
    exact h
  have hne : ∀ p timed offer, e ≠ .begin p timed offer :=
    fun p timed offer heq => hbegin ⟨p, timed, offer, heq⟩
  have hstep : w.step O (.plane e) = settle O { w with plane := w.plane.step e } := by
    cases e with
    | begin p timed offer => exact absurd rfl (hne p timed offer)
    | _ => rfl
  have hreported := h.reported.step htold hother
  rw [hstep]
  cases h.stage with
  | working hproposed hcall =>
    have hnone := Cluster.call_step_of_none hcall hne
    unfold settle
    rw [hnone]
    exact ⟨h.inv, hreported, .working hproposed hnone⟩
  | waiting hproposed hcall =>
    obtain ⟨c', hc', -⟩ := Cluster.call_step_of_some hcall (e := e)
    exact good_settle hO h.inv hreported hproposed hc'
  | ended hover hcall =>
    have hnone := hO.not_proposed _ h.inv hover
    have hidle : settle O { w with plane := w.plane.step e } =
        { w with plane := w.plane.step e } := by
      unfold settle
      dsimp only
      rw [hnone]
      split
      · rfl
      · split <;> rfl
    rw [hidle]
    refine ⟨h.inv, hreported, .ended hover (fun c hc => ?_)⟩
    cases hbefore : w.plane.call with
    | none =>
      rw [Cluster.call_step_of_none hbefore hne] at hc
      cases hc
    | some c₀ =>
      obtain ⟨r, hphase, hok⟩ := hcall c₀ hbefore
      obtain ⟨c', hc', hkeeps⟩ := Cluster.call_step_of_some hbefore (e := e)
      obtain rfl := Option.some.inj (hc.symm.trans hc')
      exact ⟨r, hkeeps r hphase, hok⟩

theorem Good.of_deleted (hdeleted : O.deleted w.op = true) : I w.plane.store := by
  refine h.reported.of_error (fun c hc => ?_)
  cases h.stage with
  | working _ hcall => cases hcall.symm.trans hc
  | waiting hproposed =>
    rw [hO.not_proposed _ h.inv (hO.over_of_deleted _ h.inv hdeleted)] at hproposed
    cases hproposed
  | ended _ hcall =>
    obtain ⟨r, hphase, hok⟩ := hcall c hc
    exact ⟨r, hphase, hok hdeleted⟩

end Safety

end System

/-! ## A PUT between its events -/

def PutAction.isDelete : PutAction → Bool
  | .delete _ => true
  | _ => false

def Keeping (actions : List PutAction) : Prop := actions.any PutAction.isDelete = false

/-- Where a PUT is after some actions: it runs, it waits for its proposal, or it is
over.  Only then may it have deleted its shards. -/
inductive Turn (r : PutOp × List PutAction) : Prop where
  | running (hlive : r.1.Live) (hkeep : Keeping r.2)
  | waiting (hfinished : r.1.finished = true) (hawaiting : r.1.awaiting = true)
      (hkeep : Keeping r.2)
  | ended (hfinished : r.1.finished = true) (hidle : r.1.awaiting = false)

variable {i : Nat}

section Turns

variable {op op' : PutOp} {actions : List PutAction} {r : PutOp × List PutAction}

theorem keeping_append {l l' : List PutAction} :
    Keeping (l ++ l') ↔ Keeping l ∧ Keeping l' := by
  unfold Keeping
  rw [List.any_append, Bool.or_eq_false_iff]

theorem keeping_of_forall (h : ∀ a ∈ actions, a.isDelete = false) : Keeping actions :=
  List.any_eq_false.mpr (fun a ha => by simp [h a ha])

theorem Turn.cons (h : Turn (op, actions)) {before : List PutAction} (hbefore : Keeping before) :
    Turn (op, before ++ actions) := by
  cases h with
  | running hlive hk => exact .running hlive (keeping_append.mpr ⟨hbefore, hk⟩)
  | waiting hf ha hk => exact .waiting hf ha (keeping_append.mpr ⟨hbefore, hk⟩)
  | ended hf ha => exact .ended hf ha

theorem turn_abort (hlive : op.Live) (e : PutError) : Turn (op.abort e) := by
  rw [PutOp.abort, if_neg (by simp [hlive.1])]
  exact .ended rfl hlive.2

theorem turn_evaluate (hidle : op.awaiting = false) (last : Option Datapath.WriteError) :
    Turn (op.evaluate last) := by
  unfold PutOp.evaluate
  split
  · exact .ended rfl hidle
  · exact .waiting rfl rfl rfl

theorem turn_replenish (hlive : op.Live) : Turn op.replenish := by
  refine .running hlive (keeping_of_forall (fun a ha => ?_))
  rw [List.eq_of_mem_replicate ha]
  rfl

theorem live_feedShards (hlive : op.Live) {sw : Stream.Writer Ec.Writer}
    (h : op.feedShards sw = some op') : op'.Live := by
  obtain ⟨slots, -, heq⟩ := Option.bind_eq_some_iff.mp h
  cases heq
  exact hlive

theorem keeping_commits (op : PutOp) : Keeping op.commits := by
  refine keeping_of_forall (fun a ha => ?_)
  obtain ⟨⟨⟨s, b⟩, i⟩, -, hmem⟩ := List.mem_flatMap.mp ha
  dsimp only at hmem
  split at hmem
  · cases hmem
  · rw [List.mem_singleton.mp hmem]
    rfl

theorem onProposed_of_awaiting (hawaiting : op.awaiting = true)
    (result : Except Bytes VersionID) :
    (op.onProposed result).1.finished = op.finished ∧ (op.onProposed result).1.awaiting = false ∧
      (result.isOk = true → Keeping (op.onProposed result).2) := by
  rw [PutOp.onProposed, if_neg (by simp [hawaiting])]
  cases result with
  | ok assigned => exact ⟨rfl, rfl, fun _ => rfl⟩
  | error text => exact ⟨rfl, rfl, fun h => by cases h⟩

theorem Turn.of_awaiting {trace : List PutAction} (h : Turn (op, trace))
    (hawaiting : op.awaiting = true) : op.finished = true ∧ Keeping trace := by
  cases h with
  | waiting hfinished _ hkeep => exact ⟨hfinished, hkeep⟩
  | running hlive => cases hawaiting.symm.trans hlive.2
  | ended _ hidle => cases hawaiting.symm.trans hidle

variable [Stream.Gcm]

def PacedTurn : PutOp.Paced → Prop
  | .drained op => op.Live
  | .blocked op => op.Live
  | .aborted r => Turn r
  | .endless => True

theorem turn_pace {turns : Nat} {p : PutOp.Paced} (hlive : op.Live)
    (h : op.pace turns = some p) : PacedTurn p := by
  induction turns generalizing op with
  | zero =>
    unfold PutOp.pace at h
    split at h
    · cases h
      exact hlive
    · cases h
      trivial
  | succ turns ih =>
    unfold PutOp.pace at h
    split at h
    · cases h
      exact hlive
    split at h
    · cases h
      exact hlive
    dsimp only at h
    split at h
    · cases h
      exact turn_abort hlive _
    · obtain ⟨op₁, hfeed, hrest⟩ := Option.bind_eq_some_iff.mp h
      obtain ⟨hf, ha⟩ := live_feedShards hlive hfeed
      exact ih (by exact ⟨hf, ha⟩) hrest

theorem turn_close (hlive : op.Live) (h : op.close = some r) : Turn r := by
  unfold PutOp.close at h
  dsimp only at h
  split at h
  · cases h
    exact turn_abort (by exact hlive) _
  · obtain ⟨op₁, hfeed, h⟩ := Option.bind_eq_some_iff.mp h
    have hlive₁ := live_feedShards (by exact hlive) hfeed
    split at h
    · cases h
      exact turn_abort hlive₁ _
    · obtain ⟨op₂, hfeed₂, h⟩ := Option.bind_eq_some_iff.mp h
      have hlive₂ := live_feedShards hlive₁ hfeed₂
      obtain ⟨slots, -, heq⟩ := Option.bind_eq_some_iff.mp h
      cases heq
      exact .running hlive₂ (keeping_commits op₂)

theorem turn_step (hlive : op.Live) (h : op.step = some r) : Turn r := by
  unfold PutOp.step at h
  split at h
  · cases h
    exact .running hlive rfl
  cases hpace : op.pace op.pending.length with
  | none =>
    rw [hpace] at h
    cases h
  | some p =>
    have hturn := turn_pace hlive hpace
    rw [hpace] at h
    cases p with
    | endless => cases h
    | blocked op' =>
      cases h
      exact .running hturn rfl
    | aborted r' =>
      cases h
      exact hturn
    | drained op' =>
      dsimp only at h
      split at h
      · cases h
        exact turn_replenish hturn
      split at h
      · cases h
        exact .running hturn rfl
      · exact turn_close hturn h

theorem turn_settle (hlive : op.Live)
    {last : Option Datapath.WriteError} (h : op.settle last = some r) : Turn r := by
  unfold PutOp.settle at h
  split at h
  · exact turn_step hlive h
  · cases h
    exact turn_evaluate hlive.2 last

theorem turn_streamDone (hlive : op.Live) {result : Except Datapath.WriteError Unit}
    (h : op.streamDone i result = some r) : Turn r := by
  unfold PutOp.streamDone at h
  rw [if_neg (by simp [hlive.1])] at h
  cases result with
  | ok => exact turn_settle (by exact hlive) h
  | error e =>
    dsimp only at h
    split at h
    · cases h
      exact turn_abort (by exact hlive) _
    · exact turn_settle (by exact hlive) h

theorem turn_onStream (hlive : op.Live) {ws : Datapath.WriteStream} {eff : Datapath.Effect}
    (h : op.onStream i ws eff = some r) : Turn r := by
  unfold PutOp.onStream at h
  dsimp only at h
  split at h
  next result hresult =>
    obtain ⟨⟨op₁, actions⟩, hdone, heq⟩ := Option.bind_eq_some_iff.mp h
    cases heq
    have hreport : Keeping [.reported i result] := rfl
    exact (turn_streamDone (by exact hlive) hdone).cons hreport
  next =>
    split at h
    · exact turn_step (by exact hlive) h
    · cases h
      exact .running hlive rfl

variable {input : PutInput}

theorem turn_handle (hlive : op.Live) (h : op.handle input = some r) : Turn r := by
  cases input with
  | feed chunk =>
    rw [PutOp.handle, PutOp.feed, if_neg (by simp [hlive.1])] at h
    exact turn_step (by exact hlive) h
  | feedEOF =>
    rw [PutOp.handle, PutOp.feedEOF, if_neg (by simp [hlive.1])] at h
    exact turn_step (by exact hlive) h
  | abort text =>
    cases h
    exact turn_abort hlive _
  | ack | timer =>
    unfold PutOp.handle at h
    dsimp only at h
    split at h
    · cases h
      exact .running hlive rfl
    · exact turn_onStream hlive h
  | proposed result =>
    cases h
    rw [PutOp.onProposed, if_pos hlive.2]
    exact .running hlive rfl

end Turns

/-! ## A re-encoding between its replies -/

section Stages

variable [Protowire] [ReedSolomon] {j : Job} {lengths : List (Option Nat)} {w : World}

theorem Stage.of_deleted (h : Stage j lengths w) (hdeleted : w.deletedNew ≠ []) :
    w.inFlight = [] := by
  cases h with
  | failed _ _ _ hflight | succeeded _ _ _ _ _ hflight => exact hflight
  | probing hopen | fetching hopen | writing hopen | proposing hopen =>
    exact absurd hopen.kept hdeleted

theorem answer_propose (sliceSize : Nat) (hflight : w.inFlight = [.propose])
    (hkept : w.deletedNew = []) (ok committed : Bool) :
    (w.answer sliceSize (.propose, .proposed ok committed)).inFlight = [] ∧
      (ok = true → (w.answer sliceSize (.propose, .proposed ok committed)).deletedNew = []) := by
  simp only [World.answer, ReEncodeOp.onProposed]
  cases ok with
  | false =>
    rw [if_neg Bool.false_ne_true, ReEncodeOp.cleanupNew, World.act_deleteNew]
    refine ⟨?_, fun h => by cases h⟩
    show w.inFlight.erase .propose = []
    rw [hflight]
    rfl
  | true =>
    rw [if_pos rfl, World.act_deleteOld]
    refine ⟨?_, fun _ => hkept⟩
    show w.inFlight.erase .propose = []
    rw [hflight]
    rfl

end Stages

/-! ## The operations of the coordinator -/

structure ReEncodeTarget where
  atMS : Int64
  bucket : Bytes
  key : Bytes
  versionID : VersionID

def reEncodeProposal (t : ReEncodeTarget) (op : ReEncodeOp) : Proposal :=
  .reEncodeObject
    { proposedAtUnixMS := t.atMS
      bucket := t.bucket
      key := t.key
      versionID := t.versionID
      dataID := op.newDID
      ecDataShards := UInt32.ofNat op.newK
      ecParityShards := UInt32.ofNat op.newM
      shardChecksums := op.newChecksums }

/-- A PUT or a part with what it has done, or a re-encoding. -/
inductive OpState where
  | put (op : Option PutOp) (trace : List PutAction)
  | reEncode (t : ReEncodeTarget) (w : World)

/-- What reaches an operation besides the callback of its proposal. -/
inductive OpInput where
  | put (i : PutInput)
  | verified (i : Nat) (length : Option Nat)
  | fetched (i off length : Nat) (b : Option Bytes)
  | written (i : Nat) (ok : Bool)

def OpInput.reply : OpInput → Option Event
  | .put _ => none
  | .verified i length => some (.verify i, .verified length)
  | .fetched i off length b => some (.fetch i off length, .fetched b)
  | .written i ok => some (.write i, .written ok)

/-- What the callback of a PUT makes of the answer. -/
def putAnswer (text : ProposeError → Bytes) :
    Except ProposeError ApplyResult → Except Bytes VersionID
  | .ok (.put r) => .ok r.versionID
  | .ok _ => .ok VersionID.zero
  | .error e => .error (text e)

theorem isOk_putAnswer (text : ProposeError → Bytes) (r : Except ProposeError ApplyResult) :
    (putAnswer text r).isOk = r.isOk := by
  match r with
  | .error _ => rfl
  | .ok r => cases r <;> rfl

section Machine

variable [Protowire] [ReedSolomon] [Stream.Gcm]

/-- One event of a PUT.  Without an operation it has failed at once, or panicked. -/
def stepPut (op : PutOp) (trace : List PutAction) (i : PutInput) : OpState :=
  match op.handle i with
  | none => .put none trace
  | some (op, actions) => .put (some op) (trace ++ actions)

def OpState.step (sliceSize : Nat) (s : OpState) (i : OpInput) : OpState :=
  match s, i with
  | .put (some _) _, .put (.proposed _) => s
  | .put (some op) trace, .put i => stepPut op trace i
  | .reEncode t w, i =>
    match i.reply with
    | none => s
    | some e => if e.1 ∈ w.inFlight then .reEncode t (w.answer sliceSize e) else s
  | _, _ => s

def OpState.proposed : OpState → Option Proposal
  | .put op _ => op.bind (fun op => if op.awaiting then some op.proposal else none)
  | .reEncode t w => if .propose ∈ w.inFlight then some (reEncodeProposal t w.op) else none

def OpState.answer (sliceSize : Nat) (text : ProposeError → Bytes) (s : OpState)
    (r : Except ProposeError ApplyResult) : OpState :=
  match s with
  | .put none trace => .put none trace
  | .put (some op) trace =>
    let (op, actions) := op.onProposed (putAnswer text r)
    .put (some op) (trace ++ actions)
  | .reEncode t w => .reEncode t (w.answer sliceSize (.propose, .proposed r.isOk r.isOk))

def OpState.deleted : OpState → Bool
  | .put _ trace => trace.any PutAction.isDelete
  | .reEncode _ w => !w.deletedNew.isEmpty

def operation (sliceSize : Nat) (text : ProposeError → Bytes) : Operation OpState OpInput where
  step := OpState.step sliceSize
  proposed := OpState.proposed
  answer := OpState.answer sliceSize text
  deleted := OpState.deleted

/-- An operation that has just begun to write under the data ID. -/
inductive Started (d : VersionID) : OpState → Prop where
  | put {call : PutCall} {setup : Setup} {nextReq : Nat} {op : Option PutOp}
      {actions : List PutAction} (hvid : setup.vid = d)
      (hopen : openPut call setup nextReq = some (op, actions)) : Started d (.put op actions)
  | reEncode (t : ReEncodeTarget) (oldK oldM newK newM : Nat) :
      Started d (.reEncode t (World.start oldK oldM newK newM d))

/-- Nothing is known of the replies to a re-encoding. -/
def OpState.Inv (sliceSize : Nat) : OpState → Prop
  | .put none _ => True
  | .put (some op) trace => Turn (op, trace)
  | .reEncode _ w => ∃ j lengths, ¬ j.truthful ∧ j.sliceSize = sliceSize ∧ Stage j lengths w

def OpState.Over : OpState → Prop
  | .put none _ => True
  | .put (some op) _ => op.finished = true ∧ op.awaiting = false
  | .reEncode _ w => w.inFlight = []

variable {sliceSize : Nat} {text : ProposeError → Bytes}

section Steps

variable {op : PutOp} {trace : List PutAction} {t : ReEncodeTarget} {w : World}

theorem step_put (op : PutOp) (trace : List PutAction) (i : OpInput) :
    OpState.step sliceSize (.put (some op) trace) i = .put (some op) trace ∨
      ∃ i', (∀ result, i' ≠ .proposed result) ∧
        OpState.step sliceSize (.put (some op) trace) i = stepPut op trace i' := by
  cases i with
  | put i =>
    cases i with
    | proposed result => exact .inl rfl
    | feed chunk => exact .inr ⟨.feed chunk, by rintro _ ⟨⟩, rfl⟩
    | feedEOF => exact .inr ⟨.feedEOF, by rintro _ ⟨⟩, rfl⟩
    | abort text => exact .inr ⟨.abort text, by rintro _ ⟨⟩, rfl⟩
    | ack i m => exact .inr ⟨.ack i m, by rintro _ ⟨⟩, rfl⟩
    | timer i => exact .inr ⟨.timer i, by rintro _ ⟨⟩, rfl⟩
  | verified | fetched | written => exact .inl rfl

theorem step_reEncode (t : ReEncodeTarget) (w : World) (i : OpInput) :
    OpState.step sliceSize (.reEncode t w) i = .reEncode t w ∨
      ∃ e, i.reply = some e ∧ e.1 ∈ w.inFlight ∧
        OpState.step sliceSize (.reEncode t w) i = .reEncode t (w.answer sliceSize e) := by
  have hstep : OpState.step sliceSize (.reEncode t w) i =
      match i.reply with
      | none => .reEncode t w
      | some e =>
        if e.1 ∈ w.inFlight then .reEncode t (w.answer sliceSize e) else .reEncode t w := by
    cases i <;> rfl
  rw [hstep]
  cases hreply : i.reply with
  | none => exact .inl rfl
  | some e =>
    dsimp only
    split
    next hin => exact .inr ⟨e, rfl, hin, rfl⟩
    next => exact .inl rfl

omit [Protowire] [ReedSolomon] in
theorem stepPut_of_finished (trace : List PutAction) (hfinished : op.finished = true) {i : PutInput}
    (hi : ∀ result, i ≠ .proposed result) :
    ∃ op' actions, stepPut op trace i = .put (some op') (trace ++ actions) ∧
      op'.finished = true ∧ op'.awaiting = op.awaiting ∧ Keeping actions := by
  obtain ⟨slots, actions, hhandle, hreports⟩ := handle_of_finished hfinished hi
  refine ⟨{ op with slots }, actions, by rw [stepPut, hhandle], hfinished, rfl,
    keeping_of_forall (fun a ha => ?_)⟩
  obtain ⟨i, result, rfl⟩ := hreports a ha
  rfl

theorem inv_stepPut (h : Turn (op, trace)) {i : PutInput} (hi : ∀ result, i ≠ .proposed result) :
    (stepPut op trace i).Inv sliceSize := by
  cases h with
  | running hlive hkeep =>
    unfold stepPut
    split
    next => trivial
    next op' actions hhandle => exact (turn_handle hlive hhandle).cons hkeep
  | waiting hfinished hawaiting hkeep =>
    obtain ⟨op', actions, heq, hf, ha, hkeep'⟩ := stepPut_of_finished trace hfinished hi
    rw [heq]
    exact .waiting hf (ha.trans hawaiting) (keeping_append.mpr ⟨hkeep, hkeep'⟩)
  | ended hfinished hidle =>
    obtain ⟨op', actions, heq, hf, ha, -⟩ := stepPut_of_finished trace hfinished hi
    rw [heq]
    exact .ended hf (ha.trans hidle)

omit [Stream.Gcm] in
theorem Stage.reply {j : Job} {lengths : List (Option Nat)} (h : Stage j lengths w)
    (hfalse : ¬ j.truthful) {i : OpInput} {e : Event} (hreply : i.reply = some e)
    (hin : e.1 ∈ w.inFlight) : ∃ lengths', Stage j lengths' (w.answer j.sliceSize e) := by
  cases i with
  | put => cases hreply
  | verified i length =>
    cases hreply
    exact ⟨_, stage_verified h hin (fun htrue => absurd htrue hfalse)⟩
  | fetched i off length b =>
    cases hreply
    exact ⟨_, stage_fetched h hin (fun htrue => absurd htrue hfalse)⟩
  | written i ok =>
    cases hreply
    exact ⟨_, stage_written h hin⟩

omit [Protowire] [ReedSolomon] [Stream.Gcm] in
theorem reply_ne_propose {i : OpInput} {e : Event} (hreply : i.reply = some e) :
    e.1 ≠ .propose := by
  cases i with
  | put => cases hreply
  | verified | fetched | written =>
    cases hreply
    rintro ⟨⟩

omit [Protowire] [ReedSolomon] [Stream.Gcm] in
theorem awaiting_of_proposed (trace : List PutAction)
    (h : (OpState.put (some op) trace).proposed.isSome) :
    op.awaiting = true := by
  by_contra hidle
  simp [OpState.proposed, hidle] at h

omit [Protowire] [ReedSolomon] [Stream.Gcm] in
theorem inFlight_of_proposed (t : ReEncodeTarget) (h : (OpState.reEncode t w).proposed.isSome) :
    .propose ∈ w.inFlight := by
  by_contra hout
  simp [OpState.proposed, hout] at h

end Steps

theorem lawful_operation :
    (operation sliceSize text).Lawful (OpState.Inv sliceSize) OpState.Over where
  step s i hs := by
    match s with
    | .put none trace =>
      cases i <;> exact ⟨trivial, (by intro h; cases h), fun _ => ⟨trivial, rfl⟩⟩
    | .put (some op) trace =>
      simp only [operation]
      obtain heq | ⟨i', hi', heq⟩ := step_put op trace i
      · rw [heq]
        exact ⟨hs, id, fun hover => ⟨hover, rfl⟩⟩
      rw [heq]
      refine ⟨inv_stepPut hs hi', fun hproposed => ?_, fun hover => ?_⟩
      · have hawaiting := awaiting_of_proposed trace hproposed
        obtain ⟨op', actions, heq', -, ha, -⟩ :=
          stepPut_of_finished trace (Turn.of_awaiting hs hawaiting).1 hi'
        rw [heq']
        simp [OpState.proposed, ha, hawaiting]
      · obtain ⟨op', actions, heq', hf, ha, hkeep⟩ := stepPut_of_finished trace hover.1 hi'
        rw [heq']
        refine ⟨⟨hf, ha.trans hover.2⟩, ?_⟩
        rw [OpState.deleted, List.any_append, show actions.any _ = false from hkeep, Bool.or_false]
        rfl
    | .reEncode t w =>
      simp only [operation]
      obtain heq | ⟨e, hreply, hin, heq⟩ := step_reEncode t w i
      · rw [heq]
        exact ⟨hs, id, fun hover => ⟨hover, rfl⟩⟩
      obtain ⟨j, lengths, hfalse, rfl, hstage⟩ := hs
      obtain ⟨lengths', hstage'⟩ := hstage.reply hfalse hreply hin
      rw [heq]
      refine ⟨⟨j, lengths', hfalse, rfl, hstage'⟩, fun hproposed => ?_, fun hover => ?_⟩
      · obtain ⟨-, -, hflight, -⟩ := hstage.of_propose (inFlight_of_proposed t hproposed)
        rw [hflight, List.mem_singleton] at hin
        exact absurd hin (reply_ne_propose hreply)
      · rw [show w.inFlight = [] from hover] at hin
        cases hin
  answer s r hs hproposed := by
    match s with
    | .put none trace => cases hproposed
    | .put (some op) trace =>
      have hawaiting := awaiting_of_proposed trace hproposed
      obtain ⟨hfinished, hkeep⟩ := Turn.of_awaiting hs hawaiting
      obtain ⟨hf, ha, hkeep'⟩ := onProposed_of_awaiting hawaiting (putAnswer text r)
      exact ⟨.ended (hf.trans hfinished) ha, ⟨hf.trans hfinished, ha⟩, fun hok =>
        keeping_append.mpr ⟨hkeep, hkeep' ((isOk_putAnswer text r).trans hok)⟩⟩
    | .reEncode t w =>
      obtain ⟨j, lengths, hfalse, rfl, hstage⟩ := hs
      have hin := inFlight_of_proposed t hproposed
      obtain ⟨hopen, -, hflight, -⟩ := hstage.of_propose hin
      obtain ⟨hnil, hkept'⟩ := answer_propose j.sliceSize hflight hopen.kept r.isOk r.isOk
      refine ⟨⟨j, lengths, hfalse, rfl, stage_proposed hstage hin⟩, hnil, fun hok => ?_⟩
      show (!(w.answer j.sliceSize (.propose, .proposed r.isOk r.isOk)).deletedNew.isEmpty) = false
      rw [hkept' hok]
      rfl
  over_of_deleted s hs hdeleted := by
    match s with
    | .put none trace => trivial
    | .put (some op) trace =>
      cases hs with
      | running _ hkeep | waiting _ _ hkeep =>
        rw [show (operation sliceSize text).deleted (.put (some op) trace) = false from hkeep]
          at hdeleted
        cases hdeleted
      | ended hfinished hidle => exact ⟨hfinished, hidle⟩
    | .reEncode t w =>
      obtain ⟨j, lengths, -, -, hstage⟩ := hs
      refine hstage.of_deleted (fun hkept => ?_)
      have hdeleted : (!w.deletedNew.isEmpty) = true := hdeleted
      rw [hkept] at hdeleted
      cases hdeleted
  not_proposed s hs hover := by
    match s with
    | .put none trace => rfl
    | .put (some op) trace => simp [operation, OpState.proposed, hover.2]
    | .reEncode t w => simp [operation, OpState.proposed, show w.inFlight = [] from hover]

def Answered (w : System OpState) : SystemEvent OpInput → Prop
  | .input _ _ => True
  | .plane e => Told w.plane e

instance Answered.decidable (w : System OpState) (e : SystemEvent OpInput) :
    Decidable (Answered w e) := by
  unfold Answered
  split <;> infer_instance

omit [Stream.Gcm] in
theorem turn_openPut [Stream.Gcm] {call : PutCall} {setup : Setup} {nextReq : Nat} {op : PutOp}
    {actions : List PutAction} (h : openPut call setup nextReq = some (some op, actions)) :
    Turn (op, actions) ∧ op.awaiting = false := by
  unfold openPut at h
  dsimp only at h
  split at h
  · cases h
  · obtain ⟨slots, -, h⟩ := Option.bind_eq_some_iff.mp h
    split at h
    · cases h
    · obtain ⟨slots', -, heq⟩ := Option.bind_eq_some_iff.mp h
      cases heq
      exact ⟨turn_replenish ⟨rfl, rfl⟩, rfl⟩

theorem started_inv {d : VersionID} {s : OpState} (hs : Started d s) :
    s.Inv sliceSize ∧ s.proposed = none := by
  cases hs with
  | @put _ _ _ op _ _ hopen =>
    cases op with
    | none => exact ⟨trivial, rfl⟩
    | some op =>
      obtain ⟨hturn, hidle⟩ := turn_openPut hopen
      exact ⟨hturn, by simp [OpState.proposed, hidle]⟩
  | reEncode t oldK oldM newK newM =>
    refine ⟨⟨⟨fun _ => none, False, sliceSize, oldK, oldM, newK, newM, d⟩, _, id, rfl,
      stage_start _⟩, if_neg (fun hin => ?_)⟩
    rw [World.start, ReEncodeOp.probe] at hin
    dsimp only at hin
    rw [World.act_send, List.nil_append] at hin
    obtain ⟨i, -, heq⟩ := List.mem_map.mp hin
    cases heq

/-- Where no answer of a committed entry is lost, an operation that has deleted its
shards is named by no row, then and at any later time. -/
theorem not_names_of_deleted {d : VersionID} (hd : d ≠ VersionID.zero) {s : OpState}
    (hs : Started d s) {store : Store} (hstore : ¬ Names store d)
    {es : List (SystemEvent OpInput)}
    (hfresh : ∀ p, .plane (.commitOther p) ∈ es → p.introduced ≠ some d)
    (hes : EachStep (System.step (operation sliceSize text)) Answered ⟨s, .start store⟩ es)
    {es' : List (SystemEvent OpInput)} (hes' : es' <+: es) :
    let w := es'.foldl (System.step (operation sliceSize text)) ⟨s, .start store⟩
    w.op.deleted = true → ¬ Names w.plane.store d := by
  intro w hdeleted
  have hO : (operation sliceSize text).Lawful (OpState.Inv sliceSize) OpState.Over :=
    lawful_operation
  let Fresh (e : SystemEvent OpInput) : Prop :=
    ∀ p, e = .plane (.commitOther p) → p.introduced ≠ some d
  have hboth := hes.and_of_forall (P := Fresh) (fun e he p heq => hfresh p (heq ▸ he))
  have hstep (w : System OpState) (e : SystemEvent OpInput) (he : Fresh e ∧ Answered w e)
      (h : w.Good (operation sliceSize text) (OpState.Inv sliceSize) OpState.Over
        (fun s => ¬ Names s d)) :
      (w.step (operation sliceSize text) e).Good (operation sliceSize text)
        (OpState.Inv sliceSize) OpState.Over (fun s => ¬ Names s d) := by
    cases e with
    | input i offer => exact h.input hO i offer
    | plane e =>
      refine h.plane hO he.2 (fun p heq s hs => not_names_applyMem hd ?_ hs)
      exact he.1 p (congrArg _ heq)
  obtain ⟨hinv, hproposed⟩ := started_inv hs
  have hstart : System.Good (operation sliceSize text) (OpState.Inv sliceSize) OpState.Over
      (fun s => ¬ Names s d) ⟨s, .start store⟩ :=
    ⟨hinv, .pending rfl hstore, .working hproposed rfl⟩
  exact (hboth.invariant hstep hstart hes').of_deleted hO hdeleted

end Machine

/-! ## A commit that comes after the cleanup -/

section Concrete

local instance cleanupWire : Protowire := wireFormat

/-- The library for one data shard. -/
local instance cleanupCode : ReedSolomon :=
  ⟨fun k m => if k = 1 then some (replication m) else none⟩

/-- The objects below have no key, and nothing is sealed. -/
local instance cleanupGcm : Stream.Gcm where
  aeadSeal _ _ p := p ++ List.replicate 16 0
  aeadOpen _ _ b := some (b.take (b.length - 16))

def smallCall : PutCall := { bucket := [97, 97, 97], key := [107], size := 3 }

def smallPut : OpState :=
  match setupPut (plainEnv 2) 3 with
  | .error _ => .put none []
  | .ok setup =>
    match openPut smallCall setup 0 with
    | none => .put none []
    | some (op, actions) => .put op actions

/-- The body comes, both shards become durable, and the follower forwards the
proposal to the leader, which accepts it. -/
def forwardedWrite : List (SystemEvent OpInput) :=
  [ .input (.put (.feed [1, 2, 3])) .accepted
  , .input (.put .feedEOF) .accepted
  , .input (.put (.ack 1 { key := ⟨VersionID.ofByte 1, 1⟩, committed := true, stream := 2 }))
    .accepted
  , .input (.put (.ack 0 { key := ⟨VersionID.ofByte 1, 0⟩, committed := true, stream := 1 }))
      (.refused .notLeader)
  , .plane (.resolve true), .plane (.deliver 0 .accepted) ]

/-- The leader stops with the entry in its log.  The exchange fails, and so does every
further one.  The PUT deletes its shards; then the leader is back and the entry
commits. -/
def lateCommit : List (SystemEvent OpInput) :=
  let failing := List.replicate Cluster.controlRetries (.plane .fail)
  .plane (.commitOther (.createBucket ⟨1, [97, 97, 97], false⟩)) :: forwardedWrite ++ failing ++
    (List.replicate (Cluster.forwardAttempts - 1) (.plane (.resolve true) :: failing)).flatten ++
    [.plane (.commit 0)]

/-- The PUT after some events, in a cluster that was empty. -/
def afterEvents (es : List (SystemEvent OpInput)) : System OpState :=
  es.foldl (System.step (operation Ec.defaultSliceSize (fun _ => [])))
    ⟨smallPut, .start newStore⟩

theorem started_smallPut : Started (VersionID.ofByte 1) smallPut := by
  have hvid : (setupPut (plainEnv 2) 3).toOption.map Setup.vid = some (VersionID.ofByte 1) := by
    decide +kernel
  have hopens : ((setupPut (plainEnv 2) 3).toOption.bind
      (fun setup => openPut smallCall setup 0)).isSome = true := by decide +kernel
  unfold smallPut
  cases hsetup : setupPut (plainEnv 2) 3 with
  | error e =>
    rw [hsetup] at hvid
    cases hvid
  | ok setup =>
    rw [hsetup] at hvid hopens
    dsimp only
    cases hopen : openPut smallCall setup 0 with
    | none =>
      rw [show Except.toOption (.ok setup) = some setup from rfl, Option.bind_some, hopen] at hopens
      cases hopens
    | some r => exact .put (Option.some.inj hvid) hopen

/-- The committed object names shards that were deleted. -/
theorem names_after_lateCommit :
    Started (VersionID.ofByte 1) smallPut ∧ ¬ Names newStore (VersionID.ofByte 1) ∧
      (afterEvents lateCommit).op.deleted = true ∧
      (afterEvents lateCommit).plane.call.map Cluster.Call.phase =
        some (.answered (.error .noLeaderAccepted)) ∧
      Names (afterEvents lateCommit).plane.store (VersionID.ofByte 1) :=
  ⟨started_smallPut, by decide, by decide +kernel, by decide +kernel, by decide +kernel⟩

/-- Without the bucket the committed entry is refused, and the shards go. -/
def refusedCommit : List (SystemEvent OpInput) :=
  forwardedWrite ++ [.plane (.commit 0), .plane .receive]

theorem not_names_refusedCommit :
    (afterEvents refusedCommit).op.deleted = true ∧
      ¬ Names (afterEvents refusedCommit).plane.store (VersionID.ofByte 1) := by
  have hdeleted : (afterEvents refusedCommit).op.deleted = true := by decide +kernel
  have hfresh (p : Proposal) (hp : .plane (.commitOther p) ∈ refusedCommit) :
      p.introduced ≠ some (VersionID.ofByte 1) := by
    simp [refusedCommit, forwardedWrite] at hp
  have hes : EachStep (System.step (operation Ec.defaultSliceSize (fun _ => []))) Answered
      ⟨smallPut, .start newStore⟩ refusedCommit := by decide +kernel
  have h := not_names_of_deleted (by decide) started_smallPut (by decide) hfresh hes
    (List.prefix_refl _)
  unfold afterEvents at hdeleted ⊢
  exact ⟨hdeleted, h hdeleted⟩

end Concrete

end Hamster.Coord
