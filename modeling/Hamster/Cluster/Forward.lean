import Hamster.CodeLib.Run
import Hamster.Meta.Keyspace
import Hamster.Meta.Rollback

/-!
# Forwarding proposals to the leader

`internal/cluster/forward.go`, with `controlRoundTrip` of `lifecycle.go` and
`propose` of `serve.go`: a call offers its proposal to the raft of its own node,
and sends it to the leader when that node does not lead.  The answer of a commit
crosses the hop as a code and a small union of results.

`Call` is one call with its exchanges.  `World` puts it next to the committed log
of the cluster; its events are what the network, the other nodes and raft may do
at any time.  An entry that a leader's raft has accepted may commit at any later
time, or never.

A response can be lost after its entry was accepted, and the call sends the
proposal again.  `Told` rules that out: an entry commits only while the call waits
for its answer.  `length_own_le_one` is what follows.
-/

namespace Hamster.Cluster

open CodeLib Meta

/-! ## Errors and results on the wire -/

/-- What `done` is called with instead of a result. -/
inductive ProposeError where
  /-- `raftnode.ErrNotLeader` -/
  | notLeader
  /-- `rn.Propose` refused; nothing was appended. -/
  | dropped
  /-- `gateway.ErrUnavailable`, wrapped -/
  | timedOut
  | noLeaderAccepted
  | malformedResponse
  /-- `Apply` refused the committed entry. -/
  | refused (e : MetaError)
  | noCertificate
  | malformedProposal
  /-- A new error with the text of another. -/
  | text (e : ProposeError)
  /-- A new error without a text. -/
  | empty
deriving DecidableEq

def fwdErrNone : UInt64 := 0
def fwdErrNotLeader : UInt64 := 1
def fwdErrOther : UInt64 := 2

/-- The apply errors with a code of their own. -/
def forwardErrors : List (UInt64 × MetaError) :=
  [(10, .invalidBucketName), (11, .bucketExists), (12, .noSuchBucket), (13, .bucketNotEmpty),
    (14, .invalidObjectKey), (15, .noSuchVersion), (16, .objectLocked),
    (17, .invalidVersioningState), (18, .invalidRetention), (19, .noSuchUpload),
    (20, .uploadExists), (21, .invalidPartNumber), (22, .invalidPart), (23, .invalidPartOrder),
    (24, .partTooSmall), (25, .persist)]

/-- The code of an error, and the error whose text goes along. -/
def forwardErrCode : ProposeError → UInt64 × Option ProposeError
  | .notLeader => (fwdErrNotLeader, none)
  | .refused e =>
    match forwardErrors.find? (fun row => row.2 = e) with
    | some row => (row.1, none)
    | none => (fwdErrOther, some (.refused e))
  | e => (fwdErrOther, some e)

def newError (msg : Option ProposeError) : ProposeError :=
  match msg with
  | some e => .text e
  | none => .empty

def forwardErr (code : UInt64) (msg : Option ProposeError) : Option ProposeError :=
  if code = fwdErrNone then none
  else if code = fwdErrNotLeader then some .notLeader
  else if code = fwdErrOther then some (newError msg)
  else
    match forwardErrors.find? (fun row => row.1 = code) with
    | some row => some (.refused row.2)
    | none => some (newError msg)

structure ForwardResponse where
  errCode : UInt64 := fwdErrNone
  errMsg : Option ProposeError := none
  resultID : VersionID := VersionID.zero
  freedIDs : List VersionID := []
  removed : Bool := false
  markerCreated : Bool := false
deriving DecidableEq

def forwardResultOf : ApplyResult → ForwardResponse
  | .put r => { resultID := r.versionID, freedIDs := r.replacedDataIDs }
  | .deleteObject r =>
    { removed := r.removed, markerCreated := r.markerCreated, resultID := r.markerID,
      freedIDs := r.removedDataIDs }
  | .deleteVersion r => { removed := r.removed }
  | .uploadPart r =>
    { freedIDs := if r.replacedDataID = VersionID.zero then [] else [r.replacedDataID] }
  | .complete r => { resultID := r.versionID, freedIDs := r.discardedDataIDs }
  | .abort r => { freedIDs := r.partDataIDs }
  | .nil => {}

/-- The result that the caller of a proposal expects. -/
def forwardResultFor (p : Proposal) (fr : ForwardResponse) : ApplyResult :=
  match p with
  | .putObject _ => .put ⟨fr.resultID, fr.freedIDs⟩
  | .deleteObject _ => .deleteObject ⟨fr.removed, fr.markerCreated, fr.resultID, fr.freedIDs⟩
  | .deleteVersion _ => .deleteVersion ⟨fr.removed⟩
  | .uploadPart _ => .uploadPart ⟨fr.freedIDs.head?.getD VersionID.zero⟩
  | .completeMultipartUpload _ => .complete ⟨fr.resultID, fr.freedIDs⟩
  | .abortMultipartUpload _ => .abort ⟨fr.freedIDs⟩
  | _ => .nil

def forwardResponseFor : Except ProposeError ApplyResult → ForwardResponse
  | .ok r => forwardResultOf r
  | .error e => { errCode := (forwardErrCode e).1, errMsg := (forwardErrCode e).2 }

def applied (result : Except MetaError ApplyResult) : Except ProposeError ApplyResult :=
  result.mapError .refused

/-! ## One call -/

def forwardAttempts : Nat := 5
def controlRetries : Nat := 4

/-- What came of offering a proposal to the raft of a node. -/
inductive Offer where
  | accepted
  | refused (e : ProposeError)
deriving DecidableEq

/-- One request that was sent, as the node that got it sees it. -/
structure Exchange where
  /-- The entry that the raft of that node has accepted. -/
  entry : Option Nat := none
  reply : Option ForwardResponse := none
deriving DecidableEq

inductive Phase where
  /-- The callback of the raft of its own node. -/
  | own (entry : Nat)
  /-- The address of a leader. -/
  | resolving (attempt : Nat)
  /-- The response of an exchange. -/
  | exchanging (attempt redial exchange : Nat)
  | answered (result : Except ProposeError ApplyResult)
deriving DecidableEq

structure Call where
  proposal : Proposal
  /-- `propose` stops waiting for its own raft; `forwardingProposer.Propose` does
  not. -/
  timed : Bool
  phase : Phase
  exchanges : List Exchange := []
  /-- How many entries were accepted for the call. -/
  accepted : Nat := 0
deriving DecidableEq

def nextAttempt (attempt : Nat) : Phase :=
  if attempt + 1 < forwardAttempts then .resolving (attempt + 1)
  else .answered (.error .noLeaderAccepted)

namespace Call

/-- The call offers its proposal to its own raft. -/
def start (p : Proposal) (timed : Bool) : Offer → Call
  | .accepted => { proposal := p, timed, phase := .own 0, accepted := 1 }
  | .refused .notLeader => { proposal := p, timed, phase := .resolving 0 }
  | .refused e => { proposal := p, timed, phase := .answered (.error e) }

def exchange (c : Call) (attempt redial : Nat) : Call :=
  { c with
    exchanges := c.exchanges ++ [{}]
    phase := .exchanging attempt redial c.exchanges.length }

def resolve (c : Call) (known : Bool) : Call :=
  match c.phase with
  | .resolving attempt =>
    if known then c.exchange attempt 0 else { c with phase := nextAttempt attempt }
  | _ => c

/-- The exchange fails for the caller: dialing, sending or reading.
`controlRoundTrip` dials again, and `forward` makes the next attempt. -/
def fail (c : Call) : Call :=
  match c.phase with
  | .exchanging attempt redial _ =>
    if redial + 1 < controlRetries then c.exchange attempt (redial + 1)
    else { c with phase := nextAttempt attempt }
  | _ => c

def deliver (c : Call) (x : Nat) (offer : Offer) : Call :=
  match c.exchanges[x]? with
  | some ⟨none, none⟩ =>
    match offer with
    | .accepted =>
      { c with
        exchanges := c.exchanges.set x ⟨some c.accepted, none⟩
        accepted := c.accepted + 1 }
    | .refused e =>
      { c with exchanges := c.exchanges.set x ⟨none, some (forwardResponseFor (.error e))⟩ }
  | _ => c

/-- The node that handles request `x` stops waiting for the commit. -/
def timeOut (c : Call) (x : Nat) : Call :=
  match c.exchanges[x]? with
  | some ⟨some i, none⟩ =>
    { c with
      exchanges := c.exchanges.set x ⟨some i, some (forwardResponseFor (.error .timedOut))⟩ }
  | _ => c

def ownTimeOut (c : Call) : Call :=
  match c.phase with
  | .own _ => if c.timed then { c with phase := .answered (.error .timedOut) } else c
  | _ => c

def settle (c : Call) (i : Nat) (result : Except MetaError ApplyResult) : Call :=
  { c with
    phase := if c.phase = .own i then .answered (applied result) else c.phase
    exchanges := c.exchanges.map (fun x =>
      if x.entry = some i ∧ x.reply = none then
        { x with reply := some (forwardResponseFor (applied result)) }
      else x) }

def afterReply (c : Call) (attempt : Nat) (fr : ForwardResponse) : Phase :=
  match forwardErr fr.errCode fr.errMsg with
  | some .notLeader => nextAttempt attempt
  | some e => .answered (.error e)
  | none => .answered (.ok (forwardResultFor c.proposal fr))

def receive (c : Call) : Call :=
  match c.phase with
  | .exchanging attempt _ x =>
    match c.exchanges[x]?.bind Exchange.reply with
    | some fr => { c with phase := c.afterReply attempt fr }
    | none => c
  | _ => c

/-- The call waits for the answer of entry `i`, and that is not there yet. -/
def Awaits (c : Call) (i : Nat) : Prop :=
  match c.phase with
  | .own j => j = i
  | .exchanging _ _ x => c.exchanges[x]? = some ⟨some i, none⟩
  | _ => False

instance (c : Call) (i : Nat) : Decidable (c.Awaits i) := by
  unfold Awaits
  split <;> infer_instance

end Call

/-! ## The call and the log -/

/-- A committed entry: the call's, by number, or another. -/
inductive LogEntry where
  | own (i : Nat)
  | other (p : Proposal)
deriving DecidableEq

structure World where
  store : Store
  log : List LogEntry := []
  call : Option Call := none

inductive Event where
  | begin (p : Proposal) (timed : Bool) (offer : Offer)
  | resolve (known : Bool)
  | fail
  | deliver (x : Nat) (offer : Offer)
  | timeOut (x : Nat)
  | ownTimeOut
  | receive
  | commit (i : Nat)
  | commitOther (p : Proposal)

namespace World

def start (s : Store) : World := { store := s }

/-- Raft commits entry `i` of the call: every replica applies it, and the node
that accepted it calls back. -/
def commit (w : World) (c : Call) (i : Nat) : World :=
  if i < c.accepted ∧ .own i ∉ w.log then
    { store := (applyMem w.store c.proposal).2
      log := w.log ++ [.own i]
      call := some (c.settle i (applyMem w.store c.proposal).1) }
  else w

def step (w : World) : Event → World
  | .begin p timed offer =>
    match w.call with
    | none => { w with call := some (Call.start p timed offer) }
    | some _ => w
  | .resolve known => { w with call := w.call.map (·.resolve known) }
  | .fail => { w with call := w.call.map Call.fail }
  | .deliver x offer => { w with call := w.call.map (·.deliver x offer) }
  | .timeOut x => { w with call := w.call.map (·.timeOut x) }
  | .ownTimeOut => { w with call := w.call.map Call.ownTimeOut }
  | .receive => { w with call := w.call.map Call.receive }
  | .commit i =>
    match w.call with
    | none => w
    | some c => w.commit c i
  | .commitOther p => { w with store := (applyMem w.store p).2, log := w.log ++ [.other p] }

def own (w : World) : List Nat :=
  w.log.filterMap (fun e => match e with | .own i => some i | .other _ => none)

end World

/-! ## Answers that are not lost -/

/-- The exchange that a call waits for has no committed entry. -/
def Call.NothingCommitted (c : Call) (committed : List Nat) : Prop :=
  match c.phase with
  | .exchanging _ _ x => ∀ ex ∈ c.exchanges[x]?, ∀ i ∈ ex.entry, i ∉ committed
  | _ => True

instance (c : Call) (committed : List Nat) : Decidable (c.NothingCommitted committed) := by
  unfold Call.NothingCommitted
  split <;> infer_instance

/-- No answer is lost: an entry commits only while the call waits for it, and no
exchange fails whose entry has committed. -/
def Told (w : World) (e : Event) : Prop :=
  match w.call, e with
  | some c, .commit i => i < c.accepted ∧ .own i ∉ w.log → c.Awaits i
  | some c, .fail => c.NothingCommitted w.own
  | _, _ => True

instance (w : World) (e : Event) : Decidable (Told w e) := by
  unfold Told
  split <;> infer_instance

/-- Entry `i` has committed, and the call has its answer or the reply of the
exchange it waits for is on its way.  `ok` is what the answer says. -/
def Call.Settled (c : Call) (i : Nat) (ok : Bool) : Prop :=
  match c.phase with
  | .answered res => res.isOk = ok
  | .exchanging _ _ x => ∃ result : Except MetaError ApplyResult, result.isOk = ok ∧
      c.exchanges[x]? = some ⟨some i, some (forwardResponseFor (applied result))⟩
  | _ => False

section Calls

variable {c : Call} {i : Nat} {ok : Bool}

theorem errCode_forwardResultOf (r : ApplyResult) : (forwardResultOf r).errCode = fwdErrNone := by
  cases r <;> rfl

theorem isOk_applied (result : Except MetaError ApplyResult) :
    (applied result).isOk = result.isOk := by
  cases result <;> rfl

theorem forwardErr_refused (e : MetaError) : ∃ e', e' ≠ .notLeader ∧
    forwardErr (forwardErrCode (.refused e)).1 (forwardErrCode (.refused e)).2 = some e' := by
  cases e with
  | staleLayout | invalidLayout | invalidNode | invalidReEncode | invalidEncryption
  | encryptionDowngrade | kekMismatch | notEncrypting | invalidRewrap | staleTrustBundle
  | invalidTrustBundle | unknownProposal | panicked => exact ⟨.text _, by decide, rfl⟩
  | _ => exact ⟨.refused _, by decide, rfl⟩

theorem Call.afterReply_applied (c : Call) (attempt : Nat) (result : Except MetaError ApplyResult) :
    ∃ res, c.afterReply attempt (forwardResponseFor (applied result)) = .answered res ∧
      res.isOk = result.isOk := by
  cases result with
  | ok r =>
    refine ⟨.ok (forwardResultFor c.proposal (forwardResultOf r)), ?_, rfl⟩
    show (match forwardErr (forwardResultOf r).errCode (forwardResultOf r).errMsg with
      | some .notLeader => _ | some e => _ | none => _) = _
    rw [errCode_forwardResultOf, forwardErr, if_pos rfl]
    rfl
  | error e =>
    obtain ⟨e', hne, herr⟩ := forwardErr_refused e
    refine ⟨.error e', ?_, rfl⟩
    show (match forwardErr (forwardErrCode (.refused e)).1 (forwardErrCode (.refused e)).2 with
      | some .notLeader => _ | some e => _ | none => _) = _
    rw [herr]
    cases e' with
    | notLeader => exact absurd rfl hne
    | _ => rfl

namespace Call

theorem deliver_phase (c : Call) (x : Nat) (offer : Offer) :
    (c.deliver x offer).phase = c.phase := by
  unfold deliver
  split
  · cases offer <;> rfl
  · rfl

theorem timeOut_phase (c : Call) (x : Nat) : (c.timeOut x).phase = c.phase := by
  rw [timeOut]
  split <;> rfl

section

variable (h : c.Settled i ok)

include h

theorem Settled.not_awaits (j : Nat) : ¬ c.Awaits j := by
  unfold Settled at h
  unfold Awaits
  cases hphase : c.phase with
  | own | resolving =>
    rw [hphase] at h
    exact h.elim
  | answered res => exact id
  | exchanging a r x =>
    rw [hphase] at h
    obtain ⟨_, _, hx⟩ := h
    dsimp only
    rw [hx]
    rintro ⟨⟩

theorem Settled.congr {c' : Call} (hphase : c'.phase = c.phase)
    (hex : ∀ (x i : Nat) (fr : ForwardResponse), c.exchanges[x]? = some ⟨some i, some fr⟩ →
      c'.exchanges[x]? = some ⟨some i, some fr⟩) : c'.Settled i ok := by
  unfold Settled at h ⊢
  rw [hphase]
  split at h
  next => exact h
  next =>
    obtain ⟨result, hok, hx⟩ := h
    exact ⟨result, hok, hex _ _ _ hx⟩
  next => exact h

theorem Settled.resolve (known : Bool) : (c.resolve known).Settled i ok := by
  unfold Call.resolve
  split
  next hphase =>
    rw [Settled, hphase] at h
    exact h.elim
  next => exact h

theorem Settled.fail {committed : List Nat} (hi : i ∈ committed)
    (hnothing : c.NothingCommitted committed) : c.fail.Settled i ok := by
  unfold Call.fail
  split
  next hphase =>
    rw [Settled, hphase] at h
    obtain ⟨_, _, hx⟩ := h
    rw [NothingCommitted, hphase] at hnothing
    exact absurd hi (hnothing _ hx i rfl)
  next => exact h

theorem Settled.deliver (x : Nat) (offer : Offer) : (c.deliver x offer).Settled i ok := by
  unfold Call.deliver
  split
  next hx =>
    have hset (ex : Exchange) (y : Nat) (j : Nat) (fr : ForwardResponse)
        (hy : c.exchanges[y]? = some ⟨some j, some fr⟩) :
        (c.exchanges.set x ex)[y]? = some ⟨some j, some fr⟩ := by
      rw [List.getElem?_set_ne, hy]
      rintro rfl
      rw [hx] at hy
      cases hy
    split
    · exact h.congr rfl (hset _)
    · exact h.congr rfl (hset _)
  next => exact h

theorem Settled.timeOut (x : Nat) : (c.timeOut x).Settled i ok := by
  unfold Call.timeOut
  split
  next hx =>
    refine h.congr rfl (fun y j fr hy => ?_)
    rw [List.getElem?_set_ne, hy]
    rintro rfl
    rw [hx] at hy
    cases hy
  next => exact h

theorem Settled.ownTimeOut : c.ownTimeOut.Settled i ok := by
  unfold Call.ownTimeOut
  split
  next hphase =>
    rw [Settled, hphase] at h
    exact h.elim
  next => exact h

theorem Settled.receive : c.receive.Settled i ok := by
  unfold Call.receive
  split
  next attempt redial x hphase =>
    rw [Settled, hphase] at h
    obtain ⟨result, hok, hx⟩ := h
    obtain ⟨res, hafter, hres⟩ := c.afterReply_applied attempt result
    rw [hx]
    show Settled { c with phase := c.afterReply attempt _ } i ok
    rw [hafter]
    exact hres.trans hok
  next => exact h

end

theorem settled_settle (h : c.Awaits i) (result : Except MetaError ApplyResult) :
    (c.settle i result).Settled i result.isOk := by
  unfold Awaits at h
  unfold Settled settle
  cases hphase : c.phase with
  | own j =>
    rw [hphase] at h
    rw [show j = i from h, if_pos rfl]
    exact isOk_applied result
  | exchanging a r x =>
    rw [hphase] at h
    rw [if_neg (by rintro ⟨⟩)]
    refine ⟨result, rfl, ?_⟩
    rw [List.getElem?_map, show c.exchanges[x]? = _ from h]
    show some (if some i = some i ∧ (none : Option ForwardResponse) = none then _ else _) = _
    rw [if_pos ⟨rfl, rfl⟩]
  | resolving | answered =>
    rw [hphase] at h
    exact h.elim

end Call

end Calls

/-! ## One entry at most -/

/-- Where the call stands next to the log.  `I` is a property of stores in which
the call has had no effect. -/
inductive Reported (I : Store → Prop) (w : World) : Prop where
  | pending (hown : w.own = []) (hstore : I w.store)
  | settled {c : Call} {i : Nat} {ok : Bool} (hown : w.own = [i]) (hcall : w.call = some c)
      (hsettled : c.Settled i ok) (hstore : ok = false → I w.store)

section Runs

variable {I : Store → Prop} {w : World} {e : Event}

theorem own_commit (w : World) (i : Nat) (store : Store) (call : Option Call) :
    (World.mk store (w.log ++ [.own i]) call).own = w.own ++ [i] := by
  simp [World.own]

theorem own_commitOther (w : World) (p : Proposal) (store : Store) (call : Option Call) :
    (World.mk store (w.log ++ [.other p]) call).own = w.own := by
  simp [World.own]

theorem Reported.onCall (h : Reported I w) {f : Call → Call}
    (hf : ∀ c i ok, w.call = some c → w.own = [i] → c.Settled i ok → (f c).Settled i ok) :
    Reported I { w with call := w.call.map f } := by
  cases h with
  | pending hown hstore => exact .pending hown hstore
  | settled hown hcall hsettled hstore =>
    exact .settled hown (congrArg (Option.map f) hcall) (hf _ _ _ hcall hown hsettled) hstore

theorem Reported.commit (h : Reported I w) {c : Call} {i : Nat} (hcall : w.call = some c)
    (htold : i < c.accepted ∧ .own i ∉ w.log → c.Awaits i) : Reported I (w.commit c i) := by
  unfold World.commit
  split
  next henabled =>
    have hawaits := htold henabled
    cases h with
    | pending hown hstore =>
      refine .settled (i := i) ?_ rfl (Call.settled_settle hawaits _) (fun hok => ?_)
      · rw [own_commit, hown, List.nil_append]
      · cases hresult : (applyMem w.store c.proposal).1 with
        | ok r => rw [hresult] at hok; cases hok
        | error e =>
          show I (apply none w.store c.proposal).store
          rwa [apply_error_store hresult]
    | settled hown hcall' hsettled hstore =>
      obtain rfl := Option.some.inj (hcall.symm.trans hcall')
      exact absurd hawaits (hsettled.not_awaits i)
  next => exact h

theorem call_step_of_none (hcall : w.call = none)
    (hbegin : ∀ p timed offer, e ≠ .begin p timed offer) :
    (w.step e).call = none := by
  cases e with
  | begin p timed offer => exact absurd rfl (hbegin p timed offer)
  | commitOther p => exact hcall
  | commit i =>
    rw [World.step, hcall]
    exact hcall
  | _ => exact congrArg (Option.map _) hcall

theorem call_step_of_some {c : Call} (hcall : w.call = some c) : ∃ c', (w.step e).call = some c' ∧
    ∀ r, c.phase = .answered r → c'.phase = .answered r := by
  cases e with
  | begin p timed offer =>
    rw [World.step, hcall]
    exact ⟨c, hcall, fun _ h => h⟩
  | resolve known | fail | ownTimeOut | receive =>
    refine ⟨_, congrArg (Option.map _) hcall, fun r h => ?_⟩
    simp only [Call.resolve, Call.fail, Call.ownTimeOut, Call.receive, h]
  | deliver x offer =>
    exact ⟨_, congrArg (Option.map _) hcall, fun r h => (c.deliver_phase x offer).trans h⟩
  | timeOut x => exact ⟨_, congrArg (Option.map _) hcall, fun r h => (c.timeOut_phase x).trans h⟩
  | commit i =>
    rw [World.step, hcall]
    unfold World.commit
    dsimp only
    split
    · refine ⟨_, rfl, fun r h => ?_⟩
      rw [Call.settle, h]
      rfl
    · exact ⟨c, hcall, fun _ h => h⟩
  | commitOther p => exact ⟨c, hcall, fun _ h => h⟩

theorem Reported.step (h : Reported I w) (htold : Told w e)
    (hother : ∀ p, e = .commitOther p → ∀ s, I s → I (applyMem s p).2) : Reported I (w.step e) := by
  cases e with
  | begin p timed offer =>
    rw [World.step]
    cases hcall : w.call with
    | some c => exact h
    | none =>
      cases h with
      | pending hown hstore => exact .pending hown hstore
      | settled _ hcall' => cases hcall.symm.trans hcall'
  | resolve known => exact h.onCall (fun _ _ _ _ _ hs => hs.resolve known)
  | fail =>
    refine h.onCall (fun c i ok hcall hown hs => ?_)
    have hi : i ∈ w.own := by simp [hown]
    unfold Told at htold
    rw [hcall] at htold
    exact hs.fail hi htold
  | deliver x offer => exact h.onCall (fun _ _ _ _ _ hs => hs.deliver x offer)
  | timeOut x => exact h.onCall (fun _ _ _ _ _ hs => hs.timeOut x)
  | ownTimeOut => exact h.onCall (fun _ _ _ _ _ hs => hs.ownTimeOut)
  | receive => exact h.onCall (fun _ _ _ _ _ hs => hs.receive)
  | commit i =>
    rw [World.step]
    cases hcall : w.call with
    | none => exact h
    | some c =>
      unfold Told at htold
      rw [hcall] at htold
      exact h.commit hcall htold
  | commitOther p =>
    have hkeep := hother p rfl w.store
    cases h with
    | pending hown hstore => exact .pending ((own_commitOther w p _ _).trans hown) (hkeep hstore)
    | settled hown hcall hsettled hstore =>
      exact .settled ((own_commitOther w p _ _).trans hown) hcall hsettled
        (fun hok => hkeep (hstore hok))

theorem Reported.of_error (h : Reported I w)
    (hcall : ∀ c, w.call = some c → ∃ r, c.phase = .answered r ∧ r.isOk = false) : I w.store := by
  cases h with
  | pending _ hstore => exact hstore
  | settled _ hc hsettled hstore =>
    obtain ⟨r, hphase, hok⟩ := hcall _ hc
    rw [Call.Settled, hphase] at hsettled
    exact hstore (hsettled.symm.trans hok)

/-- Where no answer is lost, the log never holds two entries of one call. -/
theorem length_own_le_one (s : Store) {es : List Event}
    (hes : EachStep World.step Told (.start s) es)
    {es' : List Event} (hes' : es' <+: es) :
    (es'.foldl World.step (.start s)).own.length ≤ 1 := by
  have hstep (w : World) (e : Event) (htold : Told w e) (h : Reported (fun _ => True) w) :
      Reported (fun _ => True) (w.step e) := h.step htold (fun _ _ _ _ => trivial)
  have hstart : Reported (fun _ => True) (.start s) := .pending rfl trivial
  cases hes.invariant hstep hstart hes' with
  | pending hown | settled hown => simp [hown]

end Runs

/-- A bucket with versioning, and a PUT that a follower forwards to the leader. -/
def forwardedPut : List Event :=
  [ .commitOther (.createBucket ⟨1, [97, 97, 97], false⟩)
  , .commitOther (.setBucketVersioning ⟨2, [97, 97, 97], versioningEnabled⟩)
  , .begin (.putObject { proposedAtUnixMS := 9, bucket := [97, 97, 97], key := [107], size := 1
                         versionID := VersionID.newVersionID 9 0 0 }) false (.refused .notLeader)
  , .resolve true ]

/-- A node that has just lost its lead refuses the first request; the second
attempt commits. -/
def secondAttempt : List Event :=
  forwardedPut ++ [.deliver 0 (.refused .notLeader), .receive, .resolve true,
    .deliver 1 .accepted, .commit 0, .receive]

theorem length_own_secondAttempt :
    (secondAttempt.foldl World.step (.start newStore)).own = [0] ∧
      (secondAttempt.foldl World.step (.start newStore)).own.length ≤ 1 :=
  ⟨by decide +kernel, length_own_le_one newStore (by decide +kernel) (List.prefix_refl _)⟩

/-- The leader commits the PUT and the connection breaks before the response.
`controlRoundTrip` dials again, and the PUT commits a second time. -/
def lostResponse : List Event :=
  forwardedPut ++ [.deliver 0 .accepted, .commit 0, .fail, .deliver 1 .accepted, .commit 1,
    .receive]

/-- One call, two versions of the object. -/
theorem two_entries_of_lostResponse :
    let w := lostResponse.foldl World.step (.start newStore)
    w.own = [0, 1] ∧
      (versionList w.store [97, 97, 97] [107]).map (·.versionID) =
        [(VersionID.newVersionID 9 0 0).next, VersionID.newVersionID 9 0 0] ∧
      w.call.map (·.phase) =
        some (.answered (.ok (.put ⟨(VersionID.newVersionID 9 0 0).next, []⟩))) := by
  decide +kernel

end Hamster.Cluster
