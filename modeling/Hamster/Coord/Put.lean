import Hamster.CodeLib.Hash
import Hamster.Coord.DataPath
import Hamster.Coord.Placement
import Hamster.Datapath.WriteStream
import Hamster.Keys.Kek
import Hamster.Meta.Proposals

/-!
# Writing an object

`internal/coord/put.go`, `internal/coord/part.go` and `internal/coord/limiter.go`:
a PUT opens one write stream for each shard, paces the body through the frame
writer and the encoder into the streams, commits the streams, and proposes the
object once enough shards are durable.  A part is written in the same way; only
the proposal differs.

An operation on a PUT gives what it does next to its new state.  `none` is a
panic of the source.  `Coordinator` is a node with its PUTs; its step takes one
event of one of them.
-/

namespace Hamster.Coord

open CodeLib Meta Place Datapath

/-! ## Pacing -/

/-- The window that every live stream needs before the next piece of the body. -/
def stepNeed : Nat := 2 * Ec.defaultSliceSize + 8 * 1024

/-- The window that every live stream needs before the close. -/
def closeNeed : Nat := 3 * Ec.defaultSliceSize + 64 * 1024

/-- Why a PUT failed.  Errors of the feeder and of the proposal are texts. -/
inductive PutError where
  | shed
  | noLayout
  | placing (width : Nat) (e : PlaceError)
  | noKEK
  | wrongKEK (fingerprint : UInt64)
  | mintingDEK
  | wrappingDEK
  | encoder (e : Ec.WriteError)
  | framing (e : Stream.StreamWriteError Ec.WriteError)
  | framingBody (e : Stream.StreamWriteError Ec.WriteError)
  | closingFrame (e : Stream.StreamWriteError Ec.WriteError)
  | closingEncoder (e : Ec.WriteError)
  | tooManyFailed (failures width floor : Nat) (last : Datapath.WriteError)
  | tooFewDurable (successes width floor : Nat) (last : Option Datapath.WriteError)
  | aborted (text : Bytes)
  | metadataCommit (text : Bytes)
deriving DecidableEq

structure PutOptions where
  contentType : Bytes := []
  userMetadata : StringMap := StringMap.empty
  retentionMode : RetentionMode := retentionNone
  retainUntilUnixMS : Int64 := 0
  legalHold : Bool := false

/-- What a PUT commits: an object, or a part of an upload. -/
inductive CommitKind where
  | object
  | part (uploadID : VersionID) (partNumber : UInt32)
deriving DecidableEq

structure PutCall where
  bucket : Bytes
  key : Bytes
  size : Int64
  opts : PutOptions := {}
  kind : CommitKind := .object
  /-- The body is fed in chunks, on request. -/
  streamed : Bool := false
  chunkBytes : Nat := 1048576
  maxOut : Nat := 2

/-- What `beginPut` has resolved before it opens a stream. -/
structure Setup where
  atMS : Int64
  vid : VersionID
  k : Nat
  m : Nat
  partition : UInt64
  nodes : List Place.NodeID
  length_nodes : nodes.length = k + m
  /-- The length of a slice is an `int`. -/
  width_lt : k + m < 2 ^ 63
  /-- The nodes that the failure detector takes to be down. -/
  down : Place.NodeID → Bool
  dek : Option Bytes := none
  encAlg : EncAlgorithm := encNone
  wrappedDEK : Bytes := []
  kekFP : UInt64 := 0

def Setup.floor (s : Setup) : Nat := min (s.k + 1) (s.k + s.m)

/-- What `beginPut` reads: the clock, the minted ID, the layout, the failure
detector, the keys and the posture. -/
structure PutEnv where
  atMS : Int64
  vid : VersionID
  layout : Option Layout
  down : Place.NodeID → Bool
  kek : Keys.KEK
  encOn : Bool
  posture : EncryptionPosture
  /-- What `NewDEK` reads from the entropy source; `none` is an error of it. -/
  entropy : Option Keys.DEK

def wrapNonce (vid : VersionID) : Bytes := vid.bytes.take Keys.wrapNonceLen

theorem width_planPut {layout : Layout} {vid : VersionID} {size : Int64} {plan : PutPlan}
    (h : planPut layout vid size = .ok plan) :
    plan.nodes.length = plan.k + plan.m ∧ plan.k + plan.m < 2 ^ 63 := by
  obtain ⟨hparams, hnodes⟩ := planPut_ok h
  have hfits := ((Ec.autoProfile_fits layout.activeCount).params size).le_six
  rw [hparams] at hfits
  exact ⟨length_of_spread hnodes, Nat.lt_of_le_of_lt hfits (by decide)⟩

/-- The first half of `beginPut`: placement, profile and encryption. -/
def setupPut [Stream.Gcm] (env : PutEnv) (size : Int64) : Except PutError Setup :=
  match env.layout with
  | none => .error .noLayout
  | some layout =>
    match h : planPut layout env.vid size with
    | .error e =>
      let (k, m) := (Ec.autoProfile layout.activeCount).params size
      .error (.placing (k + m) e)
    | .ok plan =>
      let setup : Setup :=
        { atMS := env.atMS, vid := env.vid, k := plan.k, m := plan.m
          partition := plan.partition, nodes := plan.nodes
          length_nodes := (width_planPut h).1, width_lt := (width_planPut h).2
          down := env.down }
      if env.encOn then
        let fp := env.kek.fingerprint
        let current := env.posture.currentKEKFingerprint
        if env.kek.loaded = false then .error .noKEK
        else if current ≠ 0 ∧ fp ≠ current ∧ fp ≠ env.posture.rotatingToKEKFingerprint then
          .error (.wrongKEK fp)
        else
          match env.entropy with
          | none => .error .mintingDEK
          | some dek =>
            match env.kek.wrap dek (wrapNonce env.vid) with
            | none => .error .wrappingDEK
            | some wrapped =>
              .ok { setup with
                dek := some dek.bytes, encAlg := encAES256GCM
                wrappedDEK := wrapped, kekFP := fp }
      else .ok setup

/-! ## Streams -/

/-- One shard of a PUT.  A node that was down has no stream. -/
structure Slot where
  node : Place.NodeID
  stream : Option WriteStream
  failed : Bool

namespace Slot

/-- The bytes that the encoder has for the shard go to its stream. -/
def push (s : Slot) (p : Bytes) : Option Slot :=
  match s.stream with
  | none => some s
  | some ws => (ws.write p).map (fun r => { s with stream := some r.stream })

/-- `Commit` of a stream that has not failed; `none` is also the call on a nil
stream. -/
def commit (s : Slot) (length : Nat) (checksum : Bytes) : Option Slot :=
  if s.failed then some s
  else
    match s.stream with
    | none => none
    | some ws => (ws.commit length checksum).map (fun r => { s with stream := some r.stream })

def abort (s : Slot) : Slot :=
  if s.failed then s else { s with stream := s.stream.map (fun ws => ws.abort.stream) }

def onStream (r : Effect) (s : Slot) : Slot := { s with stream := some r.stream }

def fail (s : Slot) : Slot := { s with failed := true }

/-- A stream that has not failed has room for `need` bytes. -/
def allows (need : Nat) (s : Slot) : Bool :=
  s.failed ||
    match s.stream with
    | none => true
    | some ws => need ≤ ws.window

end Slot

/-- The shards of the writer went from `before` to `after`. -/
def pushAll : List Slot → List Bytes → List Bytes → Option (List Slot)
  | s :: slots, b :: before, a :: after => do
    let s ← s.push (a.drop b.length)
    let slots ← pushAll slots before after
    return s :: slots
  | _, _, _ => some []

def commitAll : List Slot → List Bytes → Option (List Slot)
  | s :: slots, b :: shards => do
    let s ← s.commit b.length (sha256 b)
    let slots ← commitAll slots shards
    return s :: slots
  | _, _ => some []

/-- Which nodes to skip: those that are down, unless too few are left. -/
def skips (down : Place.NodeID → Bool) (floor : Nat) (nodes : List Place.NodeID) : List Bool :=
  let skip := nodes.map down
  if nodes.length - skip.count true < floor then nodes.map (fun _ => false) else skip

/-- Open a stream for every node that is not skipped, from shard `i` and request
`req` on. -/
def openSlots (vid : VersionID) : Nat → Nat → List Place.NodeID → List Bool → List Slot
  | i, req, n :: nodes, skip :: rest =>
    if skip then ⟨n, none, true⟩ :: openSlots vid (i + 1) req nodes rest
    else
      let ws : WriteStream := { key := ⟨vid, UInt32.ofNat i⟩, stream := req + 1 }
      ⟨n, some ws, false⟩ :: openSlots vid (i + 1) (req + 1) nodes rest
  | _, _, _, _ => []

/-! ## The operation -/

structure PutResult where
  versionID : VersionID
  etag : Bytes
  durable : Nat
deriving DecidableEq

/-- What a PUT does, and the reports that it gets. -/
inductive PutAction where
  | want
  | commit (i length : Nat) (checksum : Bytes)
  | reported (i : Nat) (result : Except Datapath.WriteError Unit)
  | propose (p : Proposal)
  | answered
  | delete (i : Nat)
  | release
  | done (result : Except PutError PutResult)

/-- The record that commits a PUT, from its call and what `beginPut` resolved. -/
def putProposal (call : PutCall) (setup : Setup) (etag objSum : Bytes)
    (sums : List Bytes) : Proposal :=
  match call.kind with
  | .object => .putObject {
      proposedAtUnixMS := setup.atMS
      bucket := call.bucket
      key := call.key
      versionID := setup.vid
      size := call.size
      etag
      contentType := call.opts.contentType
      userMetadata := call.opts.userMetadata
      partition := setup.partition
      ecDataShards := UInt32.ofNat setup.k
      ecParityShards := UInt32.ofNat setup.m
      objectChecksum := objSum
      shardChecksums := sums
      retentionMode := call.opts.retentionMode
      retainUntilUnixMS := call.opts.retainUntilUnixMS
      legalHold := call.opts.legalHold
      encAlgorithm := setup.encAlg
      wrappedDEK := setup.wrappedDEK
      kekFingerprint := setup.kekFP }
  | .part uploadID partNumber => .uploadPart {
      proposedAtUnixMS := setup.atMS
      bucket := call.bucket
      key := call.key
      uploadID
      partNumber
      dataID := setup.vid
      size := call.size
      etag
      checksum := objSum
      partition := setup.partition
      ecDataShards := UInt32.ofNat setup.k
      ecParityShards := UInt32.ofNat setup.m
      shardChecksums := sums
      encAlgorithm := setup.encAlg
      wrappedDEK := setup.wrappedDEK
      kekFingerprint := setup.kekFP }

structure PutOp where
  call : PutCall
  setup : Setup
  slots : List Slot
  /-- The frame writer; the encoder is its sink. -/
  sw : Stream.Writer Ec.Writer
  /-- What both hashes have got. -/
  fed : Bytes := []
  etag : Bytes := []
  objSum : Bytes := []
  /-- Body that was fed and is not yet paced into the encoder. -/
  pending : Bytes := []
  outstanding : Nat := 0
  eofSeen : Bool := false
  closed : Bool := false
  failures : Nat
  successes : Nat := 0
  finished : Bool := false
  /-- The proposal is made and not answered. -/
  awaiting : Bool := false

namespace PutOp

def width (op : PutOp) : Nat := op.slots.length

def stepBytes (op : PutOp) : Nat := max (op.setup.k * Ec.defaultSliceSize - 4096) 1

def windowsAllow (op : PutOp) (need : Nat) : Bool := op.slots.all (Slot.allows need)

end PutOp

def failWith (width : Nat) (e : PutError) : List PutAction :=
  (List.range width).map .delete ++ [.release, .done (.error e)]

namespace PutOp

def abort (op : PutOp) (e : PutError) : PutOp × List PutAction :=
  if op.finished then (op, [])
  else ({ op with finished := true, slots := op.slots.map Slot.abort }, failWith op.width e)

def fail (op : PutOp) (e : PutError) : PutOp × List PutAction :=
  ({ op with finished := true }, failWith op.width e)

/-- Ask the feeder for more, while there is room. -/
def replenish (op : PutOp) : PutOp × List PutAction :=
  let n :=
    if op.call.streamed = false ∨ op.eofSeen then 0
    else if op.pending.length < op.call.maxOut * op.call.chunkBytes then
      op.call.maxOut - op.outstanding
    else 0
  ({ op with outstanding := op.outstanding + n }, List.replicate n .want)

/-- The writer is now `sw`: its sinks have passed the new bytes on. -/
def feedShards (op : PutOp) (sw : Stream.Writer Ec.Writer) : Option PutOp := do
  let slots ← pushAll op.slots op.sw.w.shards sw.w.shards
  return { op with slots, sw }

def proposal (op : PutOp) : Proposal :=
  putProposal op.call op.setup op.etag op.objSum (op.sw.w.shards.map sha256)

def evaluate (op : PutOp) (last : Option Datapath.WriteError) : PutOp × List PutAction :=
  if op.successes < op.setup.floor ∨ op.closed = false then
    op.fail (.tooFewDurable op.successes op.width op.setup.floor last)
  else ({ op with finished := true, awaiting := true }, [.propose op.proposal])

section Encoding

variable [Stream.Gcm]

/-- How the loop of `step` ends: the buffer is empty, a window is too small, or
the operation was aborted.  `endless` is no end of the source's loop: the turns
ran out. -/
inductive Paced where
  | drained (op : PutOp)
  | blocked (op : PutOp)
  | aborted (r : PutOp × List PutAction)
  | endless

/-- Every turn takes a byte at least, so the length of the buffer bounds the
turns (`Running.pace`). -/
def pace : Nat → PutOp → Option Paced
  | 0, op => if op.pending.isEmpty then some (.drained op) else some .endless
  | turns + 1, op =>
    if op.pending.isEmpty then some (.drained op)
    else if op.windowsAllow stepNeed = false then some (.blocked op)
    else
      let n := min op.stepBytes op.pending.length
      match op.sw.write (op.pending.take n) with
      | .error e => some (.aborted (op.abort (.framingBody e)))
      | .ok sw => do
        let op' ← op.feedShards sw
        pace turns { op' with pending := op.pending.drop n }

/-- The commits of the streams that have not failed. -/
def commits (op : PutOp) : List PutAction :=
  (op.slots.zip op.sw.w.shards).zipIdx.flatMap (fun ((s, b), i) =>
    if s.failed then [] else [.commit i b.length (sha256 b)])

/-- The second half of `step`: both writers are closed, and every stream that
has not failed gets its commit. -/
def close (op : PutOp) : Option (PutOp × List PutAction) :=
  let op := { op with etag := md5 op.fed, objSum := sha256 op.fed }
  match op.sw.close with
  | .error e => some (op.abort (.closingFrame e))
  | .ok sw => do
    let op ← op.feedShards sw
    match op.sw.w.close with
    | .error e => some (op.abort (.closingEncoder e))
    | .ok ecw => do
      let op ← op.feedShards { op.sw with w := ecw }
      let slots ← commitAll op.slots op.sw.w.shards
      return ({ op with closed := true, slots }, op.commits)

def step (op : PutOp) : Option (PutOp × List PutAction) :=
  if op.finished ∨ op.closed then some (op, [])
  else
    match op.pace op.pending.length with
    | none | some .endless => none
    | some (.blocked op) => some (op, [])
    | some (.aborted r) => some r
    | some (.drained op) =>
      if op.eofSeen = false then some op.replenish
      else if op.windowsAllow closeNeed = false then some (op, [])
      else op.close

def feed (op : PutOp) (chunk : Bytes) : Option (PutOp × List PutAction) :=
  if op.finished then some (op, [])
  else
    step { op with
      fed := op.fed ++ chunk
      pending := op.pending ++ chunk
      outstanding := op.outstanding - 1 }

def feedEOF (op : PutOp) : Option (PutOp × List PutAction) :=
  if op.finished then some (op, []) else step { op with eofSeen := true }

/-- The end of `streamDone`: more reports are to come, or the ack rule runs. -/
def settle (op : PutOp) (last : Option Datapath.WriteError) : Option (PutOp × List PutAction) :=
  if op.successes + op.failures < op.width then op.step else some (op.evaluate last)

def streamDone (op : PutOp) (i : Nat) (result : Except Datapath.WriteError Unit) :
    Option (PutOp × List PutAction) :=
  if op.finished then some (op, [])
  else
    match result with
    | .ok () => settle { op with successes := op.successes + 1 } none
    | .error e =>
      let op := { op with
        slots := op.slots.modify i Slot.fail
        failures := op.failures + 1 }
      if op.successes + op.failures < op.width ∧ op.width - op.setup.floor < op.failures then
        some (op.abort (.tooManyFailed op.failures op.width op.setup.floor e))
      else op.settle (some e)

/-- Stream `i` went to `r`: it has ended, or its window has opened. -/
def onStream (op : PutOp) (i : Nat) (ws : WriteStream) (r : Effect) :
    Option (PutOp × List PutAction) :=
  let op := { op with slots := op.slots.modify i (Slot.onStream r) }
  match r.done with
  | some result => do
    let (op, actions) ← op.streamDone i result
    return (op, .reported i result :: actions)
  | none =>
    if r.stream.base ≠ ws.base ∧ r.stream.committing = false then op.step else some (op, [])

def streamAt (op : PutOp) (i : Nat) : Option WriteStream := op.slots[i]?.bind (·.stream)

def onProposed (op : PutOp) (result : Except Bytes VersionID) : PutOp × List PutAction :=
  if op.awaiting = false then (op, [])
  else
    let op := { op with awaiting := false }
    match result with
    | .error text => (op, .answered :: failWith op.width (.metadataCommit text))
    | .ok assigned =>
      let versionID := match op.call.kind with
        | .object => assigned
        | .part _ _ => op.setup.vid
      (op, [.answered, .release, .done (.ok ⟨versionID, op.etag, op.successes⟩)])

end Encoding

end PutOp

inductive PutInput where
  | feed (chunk : Bytes)
  | feedEOF
  | abort (text : Bytes)
  | ack (i : Nat) (m : WriteAckMsg)
  | timer (i : Nat)
  | proposed (result : Except Bytes VersionID)

section Machine

variable [Protowire] [ReedSolomon] [Stream.Gcm]

def PutOp.handle (op : PutOp) : PutInput → Option (PutOp × List PutAction)
  | .feed chunk => op.feed chunk
  | .feedEOF => op.feedEOF
  | .abort text => some (op.abort (.aborted text))
  | .ack i m =>
    match op.streamAt i with
    | none => some (op, [])
    | some ws => op.onStream i ws (ws.handleAck m)
  | .timer i =>
    match op.streamAt i with
    | none => some (op, [])
    | some ws => op.onStream i ws ws.onTimer
  | .proposed result => some (op.onProposed result)

/-- The second half of `beginPut`: open the streams and both writers.  Without an
operation the PUT has failed. -/
def openPut (call : PutCall) (setup : Setup) (nextReq : Nat) :
    Option (Option PutOp × List PutAction) :=
  let width := setup.k + setup.m
  let skip := skips setup.down setup.floor setup.nodes
  let slots := openSlots setup.vid 0 nextReq setup.nodes skip
  let frameSize :=
    Stream.frameSize call.size.toInt Stream.defaultChunkSize setup.dek.isSome
  match Ec.newWriter Ec.defaultSliceSize setup.vid setup.k setup.m frameSize width with
  | .error e => some (none, failWith width (.encoder e))
  | .ok ecw => do
    let slots ← pushAll slots (List.replicate width []) ecw.shards
    match Stream.newWriter ecw call.size.toInt Stream.defaultChunkSize setup.dek with
    | .error e => some (none, failWith width (.framing e))
    | .ok sw => do
      let slots ← pushAll slots ecw.shards sw.w.shards
      let op : PutOp := { call, setup, slots, sw, failures := skip.count true }
      let (op, actions) := op.replenish
      return (some op, actions)

/-! ## Admission -/

/-- One operation type's limit and what is in flight. -/
structure Limiter where
  limit : Nat := 16
  inflight : Nat := 0
deriving DecidableEq

def Limiter.tryAcquire (l : Limiter) : Option Limiter :=
  if l.limit ≤ l.inflight then none else some { l with inflight := l.inflight + 1 }

/-- The limit moves with the gradient: up when there is headroom, down else. -/
def Limiter.release (l : Limiter) (headroom : Bool) : Limiter where
  inflight := l.inflight - 1
  limit :=
    if headroom then (if l.limit < 256 then l.limit + 1 else l.limit)
    else max 4 (l.limit * 9 / 10)

/-- One PUT of a node, and what it has done so far. -/
structure Put where
  admitted : Bool
  op : Option PutOp
  trace : List PutAction

structure Coordinator where
  limiter : Limiter := {}
  nextReq : Nat := 0
  puts : List Put := []
  panicked : Bool := false

/-- An event: a call with what `setupPut` made of it, or an input of PUT `j`. -/
inductive PutEvent where
  | call (call : PutCall) (setup : Except PutError Setup)
  | input (j : Nat) (input : PutInput)

def PutAction.isRelease : PutAction → Bool
  | .release => true
  | _ => false

namespace Coordinator

def settle (l : Limiter) (headroom : Bool) (actions : List PutAction) : Limiter :=
  (actions.filter PutAction.isRelease).foldl (fun l _ => l.release headroom) l

def begin (c : Coordinator) (call : PutCall) (setup : Except PutError Setup) (headroom : Bool) :
    Option Coordinator :=
  match c.limiter.tryAcquire with
  | none => some { c with puts := c.puts ++ [⟨false, none, [.done (.error .shed)]⟩] }
  | some l =>
    match setup with
    | .error e => some { c with
        limiter := l.release headroom
        puts := c.puts ++ [⟨true, none, [.release, .done (.error e)]⟩] }
    | .ok setup => do
      let (op, actions) ← openPut call setup c.nextReq
      return { c with
        limiter := settle l headroom actions
        nextReq := c.nextReq + (skips setup.down setup.floor setup.nodes).count false
        puts := c.puts ++ [⟨true, op, actions⟩] }

def handle (c : Coordinator) (j : Nat) (input : PutInput) (headroom : Bool) :
    Option Coordinator :=
  match c.puts[j]? with
  | none => some c
  | some put =>
    match put.op with
    | none => some c
    | some op => do
      let (op, actions) ← op.handle input
      return { c with
        limiter := settle c.limiter headroom actions
        puts := c.puts.set j { put with op := some op, trace := put.trace ++ actions } }

def next (c : Coordinator) (e : PutEvent) (headroom : Bool) : Option Coordinator :=
  match e with
  | .call call setup => c.begin call setup headroom
  | .input j input => c.handle j input headroom

/-- One event, with the gradient that the limiter sees.  After a panic nothing
happens any more. -/
def step (c : Coordinator) (e : PutEvent × Bool) : Coordinator :=
  if c.panicked then c
  else
    match c.next e.1 e.2 with
    | none => { c with panicked := true }
    | some c' => c'

end Coordinator

end Machine

end Hamster.Coord
