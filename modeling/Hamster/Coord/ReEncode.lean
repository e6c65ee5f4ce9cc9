import Hamster.CodeLib.Hash
import Hamster.Coord.DataPath

/-!
# Re-encoding an object

`ReEncode` of `internal/coord/reencode.go`: probe the old shards, fetch `k` of
them, decode the frame, encode it at the new profile, write the new shards,
commit the switch, delete the old shards.

The operation waits for replies, which come in any order.  `World` is the
operation with its requests in flight; `World.Run` is any sequence of replies.
-/

namespace Hamster.Coord

open CodeLib Meta

/-! ## Requests and replies -/

inductive ReEncodeError where
  | unavailable (got need : Nat)
  | fetchingShards
  | openingSource (e : Ec.EcError BytesReaderError)
  | encoder (e : Ec.WriteError)
  | reading (e : Ec.EcError BytesReaderError)
  | encoding (e : Ec.WriteError)
  | closingEncoder (e : Ec.WriteError)
  | writingShards
  | metadataCommit
deriving DecidableEq

inductive Request where
  | verify (i : Nat)
  | fetch (i off length : Nat)
  | write (i : Nat)
  | propose
deriving DecidableEq

/-- An answer.  `verified none` is an error or an absent shard, `fetched none` an
error.  A proposal can be reported as failed and still be committed. -/
inductive Reply where
  | verified (length : Option Nat)
  | fetched (b : Option Bytes)
  | written (ok : Bool)
  | proposed (ok committed : Bool)
deriving DecidableEq

inductive Action where
  | send (r : Request)
  | deleteOld (i : Nat)
  | deleteNew (i : Nat)
deriving DecidableEq

/-! ## The operation -/

structure ReEncodeOp where
  oldK : Nat
  oldM : Nat
  newK : Nat
  newM : Nat
  newDID : VersionID
  /-- The length of each old shard that is there. -/
  lengths : List (Option Nat)
  pending : Nat
  buffers : List (Option Bytes) := []
  failed : Bool := false
  newShards : List Bytes := []
  newChecksums : List Bytes := []
  writesLeft : Nat := 0
  writeErr : Bool := false
  /-- What `done` was called with. -/
  result : Option (Except ReEncodeError Unit) := none

namespace ReEncodeOp

def oldWidth (op : ReEncodeOp) : Nat := op.oldK + op.oldM

def newWidth (op : ReEncodeOp) : Nat := op.newK + op.newM

def finish (op : ReEncodeOp) (result : Except ReEncodeError Unit) : ReEncodeOp :=
  match op.result with
  | none => { op with result := some result }
  | some _ => op

def probe (oldK oldM newK newM : Nat) (newDID : VersionID) : ReEncodeOp × List Action :=
  ({ oldK, oldM, newK, newM, newDID, lengths := List.replicate (oldK + oldM) none,
     pending := oldK + oldM },
    (List.range (oldK + oldM)).map (fun i => .send (.verify i)))

/-- The first `k` shards that are there.  The others are passed over. -/
def chosen : Nat → List (Option Nat) → List (Option Nat)
  | _, [] => []
  | 0, _ :: ls => none :: chosen 0 ls
  | k + 1, none :: ls => none :: chosen (k + 1) ls
  | k + 1, some l :: ls => some l :: chosen k ls

def fetchPiece : Nat := Ec.defaultSliceSize

/-- Piece `t` of shard `i`, which has `l` bytes. -/
def piece (i l t : Nat) : Request :=
  .fetch i (t * fetchPiece) (min fetchPiece (l - t * fetchPiece))

def pieces (picked : List (Option Nat)) : List Request :=
  picked.zipIdx.flatMap (fun (l, i) =>
    match l with
    | none => []
    | some l => (List.range ((l + fetchPiece - 1) / fetchPiece)).map (piece i l))

def overlay (buf : Bytes) (off : Nat) (b : Bytes) : Bytes :=
  buf.take off ++ b ++ buf.drop (off + b.length)

def copyBuffer : Nat := 32768

/-- `io.Copy` of the frame into the writer, from `off` on.  A copy that runs out of
turns is endless. -/
def copyFrame : Nat → Ec.Reader BytesReader → Nat → Ec.Writer → Except ReEncodeError Ec.Writer
  | 0, r, off, w => if r.frameSize ≤ off then .ok w else .error (.reading .endless)
  | turns + 1, r, off, w =>
    if r.frameSize ≤ off then .ok w
    else
      let (res, r') := r.readAt (min copyBuffer (r.frameSize.toNat - off)) off
      match (if res.data.isEmpty then .ok w else w.write res.data) with
      | .error e => .error (.encoding e)
      | .ok w' =>
        match res.err with
        | some (.fault e) => .error (.reading e)
        | some .eof => .ok w'
        | none => copyFrame turns r' (off + res.data.length) w'

section Encode

variable [Protowire] [ReedSolomon]

/-- `encode`: decode the frame from the fetched shards and encode it again. -/
def encodeShards (sliceSize : Nat) (newDID : VersionID) (newK newM : Nat)
    (buffers : List (Option Bytes)) : Except ReEncodeError (List Bytes) :=
  match Ec.newReader (buffers.map (Option.map BytesReader.mk)) with
  | .error e => .error (.openingSource e)
  | .ok r =>
    match Ec.newWriter sliceSize newDID newK newM r.frameSize (newK + newM) with
    | .error e => .error (.encoder e)
    | .ok w =>
      match copyFrame r.frameSize.toNat r 0 w with
      | .error e => .error e
      | .ok w =>
        match w.close with
        | .error e => .error (.closingEncoder e)
        | .ok w => .ok w.shards

/-- `encode`, then `write`: stream every new shard to its place. -/
def encode (sliceSize : Nat) (op : ReEncodeOp) : ReEncodeOp × List Action :=
  match encodeShards sliceSize op.newDID op.newK op.newM op.buffers with
  | .error e => (op.finish (.error e), [])
  | .ok shards =>
    ({ op with newShards := shards, newChecksums := shards.map sha256, writesLeft := op.newWidth },
      (List.range op.newWidth).map (fun i => .send (.write i)))

/-- `fetch`: ask for the first `k` shards that are there, piece by piece. -/
def fetch (sliceSize : Nat) (op : ReEncodeOp) : ReEncodeOp × List Action :=
  let picked := chosen op.oldK op.lengths
  let got := picked.countP Option.isSome
  if got < op.oldK then (op.finish (.error (.unavailable got op.oldK)), [])
  else
    let op := { op with buffers := picked.map (Option.map (List.replicate · 0)) }
    if (pieces picked).isEmpty then op.encode sliceSize
    else ({ op with pending := (pieces picked).length }, (pieces picked).map .send)

def onVerified (sliceSize : Nat) (op : ReEncodeOp) (i : Nat) (length : Option Nat) :
    ReEncodeOp × List Action :=
  let op := { op with lengths := op.lengths.set i length, pending := op.pending - 1 }
  if op.pending = 0 then op.fetch sliceSize else (op, [])

def onFetched (sliceSize : Nat) (op : ReEncodeOp) (i off length : Nat) (b : Option Bytes) :
    ReEncodeOp × List Action :=
  let op :=
    match b.filter (·.length = length) with
    | none => { op with failed := true }
    | some b => { op with buffers := op.buffers.modify i (Option.map (overlay · off b)) }
  let op := { op with pending := op.pending - 1 }
  if op.pending = 0 then
    if op.failed then (op.finish (.error .fetchingShards), []) else op.encode sliceSize
  else (op, [])

omit [Protowire] [ReedSolomon]

def cleanupNew (op : ReEncodeOp) : List Action := (List.range op.newWidth).map .deleteNew

/-- The callback of a write, and `commit` after the last. -/
def onWritten (op : ReEncodeOp) (ok : Bool) : ReEncodeOp × List Action :=
  let op := { op with writeErr := op.writeErr || !ok, writesLeft := op.writesLeft - 1 }
  if op.writesLeft = 0 then
    if op.writeErr then (op.finish (.error .writingShards), op.cleanupNew)
    else (op, [.send .propose])
  else (op, [])

def onProposed (op : ReEncodeOp) (ok : Bool) : ReEncodeOp × List Action :=
  if ok then (op.finish (.ok ()), (List.range op.oldWidth).map .deleteOld)
  else (op.finish (.error .metadataCommit), op.cleanupNew)

end Encode

end ReEncodeOp

/-! ## The operation in its world -/

/-- The operation, the requests that are not answered yet, and what it has done
to the version and its shards. -/
structure World where
  op : ReEncodeOp
  inFlight : List Request
  /-- The new shards that are durable. -/
  newFiles : List (Option Bytes)
  /-- The version names the new shards. -/
  switched : Bool := false
  deletedOld : List Nat := []
  deletedNew : List Nat := []

abbrev Event := Request × Reply

def Possible (files : Nat → Option Bytes) : Event → Prop
  | (.verify i, .verified length) => length = none ∨ length = (files i).map List.length
  | (.fetch i off length, .fetched b) =>
    b = none ∨ b = (files i).map (fun f => (f.drop off).take length)
  | (.write _, .written _) => True
  | (.propose, .proposed ok committed) => ok → committed
  | _ => False

instance (files : Nat → Option Bytes) (e : Event) : Decidable (Possible files e) := by
  unfold Possible
  split <;> infer_instance

namespace World

def act (w : World) (op : ReEncodeOp) (actions : List Action) : World :=
  { w with
    op := op
    inFlight := w.inFlight ++ actions.filterMap
      (fun a => match a with | .send r => some r | _ => none)
    deletedOld := w.deletedOld ++ actions.filterMap
      (fun a => match a with | .deleteOld i => some i | _ => none)
    deletedNew := w.deletedNew ++ actions.filterMap
      (fun a => match a with | .deleteNew i => some i | _ => none) }

def start (oldK oldM newK newM : Nat) (newDID : VersionID) : World :=
  let (op, actions) := ReEncodeOp.probe oldK oldM newK newM newDID
  { op, inFlight := [], newFiles := List.replicate (newK + newM) none : World }.act op actions

theorem act_nil (w : World) (op : ReEncodeOp) : w.act op [] = { w with op := op } := by
  simp [act]

theorem act_send {α : Type} (w : World) (op : ReEncodeOp) (l : List α) (f : α → Request) :
    w.act op (l.map (fun x => .send (f x))) =
      { w with op := op, inFlight := w.inFlight ++ l.map f } := by
  simp [act, List.filterMap_map]

theorem act_deleteOld (w : World) (op : ReEncodeOp) (l : List Nat) :
    w.act op (l.map .deleteOld) = { w with op := op, deletedOld := w.deletedOld ++ l } := by
  simp [act, List.filterMap_map]

theorem act_deleteNew (w : World) (op : ReEncodeOp) (l : List Nat) :
    w.act op (l.map .deleteNew) = { w with op := op, deletedNew := w.deletedNew ++ l } := by
  simp [act, List.filterMap_map]

variable [Protowire] [ReedSolomon]

def answer (sliceSize : Nat) (w : World) (e : Event) : World :=
  let w := { w with inFlight := w.inFlight.erase e.1 }
  match e with
  | (.verify i, .verified length) =>
    let (op, actions) := w.op.onVerified sliceSize i length
    w.act op actions
  | (.fetch i off length, .fetched b) =>
    let (op, actions) := w.op.onFetched sliceSize i off length b
    w.act op actions
  | (.write i, .written ok) =>
    let (op, actions) := w.op.onWritten ok
    let newFiles := if ok then w.newFiles.set i w.op.newShards[i]? else w.newFiles
    { w with newFiles := newFiles }.act op actions
  | (.propose, .proposed ok committed) =>
    let (op, actions) := w.op.onProposed ok
    { w with switched := w.switched || committed }.act op actions
  | _ => w

/-- Any sequence of answers to requests that are in flight. -/
inductive Run (files : Nat → Option Bytes) (sliceSize : Nat) (w₀ : World) :
    List Event → World → Prop where
  | nil : Run files sliceSize w₀ [] w₀
  | snoc {es : List Event} {w : World} {e : Event} (h : Run files sliceSize w₀ es w)
      (hflight : e.1 ∈ w.inFlight) (hpossible : Possible files e) :
      Run files sliceSize w₀ (es ++ [e]) (w.answer sliceSize e)

def Answers (files : Nat → Option Bytes) (sliceSize : Nat) : World → List Event → Prop
  | _, [] => True
  | w, e :: es => e.1 ∈ w.inFlight ∧ Possible files e ∧
      Answers files sliceSize (w.answer sliceSize e) es

instance decidableAnswers (files : Nat → Option Bytes) (sliceSize : Nat) :
    (w : World) → (es : List Event) → Decidable (Answers files sliceSize w es)
  | _, [] => .isTrue trivial
  | w, e :: es =>
    have := decidableAnswers files sliceSize (w.answer sliceSize e) es
    inferInstanceAs (Decidable (_ ∧ _ ∧ _))

theorem Run.append {files : Nat → Option Bytes} {sliceSize : Nat} {w₀ w : World}
    {es es' : List Event} (h : Run files sliceSize w₀ es w)
    (hanswers : Answers files sliceSize w es') :
    Run files sliceSize w₀ (es ++ es') (es'.foldl (answer sliceSize) w) := by
  induction es' generalizing es w with
  | nil => rwa [List.append_nil]
  | cons e es' ih =>
    obtain ⟨hflight, hpossible, hrest⟩ := hanswers
    have h' := ih (h.snoc hflight hpossible) hrest
    rwa [List.append_assoc] at h'

end World

end Hamster.Coord
