import Hamster.CodeLib.Run
import Hamster.Datapath.WriteStream

/-!
# Shard transfers over an unreliable network

Any number of nodes send shards to one node, by `internal/datapath`.  Every
message that was ever sent may be delivered, at any later time and any number of
times, or never.  The receiver may crash between two handlers or inside one, and
keeps what the contract of the disk leaves.  Its calls of the disk may fail.

`World.next` is one event: a call of a sender's API, a timer, the delivery of a
message or an ack, or a crash.  `history` remembers the order in which writes and
deletes were issued, and `outcomes` what `done` was called with; no party reads
them.

`Consistent b k` is the invariant of a key whose streams all carry `b`.  It joins the
invariants of the two halves (`Receiving`, `Sending`) with what the messages on the way
say: a write message carries bytes of `b`, and a positive ack is true as long as no
delete was issued after its stream was opened.  Two things break it, and both are
deliveries of a delete: one that finds a staging, and one that was issued before a
stream and arrives after it was opened.  `SafeDelete` excludes these, and `Faultless`
excludes calls that fail.
-/

namespace Hamster.Datapath

open CodeLib Seam

abbrev NodeID := Bytes

/-! ## The parties -/

/-- The client half of a `Service`: every stream it made, and the live ones by
key. -/
structure Client where
  nextReq : Nat := 0
  streams : Nat → Option WriteStream := fun _ => none
  writes : ShardKey → Option Nat := fun _ => none

namespace Client

/-- Keep what an operation left of its stream.  `finish` takes it out of the live
ones. -/
def put (c : Client) (r : Effect) : Client :=
  { c with
    streams := Function.update c.streams r.stream.stream (some r.stream)
    writes := if r.done.isSome then Function.update c.writes r.stream.key none else c.writes }

def newWrite (c : Client) (k : ShardKey) : Client where
  nextReq := c.nextReq + 1
  streams := Function.update c.streams (c.nextReq + 1)
    (some { key := k, stream := c.nextReq + 1 })
  writes := Function.update c.writes k (some (c.nextReq + 1))

end Client

/-- What a caller asked for, in the order of asking. -/
inductive Issue where
  | opened (node : NodeID) (stream : Nat) (k : ShardKey)
  | deleted (node : NodeID) (reqID : Nat) (k : ShardKey)
deriving DecidableEq

def Issue.opens (k : ShardKey) : Issue → Bool
  | .opened _ _ k' => k' = k
  | .deleted _ _ _ => false

def Issue.deletes (k : ShardKey) : Issue → Bool
  | .opened _ _ _ => false
  | .deleted _ _ k' => k' = k

/-- What was issued after `i`, of a history with the newest first. -/
def since (i : Issue) (history : List Issue) : List Issue := history.takeWhile (· ≠ i)

structure World where
  clients : NodeID → Client := fun _ => {}
  staging : ShardKey → Option Staging := fun _ => none
  disk : Disk
  /-- Every message that was ever sent to the receiver. -/
  requests : List (NodeID × Request) := []
  /-- Every answer that was ever sent, with the node it goes to. -/
  replies : List (NodeID × Reply) := []
  outcomes : List (NodeID × Nat × Except WriteError Unit) := []
  history : List Issue := []

inductive Event where
  | newWrite (node : NodeID) (k : ShardKey)
  | write (node : NodeID) (stream : Nat) (p : Bytes)
  | commit (node : NodeID) (stream length : Nat) (checksum : Bytes)
  | abort (node : NodeID) (stream : Nat)
  | timer (node : NodeID) (stream : Nat)
  | delete (node : NodeID) (k : ShardKey)
  | deliver (node : NodeID) (req : Request) (faults : Faults := noFaults)
  | ack (node : NodeID) (m : Reply)
  | crash (during : Option (NodeID × Request)) (faults : Faults) (after : Disk)

namespace World

/-- The outcome of an operation on a stream of `node`. -/
def effect (w : World) (node : NodeID) (r : Effect) : World :=
  { w with
    clients := Function.update w.clients node ((w.clients node).put r)
    requests := w.requests ++ r.msgs.map (fun m => (node, m))
    outcomes := w.outcomes ++ (r.done.map (fun e => (node, r.stream.stream, e))).toList }

def opened (w : World) (node : NodeID) (k : ShardKey) : World :=
  { w with
    clients := Function.update w.clients node ((w.clients node).newWrite k)
    history := .opened node ((w.clients node).nextReq + 1) k :: w.history }

/-- `Service.Delete`.  Its retries send the same message again, which the
network may do anyway. -/
def deleted (w : World) (node : NodeID) (k : ShardKey) : World :=
  let id := (w.clients node).nextReq + 1
  { w with
    clients := Function.update w.clients node { w.clients node with nextReq := id }
    requests := w.requests ++ [(node, .delete ⟨id, k⟩)]
    history := .deleted node id k :: w.history }

def handled (w : World) (node : NodeID) (req : Request) (faults : Faults) : World :=
  let run := handle faults (w.staging req.key) req w.disk
  { w with
    staging := Function.update w.staging req.key run.value.1
    disk := run.final
    replies := w.replies ++ (run.value.2.map (fun r => (node, r))).toList }

def crashed (w : World) (after : Disk) : World :=
  { w with staging := fun _ => none, disk := after }

def onStream (w : World) (node : NodeID) (stream : Nat) (f : WriteStream → Option Effect) :
    Option World := do
  let ws ← (w.clients node).streams stream
  let r ← f ws
  pure (w.effect node r)

/-- An ack goes to the live stream of its key, if there is one. -/
def acked (w : World) (node : NodeID) (m : WriteAckMsg) : World :=
  match ((w.clients node).writes m.key).bind (w.clients node).streams with
  | none => w
  | some ws => w.effect node (ws.handleAck m)

def replied (w : World) (node : NodeID) : Reply → World
  | .writeAck m => w.acked node m
  | .deleteAck _ => w

/-- One event; `none` is a panic of a caller, or a message that was never sent. -/
def step (w : World) : Event → Option World
  | .newWrite node k => if ((w.clients node).writes k).isSome then none else some (w.opened node k)
  | .write node stream p => w.onStream node stream (fun ws => ws.write p)
  | .commit node stream length checksum =>
    w.onStream node stream (fun ws => ws.commit length checksum)
  | .abort node stream => w.onStream node stream (fun ws => some ws.abort)
  | .timer node stream => w.onStream node stream (fun ws => some ws.onTimer)
  | .delete node k => some (w.deleted node k)
  | .deliver node req faults =>
    if (node, req) ∈ w.requests then some (w.handled node req faults) else none
  | .ack node m => if (node, m) ∈ w.replies then some (w.replied node m) else none
  | .crash _ _ after => some (w.crashed after)

def next (w : World) (e : Event) : World := (w.step e).getD w

/-- A crash leaves what the disk allows, at some point of the handler. -/
def CrashOk (w : World) : Event → Prop
  | .crash none _ after => Disk.CrashesTo w.disk after
  | .crash (some (node, req)) faults after => (node, req) ∈ w.requests ∧
      ∃ x ∈ (handle faults (w.staging req.key) req).states w.disk, Disk.CrashesTo x after
  | _ => True

def Possible (w : World) (e : Event) : Prop := w.CrashOk e ∧ (w.step e).isSome = true

end World

/-! ## What an event does -/

/-- The operation on a stream that an event is. -/
inductive StreamOp (w : World) : Event → NodeID → Nat → WriteStream → Effect → Prop
  | write {node stream p ws r} (hws : (w.clients node).streams stream = some ws)
      (h : ws.write p = some r) : StreamOp w (.write node stream p) node stream ws r
  | commit {node stream length checksum ws r}
      (hws : (w.clients node).streams stream = some ws)
      (h : ws.commit length checksum = some r) :
      StreamOp w (.commit node stream length checksum) node stream ws r
  | abort {node stream ws} (hws : (w.clients node).streams stream = some ws) :
      StreamOp w (.abort node stream) node stream ws ws.abort
  | timer {node stream ws} (hws : (w.clients node).streams stream = some ws) :
      StreamOp w (.timer node stream) node stream ws ws.onTimer
  | ack {node stream m ws} (hws : (w.clients node).streams stream = some ws)
      (hlive : (w.clients node).writes m.key = some stream)
      (h : (node, .writeAck m) ∈ w.replies) :
      StreamOp w (.ack node (.writeAck m)) node stream ws (ws.handleAck m)

section

variable {e : Event} {node : NodeID} {r : Effect} {stream : Nat} {w : World} {ws : WriteStream}
  (h : StreamOp w e node stream ws r)

include h

theorem StreamOp.stream_eq : (w.clients node).streams stream = some ws := by
  cases h <;> assumption

theorem StreamOp.proper : Proper ws r := by
  cases h with
  | write _ h => exact WriteStream.proper_write h
  | commit _ h => exact WriteStream.proper_commit h
  | abort => exact WriteStream.proper_abort ws
  | timer => exact WriteStream.proper_onTimer ws
  | ack => exact WriteStream.proper_handleAck ws _

end

/-- The bytes that a caller writes to the streams of a key are those of `b`. -/
def Carries (b : Bytes) (k : ShardKey) (w : World) : Event → Prop
  | .write node stream p => ∀ ws ∈ (w.clients node).streams stream, ws.key = k →
      ws.finished = false → p <+: b.drop ws.written
  | .commit node stream length _ => ∀ ws ∈ (w.clients node).streams stream, ws.key = k →
      ws.finished = false → length = b.length
  | _ => True

/-- The handling of a delete of the key finds nothing staged, and no stream of the
key was opened since the delete was issued. -/
def SafeDelete (k : ShardKey) (w : World) : Event → Prop
  | .deliver node (.delete m) _ | .crash (some (node, .delete m)) _ _ => m.key = k →
      w.staging k = none ∧ ∀ i ∈ since (.deleted node m.reqID k) w.history, i.opens k = false
  | _ => True

/-- No call of the disk fails in a handler of the key. -/
def Faultless (k : ShardKey) : Event → Prop
  | .deliver _ req faults | .crash (some (_, req)) faults _ => req.key = k → faults = noFaults
  | _ => True

inductive Stepped (w : World) : Event → World → Prop
  | idle {e} : Stepped w e w
  | onStream {e node stream ws r} (hop : StreamOp w e node stream ws r) :
      Stepped w e (w.effect node r)
  | opened {node k} : Stepped w (.newWrite node k) (w.opened node k)
  | deleted {node k} : Stepped w (.delete node k) (w.deleted node k)
  | handled {node req faults} (hreq : (node, req) ∈ w.requests) :
      Stepped w (.deliver node req faults) (w.handled node req faults)
  | crashed {during faults after} (hcrash : w.CrashOk (.crash during faults after)) :
      Stepped w (.crash during faults after) (w.crashed after)

section Steps

variable {w : World} {e : Event}

theorem World.next_of_step {w' : World} (h : w.step e = some w') : w.next e = w' := by
  rw [World.next, h]
  rfl

theorem onStream_cases {node : NodeID} {stream : Nat} {f : WriteStream → Option Effect} {w' : World}
    (h : w.onStream node stream f = some w') :
    ∃ ws r, (w.clients node).streams stream = some ws ∧ f ws = some r ∧ w.effect node r = w' := by
  obtain ⟨ws, hws, h⟩ := Option.bind_eq_some_iff.mp h
  obtain ⟨r, hr, h⟩ := Option.bind_eq_some_iff.mp h
  exact ⟨ws, r, hws, hr, Option.some.inj h⟩

theorem World.Possible.stepped (h : w.Possible e) : Stepped w e (w.next e) := by
  obtain ⟨hcrash, hsome⟩ := h
  obtain ⟨w', hstep⟩ := Option.isSome_iff_exists.mp hsome
  rw [World.next_of_step hstep]
  cases e with
  | newWrite node k =>
    rw [World.step] at hstep
    split at hstep <;> cases hstep
    exact .opened
  | write node stream p =>
    obtain ⟨ws, r, hws, hr, rfl⟩ := onStream_cases hstep
    exact .onStream (.write hws hr)
  | commit node stream length checksum =>
    obtain ⟨ws, r, hws, hr, rfl⟩ := onStream_cases hstep
    exact .onStream (.commit hws hr)
  | abort node stream =>
    obtain ⟨ws, r, hws, hr, rfl⟩ := onStream_cases hstep
    cases hr
    exact .onStream (.abort hws)
  | timer node stream =>
    obtain ⟨ws, r, hws, hr, rfl⟩ := onStream_cases hstep
    cases hr
    exact .onStream (.timer hws)
  | delete node k =>
    cases hstep
    exact .deleted
  | deliver node req faults =>
    rw [World.step] at hstep
    split at hstep <;> cases hstep
    exact .handled ‹_›
  | ack node m =>
    rw [World.step] at hstep
    split at hstep <;> cases hstep
    cases m with
    | deleteAck m => exact .idle
    | writeAck m =>
      unfold World.replied World.acked
      dsimp only
      split
      · exact .idle
      · rename_i ws hlive
        obtain ⟨id, hid, hws⟩ := Option.bind_eq_some_iff.mp hlive
        exact .onStream (.ack hws hid ‹_›)
  | crash during faults after =>
    cases hstep
    exact .crashed hcrash

end Steps

/-! ## Who is known to whom -/

variable {req : Request} {faults : Faults} {node' : NodeID} {k' : ShardKey} {id : Nat}

section Registry

variable {w : World} {e : Event} {node : NodeID} {stream : Nat} {ws : WriteStream} {r : Effect}
  {k : ShardKey}

theorem clients_effect (w : World) (node : NodeID) (r : Effect) (node' : NodeID) :
    (w.effect node r).clients node' =
      if node' = node then (w.clients node).put r else w.clients node' :=
  Function.update_apply _ _ _ _

theorem clients_opened (w : World) (node : NodeID) (k : ShardKey) (node' : NodeID) :
    (w.opened node k).clients node' =
      if node' = node then (w.clients node).newWrite k else w.clients node' :=
  Function.update_apply _ _ _ _

theorem clients_deleted (w : World) (node : NodeID) (k : ShardKey) (node' : NodeID) :
    (w.deleted node k).clients node' =
      if node' = node then { w.clients node with nextReq := (w.clients node).nextReq + 1 }
      else w.clients node' :=
  Function.update_apply _ _ _ _

theorem streams_effect (w : World) (node : NodeID) (r : Effect) (node' : NodeID) (id : Nat) :
    ((w.effect node r).clients node').streams id =
      if node' = node ∧ id = r.stream.stream then some r.stream
      else (w.clients node').streams id := by
  rw [clients_effect]
  by_cases hnode : node' = node
  · subst hnode
    simp [Client.put, Function.update_apply]
  · simp [hnode]

theorem streams_opened (w : World) (node : NodeID) (k : ShardKey) (node' : NodeID) (id : Nat) :
    ((w.opened node k).clients node').streams id =
      if node' = node ∧ id = (w.clients node).nextReq + 1 then
        some { key := k, stream := (w.clients node).nextReq + 1 }
      else (w.clients node').streams id := by
  rw [clients_opened]
  by_cases hnode : node' = node
  · subst hnode
    simp [Client.newWrite, Function.update_apply]
  · simp [hnode]

theorem streams_deleted (w : World) (node : NodeID) (k : ShardKey) (node' : NodeID) (id : Nat) :
    ((w.deleted node k).clients node').streams id = (w.clients node').streams id := by
  rw [clients_deleted]
  split
  · rename_i hnode
    rw [hnode]
  · rfl

def Known (w : World) (node : NodeID) (stream : Nat) (k : ShardKey) : Prop :=
  ∃ ws, (w.clients node).streams stream = some ws ∧ ws.key = k

structure Registered (w : World) : Prop where
  stream : ∀ node id ws, (w.clients node).streams id = some ws →
    ws.stream = id ∧ id ≤ (w.clients node).nextReq ∧ .opened node id ws.key ∈ w.history
  writes : ∀ node k id, (w.clients node).writes k = some id → Known w node id k
  request : ∀ node req, (node, req) ∈ w.requests →
    (∀ k id, req.From k id → Known w node id k) ∧
      ∀ m, req = .delete m → .deleted node m.reqID m.key ∈ w.history
  reply : ∀ node a, (node, .writeAck a) ∈ w.replies → Known w node a.stream a.key
  outcome : ∀ o ∈ w.outcomes, ∃ ws, (w.clients o.1).streams o.2.1 = some ws ∧ ws.finished = true
  nodup : (w.outcomes.map (fun o => (o.1, o.2.1))).Nodup

theorem registered_start (d : Disk) : Registered { disk := d } where
  stream := fun node id ws h => by cases h
  writes := fun node k id h => by cases h
  request := fun node req h => by cases h
  reply := fun node a h => by cases h
  outcome := fun o h => by cases h
  nodup := List.nodup_nil

/-- Every stream stays: under its number, for its key, and finished if it was. -/
def Keeps (w w' : World) : Prop := ∀ node id ws, (w.clients node).streams id = some ws →
  ∃ ws', (w'.clients node).streams id = some ws' ∧ ws'.key = ws.key ∧
    (ws.finished = true → ws'.finished = true)

theorem Known.keeps {w' : World} (h : Known w node' id k') (hkeeps : Keeps w w') :
    Known w' node' id k' := by
  obtain ⟨ws, hws, hkey⟩ := h
  obtain ⟨ws', hws', hkey', -⟩ := hkeeps _ _ _ hws
  exact ⟨ws', hws', hkey'.trans hkey⟩

theorem Registered.outcome_keeps {w' : World} (hw : Registered w) (hkeeps : Keeps w w') :
    ∀ o ∈ w.outcomes, ∃ ws, (w'.clients o.1).streams o.2.1 = some ws ∧ ws.finished = true := by
  intro o ho
  obtain ⟨ws, hws, hfinished⟩ := hw.outcome o ho
  obtain ⟨ws', hws', -, hfinished'⟩ := hkeeps _ _ _ hws
  exact ⟨ws', hws', hfinished' hfinished⟩

theorem keeps_effect (hw : Registered w) (hws : (w.clients node).streams stream = some ws)
    (hr : Proper ws r) : Keeps w (w.effect node r) := by
  intro node' id ws' hws'
  rw [streams_effect]
  by_cases heq : node' = node ∧ id = r.stream.stream
  · obtain ⟨rfl, rfl⟩ := heq
    rw [hr.stream, (hw.stream _ _ _ hws).1, hws] at hws'
    cases hws'
    exact ⟨r.stream, if_pos ⟨rfl, rfl⟩, hr.key, hr.finished⟩
  · exact ⟨ws', (if_neg heq).trans hws', rfl, fun h => h⟩

theorem registered_effect (hw : Registered w) (hws : (w.clients node).streams stream = some ws)
    (hr : Proper ws r) : Registered (w.effect node r) := by
  have hid := (hw.stream _ _ _ hws).1
  have hstream : r.stream.stream = stream := hr.stream.trans hid
  have hkeeps := keeps_effect hw hws hr
  have hnextReq : ∀ node', ((w.effect node r).clients node').nextReq =
      (w.clients node').nextReq := by
    intro node'
    rw [clients_effect]
    split
    · rename_i hnode
      rw [hnode]
      rfl
    · rfl
  refine ⟨fun node' id ws' h => ?_, fun node' k id h => ?_, fun node' req h => ?_,
    fun node' a h => (hw.reply node' a h).keeps hkeeps, fun o ho => ?_, ?_⟩
  · rw [hnextReq]
    rw [streams_effect] at h
    split at h
    · rename_i heq
      cases h
      obtain ⟨rfl, rfl⟩ := heq
      obtain ⟨-, hle, hopened⟩ := hw.stream _ _ _ hws
      rw [hstream, hr.key]
      exact ⟨rfl, hle, hopened⟩
    · exact hw.stream node' id ws' h
  · refine (hw.writes node' k id ?_).keeps hkeeps
    rw [clients_effect] at h
    split at h
    · rename_i hnode
      rw [hnode]
      rw [Client.put] at h
      dsimp only at h
      split at h
      · rw [Function.update_apply] at h
        split at h
        · cases h
        · exact h
      · exact h
    · exact h
  · rcases List.mem_append.mp h with h | h
    · refine ⟨fun k id hfrom => ?_, (hw.request node' req h).2⟩
      exact ((hw.request node' req h).1 k id hfrom).keeps hkeeps
    · obtain ⟨m, hm, heq⟩ := List.mem_map.mp h
      cases heq
      have hfrom := hr.msgs req hm
      refine ⟨fun k id hfrom' => ?_, fun m' hm' => ?_⟩
      · have hknown : Known w node ws.stream ws.key := ⟨ws, hid ▸ hws, rfl⟩
        have hsame : k = ws.key ∧ id = ws.stream := by
          cases req with
          | chunk c | commit c => exact ⟨hfrom'.1.symm.trans hfrom.1, hfrom'.2.symm.trans hfrom.2⟩
          | delete c => exact hfrom.elim
        rw [hsame.1, hsame.2]
        exact hknown.keeps hkeeps
      · rw [hm'] at hfrom
        exact hfrom.elim
  · rcases List.mem_append.mp ho with ho | ho
    · exact hw.outcome_keeps hkeeps o ho
    · cases hdone : r.done with
      | none =>
        rw [hdone] at ho
        cases ho
      | some result =>
        rw [hdone, Option.map_some, Option.toList_some, List.mem_singleton] at ho
        subst ho
        refine ⟨r.stream, ?_, (hr.done (by rw [hdone]; exact Option.some_ne_none _)).2⟩
        rw [streams_effect, if_pos ⟨rfl, rfl⟩]
  · show ((w.outcomes ++ _).map _).Nodup
    rw [List.map_append, List.nodup_append]
    refine ⟨hw.nodup, ?_, ?_⟩
    · cases r.done <;> simp
    · cases hdone : r.done with
      | none => simp
      | some result =>
        -- a stream with an outcome is finished, and this one was not
        rintro a ha b hb rfl
        rw [Option.map_some, Option.toList_some, List.map_singleton, List.mem_singleton] at hb
        subst hb
        obtain ⟨o, ho, heq⟩ := List.mem_map.mp ha
        obtain ⟨ws', hws', hfinished⟩ := hw.outcome o ho
        rw [Prod.mk.injEq] at heq
        rw [heq.1, heq.2, hstream, hws] at hws'
        cases hws'
        rw [(hr.done (by rw [hdone]; exact Option.some_ne_none _)).1] at hfinished
        cases hfinished

theorem keeps_opened (hw : Registered w) : Keeps w (w.opened node k) := by
  intro node' id ws' hws'
  refine ⟨ws', ?_, rfl, fun h => h⟩
  rw [streams_opened, if_neg, hws']
  rintro ⟨rfl, rfl⟩
  have := (hw.stream _ _ _ hws').2.1
  omega

theorem registered_opened (hw : Registered w) : Registered (w.opened node k) := by
  have hkeeps : Keeps w (w.opened node k) := keeps_opened hw
  refine ⟨fun node' id ws' h => ?_, fun node' k' id h => ?_, fun node' req h => ?_,
    fun node' a h => (hw.reply node' a h).keeps hkeeps, hw.outcome_keeps hkeeps, hw.nodup⟩
  · rw [streams_opened] at h
    rw [clients_opened]
    split at h
    · rename_i heq
      cases h
      rw [if_pos heq.1, heq.2, heq.1]
      exact ⟨rfl, Nat.le_refl _, List.mem_cons_self⟩
    · obtain ⟨hid, hbound, hopened⟩ := hw.stream node' id ws' h
      refine ⟨hid, ?_, List.mem_cons_of_mem _ hopened⟩
      split
      · rename_i hnode
        rw [hnode] at hbound
        exact hbound.trans (Nat.le_succ _)
      · exact hbound
  · rw [clients_opened] at h
    split at h
    · rename_i hnode
      simp only [Client.newWrite, Function.update_apply] at h
      split at h
      · rename_i hk
        cases h
        exact ⟨_, (streams_opened w node k node' _).trans (if_pos ⟨hnode, rfl⟩), hk.symm⟩
      · exact (hw.writes node' k' id (hnode ▸ h)).keeps hkeeps
    · exact (hw.writes node' k' id h).keeps hkeeps
  · obtain ⟨hfrom, hdelete⟩ := hw.request node' req h
    exact ⟨fun k' id hf => (hfrom k' id hf).keeps hkeeps,
      fun m hm => List.mem_cons_of_mem _ (hdelete m hm)⟩

theorem keeps_deleted : Keeps w (w.deleted node k) :=
  fun node' id ws hws => ⟨ws, (streams_deleted w node k node' id).trans hws, rfl, fun h => h⟩

theorem registered_deleted (hw : Registered w) : Registered (w.deleted node k) := by
  refine ⟨fun node' id ws' h => ?_, fun node' k' id h => ?_, fun node' req h => ?_,
    fun node' a h => (hw.reply node' a h).keeps keeps_deleted, hw.outcome_keeps keeps_deleted,
    hw.nodup⟩
  · rw [streams_deleted] at h
    obtain ⟨hid, hbound, hopened⟩ := hw.stream node' id ws' h
    refine ⟨hid, ?_, List.mem_cons_of_mem _ hopened⟩
    rw [clients_deleted]
    split
    · rename_i hnode
      rw [hnode] at hbound
      exact hbound.trans (Nat.le_succ _)
    · exact hbound
  · refine (hw.writes node' k' id ?_).keeps keeps_deleted
    rw [clients_deleted] at h
    split at h
    · rename_i hnode
      rw [hnode]
      exact h
    · exact h
  · rcases List.mem_append.mp h with h | h
    · obtain ⟨hfrom, hdelete⟩ := hw.request node' req h
      exact ⟨fun k' id hf => (hfrom k' id hf).keeps keeps_deleted,
        fun m hm => List.mem_cons_of_mem _ (hdelete m hm)⟩
    · rw [List.mem_singleton] at h
      cases h
      refine ⟨fun k' id hf => hf.elim, fun m hm => ?_⟩
      cases hm
      exact List.mem_cons_self

theorem registered_handled (hw : Registered w) (hreq : (node, req) ∈ w.requests) :
    Registered (w.handled node req faults) := by
  refine ⟨hw.stream, hw.writes, hw.request, fun node' a h => ?_, hw.outcome, hw.nodup⟩
  rcases List.mem_append.mp h with h | h
  · exact hw.reply node' a h
  · -- the new answer goes by the key and the stream of the message
    obtain ⟨hfrom, -⟩ := hw.request node req hreq
    obtain ⟨a', ha', heq⟩ := Option.map_eq_some_iff.mp (Option.mem_toList.mp h)
    cases heq
    cases req with
    | chunk m =>
      obtain ⟨hkey, hstream⟩ := handleChunk_acks faults (w.staging m.key) m w.disk a ha'
      rw [hkey, hstream]
      exact hfrom m.key m.stream ⟨rfl, rfl⟩
    | commit m =>
      obtain ⟨hkey, hstream⟩ := handleCommit_acks faults (w.staging m.key) m w.disk a ha'
      rw [hkey, hstream]
      exact hfrom m.key m.stream ⟨rfl, rfl⟩
    | delete m => exact absurd ha' (handleDelete_acks faults _ m w.disk a)

theorem Registered.step (hw : Registered w) (h : w.Possible e) : Registered (w.next e) := by
  have hstep := h.stepped
  generalize w.next e = w' at hstep ⊢
  cases hstep with
  | idle => exact hw
  | onStream hop => exact registered_effect hw hop.stream_eq hop.proper
  | opened => exact registered_opened hw
  | deleted => exact registered_deleted hw
  | handled hreq => exact registered_handled hw hreq
  | crashed => exact ⟨hw.stream, hw.writes, hw.request, hw.reply, hw.outcome, hw.nodup⟩

end Registry

/-! ## One key -/

theorem mem_since_or_mem_since {i j : Issue} {history : List Issue} (hi : i ∈ history)
    (hj : j ∈ history) (hne : i ≠ j) : i ∈ since j history ∨ j ∈ since i history := by
  induction history with
  | nil => cases hi
  | cons x rest ih =>
    unfold since at ih ⊢
    rw [List.takeWhile_cons, List.takeWhile_cons]
    by_cases hxi : x = i
    · subst hxi
      exact Or.inl (by simp [hne])
    · by_cases hxj : x = j
      · subst hxj
        exact Or.inr (by simp [hxi])
      · have hi' := (List.mem_cons.mp hi).resolve_left (fun h => hxi h.symm)
        have hj' := (List.mem_cons.mp hj).resolve_left (fun h => hxj h.symm)
        simp only [ne_eq, hxj, hxi, not_false_eq_true, decide_true, if_true, List.mem_cons]
        rcases ih hi' hj' with h | h
        · exact Or.inl (Or.inr h)
        · exact Or.inr (Or.inr h)

theorem since_cons_of_ne {i x : Issue} (h : x ≠ i) (history : List Issue) :
    since i (x :: history) = x :: since i history := by
  rw [since, List.takeWhile_cons, if_pos (by simpa using h)]
  rfl

/-- No delete of the key was issued after the stream was opened. -/
def Undeleted (k : ShardKey) (w : World) (node : NodeID) (stream : Nat) : Prop :=
  ∀ i ∈ since (.opened node stream k) w.history, i.deletes k = false
deriving Decidable

/-- The invariant of a key whose streams carry `b`. -/
structure Consistent (b : Bytes) (k : ShardKey) (w : World) : Prop where
  receiving : Receiving b k (w.staging k) w.disk
  sending : ∀ node id ws, (w.clients node).streams id = some ws → ws.key = k → Sending b ws
  transmitted : ∀ node id ws, (w.clients node).streams id = some ws → ws.key = k →
    ∀ i < ws.sent, ∃ c, (node, .chunk c) ∈ w.requests ∧ c.key = k ∧ c.stream = id ∧
      c.offset ≤ i ∧ i < c.offset + c.data.length
  carried : ∀ node req, (node, req) ∈ w.requests → req.key = k → req.Carries b
  promised : ∀ node a, (node, .writeAck a) ∈ w.replies → a.key = k → a.committed = true →
    Undeleted k w node a.stream → Sealed b k w.disk
  done : ∀ node id, (node, id, .ok ()) ∈ w.outcomes → Known w node id k →
    ∃ a, (node, .writeAck a) ∈ w.replies ∧ a.key = k ∧ a.stream = id ∧ a.committed = true

section OneKey

variable {b : Bytes} {k : ShardKey} {w : World} {e : Event} {node : NodeID} {stream : Nat}
  {ws : WriteStream} {r : Effect}

theorem consistent_start {d : Disk} (h : Disk.Absent (markerName (shardFileName k)) d) :
    Consistent b k { disk := d } where
  receiving := receiving_of_absent h
  sending := fun node id ws h => by cases h
  transmitted := fun node id ws h => by cases h
  carried := fun node req h => by cases h
  promised := fun node a h => by cases h
  done := fun node id h => by cases h

theorem StreamOp.sound (h : StreamOp w e node stream ws r) (hcarries : Carries b k w e)
    (hkey : ws.key = k) (hsending : Sending b ws) : Sound b ws r := by
  cases h with
  | write hws h => exact WriteStream.sound_write hsending (hcarries ws hws hkey) h
  | commit hws h => exact WriteStream.sound_commit hsending (hcarries ws hws hkey) h
  | abort => exact WriteStream.sound_abort hsending
  | timer => exact WriteStream.sound_onTimer hsending
  | ack => exact WriteStream.sound_handleAck hsending _

theorem StreamOp.done (h : StreamOp w e node stream ws r) (hdone : r.done = some (.ok ())) :
    ∃ a, (node, .writeAck a) ∈ w.replies ∧ a.stream = ws.stream ∧ a.committed = true ∧
      (w.clients node).writes a.key = some stream := by
  cases h with
  | write _ h =>
    unfold WriteStream.write at h
    split_ifs at h <;> cases h <;> cases hdone
  | commit _ h =>
    unfold WriteStream.commit at h
    split_ifs at h <;> cases h <;> cases hdone
  | abort =>
    unfold WriteStream.abort at hdone
    split at hdone <;> cases hdone
  | timer =>
    unfold WriteStream.onTimer at hdone
    split_ifs at hdone <;> cases hdone
  | ack _ hlive hmem =>
    obtain ⟨hstream, hcommitted⟩ := WriteStream.done_handleAck hdone
    exact ⟨_, hmem, hstream, hcommitted, hlive⟩

theorem Request.key_of_from (h : req.From k id) : req.key = k := by
  cases req with
  | chunk m | commit m => exact h.1
  | delete m => exact h.elim

theorem consistent_effect (hw : Registered w) (hc : Consistent b k w)
    (hop : StreamOp w e node stream ws r) (hcarries : Carries b k w e) :
    Consistent b k (w.effect node r) := by
  have hws := hop.stream_eq
  have hr := hop.proper
  have hid := (hw.stream _ _ _ hws).1
  have hstream : r.stream.stream = stream := hr.stream.trans hid
  have hsound : ws.key = k → Sound b ws r :=
    fun hkey => hop.sound hcarries hkey (hc.sending _ _ _ hws hkey)
  refine ⟨hc.receiving, fun node' id ws' h hkey => ?_, fun node' id ws' h hkey i hi => ?_,
    fun node' req h hkey => ?_, hc.promised, fun node' id h hknown => ?_⟩
  · rw [streams_effect] at h
    split at h
    · cases h
      exact (hsound (hr.key ▸ hkey)).sending
    · exact hc.sending node' id ws' h hkey
  · rw [streams_effect] at h
    split at h
    · rename_i heq
      cases h
      obtain ⟨rfl, rfl⟩ := heq
      have hkey' : ws.key = k := hr.key ▸ hkey
      rcases (hsound hkey').transmits i hi with hi | ⟨c, hmem, hrange⟩
      · obtain ⟨c, hmem, hck, hcs, hrange⟩ := hc.transmitted _ _ _ hws hkey' i hi
        exact ⟨c, List.mem_append_left _ hmem, hck, hcs.trans hstream.symm, hrange⟩
      · have hfrom := hr.msgs _ hmem
        exact ⟨c, List.mem_append_right _ (List.mem_map.mpr ⟨_, hmem, rfl⟩),
          hfrom.1.trans hkey', hfrom.2.trans hr.stream.symm, hrange⟩
    · obtain ⟨c, hmem, hrest⟩ := hc.transmitted node' id ws' h hkey i hi
      exact ⟨c, List.mem_append_left _ hmem, hrest⟩
  · rcases List.mem_append.mp h with h | h
    · exact hc.carried node' req h hkey
    · obtain ⟨m, hm, heq⟩ := List.mem_map.mp h
      cases heq
      exact (hsound ((Request.key_of_from (hr.msgs _ hm)).symm.trans hkey)).carries _ hm
  · rcases List.mem_append.mp h with h | h
    · refine hc.done node' id h ?_
      obtain ⟨ws', hws', hkey⟩ := hknown
      rw [streams_effect] at hws'
      split at hws'
      · rename_i heq
        cases hws'
        rw [heq.1, heq.2, hstream]
        exact ⟨ws, hws, hr.key.symm.trans hkey⟩
      · exact ⟨ws', hws', hkey⟩
    · obtain ⟨result, hresult, heq⟩ := Option.map_eq_some_iff.mp (Option.mem_toList.mp h)
      cases heq
      obtain ⟨a, hmem, has, hcommitted, hlive⟩ := hop.done hresult
      -- the ack is for the key under which the stream is registered
      obtain ⟨ws₁, hws₁, hkey₁⟩ := hw.writes _ _ _ hlive
      obtain ⟨ws₂, hws₂, hkey₂⟩ := hknown
      rw [streams_effect, if_pos ⟨rfl, rfl⟩] at hws₂
      cases hws₂
      rw [hws] at hws₁
      cases hws₁
      exact ⟨a, hmem, hkey₁.symm.trans (hr.key.symm.trans hkey₂), has.trans hr.stream.symm,
        hcommitted⟩

theorem consistent_opened (hw : Registered w) (hc : Consistent b k w) :
    Consistent b k (w.opened node k') := by
  refine ⟨hc.receiving, fun node' id ws' h hkey => ?_, fun node' id ws' h hkey i hi => ?_,
    hc.carried, fun node' a h hkey hcommitted hundeleted => ?_, fun node' id h hknown => ?_⟩
  · rw [streams_opened] at h
    split at h
    · cases h
      exact ⟨Nat.le_refl _, fun _ => rfl, fun _ => List.nil_prefix, fun _ h => (by cases h)⟩
    · exact hc.sending node' id ws' h hkey
  · rw [streams_opened] at h
    split at h
    · cases h
      exact absurd hi (Nat.not_lt_zero i)
    · exact hc.transmitted node' id ws' h hkey i hi
  · refine hc.promised node' a h hkey hcommitted (fun i hi => hundeleted i ?_)
    -- the stream of an ack is not the new one
    have hne : Issue.opened node ((w.clients node).nextReq + 1) k' ≠ .opened node' a.stream k := by
      intro heq
      obtain ⟨rfl, hid, -⟩ := Issue.opened.inj heq
      obtain ⟨ws', hws', -⟩ := hw.reply _ a h
      have := (hw.stream _ _ _ hws').2.1
      omega
    show i ∈ since _ (_ :: w.history)
    rw [since_cons_of_ne hne]
    exact List.mem_cons_of_mem _ hi
  · refine hc.done node' id h ?_
    obtain ⟨ws', hws', hkey⟩ := hknown
    obtain ⟨ws₁, hws₁, -⟩ := hw.outcome _ h
    have hle := (hw.stream _ _ _ hws₁).2.1
    rw [streams_opened, if_neg] at hws'
    · exact ⟨ws', hws', hkey⟩
    · rintro ⟨rfl, rfl⟩
      dsimp only at hle
      omega

theorem consistent_deleted (hc : Consistent b k w) : Consistent b k (w.deleted node k') := by
  refine ⟨hc.receiving, fun node' id ws' h => ?_, fun node' id ws' h hkey i hi => ?_,
    fun node' req h hkey => ?_, fun node' a h hkey hcommitted hundeleted => ?_,
    fun node' id h hknown => ?_⟩
  · rw [streams_deleted] at h
    exact hc.sending node' id ws' h
  · rw [streams_deleted] at h
    obtain ⟨c, hmem, hrest⟩ := hc.transmitted node' id ws' h hkey i hi
    exact ⟨c, List.mem_append_left _ hmem, hrest⟩
  · rcases List.mem_append.mp h with h | h
    · exact hc.carried node' req h hkey
    · rw [List.mem_singleton] at h
      cases h
      trivial
  · refine hc.promised node' a h hkey hcommitted (fun i hi => hundeleted i ?_)
    show i ∈ since _ (_ :: w.history)
    rw [since_cons_of_ne (fun h => by cases h)]
    exact List.mem_cons_of_mem _ hi
  · refine hc.done node' id h ?_
    obtain ⟨ws', hws', hkey⟩ := hknown
    exact ⟨ws', (streams_deleted w node k' node' id).symm.trans hws', hkey⟩

theorem sameFiles_of_ne {st : Option Staging} (hne : req.key ≠ k) (d : Disk) {x : Disk}
    (hx : x ∈ (handle faults st req).states d) :
    Disk.SameFile (shardFileName k) d x ∧ Disk.SameFile (markerName (shardFileName k)) d x := by
  have hfile : shardFileName k ≠ shardFileName req.key :=
    fun h => hne (shardFileName_inj h).symm
  have hframe : ∀ other, other ≠ shardFileName req.key →
      other ≠ markerName (shardFileName req.key) → Disk.SameFile other d x :=
    fun other h₁ h₂ => (handle_frame h₁ h₂ faults d).states (fun _ _ h => h)
      (Disk.SameFile.refl d) x hx
  exact ⟨hframe _ hfile (shardFileName_ne_markerName k _),
    hframe _ (shardFileName_ne_markerName req.key _).symm
      (fun h => hfile (markerName_inj h))⟩

theorem final_mem_states (p : Prog Disk Handled) (d : Disk) : (p d).final ∈ p.states d :=
  List.mem_append_right _ (List.mem_singleton_self _)

theorem not_undeleted_of_safeDelete (hw : Registered w) {m : DeleteMsg} (hkey : m.key = k)
    (hreq : (node, .delete m) ∈ w.requests)
    (hsafe : ∀ i ∈ since (.deleted node m.reqID k) w.history, i.opens k = false) {a : WriteAckMsg}
    (ha : (node', .writeAck a) ∈ w.replies) (hak : a.key = k) : ¬ Undeleted k w node' a.stream := by
  intro hundeleted
  have hdeleted := (hw.request node _ hreq).2 m rfl
  rw [hkey] at hdeleted
  obtain ⟨ws', hws', hkey'⟩ := hw.reply node' a ha
  have hopened := (hw.stream _ _ _ hws').2.2
  rw [hkey', hak] at hopened
  rcases mem_since_or_mem_since hdeleted hopened (fun h => by cases h) with h | h
  · exact absurd (hundeleted _ h) (by simp [Issue.deletes])
  · exact absurd (hsafe _ h) (by simp [Issue.opens])

/-- What handling a message does to a shard that has its marker, at every point of
the handler: nothing, unless it is a delete. -/
theorem sealed_states (hc : Consistent b k w) (hreq : (node, req) ∈ w.requests)
    (hsealed : Sealed b k w.disk) (hdelete : ∀ m, req = .delete m → m.key ≠ k)
    (hfaults : req.key = k → faults = noFaults) {x : Disk}
    (hx : x ∈ (handle faults (w.staging req.key) req).states w.disk) : Sealed b k x := by
  by_cases hkey : req.key = k
  · obtain rfl := hfaults hkey
    have hnone : w.staging req.key = none := by
      rw [hkey]
      exact (hc.receiving.marked hsealed.marker).1
    rw [hnone] at hx
    have hnot : ∀ m, req ≠ .delete m := by
      rintro m rfl
      exact hdelete m rfl hkey
    exact (sealed_triple hkey (hc.carried node req hreq hkey) hnot).states (fun _ _ h => h)
      hsealed x hx
  · obtain ⟨hfile, hmarker⟩ := sameFiles_of_ne hkey w.disk hx
    exact hsealed.congr hfile hmarker

variable (hw : Registered w) (hc : Consistent b k w)

include hw hc

theorem consistent_handled (hreq : (node, req) ∈ w.requests)
    (hsafe : SafeDelete k w (.deliver node req faults))
    (hfaults : Faultless k (.deliver node req faults)) :
    Consistent b k (w.handled node req faults) := by
  have hfinal := final_mem_states (handle faults (w.staging req.key) req) w.disk
  -- a promise that was made before still holds
  have hkept : ∀ node' a, (node', .writeAck a) ∈ w.replies → a.key = k → a.committed = true →
      Undeleted k w node' a.stream → Sealed b k (w.handled node req faults).disk := by
    intro node' a ha hak hcommitted hundeleted
    refine sealed_states hc hreq (hc.promised node' a ha hak hcommitted hundeleted) ?_ hfaults
      hfinal
    rintro m rfl hkey
    exact not_undeleted_of_safeDelete hw hkey hreq (hsafe hkey).2 ha hak hundeleted
  have hanswered : req.key = k →
      Answered b k (handle faults (w.staging req.key) req w.disk).value
        (w.handled node req faults).disk := by
    intro hkey
    obtain rfl := hfaults hkey
    have hdelete : ∀ m, req = .delete m → w.staging req.key = none := by
      rintro m rfl
      rw [hkey]
      exact (hsafe hkey).1
    have hreceiving : Receiving b k (w.staging req.key) w.disk := by
      rw [hkey]
      exact hc.receiving
    exact (handle_triple hkey (hc.carried node req hreq hkey) hdelete w.disk hreceiving).1
  refine ⟨?_, hc.sending, hc.transmitted, hc.carried, fun node' a h hak hcommitted hundeleted => ?_,
    fun node' id h hknown => ?_⟩
  · show Receiving b k (Function.update w.staging req.key _ k) _
    by_cases hkey : req.key = k
    · subst hkey
      rw [Function.update_self]
      exact (hanswered rfl).1
    · rw [Function.update_of_ne (fun h => hkey h.symm)]
      obtain ⟨hfile, hmarker⟩ := sameFiles_of_ne hkey w.disk hfinal
      exact hc.receiving.congr hfile hmarker
  · rcases List.mem_append.mp h with h | h
    · exact hkept node' a h hak hcommitted hundeleted
    · obtain ⟨reply, hreply, heq⟩ := Option.map_eq_some_iff.mp (Option.mem_toList.mp h)
      cases heq
      have hkey : req.key = k := by
        cases req with
        | chunk m => exact (handleChunk_acks _ _ m w.disk a hreply).1.symm.trans hak
        | commit m => exact (handleCommit_acks _ _ m w.disk a hreply).1.symm.trans hak
        | delete m => exact absurd hreply (handleDelete_acks _ _ m w.disk a)
      exact (hanswered hkey).2 a hreply hcommitted
  · obtain ⟨a, ha, hrest⟩ := hc.done node' id h hknown
    exact ⟨a, List.mem_append_left _ ha, hrest⟩

theorem consistent_crashed {during : Option (NodeID × Request)} {after : Disk}
    (hcrash : w.CrashOk (.crash during faults after))
    (hsafe : SafeDelete k w (.crash during faults after))
    (hfaults : Faultless k (.crash during faults after)) : Consistent b k (w.crashed after) := by
  have hrecovers : Receiving b k none after := by
    cases during with
    | none => exact hc.receiving.crash after hcrash
    | some msg =>
      obtain ⟨node, req⟩ := msg
      obtain ⟨hreq, x, hx, hcrash⟩ := hcrash
      by_cases hkey : req.key = k
      · obtain rfl := hfaults hkey
        have hdelete : ∀ m, req = .delete m → w.staging req.key = none := by
          rintro m rfl
          rw [hkey]
          exact (hsafe hkey).1
        have hreceiving : Receiving b k (w.staging req.key) w.disk := by
          rw [hkey]
          exact hc.receiving
        exact (handle_triple hkey (hc.carried node req hreq hkey) hdelete).states
          (fun r d h => h.1.crash) hreceiving x hx after hcrash
      · obtain ⟨hfile, hmarker⟩ := sameFiles_of_ne hkey w.disk hx
        exact (hc.receiving.congr hfile hmarker).crash after hcrash
  refine ⟨hrecovers, hc.sending, hc.transmitted, hc.carried,
    fun node' a h hak hcommitted hundeleted => ?_, hc.done⟩
  have hsealed := hc.promised node' a h hak hcommitted hundeleted
  cases during with
  | none => exact hsealed.crash hcrash
  | some msg =>
    obtain ⟨node, req⟩ := msg
    obtain ⟨hreq, x, hx, hcrash⟩ := hcrash
    refine (sealed_states hc hreq hsealed ?_ hfaults hx).crash hcrash
    rintro m rfl hkey
    exact not_undeleted_of_safeDelete hw hkey hreq (hsafe hkey).2 h hak hundeleted

theorem Consistent.step (h : w.Possible e) (hcarries : Carries b k w e) (hsafe : SafeDelete k w e)
    (hfaults : Faultless k e) : Consistent b k (w.next e) := by
  have hstep := h.stepped
  generalize w.next e = w' at hstep ⊢
  cases hstep with
  | idle => exact hc
  | onStream hop => exact consistent_effect hw hc hop hcarries
  | opened => exact consistent_opened hw hc
  | deleted => exact consistent_deleted hc
  | handled hreq => exact consistent_handled hw hc hreq hsafe hfaults
  | crashed hcrash => exact consistent_crashed hw hc hcrash hsafe hfaults

end OneKey

end Hamster.Datapath
