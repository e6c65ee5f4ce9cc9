import Hamster.Datapath.Transfer

/-!
# What a commit marker proves

The results about shard transfers, for every run from a receiver without the marker of
the key.

* `transfer_safe`: without deletes of the key, `done` is called once at most for a
  stream, and with nil only if the receiver durably holds the whole shard and its
  marker.  A shard with a durable marker never changes again.
* `marker_true_of_safeDelete`: with deletes, the marker is true and stays as long as
  every delete that is handled is a safe one.  The run of `staleDelete_certifies_suffix`
  shows why: the second delivery of a delete hits a later transfer of the shard, and the
  marker then certifies the second half of the bytes.

Both need that no call of the receiver's disk fails.  When the sync of the marker does,
`fail` removes the file and leaves the marker, and a commit that is sent again finds it
(`failedSync_acknowledged`).
-/

namespace Hamster.Datapath

open CodeLib Seam Meta

def Holds (b : Bytes) (k : ShardKey) (d : Disk) : Prop :=
  d.durable.get (markerName (shardFileName k)) ≠ none ∧ d.durable.get (shardFileName k) = some b
deriving Decidable

theorem Sealed.holds {b : Bytes} {k : ShardKey} {d : Disk} (h : Sealed b k d) : Holds b k d :=
  ⟨h.marker, h.file⟩

instance safeDeleteDecidable (k : ShardKey) (w : World) (e : Event) :
    Decidable (SafeDelete k w e) := by
  unfold SafeDelete
  split <;> infer_instance

instance carriesDecidable (b : Bytes) (k : ShardKey) (w : World) (e : Event) :
    Decidable (Carries b k w e) := by
  unfold Carries
  split <;> infer_instance

section Runs

variable {b : Bytes} {k : ShardKey} {w : World} {e : Event} {d : Disk} {es : List Event}

/-! ## Runs with safe deletes -/

theorem consistent_run (hdisk : Disk.Absent (markerName (shardFileName k)) d)
    (hrun : EachStep World.next
      (fun w e => w.Possible e ∧ Carries b k w e ∧ SafeDelete k w e) { disk := d } es)
    (hfaults : ∀ e ∈ es, Faultless k e) :
    Registered (es.foldl World.next { disk := d }) ∧
      Consistent b k (es.foldl World.next { disk := d }) := by
  have hstep : ∀ (w : World) (e : Event),
      (Faultless k e ∧ w.Possible e ∧ Carries b k w e ∧ SafeDelete k w e) →
      Registered w ∧ Consistent b k w → Registered (w.next e) ∧ Consistent b k (w.next e) := by
    intro w e he hw
    exact ⟨hw.1.step he.2.1, hw.2.step hw.1 he.2.1 he.2.2.1 he.2.2.2 he.1⟩
  exact (hrun.and_of_forall hfaults).invariant hstep ⟨registered_start d, consistent_start hdisk⟩
    (List.prefix_refl es)

/-- A durable marker is true, and the shard of a stream that ended well stays until a
delete is issued, if every delete that is handled is safe and no call of the disk
fails. -/
theorem marker_true_of_safeDelete (hdisk : Disk.Absent (markerName (shardFileName k)) d)
    (hrun : EachStep World.next
      (fun w e => w.Possible e ∧ Carries b k w e ∧ SafeDelete k w e) { disk := d } es)
    (hfaults : ∀ e ∈ es, Faultless k e) :
    let w := es.foldl World.next { disk := d }
    (w.disk.durable.get (markerName (shardFileName k)) ≠ none →
        w.disk.durable.get (shardFileName k) = some b) ∧
      ∀ node stream, Known w node stream k → (node, stream, .ok ()) ∈ w.outcomes →
        Undeleted k w node stream → Holds b k w.disk := by
  obtain ⟨-, hc⟩ := consistent_run hdisk hrun hfaults
  refine ⟨fun hmarker => (hc.receiving.marked hmarker).2.file, ?_⟩
  intro node stream hknown hdone hundeleted
  obtain ⟨a, ha, hkey, rfl, hcommitted⟩ := hc.done node stream hdone hknown
  exact (hc.promised node a ha hkey hcommitted hundeleted).holds

/-! ## Runs without deletes -/

def NoDeletes (k : ShardKey) (w : World) : Prop := ∀ i ∈ w.history, i.deletes k = false

theorem NoDeletes.step (h : NoDeletes k w) (hpossible : w.Possible e)
    (he : ∀ node, e ≠ .delete node k) : NoDeletes k (w.next e) := by
  have hstep := hpossible.stepped
  generalize w.next e = w' at hstep ⊢
  cases hstep with
  | idle | onStream | handled | crashed => exact h
  | opened =>
    intro i hi
    rcases List.mem_cons.mp hi with rfl | hi
    · rfl
    · exact h i hi
  | @deleted node k' =>
    intro i hi
    rcases List.mem_cons.mp hi with rfl | hi
    · have hne : k' ≠ k := fun heq => he node (by rw [heq])
      simpa [Issue.deletes] using hne
    · exact h i hi

theorem NoDeletes.key_ne (h : NoDeletes k w) (hw : Registered w) {node : NodeID} {m : DeleteMsg}
    (hreq : (node, .delete m) ∈ w.requests) : m.key ≠ k := by
  intro hkey
  have hdeleted := h _ ((hw.request node _ hreq).2 m rfl)
  rw [Issue.deletes, hkey] at hdeleted
  exact absurd hdeleted (by simp)

theorem World.Possible.mem_requests {node : NodeID} {req : Request} {faults : Faults}
    (h : w.Possible (.deliver node req faults)) : (node, req) ∈ w.requests := by
  by_contra hmem
  have hsome := h.2
  rw [World.step, if_neg hmem] at hsome
  cases hsome

theorem NoDeletes.safeDelete (h : NoDeletes k w) (hw : Registered w) (hpossible : w.Possible e) :
    SafeDelete k w e := by
  unfold SafeDelete
  split
  · exact fun hkey => absurd hkey (h.key_ne hw hpossible.mem_requests)
  · exact fun hkey => absurd hkey (h.key_ne hw hpossible.1.1)
  · trivial

theorem Sealed.step (hw : Registered w) (hc : Consistent b k w) (hn : NoDeletes k w)
    (hsealed : Sealed b k w.disk) (h : w.Possible e) (hfaults : Faultless k e) :
    Sealed b k (w.next e).disk := by
  have hstep := h.stepped
  generalize w.next e = w' at hstep ⊢
  cases hstep with
  | idle | onStream | opened | deleted => exact hsealed
  | handled hreq =>
    refine sealed_states hc hreq hsealed ?_ hfaults (final_mem_states _ _)
    rintro m rfl
    exact hn.key_ne hw hreq
  | @crashed during faults after hcrash =>
    cases during with
    | none => exact hsealed.crash hcrash
    | some msg =>
      obtain ⟨node, req⟩ := msg
      obtain ⟨hreq, x, hx, hcrash⟩ := hcrash
      refine (sealed_states hc hreq hsealed ?_ hfaults hx).crash hcrash
      rintro m rfl
      exact hn.key_ne hw hreq

/-- No delete of the key is issued, and no call of the disk fails. -/
def Quiet (k : ShardKey) (e : Event) : Prop := (∀ node, e ≠ .delete node k) ∧ Faultless k e

structure Transferring (b : Bytes) (k : ShardKey) (w : World) : Prop where
  registered : Registered w
  consistent : Consistent b k w
  noDeletes : NoDeletes k w

theorem Transferring.step (hw : Transferring b k w)
    (h : Quiet k e ∧ w.Possible e ∧ Carries b k w e) :
    Transferring b k (w.next e) where
  registered := hw.registered.step h.2.1
  consistent := hw.consistent.step hw.registered h.2.1 h.2.2
    (hw.noDeletes.safeDelete hw.registered h.2.1) h.1.2
  noDeletes := hw.noDeletes.step h.2.1 h.1.1

theorem Transferring.sealed_run (hw : Transferring b k w) (hsealed : Sealed b k w.disk)
    (hrun : EachStep World.next
      (fun w e => Quiet k e ∧ w.Possible e ∧ Carries b k w e) w es) :
    Sealed b k (es.foldl World.next w).disk := by
  have hstep : ∀ (w : World) (e : Event),
      (Quiet k e ∧ w.Possible e ∧ Carries b k w e) →
      Transferring b k w ∧ Sealed b k w.disk →
      Transferring b k (w.next e) ∧ Sealed b k (w.next e).disk := by
    intro w e he hw
    exact ⟨hw.1.step he, hw.2.step hw.1.registered hw.1.consistent hw.1.noDeletes he.2.1 he.1.2⟩
  exact (hrun.invariant hstep ⟨hw, hsealed⟩ (List.prefix_refl es)).2

/-- The transfer protocol, in every run without deletes of the key whose streams carry
`b`, and in which no call of the disk fails for the key: `done` fires once at
most, and with nil only over a durable shard; the acknowledged bytes were
transmitted; what is staged is a prefix of `b`; and a shard with a durable marker
never changes. -/
theorem transfer_safe (hdisk : Disk.Absent (markerName (shardFileName k)) d)
    (hrun : EachStep World.next (fun w e => w.Possible e ∧ Carries b k w e) { disk := d } es)
    (hdeletes : ∀ e ∈ es, ∀ node, e ≠ .delete node k) (hfaults : ∀ e ∈ es, Faultless k e) :
    let w := es.foldl World.next { disk := d }
    (w.outcomes.map (fun o => (o.1, o.2.1))).Nodup ∧
      (∀ node stream ws, (w.clients node).streams stream = some ws → ws.key = k →
        ((node, stream, .ok ()) ∈ w.outcomes → Holds b k w.disk) ∧
        ws.base ≤ ws.sent ∧
        ∀ i < ws.sent, ∃ c, (node, .chunk c) ∈ w.requests ∧ c.key = k ∧ c.stream = stream ∧
          c.offset ≤ i ∧ i < c.offset + c.data.length) ∧
      (∀ st, w.staging k = some st → st.staged ≤ b.length ∧ st.hash = b.take st.staged ∧
        w.disk.readFile (shardFileName k) = some (b.take st.staged)) ∧
      ∀ es', es' <+: es →
        (es'.foldl World.next { disk := d }).disk.durable.get (markerName (shardFileName k)) ≠
          none →
        Holds b k (es'.foldl World.next { disk := d }).disk ∧ Holds b k w.disk ∧
          w.disk.readFile (shardFileName k) = some b := by
  have hall := hrun.and_of_forall (fun e he => (⟨hdeletes e he, hfaults e he⟩ : Quiet k e))
  have hreach : ∀ es', es' <+: es → Transferring b k (es'.foldl World.next { disk := d }) :=
    fun es' hes' => hall.invariant (fun w e h hw => Transferring.step hw h)
      ⟨registered_start d, consistent_start hdisk, fun i hi => (by cases hi)⟩ hes'
  obtain ⟨hw, hc, hn⟩ := hreach es (List.prefix_refl es)
  refine ⟨hw.nodup, fun node stream ws hws hkey => ⟨fun hdone => ?_, ?_, ?_⟩, fun st hst => ?_,
    fun es' hes' hmarker => ?_⟩
  · obtain ⟨a, ha, hak, rfl, hcommitted⟩ := hc.done node stream hdone ⟨ws, hws, hkey⟩
    refine (hc.promised node a ha hak hcommitted (fun i hi => hn i ?_)).holds
    exact (List.takeWhile_prefix _).subset hi
  · exact (hc.sending node stream ws hws hkey).base_le
  · exact hc.transmitted node stream ws hws hkey
  · obtain ⟨hle, hhash, keep, hfile⟩ := hc.receiving.live st hst
    refine ⟨hle, hhash, ?_⟩
    rw [Disk.readFile, hfile]
    rfl
  · have hat := hreach es' hes'
    have hsealed := (hat.consistent.receiving.marked hmarker).2
    obtain ⟨rest, rfl⟩ := hes'
    have hlater := hat.sealed_run hsealed hall.of_append
    rw [List.foldl_append]
    refine ⟨hsealed.holds, hlater.holds, ?_⟩
    rw [Disk.readFile_of_quiet hlater.fileQuiet, hlater.file]

end Runs

/-! ## Two runs -/

def Event.isCrash : Event → Bool
  | .crash _ _ _ => true
  | _ => false

theorem possible_of_enabled {P : World → Event → Prop} {w : World} {es : List Event}
    (hcrash : ∀ e ∈ es, e.isCrash = false)
    (h : EachStep World.next (fun w e => (w.step e).isSome = true ∧ P w e) w es) :
    EachStep World.next (fun w e => w.Possible e ∧ P w e) w es := by
  refine (h.and_of_forall hcrash).imp (fun w e he => ⟨⟨?_, he.2.1⟩, he.2.2⟩)
  cases e with
  | crash during faults after => cases he.1
  | _ => trivial

def someShard : ShardKey := ⟨VersionID.ofByte 1, 0⟩

def firstChunk (stream : Nat) : Request := .chunk ⟨someShard, 0, [1], stream⟩

def secondChunk (stream : Nat) : Request := .chunk ⟨someShard, 1, [2], stream⟩

def commitBoth (stream : Nat) : Request := .commit ⟨someShard, 2, sha256 [1, 2], stream⟩

def sendBoth (node : NodeID) (stream : Nat) : List Event :=
  [ .newWrite node someShard, .write node stream [1], .write node stream [2]
  , .commit node stream 2 (sha256 [1, 2]) ]

/-- The messages arrive out of order and twice, and then the positive ack. -/
def lossyRun : List Event :=
  sendBoth [97] 1 ++
    [ .deliver [97] (secondChunk 1), .deliver [97] (firstChunk 1), .deliver [97] (commitBoth 1)
    , .timer [97] 1, .deliver [97] (firstChunk 1), .deliver [97] (secondChunk 1)
    , .deliver [97] (commitBoth 1)
    , .ack [97] (.writeAck { key := someShard, committed := true, stream := 1 }) ]

/-- The stream of the run ends well, so the shard is durable. -/
theorem transfer_safe_lossyRun :
    let w := lossyRun.foldl World.next { disk := Disk.newDisk }
    ([97], 1, .ok ()) ∈ w.outcomes ∧ Holds [1, 2] someShard w.disk := by
  have hmem : ([97], 1, .ok ()) ∈
      (lossyRun.foldl World.next { disk := Disk.newDisk }).outcomes := by decide +kernel
  have hsafe := @transfer_safe [1, 2] someShard Disk.newDisk lossyRun ⟨rfl, rfl⟩
    (possible_of_enabled (by decide) (by decide +kernel))
    (by
      rintro e he node rfl
      simp [lossyRun, sendBoth] at he)
    (by simp [lossyRun, sendBoth, Faultless])
  have hknown : (((lossyRun.foldl World.next { disk := Disk.newDisk }).clients [97]).streams 1).map
      WriteStream.key = some someShard := by decide +kernel
  obtain ⟨ws, hws, hkey⟩ := Option.map_eq_some_iff.mp hknown
  exact ⟨hmem, (hsafe.2.1 [97] 1 ws hws hkey).1 hmem⟩

/-- Everything arrives, the sync of the marker fails, and the ack that says so is lost.
The sender repeats the commit. -/
def failedSync : List Event :=
  sendBoth [97] 1 ++
    [ .deliver [97] (firstChunk 1), .deliver [97] (secondChunk 1)
    , .deliver [97] (commitBoth 1) (fun i => i = 2)
    , .timer [97] 1, .deliver [97] (commitBoth 1)
    , .ack [97] (.writeAck { key := someShard, committed := true, stream := 1 }) ]

/-- The sender is told that its shard is durable, and there is no file. -/
theorem failedSync_acknowledged :
    let w := failedSync.foldl World.next { disk := Disk.newDisk }
    EachStep World.next (fun w e => w.Possible e ∧ Carries [1, 2] someShard w e)
        { disk := Disk.newDisk } failedSync ∧
      (∀ e ∈ failedSync, ∀ node, e ≠ .delete node someShard) ∧
      ([97], 1, .ok ()) ∈ w.outcomes ∧ ¬Holds [1, 2] someShard w.disk ∧
      w.disk.readFile (shardFileName someShard) = none := by
  refine ⟨possible_of_enabled (by decide) (by decide +kernel), ?_, by decide +kernel⟩
  rintro e he node rfl
  simp [failedSync, sendBoth] at he

def Issue.stream (k : ShardKey) : Issue → Option (NodeID × Nat)
  | .opened node stream k' => if k' = k then some (node, stream) else none
  | .deleted _ _ _ => none

/-- A caller issues a delete of the key only while no stream of it is open. -/
def DeletesApart (k : ShardKey) (w : World) : Event → Prop
  | .delete _ k' => k' = k →
      ∀ x ∈ w.history.filterMap (Issue.stream k), x ∈ w.outcomes.map (fun o => (o.1, o.2.1))
  | _ => True

instance deletesApartDecidable (k : ShardKey) (w : World) (e : Event) :
    Decidable (DeletesApart k w e) := by
  unfold DeletesApart
  split <;> infer_instance

/-- A delete is handled and answered before the shard is sent. -/
def deleteThenSend : List Event :=
  [ .delete [97] someShard, .deliver [97] (.delete ⟨1, someShard⟩)
  , .ack [97] (.deleteAck { reqID := 1 }) ] ++ sendBoth [97] 2 ++ [.deliver [97] (firstChunk 2)]

def receiveRest : List Event :=
  [ .deliver [97] (secondChunk 2), .deliver [97] (commitBoth 2)
  , .ack [97] (.writeAck { key := someShard, committed := true, stream := 2 }) ]

theorem marker_true_deleteThenSend :
    let w := (deleteThenSend ++ receiveRest).foldl World.next { disk := Disk.newDisk }
    ([97], 2, .ok ()) ∈ w.outcomes ∧ Holds [1, 2] someShard w.disk := by
  have hmem : ([97], 2, .ok ()) ∈ ((deleteThenSend ++ receiveRest).foldl World.next
      { disk := Disk.newDisk }).outcomes := by decide +kernel
  have hknown : ((((deleteThenSend ++ receiveRest).foldl World.next
      { disk := Disk.newDisk }).clients [97]).streams 2).map WriteStream.key = some someShard := by
    decide +kernel
  have htrue := @marker_true_of_safeDelete [1, 2] someShard Disk.newDisk
    (deleteThenSend ++ receiveRest) ⟨rfl, rfl⟩
    (possible_of_enabled (by decide) (by decide +kernel))
    (by simp [deleteThenSend, receiveRest, sendBoth, Faultless])
  exact ⟨hmem, htrue.2 [97] 2 (Option.map_eq_some_iff.mp hknown) hmem (by decide +kernel)⟩

/-- The network delivers the delete a second time between the two chunks: the
receiver ends up with a durable marker over the second byte alone, and the sender is
told that its shard is durable. -/
theorem staleDelete_certifies_suffix :
    let es := deleteThenSend ++ [.deliver [97] (.delete ⟨1, someShard⟩)] ++ receiveRest
    let w := es.foldl World.next { disk := Disk.newDisk }
    EachStep World.next (fun w e => w.Possible e ∧ Carries [1, 2] someShard w e ∧
        DeletesApart someShard w e) { disk := Disk.newDisk } es ∧
      w.disk.durable.get (markerName (shardFileName someShard)) ≠ none ∧
      w.disk.durable.get (shardFileName someShard) = some [2] ∧
      ([97], 2, .ok ()) ∈ w.outcomes ∧ Undeleted someShard w [97] 2 :=
  ⟨possible_of_enabled (by decide) (by decide +kernel), by decide +kernel⟩

end Hamster.Datapath
