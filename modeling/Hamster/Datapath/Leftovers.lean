import Hamster.Datapath.TransferSafety

/-!
# What a delete leaves behind

A receiver keeps a staging record in memory and two files on disk for a shard.  When
every stream of the key has ended and a delete of it is handled, all three should be
gone for good.  `nothing_left` says when they are.

`handleDelete` removes the files and does not look at the staging.  So the record of a
stream that was aborted outlives the delete (`staging_outlives_delete`), and a first
chunk of such a stream that arrives after the delete makes a record and a file again.
`Tidy` excludes these two steps.  As before, no call of the disk fails.
-/

namespace Hamster.Datapath

open CodeLib Seam Meta

/-! ## One key at the receiver -/

/-- Between two handlers the marker has no change under way, and the file has one only
while it is staged, which is not a removal. -/
structure Tracked (k : ShardKey) (st : Option Staging) (d : Disk) : Prop where
  marker : d.staged.get (markerName (shardFileName k)) = none
  file : ∀ c, d.staged.get (shardFileName k) = some c → st ≠ none ∧ c.removed = false

structure Gone (k : ShardKey) (st : Option Staging) (d : Disk) : Prop where
  staging : st = none
  file : Disk.Absent (shardFileName k) d
  marker : Disk.Absent (markerName (shardFileName k)) d

section OneKey

variable {k : ShardKey} {st : Option Staging} {d d' : Disk}

theorem Tracked.congr (h : Tracked k st d) (hfile : Disk.SameFile (shardFileName k) d d')
    (hmarker : Disk.SameFile (markerName (shardFileName k)) d d') : Tracked k st d' where
  marker := hmarker.2.trans h.marker
  file := by rw [hfile.2]; exact h.file

theorem tracked_of_quiet (h : ∀ name, d.staged.get name = none) : Tracked k st d where
  marker := h _
  file := fun _ hc => absurd ((h _).symm.trans hc) nofun

theorem Gone.congr (h : Gone k st d) (hfile : Disk.SameFile (shardFileName k) d d')
    (hmarker : Disk.SameFile (markerName (shardFileName k)) d d') : Gone k st d' :=
  ⟨h.staging, hfile.absent h.file, hmarker.absent h.marker⟩

theorem Gone.crash (h : Gone k st d) (hc : Disk.CrashesTo d d') : Gone k none d' :=
  ⟨rfl, ⟨(hc.durable_eq h.file.2).trans h.file.1, hc.quiet _⟩,
    ⟨(hc.durable_eq h.marker.2).trans h.marker.1, hc.quiet _⟩⟩

theorem Tracked.removeFile (h : Tracked k st d) :
    Disk.Absent (shardFileName k) ((Disk.removeFile (shardFileName k)).final d) ∧
      Disk.SameFile (markerName (shardFileName k)) d
        ((Disk.removeFile (shardFileName k)).final d) :=
  ⟨Disk.absent_removeFile (fun c hc => (h.file c hc).2),
    (Disk.removeFile_frame (marker_ne_file k) d d (Disk.SameFile.refl d)).1⟩

theorem Tracked.fail (h : Tracked k st d) (stream : Nat) (err : TransferError) :
    Tracked k ((fail noFaults k stream err).value d).1 ((fail noFaults k stream err).final d) := by
  rw [Datapath.fail, tryRemove_bind]
  refine ⟨h.removeFile.2.2.trans h.marker, fun _ hc => ?_⟩
  cases h.removeFile.1.2.symm.trans hc

theorem Tracked.startStaging {m : ChunkMsg} (h : Tracked m.key st d) :
    Tracked m.key ((startStaging false st m).value d).1 ((startStaging false st m).final d) where
  marker := (d.sameFile_writeFile (marker_ne_file m.key) m.data).2.trans h.marker
  file := fun c hc => by
    cases (d.staged_writeFile_self m.data).symm.trans hc
    exact ⟨Option.some_ne_none _, rfl⟩

theorem Tracked.handleChunk {m : ChunkMsg} (h : Tracked m.key st d) :
    Tracked m.key ((handleChunk noFaults st m).value d).1
      ((handleChunk noFaults st m).final d) := by
  unfold Datapath.handleChunk
  cases st with
  | none =>
    rw [Prog.value_bind, Prog.final_bind]
    split_ifs
    · exact h
    · exact h.startStaging
    · exact h
  | some st =>
    dsimp only
    split_ifs
    · refine ⟨(d.sameFile_append (marker_ne_file m.key) m.data).2.trans h.marker, fun c hc => ?_⟩
      cases (d.staged_append_self m.data).symm.trans hc
      exact ⟨Option.some_ne_none _, d.appendBase_kept _⟩
    · exact h
    · exact h.startStaging
    · exact h

theorem Tracked.handleCommit {m : CommitMsg} (h : Tracked m.key st d) :
    Tracked m.key ((handleCommit noFaults st m).value d).1
      ((handleCommit noFaults st m).final d) := by
  unfold Datapath.handleCommit
  split_ifs
  · exact h.fail _ _
  · cases st with
    | none =>
      dsimp only
      rw [Prog.value_bind, Prog.final_bind]
      split_ifs
      · exact h
      · exact h
    | some st =>
      dsimp only
      split_ifs
      · exact h
      · exact h
      · exact h.fail _ _
      · -- the file is synced, and the marker after it
        have hne := (marker_ne_file m.key).symm
        refine ⟨Disk.staged_sync_self _, fun c hc => absurd ?_ (Option.some_ne_none c)⟩
        rw [← hc]
        refine ((Disk.sameFile_sync _ hne).2.trans ?_)
        exact (Disk.sameFile_writeFile _ hne []).2.trans d.staged_sync_self

theorem Tracked.handleDelete {m : DeleteMsg} (h : Tracked m.key st d) :
    Disk.Absent (shardFileName m.key) ((handleDelete noFaults st m).final d) ∧
      Disk.Absent (markerName (shardFileName m.key)) ((handleDelete noFaults st m).final d) := by
  have hmarker : Disk.Absent (markerName (shardFileName m.key))
      ((Disk.removeFile (markerName (shardFileName m.key))).final d) :=
    Disk.absent_removeFile (fun c hc => absurd (h.marker.symm.trans hc) nofun)
  have hsame : Disk.SameFile (shardFileName m.key) d
      ((Disk.removeFile (markerName (shardFileName m.key))).final d) :=
    (Disk.removeFile_frame (marker_ne_file m.key).symm d d (Disk.SameFile.refl d)).1
  have hrest : Tracked m.key st ((Disk.removeFile (markerName (shardFileName m.key))).final d) :=
    ⟨hmarker.2, by rw [hsame.2]; exact h.file⟩
  rw [handleDelete_noFaults]
  exact ⟨hrest.removeFile.1, hrest.removeFile.2.absent hmarker⟩

theorem Tracked.handle {req : Request} (h : Tracked req.key st d) :
    Tracked req.key ((handle noFaults st req).value d).1 ((handle noFaults st req).final d) := by
  cases req with
  | chunk m => exact h.handleChunk
  | commit m => exact h.handleCommit
  | delete m =>
    obtain ⟨hfile, hmarker⟩ := h.handleDelete
    exact ⟨hmarker.2, fun c hc => absurd (hfile.2.symm.trans hc) nofun⟩

def Request.starts : Request → Option Nat
  | .chunk m => if m.offset = 0 then some m.stream else none
  | _ => none

theorem gone_triple {req : Request} (h : Gone req.key none d) (hstarts : req.starts = none) :
    Prog.Triple (· = d) (handle noFaults none req) (fun r x => r.1 = none ∧ x = d) (· = d) := by
  have hlook : Prog.Triple (· = d) (committed false req.key)
      (fun c x => c = false ∧ x = d) (· = d) := by
    refine Prog.Triple.look (fun x hx => hx) (fun x hx => ⟨?_, hx⟩)
    rw [hx, Disk.readFile_of_quiet h.marker.2, h.marker.1]
    rfl
  have hremove : ∀ {name}, Disk.Absent name d →
      Prog.Triple (· = d) (Disk.removeFile name) (fun _ x => x = d) (· = d) := by
    rintro name hname x rfl
    rw [Disk.removeFile_of_absent hname]
    exact ⟨rfl, fun y hy => List.mem_singleton.mp hy⟩
  cases req with
  | chunk m =>
    refine Prog.Triple.bind hlook (fun c => ?_)
    cases c with
    | true => exact fun x hx => absurd hx.1 (by decide)
    | false =>
      have hoffset : m.offset ≠ 0 := fun hzero => by simp [Request.starts, hzero] at hstarts
      rw [if_neg (by decide), if_neg hoffset]
      exact Prog.Triple.pure (fun x hx => ⟨rfl, hx.2⟩)
  | commit m =>
    show Prog.Triple _ (handleCommit noFaults none m) _ _
    unfold handleCommit
    split_ifs
    · rw [fail, tryRemove_bind]
      exact Prog.Triple.bind (hremove h.file) (fun _ => Prog.Triple.pure (fun x hx => ⟨rfl, hx⟩))
    · refine Prog.Triple.bind hlook (fun c => ?_)
      split_ifs
      · exact Prog.Triple.pure (fun x hx => ⟨rfl, hx.2⟩)
      · exact Prog.Triple.pure (fun x hx => ⟨rfl, hx.2⟩)
  | delete m =>
    show Prog.Triple _ (handleDelete noFaults none m) _ _
    rw [handleDelete_noFaults]
    exact Prog.Triple.bind (hremove h.marker) (fun _ => Prog.Triple.bind (hremove h.file)
      (fun _ => Prog.Triple.pure (fun x hx => ⟨rfl, hx⟩)))

end OneKey

/-! ## Steps that leave nothing behind -/

def World.ended (w : World) : List (NodeID × Nat) := w.outcomes.map (fun o => (o.1, o.2.1))

/-- Every stream of the key that was ever opened has ended. -/
def Finished (k : ShardKey) (w : World) : Prop :=
  ∀ x ∈ w.history.filterMap (Issue.stream k), x ∈ w.ended

instance instDecidableFinished (k : ShardKey) (w : World) : Decidable (Finished k w) :=
  inferInstanceAs (Decidable (∀ x ∈ _, _))

/-- The message that an event has the receiver handle, if only in part. -/
def Event.handles : Event → Option (NodeID × Request)
  | .deliver node req _ => some (node, req)
  | .crash during _ _ => during
  | _ => none

def Request.isDelete : Request → Bool
  | .delete _ => true
  | _ => false

/-- A delete of the key finds nothing staged, and a first chunk of the key comes before
its stream has ended. -/
def Tidy (k : ShardKey) (w : World) (e : Event) : Prop :=
  ∀ x ∈ e.handles, x.2.key = k →
    (x.2.isDelete = true → w.staging k = none) ∧ ∀ s ∈ x.2.starts, (x.1, s) ∉ w.ended
deriving Decidable

section Runs

variable {k : ShardKey} {w : World} {e : Event} {node : NodeID} {req : Request} {faults : Faults}

theorem handled_key {R : Option Staging → Disk → Prop}
    (hcongr : ∀ {st d d'}, R st d → Disk.SameFile (shardFileName k) d d' →
      Disk.SameFile (markerName (shardFileName k)) d d' → R st d')
    (h : R (w.staging k) w.disk)
    (hfaults : Faultless k (.deliver node req faults))
    (hown : req.key = k → R ((handle noFaults (w.staging k) req).value w.disk).1
      ((handle noFaults (w.staging k) req).final w.disk)) :
    R ((w.handled node req faults).staging k) (w.handled node req faults).disk := by
  show R (Function.update w.staging req.key _ k) _
  by_cases hkey : req.key = k
  · obtain rfl := hfaults hkey
    subst hkey
    rw [Function.update_self]
    exact hown rfl
  · rw [Function.update_of_ne (fun h => hkey h.symm)]
    obtain ⟨hfile, hmarker⟩ := sameFiles_of_ne hkey w.disk (final_mem_states _ _)
    exact hcongr h hfile hmarker

theorem Tracked.step (hw : Tracked k (w.staging k) w.disk) (h : w.Possible e)
    (hfaults : Faultless k e) : Tracked k ((w.next e).staging k) (w.next e).disk := by
  have hstep := h.stepped
  generalize w.next e = w' at hstep ⊢
  cases hstep with
  | idle | onStream | opened | deleted => exact hw
  | handled =>
    refine handled_key Tracked.congr hw hfaults ?_
    rintro rfl
    exact hw.handle
  | @crashed during faults after hcrash =>
    obtain ⟨x, hx⟩ : ∃ x, Disk.CrashesTo x after := by
      rcases during with _ | ⟨node, req⟩
      · exact ⟨_, hcrash⟩
      · exact ⟨hcrash.2.choose, hcrash.2.choose_spec.2⟩
    exact tracked_of_quiet hx.quiet

theorem Finished.step (hw : Finished k w) (h : w.Possible e) (he : ∀ node, e ≠ .newWrite node k) :
    Finished k (w.next e) := by
  have hstep := h.stepped
  generalize w.next e = w' at hstep ⊢
  cases hstep with
  | idle | deleted | handled | crashed => exact hw
  | onStream =>
    intro x hx
    have hbefore := hw x hx
    simp only [World.ended, World.effect, List.map_append, List.mem_append] at hbefore ⊢
    exact Or.inl hbefore
  | @opened node k' =>
    have hne : k' ≠ k := fun heq => he node (by rw [heq])
    intro x hx
    simp only [World.opened, List.filterMap_cons, Issue.stream, if_neg hne] at hx
    exact hw x hx

theorem Finished.starts_eq_none (hw : Registered w) (hfinished : Finished k w)
    (htidy : Tidy k w e) (he : e.handles = some (node, req)) (hreq : (node, req) ∈ w.requests)
    (hkey : req.key = k) : req.starts = none := by
  obtain ⟨-, hstarts⟩ := htidy (node, req) he hkey
  rcases req with m | m | m
  · by_cases hzero : m.offset = 0
    · have hsome : Request.starts (.chunk m) = some m.stream := if_pos hzero
      obtain ⟨ws, hws, hwk⟩ := (hw.request node _ hreq).1 m.key m.stream ⟨rfl, rfl⟩
      have hopened := (hw.stream _ _ _ hws).2.2
      have hended := hfinished (node, m.stream) (List.mem_filterMap.mpr ⟨_, hopened,
        if_pos (hwk.trans hkey)⟩)
      exact absurd hended (hstarts m.stream hsome)
    · exact if_neg hzero
  · rfl
  · rfl

/-- Every stream of the key has ended, and the receiver has nothing of it. -/
structure Cleared (k : ShardKey) (w : World) : Prop where
  registered : Registered w
  finished : Finished k w
  gone : Gone k (w.staging k) w.disk

theorem Cleared.step (hw : Cleared k w)
    (h : ((∀ node, e ≠ .newWrite node k) ∧ Faultless k e) ∧ w.Possible e ∧ Tidy k w e) :
    Cleared k (w.next e) := by
  refine ⟨hw.registered.step h.2.1, hw.finished.step h.2.1 h.1.1, ?_⟩
  have hfaults := h.1.2
  -- a handler of the key that starts no stream changes nothing, wherever it is cut
  have hstill : ∀ {node req}, e.handles = some (node, req) → (node, req) ∈ w.requests →
      req.key = k → Prog.Triple (· = w.disk) (handle noFaults (w.staging k) req)
        (fun r x => r.1 = none ∧ x = w.disk) (· = w.disk) := by
    rintro node req he hreq rfl
    rw [hw.gone.staging]
    exact gone_triple ⟨rfl, hw.gone.file, hw.gone.marker⟩
      (hw.finished.starts_eq_none hw.registered h.2.2 he hreq rfl)
  have hstep := h.2.1.stepped
  generalize w.next e = w' at hstep ⊢
  cases hstep with
  | idle | onStream | opened | deleted => exact hw.gone
  | handled hreq =>
    refine handled_key Gone.congr hw.gone hfaults (fun hkey => ?_)
    obtain ⟨hnone, hsame⟩ := (hstill rfl hreq hkey).post rfl
    rw [hnone, hsame]
    exact ⟨rfl, hw.gone.file, hw.gone.marker⟩
  | @crashed during faults after hcrash =>
    rcases during with _ | ⟨node, req⟩
    · exact hw.gone.crash hcrash
    · obtain ⟨hreq, x, hx, hcrash⟩ := hcrash
      by_cases hkey : req.key = k
      · obtain rfl := hfaults hkey
        rw [hkey] at hx
        rw [(hstill rfl hreq hkey).states (fun _ _ h => h.2) rfl x hx] at hcrash
        exact hw.gone.crash hcrash
      · obtain ⟨hfile, hmarker⟩ := sameFiles_of_ne hkey w.disk hx
        exact (hw.gone.congr hfile hmarker).crash hcrash

theorem cleared_of_delete {m : DeleteMsg} (hw : Registered w) (hfinished : Finished m.key w)
    (htracked : Tracked m.key (w.staging m.key) w.disk)
    (h : w.Possible (.deliver node (.delete m) faults))
    (htidy : Tidy m.key w (.deliver node (.delete m) faults))
    (hfaults : Faultless m.key (.deliver node (.delete m) faults)) :
    Cleared m.key (w.next (.deliver node (.delete m) faults)) := by
  refine ⟨hw.step h, hfinished.step h nofun, ?_⟩
  obtain rfl := hfaults rfl
  have hnext : w.next (.deliver node (.delete m)) = w.handled node (.delete m) noFaults :=
    World.next_of_step (if_pos h.mem_requests)
  obtain ⟨hfile, hmarker⟩ := htracked.handleDelete
  rw [hnext]
  refine ⟨?_, hfile, hmarker⟩
  show Function.update w.staging m.key ((handleDelete noFaults _ m).value w.disk).1 m.key = none
  rw [Function.update_self, handleDelete_noFaults]
  exact (htidy (node, .delete m) rfl rfl).1 rfl

/-- In a tidy run in which no call of the disk fails for the key, once a delete of
the key was handled and answered with every stream of the key ended, there is no
staging and no file of it in any later state, as long as no new stream is opened. -/
theorem nothing_left {d : Disk} (hstart : d.staged = SortedKV.empty) {es₁ es₂ : List Event}
    {m : DeleteMsg}
    (hrun : EachStep World.next (fun w e => w.Possible e ∧ Tidy m.key w e) { disk := d }
      (es₁ ++ .deliver node (.delete m) faults :: es₂))
    (hfaults : ∀ e ∈ es₁ ++ .deliver node (.delete m) faults :: es₂, Faultless m.key e)
    (hfinished : Finished m.key (es₁.foldl World.next { disk := d }))
    (hopened : ∀ e ∈ es₂, ∀ node, e ≠ .newWrite node m.key) :
    let w := (es₁ ++ .deliver node (.delete m) faults :: es₂).foldl World.next { disk := d }
    w.staging m.key = none ∧ w.disk.readFile (shardFileName m.key) = none ∧
      w.disk.readFile (markerName (shardFileName m.key)) = none := by
  have hquiet : ∀ name, d.staged.get name = none := fun name => by rw [hstart]; rfl
  have hbefore := (hrun.and_of_forall hfaults).invariant
    (I := fun w : World => Registered w ∧ Tracked m.key (w.staging m.key) w.disk)
    (fun w e he hw => ⟨hw.1.step he.2.1, hw.2.step he.2.1 he.1⟩)
    ⟨registered_start d, tracked_of_quiet hquiet⟩ (List.prefix_append es₁ _)
  obtain ⟨hdelete, hrest⟩ := hrun.of_append
  obtain ⟨-, hfaults⟩ := List.forall_mem_append.mp hfaults
  obtain ⟨hfault, hfaults⟩ := List.forall_mem_cons.mp hfaults
  have hcleared := cleared_of_delete hbefore.1 hfinished hbefore.2 hdelete.1 hdelete.2 hfault
  have hend := (hrest.and_of_forall fun e he => (⟨hopened e he, hfaults e he⟩ : _ ∧ _)).invariant
    (fun w e he hw => Cleared.step hw he) hcleared (List.prefix_refl es₂)
  intro w
  have hgone : Gone m.key (w.staging m.key) w.disk := by
    show Gone m.key ((List.foldl World.next _ _).staging m.key) (List.foldl World.next _ _).disk
    rw [List.foldl_append, List.foldl_cons]
    exact hend.gone
  refine ⟨hgone.staging, ?_, ?_⟩
  · rw [Disk.readFile_of_quiet hgone.file.2, hgone.file.1]
  · rw [Disk.readFile_of_quiet hgone.marker.2, hgone.marker.1]

end Runs

/-! ## Two runs -/

/-- The shard is sent and committed, and a delete of it issued. -/
def sendThenDelete : List Event :=
  sendBoth [97] 1 ++
    [ .deliver [97] (firstChunk 1), .deliver [97] (secondChunk 1), .deliver [97] (commitBoth 1)
    , .ack [97] (.writeAck { key := someShard, committed := true, stream := 1 })
    , .delete [97] someShard ]

theorem nothing_left_sendThenDelete :
    let es := sendThenDelete ++
      [.deliver [97] (.delete ⟨2, someShard⟩), .ack [97] (.deleteAck { reqID := 2 })]
    let w := es.foldl World.next { disk := Disk.newDisk }
    (sendThenDelete.foldl World.next { disk := Disk.newDisk }).disk.readFile
        (shardFileName someShard) = some [1, 2] ∧
      w.staging someShard = none ∧ w.disk.readFile (shardFileName someShard) = none ∧
      w.disk.readFile (markerName (shardFileName someShard)) = none := by
  have hleft := @nothing_left [97] noFaults Disk.newDisk rfl sendThenDelete
    [.ack [97] (.deleteAck { reqID := 2 })] ⟨2, someShard⟩
    (possible_of_enabled (by decide) (by decide +kernel))
    (by simp [sendThenDelete, sendBoth, Faultless]) (by decide +kernel)
    (by
      intro e he node
      rw [List.mem_singleton.mp he]
      intro h
      cases h)
  dsimp only at hleft
  exact ⟨by decide +kernel, hleft⟩

/-- A stream sends its first byte and is aborted, and a delete is issued, handled and
answered. -/
def abortThenDelete : List Event :=
  [ .newWrite [97] someShard, .write [97] 1 [1], .deliver [97] (firstChunk 1)
  , .ack [97] (.writeAck { key := someShard, staged := 1, stream := 1 }), .abort [97] 1
  , .delete [97] someShard, .deliver [97] (.delete ⟨2, someShard⟩),
    .ack [97] (.deleteAck { reqID := 2 }) ]

/-- Every message was handled, and the staging of the aborted stream is still there. -/
theorem staging_outlives_delete :
    let w := abortThenDelete.foldl World.next { disk := Disk.newDisk }
    EachStep World.next World.Possible { disk := Disk.newDisk } abortThenDelete ∧
      Finished someShard w ∧ ([97], .deleteAck { reqID := 2 }) ∈ w.replies ∧
        w.staging someShard ≠ none := by
  refine ⟨?_, by decide +kernel⟩
  have henabled : EachStep World.next (fun w e => (w.step e).isSome = true ∧ True)
      { disk := Disk.newDisk } abortThenDelete := by decide +kernel
  exact (possible_of_enabled (by decide) henabled).imp (fun _ _ h => h.1)

end Hamster.Datapath
