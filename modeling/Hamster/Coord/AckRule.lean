import Hamster.Coord.Burst

/-!
# The ack rule of a PUT
-/

namespace Hamster.Coord

open CodeLib Meta Place Datapath

/-! ## One stream -/

section Streams

variable {ws : WriteStream}

theorem write_of_room {p : Bytes} (hlive : ws.finished = false)
    (hopen : ws.committing = false) (hroom : p.length ≤ ws.window) :
    ∃ r, ws.write p = some r ∧ r.stream.finished = false ∧ r.stream.committing = false ∧
      r.stream.written = ws.written + p.length ∧ r.stream.window = ws.window - p.length ∧
      r.stream.base = ws.base := by
  refine ⟨(WriteStream.pump { ws with buf := ws.buf ++ p }), ?_, hlive, hopen, ?_, ?_, rfl⟩
  · rw [WriteStream.write, if_neg (by simp [hlive]), if_neg (by simp [hopen]),
      if_neg (Nat.not_lt.mpr hroom)]
  · show ws.base + (ws.buf ++ p).length = ws.base + ws.buf.length + p.length
    rw [List.length_append, Nat.add_assoc]
  · show (if ws.finished then 0 else windowBytes - (ws.buf ++ p).length) =
      (if ws.finished then 0 else windowBytes - ws.buf.length) - p.length
    rw [hlive, if_neg Bool.false_ne_true, if_neg Bool.false_ne_true, List.length_append,
      Nat.sub_add_eq]

theorem window_of_live (hlive : ws.finished = false) :
    ws.window = windowBytes - ws.buf.length := by
  rw [WriteStream.window, hlive, if_neg Bool.false_ne_true]

theorem commit_of_written {length : Nat} (hlive : ws.finished = false)
    (hopen : ws.committing = false) (hlength : length = ws.written) (checksum : Bytes) :
    ∃ r, ws.commit length checksum = some r ∧ r.stream.finished = false ∧
      r.stream.committing = true ∧ r.stream.written = ws.written := by
  refine ⟨WriteStream.pump { ws with committing := true, length := length, checksum := checksum },
    ?_, hlive, rfl, rfl⟩
  rw [WriteStream.commit, if_neg (by simp [hlive]), if_neg (by simp [hopen]),
    if_neg (not_not.mpr hlength)]

/-- How a stream reacts to an ack or a timer: it stays what it was, but for the
window, or it ends. -/
structure Reacts (ws : WriteStream) (r : Effect) : Prop where
  stays : r.done = none → r.stream.finished = ws.finished ∧
    r.stream.committing = ws.committing ∧ r.stream.written = ws.written
  ends : ∀ result, r.done = some result → ws.finished = false ∧ r.stream.finished = true

theorem reacts_handleAck (ws : WriteStream) (m : WriteAckMsg) :
    Reacts ws (ws.handleAck m) := by
  constructor
  · intro hdone
    unfold WriteStream.handleAck at hdone ⊢
    split at hdone
    next hstill => simp [hstill]
    next hstill =>
      rw [if_neg hstill]
      split at hdone
      · cases hdone
      split_ifs at hdone ⊢ with hcommitted hover hprogress
      · cases hdone
      · cases hdone
      · refine ⟨rfl, rfl, ?_⟩
        show m.staged + (ws.buf.drop (m.staged - ws.base)).length = ws.base + ws.buf.length
        have hwritten : ws.written = ws.base + ws.buf.length := rfl
        rw [List.length_drop]
        omega
      · exact ⟨rfl, rfl, rfl⟩
  · intro result hdone
    exact (WriteStream.proper_handleAck ws m).done (by simp [hdone])

theorem reacts_onTimer (ws : WriteStream) : Reacts ws ws.onTimer := by
  constructor
  · intro hdone
    unfold WriteStream.onTimer at hdone ⊢
    split_ifs at hdone ⊢
    · exact ⟨rfl, rfl, rfl⟩
    · exact ⟨rfl, rfl, rfl⟩
    · cases hdone
    · exact ⟨rfl, rfl, rfl⟩
  · intro result hdone
    exact (WriteStream.proper_onTimer ws).done (by simp [hdone])

end Streams

/-! ## The shards of a PUT -/

variable {closed : Bool}

namespace Slot

def succeeded (s : Slot) : Bool := !s.failed && s.stream.any (fun ws => ws.finished)

/-- A shard between two events, whose bytes so far are `b`. -/
structure Ok (closed : Bool) (s : Slot) (b : Bytes) : Prop where
  opened : s.failed = false → s.stream.isSome
  ended : s.failed = true → ∀ ws ∈ s.stream, ws.finished = true
  sending : ∀ ws ∈ s.stream, ws.finished = false → ws.written = b.length ∧ ws.committing = closed

/-- A push left of the stream what it was, and took `n` bytes of its window. -/
structure Pushed (n : Nat) (s s' : Slot) : Prop where
  failed : s'.failed = s.failed
  succeeded : s'.succeeded = s.succeeded
  window : ∀ ws' ∈ s'.stream, ws'.finished = false →
    ∃ ws ∈ s.stream, ws.finished = false ∧ ws.window ≤ ws'.window + n ∧ ws'.base = ws.base

variable {s : Slot} {b d : Bytes} {n : Nat}

theorem Pushed.trans {s' s'' : Slot} {n' : Nat} (h : Pushed n s s') (h' : Pushed n' s' s'') :
    Pushed (n + n') s s'' := by
  refine ⟨h'.failed.trans h.failed, h'.succeeded.trans h.succeeded, fun ws'' hws'' hlive'' => ?_⟩
  obtain ⟨ws', hws', hlive', hle', hbase'⟩ := h'.window ws'' hws'' hlive''
  obtain ⟨ws, hws, hlive, hle, hbase⟩ := h.window ws' hws' hlive'
  exact ⟨ws, hws, hlive, by omega, hbase'.trans hbase⟩

theorem not_succeeded_of_allows (hpos : 0 < n) (hallows : s.allows n = true) :
    s.succeeded = false := by
  unfold allows at hallows
  unfold succeeded
  cases hfailed : s.failed with
  | true => rfl
  | false =>
    cases hstream : s.stream with
    | none => rfl
    | some ws =>
      cases hlive : ws.finished with
      | false => simp [hlive]
      | true =>
        -- A stream that has ended has no window.
        rw [hfailed, hstream] at hallows
        simp [WriteStream.window, hlive] at hallows
        omega

theorem Ok.of_live (h : s.Ok closed b) {ws : WriteStream} (hws : s.stream = some ws)
    (hlive : ws.finished = false) : s.failed = false ∧ s.succeeded = false := by
  constructor
  · by_contra hfailed
    rw [h.ended (by simpa using hfailed) ws hws] at hlive
    cases hlive
  · simp [succeeded, hws, hlive]

theorem Ok.push (h : s.Ok false b) (hd : d.length ≤ n)
    (hroom : ∀ ws ∈ s.stream, ws.finished = false → n ≤ ws.window) :
    ∃ s', s.push d = some s' ∧ s'.Ok false (b ++ d) ∧ Pushed n s s' := by
  unfold Slot.push
  cases hstream : s.stream with
  | none =>
    refine ⟨s, rfl, ⟨h.opened, h.ended, fun ws hws => ?_⟩, rfl, rfl, fun ws hws => ?_⟩
    all_goals
      rw [hstream] at hws
      cases hws
  | some ws =>
    cases hlive : ws.finished with
    | true =>
      refine ⟨s, ?_, ⟨h.opened, h.ended, fun ws' hws' hf => ?_⟩, rfl, rfl,
        fun ws' hws' hf => ?_⟩
      · dsimp only
        rw [WriteStream.write, if_pos hlive, Option.map_some]
        dsimp only
        rw [← hstream]
      all_goals
        obtain rfl := Option.some.inj (hstream.symm.trans hws')
        rw [hlive] at hf
        cases hf
    | false =>
      obtain ⟨hwritten, hopen⟩ := h.sending ws hstream hlive
      obtain ⟨r, hr, hlive', hopen', hwritten', hwindow, hbase⟩ :=
        write_of_room hlive hopen (hd.trans (hroom ws hstream hlive))
      refine ⟨{ s with stream := some r.stream }, ?_, ⟨fun _ => rfl, fun hf => ?_, ?_⟩, rfl,
        ?_, ?_⟩
      · dsimp only
        rw [hr, Option.map_some]
      · have hended := h.ended hf ws hstream
        rw [hlive] at hended
        cases hended
      · intro ws' hws' _
        obtain rfl := Option.mem_some.mp hws'
        exact ⟨by rw [hwritten', hwritten, List.length_append], hopen'⟩
      · simp [succeeded, hstream, hlive, hlive']
      · intro ws' hws' _
        obtain rfl := Option.mem_some.mp hws'
        exact ⟨ws, hstream, hlive, by omega, hbase⟩

theorem Ok.commit (h : s.Ok false b) (hnot : s.succeeded = false) :
    ∃ s', s.commit b.length (sha256 b) = some s' ∧ s'.Ok true b ∧ s'.failed = s.failed ∧
      s'.succeeded = false := by
  unfold Slot.commit
  cases hfailed : s.failed with
  | true =>
    refine ⟨s, if_pos rfl, ⟨h.opened, h.ended, fun ws hws hf => ?_⟩, hfailed, hnot⟩
    rw [h.ended hfailed ws hws] at hf
    cases hf
  | false =>
    obtain ⟨ws, hstream⟩ := Option.isSome_iff_exists.mp (h.opened hfailed)
    have hlive : ws.finished = false := by simpa [succeeded, hfailed, hstream] using hnot
    obtain ⟨hwritten, hopen⟩ := h.sending ws hstream hlive
    obtain ⟨r, hr, hlive', hcommitting, hwritten'⟩ :=
      commit_of_written hlive hopen hwritten.symm (sha256 b)
    refine ⟨{ s with stream := some r.stream }, ?_,
      ⟨fun _ => rfl, fun hf => ?_, ?_⟩, hfailed, ?_⟩
    · rw [if_neg Bool.false_ne_true, hstream]
      dsimp only
      rw [hr, Option.map_some, hfailed]
    · rw [hfailed] at hf
      cases hf
    · intro ws' hws' _
      obtain rfl := Option.mem_some.mp hws'
      exact ⟨hwritten'.trans hwritten, hcommitting⟩
    · simp [succeeded, hlive']

end Slot

variable {slots : List Slot}

theorem pushAll_of_room {n : Nat} {before after : List Bytes}
    (hok : List.Forall₂ (Slot.Ok false) slots before) (hgrew : Grew n before after)
    (hroom : ∀ s ∈ slots, ∀ ws ∈ s.stream, ws.finished = false → n ≤ ws.window) :
    ∃ slots', pushAll slots before after = some slots' ∧
      List.Forall₂ (Slot.Ok false) slots' after ∧ List.Forall₂ (Slot.Pushed n) slots slots' := by
  induction hok generalizing after with
  | nil =>
    cases hgrew
    exact ⟨[], rfl, List.Forall₂.nil, List.Forall₂.nil⟩
  | @cons s b slots before hs _ ih =>
    cases hgrew with
    | cons hgrown hrest =>
      obtain ⟨d, rfl, hd⟩ := hgrown
      obtain ⟨s', hpush, hs', hpushed⟩ := hs.push hd (hroom s List.mem_cons_self)
      obtain ⟨slots', hall, hslots', hpushedAll⟩ :=
        ih hrest (fun t ht => hroom t (List.mem_cons_of_mem s ht))
      refine ⟨s' :: slots', ?_, .cons hs' hslots', .cons hpushed hpushedAll⟩
      simp only [pushAll, List.drop_left, hpush, hall, Option.bind_eq_bind, Option.bind_some,
        Option.pure_def]

variable {shards : List Bytes}

theorem commitAll_of_ok (hok : List.Forall₂ (Slot.Ok false) slots shards)
    (hnone : ∀ s ∈ slots, s.succeeded = false) :
    ∃ slots', commitAll slots shards = some slots' ∧
      List.Forall₂ (Slot.Ok true) slots' shards ∧
      List.Forall₂ (fun s s' => s'.failed = s.failed ∧ s'.succeeded = false) slots slots' := by
  induction hok with
  | nil => exact ⟨[], rfl, List.Forall₂.nil, List.Forall₂.nil⟩
  | @cons s b slots shards hs _ ih =>
    obtain ⟨s', hcommit, hs', hfailed, hsucceeded⟩ := hs.commit (hnone s List.mem_cons_self)
    obtain ⟨slots', hall, hslots', hrest⟩ := ih (fun t ht => hnone t (List.mem_cons_of_mem s ht))
    refine ⟨s' :: slots', ?_, .cons hs' hslots', .cons ⟨hfailed, hsucceeded⟩ hrest⟩
    simp only [commitAll, hcommit, hall, Option.bind_eq_bind, Option.bind_some, Option.pure_def]

/-! ## What a PUT has done -/

def PutAction.isDone : PutAction → Bool
  | .done _ => true
  | _ => false

def PutAction.isFinal : PutAction → Bool
  | .propose _ | .answered | .release | .done _ => true
  | _ => false

/-- The checksums that a record gives for the shards. -/
def proposedChecksums : Proposal → List Bytes
  | .putObject p => p.shardChecksums
  | .uploadPart p => p.shardChecksums
  | _ => []

theorem proposedChecksums_proposal (op : PutOp) :
    proposedChecksums op.proposal = op.sw.w.shards.map sha256 := by
  unfold PutOp.proposal putProposal
  split <;> rfl

/-- Shards that ended well after a commit with the checksum of the record, before
`last`. -/
def DurableBefore (floor : Nat) (p : Proposal) (last trace : List PutAction) : Prop :=
  ∃ shards : List Nat, shards.Nodup ∧ floor ≤ shards.length ∧ ∀ i ∈ shards, ∃ length checksum,
    (proposedChecksums p)[i]? = some checksum ∧
    List.Sublist (.commit i length checksum :: .reported i (.ok ()) :: .propose p :: last) trace

theorem countP_deletes {p : PutAction → Bool} (hp : ∀ i, p (.delete i) = false) (width : Nat) :
    ((List.range width).map PutAction.delete).countP p = 0 := by
  rw [List.countP_map]
  exact List.countP_eq_zero.mpr (fun i _ => by simp [hp])

theorem not_release_of_quiet {trace : List PutAction} (h : ∀ a ∈ trace, a.isFinal = false)
    (a : PutAction) (ha : a ∈ trace) :
    a.isRelease = false ∧ a.isDone = false := by
  have hfinal := h a ha
  cases a <;> first | exact ⟨rfl, rfl⟩ | cases hfinal

theorem counts_of_quiet {trace : List PutAction}
    (h : ∀ a ∈ trace, a.isRelease = false ∧ a.isDone = false) :
    trace.countP PutAction.isDone = 0 ∧ trace.countP PutAction.isRelease = 0 :=
  ⟨List.countP_eq_zero.mpr (fun a ha => by simp [(h a ha).2]),
    List.countP_eq_zero.mpr (fun a ha => by simp [(h a ha).1])⟩

theorem counts_failWith (width : Nat) (e : PutError) :
    (failWith width e).countP PutAction.isDone = 1 ∧
      (failWith width e).countP PutAction.isRelease = 1 := by
  rw [failWith, List.countP_append, List.countP_append, countP_deletes (fun _ => rfl),
    countP_deletes (fun _ => rfl)]
  exact ⟨rfl, rfl⟩

theorem exists_succeeded (slots : List Slot) :
    ∃ shards : List Nat, shards.Nodup ∧ shards.length = slots.countP Slot.succeeded ∧
      ∀ i ∈ shards, ∃ s, slots[i]? = some s ∧ s.succeeded = true := by
  refine ⟨(slots.zipIdx.filter (fun x => x.1.succeeded)).map (·.2), ?_, ?_, ?_⟩
  · have hsub := (List.filter_sublist (l := slots.zipIdx) (p := fun x => x.1.succeeded)).map (·.2)
    refine hsub.nodup ?_
    rw [show slots.zipIdx.map (·.2) = List.range' 0 slots.length from List.zipIdx_map_snd 0 slots]
    exact List.nodup_range'
  · rw [List.length_map, ← List.countP_eq_length_filter]
    conv_rhs => rw [← List.zipIdx_map_fst 0 slots, List.countP_map]
    rfl
  · intro i hi
    obtain ⟨⟨s, j⟩, hmem, rfl⟩ := List.mem_map.mp hi
    obtain ⟨hzip, hsucceeded⟩ := List.mem_filter.mp hmem
    exact ⟨s, List.mk_mem_zipIdx_iff_getElem?.mp hzip, hsucceeded⟩

structure Awaiting (op : PutOp) (trace : List PutAction) : Prop where
  finished : op.finished = true
  awaiting : op.awaiting = true
  unanswered : ∀ a ∈ trace, a ≠ .answered ∧ a.isRelease = false ∧ a.isDone = false
  durable : ∃ p, .propose p ∈ trace ∧ DurableBefore op.setup.floor p [] trace

structure Over (op : PutOp) (trace : List PutAction) : Prop where
  finished : op.finished = true
  idle : op.awaiting = false
  once : trace.countP PutAction.isDone = 1
  released : trace.countP PutAction.isRelease = 1
  durable : ∀ r, .done (.ok r) ∈ trace →
    ∃ p, DurableBefore op.setup.floor p [.done (.ok r)] trace

theorem over_failWith {op : PutOp} {trace : List PutAction} (hfinished : op.finished = true)
    (hidle : op.awaiting = false)
    (hquiet : ∀ a ∈ trace, a.isRelease = false ∧ a.isDone = false) (width : Nat) (e : PutError) :
    Over op (trace ++ failWith width e) where
  finished := hfinished
  idle := hidle
  once := by
    rw [List.countP_append, (counts_of_quiet hquiet).1, (counts_failWith width e).1]
  released := by
    rw [List.countP_append, (counts_of_quiet hquiet).2, (counts_failWith width e).2]
  durable := by
    intro r hr
    simp only [failWith, List.mem_append, List.mem_map, List.mem_cons, List.not_mem_nil,
      reduceCtorEq, PutAction.done.injEq, or_false, and_false, exists_false] at hr
    have h := (hquiet _ hr).2
    cases h

/-- The PUT is not over and has not proposed. -/
def PutOp.Live (op : PutOp) : Prop :=
  op.finished = false ∧ op.awaiting = false

theorem over_abort {op : PutOp} {trace : List PutAction} (hlive : op.Live)
    (hquiet : ∀ a ∈ trace, a.isFinal = false) (e : PutError) :
    Over (op.abort e).1 (trace ++ (op.abort e).2) := by
  rw [PutOp.abort, hlive.1, if_neg Bool.false_ne_true]
  refine over_failWith ?_ ?_ (not_release_of_quiet hquiet) _ _
  · rfl
  · exact hlive.2

section Phases

variable [ReedSolomon] [Stream.Gcm]

/-- What holds while streams are open, but for their number. -/
structure Tracking (op : PutOp) (trace : List PutAction) : Prop where
  unfinished : op.finished = false
  idle : op.awaiting = false
  quiet : ∀ a ∈ trace, a.isFinal = false
  width : op.width = op.setup.k + op.setup.m
  failures : op.failures = op.slots.countP (·.failed)
  successes : op.successes = op.slots.countP Slot.succeeded
  slots : List.Forall₂ (Slot.Ok op.closed) op.slots op.sw.w.shards
  encoding : op.closed = false → ∃ n frameSize fronts X, Paceable op.setup.k n ∧
    (∀ b ∈ fronts, b.length ≤ 2048) ∧
    Encoding op.sw op.setup.k op.setup.m n frameSize fronts op.setup.dek X
  committed : op.closed = true → ∀ i s b, op.slots[i]? = some s → op.sw.w.shards[i]? = some b →
    s.failed = false → .commit i b.length (sha256 b) ∈ trace
  durable : op.closed = true → ∀ i s b, op.slots[i]? = some s → op.sw.w.shards[i]? = some b →
    s.succeeded → List.Sublist [.commit i b.length (sha256 b), .reported i (.ok ())] trace

structure Running (op : PutOp) (trace : List PutAction) : Prop extends Tracking op trace where
  waiting : op.successes + op.failures < op.width

def Good (op : PutOp) (trace : List PutAction) : Prop :=
  Running op trace ∨ Awaiting op trace ∨ Over op trace

variable {op : PutOp} {trace actions : List PutAction}

theorem Tracking.live (h : Tracking op trace) : op.Live := ⟨h.unfinished, h.idle⟩

theorem Good.running (h : Good op trace) (hunfinished : op.finished = false) :
    Running op trace := by
  rcases h with h | h | h
  · exact h
  all_goals
    rw [h.finished] at hunfinished
    cases hunfinished

theorem Tracking.evaluate (h : Tracking op trace) (last : Option Datapath.WriteError) :
    Good (op.evaluate last).1 (trace ++ (op.evaluate last).2) := by
  rw [PutOp.evaluate]
  split
  next =>
    refine Or.inr (Or.inr (over_failWith ?_ ?_ (not_release_of_quiet h.quiet) _ _))
    · rfl
    · exact h.idle
  next hacked =>
    obtain ⟨hfloor, hclosed⟩ := not_or.mp hacked
    obtain ⟨shards, hnodup, hcount, hshards⟩ := exists_succeeded op.slots
    refine Or.inr (Or.inl ⟨rfl, rfl, fun a ha => ?_, op.proposal,
      List.mem_append_right _ List.mem_cons_self, shards, hnodup, ?_, fun i hi => ?_⟩)
    · rcases List.mem_append.mp ha with ha | ha
      · refine ⟨?_, not_release_of_quiet h.quiet a ha⟩
        rintro rfl
        exact absurd (h.quiet _ ha) (by decide)
      · rw [List.mem_singleton.mp ha]
        exact ⟨by rintro ⟨⟩, rfl, rfl⟩
    · rw [hcount, ← h.successes]
      exact Nat.not_lt.mp hfloor
    · obtain ⟨s, hs, hsucceeded⟩ := hshards i hi
      obtain ⟨hlt, -⟩ := List.getElem?_eq_some_iff.mp hs
      obtain ⟨b, hb⟩ : ∃ b, op.sw.w.shards[i]? = some b :=
        ⟨_, List.getElem?_eq_getElem (h.slots.length_eq ▸ hlt)⟩
      refine ⟨b.length, sha256 b, ?_, ?_⟩
      · rw [proposedChecksums_proposal, List.getElem?_map, hb, Option.map_some]
      · exact List.Sublist.append (h.durable (by simpa using hclosed) i s b hs hb hsucceeded)
          (List.Sublist.refl _)

/-! ## Pacing -/

omit [ReedSolomon] [Stream.Gcm] in
theorem room_of_allows {need : Nat} (hok : List.Forall₂ (Slot.Ok closed) slots shards)
    (hallows : slots.all (Slot.allows need) = true) :
    ∀ s ∈ slots, ∀ ws ∈ s.stream, ws.finished = false → need ≤ ws.window := by
  intro s hs ws hws hlive
  obtain ⟨b, -, hb⟩ := exists_of_mem_forall₂ hok hs
  have hs := List.all_eq_true.mp hallows s hs
  unfold Slot.allows at hs
  cases hfailed : s.failed with
  | true =>
    rw [hb.ended hfailed ws hws] at hlive
    cases hlive
  | false =>
    rw [hfailed, Option.mem_def.mp hws] at hs
    simpa using hs

variable {sw : Stream.Writer Ec.Writer}

theorem Running.feed (h : Running op trace) (hopen : op.closed = false) {pending : Bytes}
    (hslots : List.Forall₂ (Slot.Ok false) slots sw.w.shards)
    {need : Nat} (hpushed : List.Forall₂ (Slot.Pushed need) op.slots slots)
    (hencoding : ∃ n frameSize fronts X, Paceable op.setup.k n ∧
      (∀ b ∈ fronts, b.length ≤ 2048) ∧
      Encoding sw op.setup.k op.setup.m n frameSize fronts op.setup.dek X) :
    Running { op with slots, sw, pending } trace := by
  have hlen : slots.length = op.slots.length := hpushed.length_eq.symm
  refine { h with
    width := hlen.trans h.width
    failures := h.failures.trans (countP_of_forall₂ (hpushed.imp fun _ _ hs => hs.failed)).symm
    successes := h.successes.trans
      (countP_of_forall₂ (hpushed.imp fun _ _ hs => hs.succeeded)).symm
    slots := ?_
    encoding := fun _ => hencoding
    committed := fun hclosed => ?_
    durable := fun hclosed => ?_
    waiting := h.waiting.trans_eq hlen.symm }
  · show List.Forall₂ (Slot.Ok op.closed) slots sw.w.shards
    rwa [hopen]
  all_goals
    rw [hopen] at hclosed
    cases hclosed

def PacedOk (trace : List PutAction) : PutOp.Paced → Prop
  | .drained op => Running op trace ∧ op.closed = false
  | .blocked op => Running op trace
  | .aborted r => Over r.1 (trace ++ r.2)
  | .endless => False

theorem Running.append (h : Running op trace) (hquiet : ∀ a ∈ actions, a.isFinal = false) :
    Running op (trace ++ actions) :=
  { h with
    quiet := fun a ha => (List.mem_append.mp ha).elim (h.quiet a) (hquiet a)
    committed := fun hclosed i s b hs hb hfailed =>
      List.mem_append_left _ (h.committed hclosed i s b hs hb hfailed)
    durable := fun hclosed i s b hs hb hsucceeded =>
      (h.durable hclosed i s b hs hb hsucceeded).trans (List.sublist_append_left _ _) }

theorem Running.replenish (h : Running op trace) :
    Running op.replenish.1 (trace ++ op.replenish.2) := by
  refine Running.append ?_ (fun a ha => ?_)
  · exact { h with }
  · rw [List.eq_of_mem_replicate ha]
    rfl

omit [ReedSolomon] [Stream.Gcm] in
theorem mem_commits {i : Nat} {s : Slot} {b : Bytes} (hs : op.slots[i]? = some s)
    (hb : op.sw.w.shards[i]? = some b) (hfailed : s.failed = false) :
    .commit i b.length (sha256 b) ∈ op.commits := by
  refine List.mem_flatMap.mpr ⟨((s, b), i), ?_, ?_⟩
  · rw [List.mk_mem_zipIdx_iff_getElem?, List.getElem?_zip_eq_some]
    exact ⟨hs, hb⟩
  · dsimp only
    rw [hfailed, if_neg Bool.false_ne_true]
    exact List.mem_singleton_self _

omit [ReedSolomon] [Stream.Gcm] in
theorem quiet_commits (a : PutAction) (ha : a ∈ op.commits) : a.isFinal = false := by
  obtain ⟨⟨⟨s, b⟩, i⟩, -, ha⟩ := List.mem_flatMap.mp ha
  dsimp only at ha
  split at ha
  · cases ha
  · rw [List.mem_singleton.mp ha]
    rfl

theorem Tracking.modify (h : Tracking op trace) {i : Nat} {s : Slot} (hs : op.slots[i]? = some s)
    (f : Slot → Slot) (successes failures : Nat) (actions : List PutAction)
    (hquiet : ∀ a ∈ actions, a.isFinal = false)
    (hok : ∀ b, s.Ok op.closed b → (f s).Ok op.closed b)
    (hfailed : (f s).failed = false → s.failed = false)
    (hdurable : op.closed = true → ∀ b, op.sw.w.shards[i]? = some b → (f s).succeeded = true →
      List.Sublist [.commit i b.length (sha256 b), .reported i (.ok ())] (trace ++ actions))
    (hfailures : failures + (if s.failed then 1 else 0) =
      op.failures + (if (f s).failed then 1 else 0))
    (hsuccesses : successes + (if s.succeeded then 1 else 0) =
      op.successes + (if (f s).succeeded then 1 else 0)) :
    Tracking { op with slots := op.slots.modify i f, successes, failures }
      (trace ++ actions) := by
  have hget : ∀ j s', (op.slots.modify i f)[j]? = some s' →
      (j = i ∧ s' = f s) ∨ op.slots[j]? = some s' := by
    intro j s' hs'
    rw [List.getElem?_modify] at hs'
    by_cases hij : i = j
    · subst hij
      simp only [hs, if_true, Option.map_eq_map, Option.map_some, Option.some.injEq] at hs'
      exact Or.inl ⟨rfl, hs'.symm⟩
    · right
      simpa [hij] using hs'
  refine { h with
    quiet := fun a ha => (List.mem_append.mp ha).elim (h.quiet a) (hquiet a)
    width := (List.length_modify ..).trans h.width
    failures := ?_
    successes := ?_
    slots := ?_
    committed := fun hclosed j s' b hs' hb hf => List.mem_append_left _ ?_
    durable := fun hclosed j s' b hs' hb hsucceeded => ?_ }
  · have hcount := countP_modify (p := (·.failed)) (f := f) hs
    rw [h.failures] at hfailures
    exact Nat.add_right_cancel (hfailures.trans hcount.symm)
  · have hcount := countP_modify (p := Slot.succeeded) (f := f) hs
    rw [h.successes] at hsuccesses
    exact Nat.add_right_cancel (hsuccesses.trans hcount.symm)
  · refine forall₂_modify h.slots (fun a b ha hab => ?_)
    obtain rfl := Option.some.inj (ha.symm.trans hs)
    exact hok b hab
  · rcases hget j s' hs' with ⟨rfl, rfl⟩ | hs'
    · exact h.committed hclosed j s b hs hb (hfailed hf)
    · exact h.committed hclosed j s' b hs' hb hf
  · rcases hget j s' hs' with ⟨rfl, rfl⟩ | hs'
    · exact hdurable hclosed b hb hsucceeded
    · exact (h.durable hclosed j s' b hs' hb hsucceeded).trans (List.sublist_append_left _ _)

variable [Stream.LawfulGcm]

section

variable (h : Running op trace) (hopen : op.closed = false)

include h hopen

theorem Running.pace {turns : Nat} (hturns : op.pending.length ≤ turns) :
    ∃ res, op.pace turns = some res ∧ PacedOk trace res := by
  induction turns generalizing op with
  | zero =>
    have hempty : op.pending.isEmpty = true := by
      rw [List.isEmpty_iff, ← List.length_eq_zero_iff]
      omega
    exact ⟨.drained op, by rw [PutOp.pace, if_pos hempty], h, hopen⟩
  | succ turns ih =>
    rw [PutOp.pace]
    split
    next => exact ⟨_, rfl, h, hopen⟩
    next =>
    split
    next => exact ⟨_, rfl, h⟩
    next hallows =>
    dsimp only
    obtain ⟨taken, htaken⟩ : ∃ n, n = min op.stepBytes op.pending.length := ⟨_, rfl⟩
    rw [← htaken]
    split
    next e hwrite => exact ⟨_, rfl, over_abort h.live h.quiet _⟩
    next sw hwrite =>
      obtain ⟨n, frameSize, fronts, X, hpace, hfronts, hencoding⟩ := h.encoding hopen
      have hp : (op.pending.take taken).length ≤ op.stepBytes := by
        rw [List.length_take]
        omega
      obtain ⟨hencoding', hgrew⟩ := hencoding.write hpace hp hwrite
      have hslots := h.slots
      rw [hopen] at hslots
      have hallows : op.windowsAllow stepNeed = true := by simpa using hallows
      have hroom := room_of_allows hslots hallows
      obtain ⟨slots, hpush, hslots', hpushed⟩ := pushAll_of_room hslots
        (hgrew.mono (by decide : 2 * Ec.defaultSliceSize ≤ stepNeed)) hroom
      have hfeed : op.feedShards sw = some { op with slots, sw } := by
        rw [PutOp.feedShards, hpush]
        rfl
      rw [hfeed, Option.bind_eq_bind, Option.bind_some]
      have hstep : 1 ≤ op.stepBytes := by
        rw [PutOp.stepBytes]
        exact Nat.le_max_right _ _
      have hrest : (op.pending.drop taken).length ≤ turns := by
        rw [List.length_drop]
        omega
      refine ih (h.feed hopen hslots' hpushed ?_) hopen hrest
      exact ⟨n, frameSize, fronts, _, hpace, hfronts, hencoding'⟩

theorem Running.close_fits (hallows : op.windowsAllow closeNeed = true)
    (hclose : op.sw.close = .ok sw) :
    ∃ g₁ g₂, Grew g₁ op.sw.w.shards sw.w.shards ∧
      (∀ w, sw.w.close = .ok w → Grew g₂ sw.w.shards w.shards) ∧
      ∀ s ∈ op.slots, ∀ ws ∈ s.stream, ws.finished = false → g₁ + g₂ ≤ ws.window := by
  obtain ⟨n, frameSize, fronts, X, hpace, hfronts, hencoding⟩ := h.encoding hopen
  obtain ⟨g₁, g₂, hgrew₁, hgrew₂, hfits⟩ := hencoding.close hpace hclose
  refine ⟨g₁, g₂, hgrew₁, hgrew₂, fun s hs ws hws hlive => ?_⟩
  rcases hfits with hfits | ⟨hshards, hfits⟩
  · exact hfits.trans (room_of_allows h.slots hallows s hs ws hws hlive)
  -- Only the front of the shard can be unacknowledged.
  · obtain ⟨b, hb, hok⟩ := exists_of_mem_forall₂ h.slots hs
    have hfront := hfronts b (hshards ▸ hb)
    have hwritten : ws.base + ws.buf.length = b.length := (hok.sending ws hws hlive).1
    have hwindow := window_of_live hlive
    have hsize : windowBytes = Stream.defaultChunkSize := rfl
    omega

theorem Running.close (hallows : op.windowsAllow closeNeed = true) :
    ∃ r, op.close = some r ∧ Good r.1 (trace ++ r.2) := by
  unfold PutOp.close
  dsimp only
  split
  next e hclose =>
    exact ⟨_, rfl, Or.inr (Or.inr (over_abort (by exact h.live) h.quiet _))⟩
  next sw hclose =>
  have hslots := h.slots
  rw [hopen] at hslots
  obtain ⟨g₁, g₂, hgrew₁, hgrew₂, hroom⟩ := h.close_fits hopen hallows hclose
  obtain ⟨slots₁, hpush₁, hslots₁, hpushed₁⟩ := pushAll_of_room hslots hgrew₁
    (fun s hs ws hws hlive => (Nat.le_add_right _ _).trans (hroom s hs ws hws hlive))
  rw [PutOp.feedShards, hpush₁]
  simp only [Option.bind_eq_bind, Option.bind_some, Option.pure_def]
  split
  next e hec =>
    exact ⟨_, rfl, Or.inr (Or.inr (over_abort (by exact h.live) h.quiet _))⟩
  next ecw hec =>
  obtain ⟨slots₂, hpush₂, hslots₂, hpushed₂⟩ := pushAll_of_room hslots₁ (hgrew₂ ecw hec)
    (fun s' hs' ws' hws' hlive' => by
      obtain ⟨s, hs, hpushed⟩ := exists_of_mem_forall₂ hpushed₁.flip hs'
      obtain ⟨ws, hws, hlive, hwindow, -⟩ := hpushed.window ws' hws' hlive'
      have := hroom s hs ws hws hlive
      omega)
  have hnone₀ : ∀ s ∈ op.slots, s.succeeded = false := fun s hs =>
    Slot.not_succeeded_of_allows (by decide) (List.all_eq_true.mp hallows s hs)
  have hnone₂ : ∀ s ∈ slots₂, s.succeeded = false := by
    intro s₂ hs₂
    obtain ⟨s₁, hs₁, hpushed₂⟩ := exists_of_mem_forall₂ hpushed₂.flip hs₂
    obtain ⟨s, hs, hpushed₁⟩ := exists_of_mem_forall₂ hpushed₁.flip hs₁
    rw [hpushed₂.succeeded, hpushed₁.succeeded, hnone₀ s hs]
  obtain ⟨slots₃, hcommit, hslots₃, hcommitted⟩ := commitAll_of_ok hslots₂ hnone₂
  rw [PutOp.feedShards, hpush₂]
  simp only [Option.bind_eq_bind, Option.bind_some, Option.pure_def, hcommit]
  refine ⟨_, rfl, Or.inl ?_⟩
  have hfailures : slots₃.countP (·.failed) = op.slots.countP (·.failed) :=
    (countP_of_forall₂ (hcommitted.imp (fun _ _ hs => hs.1))).trans
      ((countP_of_forall₂ (hpushed₂.imp (fun _ _ hs => hs.failed))).trans
        (countP_of_forall₂ (hpushed₁.imp (fun _ _ hs => hs.failed))))
  have hsucceeded : ∀ s ∈ slots₃, s.succeeded = false := by
    intro s hs
    obtain ⟨s₂, -, hs₂⟩ := exists_of_mem_forall₂ hcommitted.flip hs
    exact hs₂.2
  have hsuccesses : slots₃.countP Slot.succeeded = op.slots.countP Slot.succeeded := by
    rw [List.countP_eq_zero.mpr (fun s hs => by simp [hsucceeded s hs]),
      List.countP_eq_zero.mpr (fun s hs => by simp [hnone₀ s hs])]
  have hlen : slots₃.length = op.slots.length :=
    hcommitted.length_eq.symm.trans (hpushed₂.length_eq.symm.trans hpushed₁.length_eq.symm)
  exact {
    unfinished := h.unfinished
    idle := h.idle
    quiet := fun a ha => (List.mem_append.mp ha).elim (h.quiet a) (quiet_commits a)
    width := hlen.trans h.width
    failures := h.failures.trans hfailures.symm
    successes := h.successes.trans hsuccesses.symm
    slots := hslots₃
    encoding := fun hclosed => (by cases hclosed)
    committed := fun _ i s b hs hb hfailed => by
      obtain ⟨s₂, hs₂, hsame, -⟩ := getElem?_forall₂ hcommitted hs
      exact List.mem_append_right _ (mem_commits hs₂ hb (hsame.symm.trans hfailed))
    durable := fun _ i s b hs hb hsucc => by
      rw [hsucceeded s (List.mem_of_getElem? hs)] at hsucc
      cases hsucc
    waiting := h.waiting.trans_eq hlen.symm }

end

theorem Running.step (h : Running op trace) :
    ∃ r, op.step = some r ∧ Good r.1 (trace ++ r.2) := by
  rw [PutOp.step]
  split
  next => exact ⟨_, rfl, Or.inl (by rwa [List.append_nil])⟩
  next hgoes =>
  have hopen : op.closed = false := by
    simpa using (not_or.mp hgoes).2
  obtain ⟨res, hres, hok⟩ := h.pace hopen (Nat.le_refl op.pending.length)
  rw [hres]
  match res, hok with
  | .blocked op', hok => exact ⟨_, rfl, Or.inl (by rwa [List.append_nil])⟩
  | .aborted r, hok => exact ⟨_, rfl, Or.inr (Or.inr hok)⟩
  | .drained op', ⟨hrunning, hopen'⟩ =>
    dsimp only
    split
    · exact ⟨_, rfl, Or.inl hrunning.replenish⟩
    split
    · exact ⟨_, rfl, Or.inl (by rwa [List.append_nil])⟩
    next hallows => exact hrunning.close hopen' (by simpa using hallows)

/-! ## Reports -/

theorem Tracking.settle (h : Tracking op trace) (last : Option Datapath.WriteError) :
    ∃ r, op.settle last = some r ∧ Good r.1 (trace ++ r.2) := by
  rw [PutOp.settle]
  split
  next hwaiting => exact Running.step ⟨h, hwaiting⟩
  next => exact ⟨_, rfl, h.evaluate last⟩

section Report

variable {i : Nat} {s : Slot} {ws : WriteStream} {r : Effect}

omit [Stream.LawfulGcm] in
theorem Running.stays (h : Running op trace) (hs : op.slots[i]? = some s)
    (hws : s.stream = some ws) (hr : Reacts ws r) (hdone : r.done = none) :
    Running { op with slots := op.slots.modify i (Slot.onStream r) } trace := by
  obtain ⟨hfinished, hcommitting, hwritten⟩ := hr.stays hdone
  have hsucceeded : (s.onStream r).succeeded = s.succeeded := by
    simp [Slot.succeeded, Slot.onStream, hws, hfinished]
  have htracking := h.toTracking.modify hs (Slot.onStream r) op.successes op.failures []
    (List.forall_mem_nil _) (fun b hok => ?_) (fun hf => hf) (fun hclosed b hb hsucc => ?_) rfl
    (by rw [hsucceeded])
  · rw [List.append_nil] at htracking
    exact ⟨htracking, h.waiting.trans_eq (List.length_modify ..).symm⟩
  · refine ⟨fun _ => rfl, fun hf ws' hws' => ?_, fun ws' hws' hlive => ?_⟩
    all_goals obtain rfl := Option.mem_some.mp hws'
    · exact hfinished.trans (hok.ended hf ws hws)
    · rw [hfinished] at hlive
      rw [hwritten, hcommitting]
      exact hok.sending ws hws hlive
  · rw [hsucceeded] at hsucc
    exact (h.durable hclosed i s b hs hb hsucc).trans (List.sublist_append_left _ _)

omit [Stream.LawfulGcm] in
theorem Running.reported_ok (h : Running op trace) (hs : op.slots[i]? = some s)
    (hws : s.stream = some ws) (hr : Reacts ws r) (hdone : r.done = some (.ok ())) :
    Tracking { op with
        slots := op.slots.modify i (Slot.onStream r), successes := op.successes + 1 }
      (trace ++ [.reported i (.ok ())]) := by
  obtain ⟨hlive, hfinished⟩ := hr.ends _ hdone
  obtain ⟨b, hb, hslot⟩ := getElem?_forall₂ h.slots.flip hs
  obtain ⟨hfailed, hbefore⟩ := hslot.of_live hws hlive
  have hafter : (s.onStream r).succeeded = true := by
    simp [Slot.succeeded, Slot.onStream, hfailed, hfinished]
  refine h.toTracking.modify hs (Slot.onStream r) (op.successes + 1) op.failures _
    (List.forall_mem_singleton.mpr rfl) ?_ (fun hf => hf) ?_ rfl (by rw [hbefore, hafter]; rfl)
  · intro b hok
    refine ⟨fun _ => rfl, fun _ ws' hws' => ?_, fun ws' hws' hlive' => ?_⟩
    · obtain rfl := Option.mem_some.mp hws'
      exact hfinished
    · obtain rfl := Option.mem_some.mp hws'
      rw [hfinished] at hlive'
      cases hlive'
  · intro hclosed b hb _
    have hcommit := h.committed hclosed i s b hs hb hfailed
    exact (List.singleton_sublist.mpr hcommit).append (List.Sublist.refl [_])

omit [Stream.LawfulGcm] in
theorem Running.reported_error (h : Running op trace) (hs : op.slots[i]? = some s)
    (hws : s.stream = some ws) (hr : Reacts ws r) {e : Datapath.WriteError}
    (hdone : r.done = some (.error e)) :
    Tracking { op with
        slots := (op.slots.modify i (Slot.onStream r)).modify i Slot.fail
        failures := op.failures + 1 }
      (trace ++ [.reported i (.error e)]) := by
  obtain ⟨hlive, hfinished⟩ := hr.ends _ hdone
  obtain ⟨b, hb, hslot⟩ := getElem?_forall₂ h.slots.flip hs
  obtain ⟨hfailed, hbefore⟩ := hslot.of_live hws hlive
  rw [List.modify_modify_eq]
  refine h.toTracking.modify hs (Slot.fail ∘ Slot.onStream r) op.successes (op.failures + 1) _
    (List.forall_mem_singleton.mpr rfl) ?_ (fun hf => (by cases hf))
    (fun _ _ _ hsucc => (by cases hsucc)) (by rw [hfailed]; rfl) (by rw [hbefore]; rfl)
  intro b hok
  refine ⟨fun _ => rfl, fun _ ws' hws' => ?_, fun ws' hws' hlive' => ?_⟩
  · obtain rfl := Option.mem_some.mp hws'
    exact hfinished
  · obtain rfl := Option.mem_some.mp hws'
    rw [hfinished] at hlive'
    cases hlive'

theorem Running.onStream (h : Running op trace) (hs : op.slots[i]? = some s)
    (hws : s.stream = some ws) (hr : Reacts ws r) :
    ∃ r', op.onStream i ws r = some r' ∧ Good r'.1 (trace ++ r'.2) := by
  rw [PutOp.onStream]
  dsimp only
  match hdone : r.done with
  | none =>
    have hstays := h.stays hs hws hr hdone
    dsimp only
    split
    · exact hstays.step
    · exact ⟨_, rfl, Or.inl (by rwa [List.append_nil])⟩
  | some (.ok ()) =>
    obtain ⟨r', hr', hgood⟩ := (h.reported_ok hs hws hr hdone).settle none
    refine ⟨(r'.1, .reported i (.ok ()) :: r'.2), ?_, ?_⟩
    · dsimp only
      rw [PutOp.streamDone]
      dsimp only
      rw [if_neg (by simp [h.unfinished]), hr']
      rfl
    · rwa [List.append_assoc] at hgood
  | some (.error e) =>
    have htracking := h.reported_error hs hws hr hdone
    dsimp only
    rw [PutOp.streamDone]
    dsimp only
    rw [if_neg (by simp [h.unfinished])]
    split
    · refine ⟨_, rfl, ?_⟩
      have hover := over_abort htracking.live htracking.quiet
        (.tooManyFailed (op.failures + 1)
          ((op.slots.modify i (Slot.onStream r)).modify i Slot.fail).length op.setup.floor e)
      rw [List.append_assoc] at hover
      exact Or.inr (Or.inr hover)
    · obtain ⟨r', hr', hgood⟩ := htracking.settle (some e)
      refine ⟨(r'.1, .reported i (.error e) :: r'.2), ?_, ?_⟩
      · rw [hr']
        rfl
      · rwa [List.append_assoc] at hgood

end Report

/-! ## Any event -/

omit [ReedSolomon] [Stream.Gcm] [Stream.LawfulGcm] in
theorem DurableBefore.append {floor : Nat} {p : Proposal} {last : List PutAction}
    (h : DurableBefore floor p last trace) : DurableBefore floor p last (trace ++ actions) := by
  obtain ⟨shards, hnodup, hfloor, hshards⟩ := h
  refine ⟨shards, hnodup, hfloor, fun i hi => ?_⟩
  obtain ⟨length, checksum, hsum, hsub⟩ := hshards i hi
  exact ⟨length, checksum, hsum, hsub.trans (List.sublist_append_left _ _)⟩

omit [Stream.LawfulGcm] in
/-- A PUT that has ended, or has proposed: only its slots may change, and late
reports are logged. -/
theorem Good.of_finished (h : Good op trace) (hfinished : op.finished = true)
    (hquiet : ∀ a ∈ actions, a.isFinal = false) (slots : List Slot) :
    Good { op with slots } (trace ++ actions) := by
  have hnone : ∀ p : PutAction → Bool, (∀ a, a.isFinal = false → p a = false) →
      actions.countP p = 0 := fun p hp =>
    List.countP_eq_zero.mpr (fun a ha => by simp [hp a (hquiet a ha)])
  rcases h with h | h | h
  · rw [h.unfinished] at hfinished
    cases hfinished
  · refine Or.inr (Or.inl ⟨h.finished, h.awaiting, fun a ha => ?_, ?_⟩)
    · rcases List.mem_append.mp ha with ha | ha
      · exact h.unanswered a ha
      · refine ⟨?_, not_release_of_quiet hquiet a ha⟩
        rintro rfl
        exact absurd (hquiet _ ha) (by decide)
    · obtain ⟨p, hp, hdurable⟩ := h.durable
      exact ⟨p, List.mem_append_left _ hp, hdurable.append⟩
  · refine Or.inr (Or.inr ⟨h.finished, h.idle, ?_, ?_, fun r hr => ?_⟩)
    · rw [List.countP_append, h.once, hnone _ (fun a ha => by cases a <;> first | rfl | cases ha)]
    · rw [List.countP_append, h.released,
        hnone _ (fun a ha => by cases a <;> first | rfl | cases ha)]
    · rcases List.mem_append.mp hr with hr | hr
      · obtain ⟨p, hdurable⟩ := h.durable r hr
        exact ⟨p, hdurable.append⟩
      · exact absurd (hquiet _ hr) (fun hf => (by cases hf))

variable {input : PutInput}

omit [ReedSolomon] [Stream.LawfulGcm] in
theorem handle_of_finished (hfinished : op.finished = true)
    (hinput : ∀ result, input ≠ .proposed result) :
    ∃ slots actions, op.handle input = some ({ op with slots }, actions) ∧
      ∀ a ∈ actions, ∃ i result, a = .reported i result := by
  have hstays : ∃ slots actions, some (op, []) = some ({ op with slots }, actions) ∧
      ∀ a ∈ actions, ∃ i result, a = PutAction.reported i result :=
    ⟨op.slots, [], rfl, List.forall_mem_nil _⟩
  have hstream (i : Nat) (ws : WriteStream) (r : Effect) :
      ∃ slots actions, op.onStream i ws r = some ({ op with slots }, actions) ∧
        ∀ a ∈ actions, ∃ i result, a = .reported i result := by
    unfold PutOp.onStream
    dsimp only
    split
    · unfold PutOp.streamDone
      rw [if_pos (by exact hfinished)]
      exact ⟨_, _, rfl, List.forall_mem_singleton.mpr ⟨_, _, rfl⟩⟩
    · split
      · rw [PutOp.step, if_pos (Or.inl (by exact hfinished))]
        exact ⟨_, _, rfl, List.forall_mem_nil _⟩
      · exact ⟨_, _, rfl, List.forall_mem_nil _⟩
  cases input with
  | feed chunk =>
    rw [PutOp.handle, PutOp.feed, if_pos hfinished]
    exact hstays
  | feedEOF =>
    rw [PutOp.handle, PutOp.feedEOF, if_pos hfinished]
    exact hstays
  | abort text =>
    rw [PutOp.handle, PutOp.abort, if_pos hfinished]
    exact hstays
  | ack i _ | timer i =>
    unfold PutOp.handle
    dsimp only
    split
    · exact hstays
    · exact hstream i _ _
  | proposed result => exact absurd rfl (hinput result)

omit [ReedSolomon] [Stream.Gcm] [Stream.LawfulGcm] in
theorem Awaiting.proposed (h : Awaiting op trace) (result : Except Bytes VersionID) :
    Over (op.onProposed result).1 (trace ++ (op.onProposed result).2) := by
  rw [PutOp.onProposed, if_neg (by simp [h.awaiting])]
  have hquiet : ∀ a ∈ trace, a.isRelease = false ∧ a.isDone = false :=
    fun a ha => (h.unanswered a ha).2
  obtain ⟨hdone, hrelease⟩ := counts_of_quiet hquiet
  match result with
  | .error text =>
    have hanswered : ∀ a ∈ trace ++ [.answered], a.isRelease = false ∧ a.isDone = false := by
      intro a ha
      rcases List.mem_append.mp ha with ha | ha
      · exact hquiet a ha
      · rw [List.mem_singleton.mp ha]
        exact ⟨rfl, rfl⟩
    have hover : Over { op with awaiting := false }
        (trace ++ [.answered] ++ failWith op.width (.metadataCommit text)) := by
      refine over_failWith ?_ ?_ hanswered _ _
      · exact h.finished
      · rfl
    rwa [List.append_assoc] at hover
  | .ok assigned =>
    obtain ⟨p, hp, shards, hnodup, hfloor, hshards⟩ := h.durable
    refine ⟨h.finished, rfl, ?_, ?_, fun r hr => ⟨p, shards, hnodup, hfloor, fun i hi => ?_⟩⟩
    · rw [List.countP_append, hdone]
      rfl
    · rw [List.countP_append, hrelease]
      rfl
    · obtain ⟨length, checksum, hsum, hsub⟩ := hshards i hi
      refine ⟨length, checksum, hsum, ?_⟩
      rcases List.mem_append.mp hr with hr | hr
      · exact absurd (hquiet _ hr).2 (fun hf => (by cases hf))
      · exact hsub.append (List.singleton_sublist.mpr hr)

theorem Running.handle (h : Running op trace) :
    ∃ r, op.handle input = some r ∧ Good r.1 (trace ++ r.2) := by
  cases input with
  | feed chunk =>
    rw [PutOp.handle, PutOp.feed, if_neg (by simp [h.unfinished])]
    exact Running.step { h with }
  | feedEOF =>
    rw [PutOp.handle, PutOp.feedEOF, if_neg (by simp [h.unfinished])]
    exact Running.step { h with }
  | abort text => exact ⟨_, rfl, Or.inr (Or.inr (over_abort h.live h.quiet _))⟩
  | ack i m =>
    rw [PutOp.handle]
    cases hat : op.streamAt i with
    | none => exact ⟨_, rfl, Or.inl (by rwa [List.append_nil])⟩
    | some ws =>
      obtain ⟨s, hs, hws⟩ := Option.bind_eq_some_iff.mp hat
      exact h.onStream hs hws (reacts_handleAck ws m)
  | timer i =>
    rw [PutOp.handle]
    cases hat : op.streamAt i with
    | none => exact ⟨_, rfl, Or.inl (by rwa [List.append_nil])⟩
    | some ws =>
      obtain ⟨s, hs, hws⟩ := Option.bind_eq_some_iff.mp hat
      exact h.onStream hs hws (reacts_onTimer ws)
  | proposed result =>
    refine ⟨_, rfl, Or.inl ?_⟩
    rwa [PutOp.onProposed, if_pos h.idle, List.append_nil]

theorem Good.handle (h : Good op trace) :
    ∃ r, op.handle input = some r ∧ Good r.1 (trace ++ r.2) := by
  cases hfinished : op.finished with
  | false => exact (h.running hfinished).handle
  | true =>
    by_cases hinput : ∀ result, input ≠ .proposed result
    · obtain ⟨slots, actions, hhandle, hreports⟩ := handle_of_finished hfinished hinput
      refine ⟨_, hhandle, h.of_finished hfinished (fun a ha => ?_) slots⟩
      obtain ⟨i, result, rfl⟩ := hreports a ha
      rfl
    · push Not at hinput
      obtain ⟨result, rfl⟩ := hinput
      refine ⟨_, rfl, ?_⟩
      rcases h with h | h | h
      · rw [h.unfinished] at hfinished
        cases hfinished
      · exact Or.inr (Or.inr (h.proposed result))
      · rw [PutOp.onProposed, if_pos h.idle, List.append_nil]
        exact Or.inr (Or.inr h)

end Phases

end Hamster.Coord
