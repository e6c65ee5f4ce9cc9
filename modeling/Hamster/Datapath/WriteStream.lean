import Hamster.Datapath.Server

/-!
# Sending a shard

`internal/datapath/write.go`: the state machine that sends one shard to one
node.  An operation on a stream returns the stream, the messages it sends and,
if it ends the stream, what `done` is called with.  A panic of the source is
`none`.  The callback `onWindow` only invites the caller to write more.

`Sending b w` is what holds of a stream that carries `b` between two operations:
the buffer is the part of `b` behind the acknowledged base, and all of it has been
transmitted.  `Sound` is what every operation gives back: the stream in order, the
messages of this stream with bytes of `b`, and an end that is the first one.
-/

namespace Hamster.Datapath

open CodeLib

def chunkSize : Nat := 64 * 1024

def windowBytes : Nat := 1024 * 1024

/-- How many timer firings without progress fail a stream. -/
def maxAttempts : Nat := 20

inductive WriteError where
  | refused (e : TransferError)
  | overAcked (staged written : Nat)
  | aborted
  | unreachable (attempts : Nat)
deriving DecidableEq

structure WriteStream where
  key : ShardKey
  stream : Nat
  /-- The unacknowledged bytes, from offset `base` on. -/
  buf : Bytes := []
  base : Nat := 0
  /-- How far the stream has transmitted. -/
  sent : Nat := 0
  committing : Bool := false
  length : Nat := 0
  checksum : Bytes := []
  attempts : Nat := 0
  finished : Bool := false
deriving DecidableEq

structure Effect where
  stream : WriteStream
  msgs : List Request := []
  done : Option (Except WriteError Unit) := none

namespace WriteStream

def written (w : WriteStream) : Nat := w.base + w.buf.length

/-- The loop of `pump`: the chunks from offset `sent` on, and how far they go.
Every round sends a byte at least. -/
def pumpLoop (w : WriteStream) : Nat → Nat → List Request × Nat
  | 0, sent => ([], sent)
  | fuel + 1, sent =>
    if sent < w.written then
      let start := sent - w.base
      let stop := min (start + chunkSize) w.buf.length
      let rest := w.pumpLoop fuel (w.base + stop)
      (.chunk { key := w.key, offset := sent, data := (w.buf.drop start).take (stop - start)
                stream := w.stream } :: rest.1, rest.2)
    else ([], sent)

/-- Transmit the chunks that are not yet, and the commit once everything is. -/
def pump (w : WriteStream) : Effect :=
  let (chunks, sent) := w.pumpLoop (w.written - w.sent) w.sent
  let commits : List Request :=
    if w.committing ∧ sent = w.length then
      [.commit { key := w.key, length := w.length, checksum := w.checksum, stream := w.stream }]
    else []
  { stream := { w with sent := sent }, msgs := chunks ++ commits }

def window (w : WriteStream) : Nat := if w.finished then 0 else windowBytes - w.buf.length

def finish (w : WriteStream) (result : Except WriteError Unit) : Effect where
  stream := { w with finished := true, buf := [] }
  done := some result

/-- `Write`; `none` is a panic of the pacing or of a write after the commit. -/
def write (w : WriteStream) (p : Bytes) : Option Effect :=
  if w.finished then some { stream := w }
  else if w.committing then none
  else if w.window < p.length then none
  else some (pump { w with buf := w.buf ++ p })

/-- `Commit`; `none` is a panic on a second commit or a wrong length. -/
def commit (w : WriteStream) (length : Nat) (checksum : Bytes) : Option Effect :=
  if w.finished then some { stream := w }
  else if w.committing then none
  else if length ≠ w.written then none
  else some (pump { w with committing := true, length := length, checksum := checksum })

def handleAck (w : WriteStream) (m : WriteAckMsg) : Effect :=
  if w.finished ∨ m.stream ≠ w.stream then { stream := w }
  else
    match m.errMsg with
    | some e => w.finish (.error (.refused e))
    | none =>
      if m.committed then w.finish (.ok ())
      else if w.written < m.staged then w.finish (.error (.overAcked m.staged w.written))
      else if w.base < m.staged then
        pump { w with buf := w.buf.drop (m.staged - w.base), base := m.staged, attempts := 0 }
      else { stream := w }

def abort (w : WriteStream) : Effect :=
  if w.finished then { stream := w } else w.finish (.error .aborted)

def onTimer (w : WriteStream) : Effect :=
  if w.finished then { stream := w }
  else if w.buf = [] ∧ w.committing = false then { stream := w }
  else if maxAttempts ≤ w.attempts + 1 then
    finish { w with attempts := w.attempts + 1 } (.error (.unreachable (w.attempts + 1)))
  else pump { w with attempts := w.attempts + 1, sent := w.base }

/-! ## Addresses and ends -/

end WriteStream

def Request.From (k : ShardKey) (stream : Nat) : Request → Prop
  | .chunk m => m.key = k ∧ m.stream = stream
  | .commit m => m.key = k ∧ m.stream = stream
  | .delete _ => False

/-- An operation keeps the address of its stream and ends it once at most. -/
structure Proper (w : WriteStream) (r : Effect) : Prop where
  key : r.stream.key = w.key
  stream : r.stream.stream = w.stream
  msgs : ∀ m ∈ r.msgs, m.From w.key w.stream
  done : r.done ≠ none → w.finished = false ∧ r.stream.finished = true
  finished : w.finished = true → r.stream.finished = true

variable {w' : WriteStream} {r : Effect} {checksum p : Bytes} {length : Nat}

namespace WriteStream

variable {w : WriteStream}

theorem proper_still (w : WriteStream) : Proper w { stream := w } :=
  ⟨rfl, rfl, fun m hm => (by cases hm), fun h => absurd rfl h, fun h => h⟩

theorem pumpLoop_from (w : WriteStream) (fuel sent : Nat) :
    ∀ m ∈ (w.pumpLoop fuel sent).1, m.From w.key w.stream := by
  induction fuel generalizing sent with
  | zero => exact fun m hm => (by cases hm)
  | succ fuel ih =>
    rw [pumpLoop]
    split
    · intro m hm
      rcases List.mem_cons.mp hm with rfl | hm
      · exact ⟨rfl, rfl⟩
      · exact ih _ m hm
    · exact fun m hm => (by cases hm)

theorem proper_pump (hkey : w'.key = w.key) (hstream : w'.stream = w.stream)
    (hfinished : w'.finished = w.finished) : Proper w w'.pump where
  key := hkey
  stream := hstream
  msgs := by
    intro m hm
    rw [← hkey, ← hstream]
    rcases List.mem_append.mp hm with hm | hm
    · exact pumpLoop_from w' _ _ m hm
    · split at hm
      · rw [List.mem_singleton.mp hm]
        exact ⟨rfl, rfl⟩
      · cases hm
  done := fun h => absurd rfl h
  finished := fun h => hfinished.trans h

theorem proper_finish (hkey : w'.key = w.key) (hstream : w'.stream = w.stream)
    (hlive : ¬ w.finished = true) (result : Except WriteError Unit) : Proper w (w'.finish result) :=
  ⟨hkey, hstream, fun m hm => (by cases hm), fun _ => ⟨by simpa using hlive, rfl⟩, fun _ => rfl⟩

theorem proper_write (h : w.write p = some r) : Proper w r := by
  unfold write at h
  split_ifs at h <;> cases h
  · exact proper_still w
  · exact proper_pump rfl rfl rfl

theorem proper_commit (h : w.commit length checksum = some r) : Proper w r := by
  unfold commit at h
  split_ifs at h <;> cases h
  · exact proper_still w
  · exact proper_pump rfl rfl rfl

theorem proper_handleAck (w : WriteStream) (m : WriteAckMsg) : Proper w (w.handleAck m) := by
  unfold handleAck
  split
  next => exact proper_still w
  next hlive =>
    have hlive : ¬ w.finished = true := fun h => hlive (Or.inl h)
    split
    · exact proper_finish rfl rfl hlive _
    · split_ifs
      · exact proper_finish rfl rfl hlive _
      · exact proper_finish rfl rfl hlive _
      · exact proper_pump rfl rfl rfl
      · exact proper_still w

theorem proper_abort (w : WriteStream) : Proper w w.abort := by
  unfold abort
  split
  next => exact proper_still w
  next hlive => exact proper_finish rfl rfl hlive _

theorem proper_onTimer (w : WriteStream) : Proper w w.onTimer := by
  unfold onTimer
  split_ifs with hlive
  · exact proper_still w
  · exact proper_still w
  · refine proper_finish ?_ ?_ hlive _ <;> rfl
  · exact proper_pump rfl rfl rfl

theorem done_handleAck {m : WriteAckMsg} (h : (w.handleAck m).done = some (.ok ())) :
    m.stream = w.stream ∧ m.committed = true := by
  unfold handleAck at h
  split at h
  next => cases h
  next hlive =>
    refine ⟨not_not.mp (fun hne => hlive (Or.inr hne)), ?_⟩
    split at h
    · cases h
    · split_ifs at h with hcommitted
      · exact hcommitted
      all_goals cases h

/-! ## Bytes -/

end WriteStream

structure Sending (b : Bytes) (w : WriteStream) : Prop where
  base_le : w.base ≤ w.sent
  sent_eq : w.finished = false → w.sent = w.written
  buf : w.finished = false → w.buf <+: b.drop w.base
  length : w.finished = false → w.committing = true → w.length = b.length

def Transmitted (msgs : List Request) (i : Nat) : Prop :=
  ∃ c, .chunk c ∈ msgs ∧ c.offset ≤ i ∧ i < c.offset + c.data.length

structure Sound (b : Bytes) (w : WriteStream) (r : Effect) : Prop where
  sending : Sending b r.stream
  carries : ∀ m ∈ r.msgs, m.Carries b
  transmits : ∀ i < r.stream.sent, i < w.sent ∨ Transmitted r.msgs i

namespace WriteStream

variable {b : Bytes} {w : WriteStream}

theorem sound_still (h : Sending b w) : Sound b w { stream := w } :=
  ⟨h, fun m hm => (by cases hm), fun _ hi => Or.inl hi⟩

theorem sound_finish (hbase : w'.base = w.base) (hsent : w'.sent = w.sent) (h : Sending b w)
    (result : Except WriteError Unit) : Sound b w (w'.finish result) where
  sending := ⟨hbase.trans_le (h.base_le.trans_eq hsent.symm), fun h => (by cases h),
    fun h => (by cases h), fun h => (by cases h)⟩
  carries := fun m hm => (by cases hm)
  transmits := fun i hi => Or.inl (hi.trans_eq hsent)

theorem pumpLoop_eq {fuel sent : Nat} (hbase : w.base ≤ sent) (hsent : sent ≤ w.written)
    (hfuel : w.written - sent ≤ fuel) (hbuf : w.buf <+: b.drop w.base) :
    (w.pumpLoop fuel sent).2 = w.written ∧
      (∀ m ∈ (w.pumpLoop fuel sent).1, m.Carries b) ∧
      ∀ i, sent ≤ i → i < w.written → Transmitted (w.pumpLoop fuel sent).1 i := by
  induction fuel generalizing sent with
  | zero => exact ⟨by simp only [pumpLoop]; omega, fun m hm => (by cases hm), fun i _ _ => by omega⟩
  | succ fuel ih =>
    rw [pumpLoop]
    split
    next hlt =>
      have hwritten : w.written = w.base + w.buf.length := rfl
      have hchunk : 0 < chunkSize := by decide
      obtain ⟨hend, hcarries, htransmits⟩ :=
        @ih (w.base + min (sent - w.base + chunkSize) w.buf.length) (by omega) (by omega)
          (by omega)
      refine ⟨hend, fun m hm => ?_, fun i hi hlt' => ?_⟩
      · rcases List.mem_cons.mp hm with rfl | hm
        · have hdrop := hbuf.drop (sent - w.base)
          rw [List.drop_drop, show w.base + (sent - w.base) = sent by omega] at hdrop
          exact (List.take_prefix _ _).trans hdrop
        · exact hcarries m hm
      · by_cases hin : i < w.base + min (sent - w.base + chunkSize) w.buf.length
        · refine ⟨_, List.mem_cons_self, hi, ?_⟩
          dsimp only
          rw [List.length_take, List.length_drop]
          omega
        · obtain ⟨c, hc, hrange⟩ := htransmits i (by omega) hlt'
          exact ⟨c, List.mem_cons_of_mem _ hc, hrange⟩
    next hge => exact ⟨by dsimp only; omega, fun m hm => (by cases hm), fun i _ _ => by omega⟩

theorem sound_pump (hbase : w'.base ≤ w'.sent) (hsent : w'.sent ≤ w'.written)
    (hbuf : w'.buf <+: b.drop w'.base) (hlength : w'.committing = true → w'.length = b.length)
    (hbelow : w'.sent ≤ w.sent) : Sound b w w'.pump := by
  obtain ⟨hend, hcarries, htransmits⟩ :=
    pumpLoop_eq hbase hsent (Nat.le_refl (w'.written - w'.sent)) hbuf
  refine ⟨⟨?_, fun _ => hend, fun _ => hbuf, fun _ => hlength⟩, fun m hm => ?_, fun i hi => ?_⟩
  · show w'.base ≤ (w'.pumpLoop (w'.written - w'.sent) w'.sent).2
    omega
  · rcases List.mem_append.mp hm with hm | hm
    · exact hcarries m hm
    · split at hm
      next hcommit =>
        rw [List.mem_singleton.mp hm]
        exact hlength hcommit.1
      next => cases hm
  · by_cases hold : i < w'.sent
    · exact Or.inl (by omega)
    · have hi : i < (w'.pumpLoop (w'.written - w'.sent) w'.sent).2 := hi
      obtain ⟨c, hc, hrange⟩ := htransmits i (by omega) (by omega)
      exact Or.inr ⟨c, List.mem_append_left _ hc, hrange⟩

theorem sound_write (h : Sending b w) (hp : w.finished = false → p <+: b.drop w.written)
    (hr : w.write p = some r) : Sound b w r := by
  unfold write at hr
  split_ifs at hr with hfinished hcommitting <;> cases hr
  · exact sound_still h
  · have hlive : w.finished = false := by simpa using hfinished
    have hsent := h.sent_eq hlive
    have hbuf : w.buf ++ p <+: b.drop w.base := by
      have hwritten : b.drop w.written = (b.drop w.base).drop w.buf.length := by
        rw [List.drop_drop]
        rfl
      have hp := hp hlive
      rw [hwritten] at hp
      obtain ⟨rest, hrest⟩ := h.buf hlive
      rw [← hrest, List.drop_left] at hp
      rw [← hrest]
      exact (List.prefix_append_right_inj w.buf).mpr hp
    refine sound_pump h.base_le ?_ hbuf (fun hc => absurd hc hcommitting) (Nat.le_refl _)
    show w.sent ≤ w.base + (w.buf ++ p).length
    rw [hsent, written, List.length_append]
    omega

theorem sound_commit (h : Sending b w) (hlength : w.finished = false → length = b.length)
    (hr : w.commit length checksum = some r) : Sound b w r := by
  unfold commit at hr
  split_ifs at hr with hfinished <;> cases hr
  · exact sound_still h
  · have hlive : w.finished = false := by simpa using hfinished
    exact sound_pump h.base_le (h.sent_eq hlive).le (h.buf hlive) (fun _ => hlength hlive)
      (Nat.le_refl _)

theorem sound_handleAck (h : Sending b w) (m : WriteAckMsg) : Sound b w (w.handleAck m) := by
  unfold handleAck
  split
  next => exact sound_still h
  next hstays =>
    have hlive : w.finished = false := by
      by_contra hf
      exact hstays (Or.inl (by simpa using hf))
    have hsent := h.sent_eq hlive
    have hwritten : w.written = w.base + w.buf.length := rfl
    split
    · exact sound_finish rfl rfl h _
    · split_ifs with hcommitted hover hprogress
      · exact sound_finish rfl rfl h _
      · exact sound_finish rfl rfl h _
      · -- progress: the acknowledged bytes leave the buffer
        have hbuf := (h.buf hlive).drop (m.staged - w.base)
        rw [List.drop_drop, show w.base + (m.staged - w.base) = m.staged by omega] at hbuf
        refine sound_pump ?_ ?_ hbuf (h.length hlive) (Nat.le_refl _)
        · show m.staged ≤ w.sent
          omega
        · show w.sent ≤ m.staged + (w.buf.drop (m.staged - w.base)).length
          rw [List.length_drop]
          omega
      · exact sound_still h

theorem sound_abort (h : Sending b w) : Sound b w w.abort := by
  unfold abort
  split
  · exact sound_still h
  · exact sound_finish rfl rfl h _

theorem sound_onTimer (h : Sending b w) : Sound b w w.onTimer := by
  unfold onTimer
  split_ifs with hfinished
  · exact sound_still h
  · exact sound_still h
  · refine sound_finish ?_ ?_ h _ <;> rfl
  · have hlive : w.finished = false := by simpa using hfinished
    exact sound_pump (Nat.le_refl _) (Nat.le_add_right _ _) (h.buf hlive) (h.length hlive) h.base_le

end WriteStream

end Hamster.Datapath
