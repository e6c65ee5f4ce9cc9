import Hamster.CodeLib.Run
import Hamster.Coord.AckRule

/-!
# The PUTs of a node

`AckRule` follows one PUT from the moment its streams are open.  This module adds
how a PUT is opened (`opened_good`) and the limiter that admits it, and carries
both through every run of a node.

`Orderly` is the invariant of a node: no panic, every PUT in order, and as many
operations in flight as there are admitted PUTs without an answer.
`acks_of_paceable` is the result, for every run whose objects are `Paceable`.
`oneShard_panics` is a run of an object that is not: a whole chunk goes to the
only data shard at once and overruns its window.
-/

namespace Hamster.Coord

open CodeLib Meta Place Datapath

/-! ## Opening the streams -/

variable {call : PutCall} {setup : Setup}

section Opening

theorem forall₂_openSlots (vid : VersionID) {i req : Nat} {nodes : List Place.NodeID}
    {skip : List Bool}
    (hlen : skip.length = nodes.length) :
    List.Forall₂ (Slot.Ok false) (openSlots vid i req nodes skip)
        (List.replicate nodes.length []) ∧
      (openSlots vid i req nodes skip).countP (·.failed) = skip.count true ∧
      ∀ s ∈ openSlots vid i req nodes skip, ∀ ws ∈ s.stream,
        ws.window = windowBytes ∧ ws.base = 0 := by
  induction nodes generalizing i req skip with
  | nil =>
    obtain rfl := List.length_eq_zero_iff.mp hlen
    exact ⟨.nil, rfl, fun s hs => (by cases hs)⟩
  | cons n nodes ih =>
    cases skip with
    | nil => cases hlen
    | cons b skip =>
      have hrest : skip.length = nodes.length := Nat.succ.inj hlen
      rw [openSlots, List.length_cons, List.replicate_succ]
      cases b with
      | true =>
        obtain ⟨hok, hcount, hstart⟩ := @ih (i + 1) req skip hrest
        rw [if_pos rfl]
        refine ⟨.cons ⟨fun hf => (by cases hf), fun _ ws hws => (by cases hws),
          fun ws hws => (by cases hws)⟩ hok, ?_, ?_⟩
        · rw [List.countP_cons, hcount, List.count_cons]
          rfl
        · intro s hs ws hws
          rcases List.mem_cons.mp hs with rfl | hs
          · cases hws
          · exact hstart s hs ws hws
      | false =>
        obtain ⟨hok, hcount, hstart⟩ := @ih (i + 1) (req + 1) skip hrest
        rw [if_neg Bool.false_ne_true]
        refine ⟨.cons ⟨fun _ => rfl, fun hf => (by cases hf), fun ws hws _ => ?_⟩ hok, ?_, ?_⟩
        · obtain rfl := Option.mem_some.mp hws
          exact ⟨rfl, rfl⟩
        · rw [List.countP_cons, hcount, List.count_cons]
          rfl
        · intro s hs ws hws
          rcases List.mem_cons.mp hs with rfl | hs
          · obtain rfl := Option.mem_some.mp hws
            exact ⟨rfl, rfl⟩
          · exact hstart s hs ws hws

theorem count_skips_lt {down : Place.NodeID → Bool} {floor : Nat} {nodes : List Place.NodeID}
    (hfloor : 0 < floor) (hle : floor ≤ nodes.length) :
    (skips down floor nodes).length = nodes.length ∧
      (skips down floor nodes).count true < nodes.length := by
  rw [skips]
  split
  next =>
    refine ⟨List.length_map .., ?_⟩
    rw [List.count_eq_zero.mpr (by simp)]
    omega
  next hup =>
    exact ⟨List.length_map .., by omega⟩

variable [Protowire] [ReedSolomon]

variable [LawfulProtowire] [BoundedProtowire]

omit [ReedSolomon] in
theorem length_encodeShard_le (h : Ec.ShardHeader) :
    0 < (Ec.encodeShard h).length ∧ (Ec.encodeShard h).length ≤ 2048 := by
  have hfields := Ec.length_shardFields_le h
  have hmagic : Ec.shardMagic.length = 4 := rfl
  rw [Ec.encodeShard_eq, List.length_append, List.length_append, length_putUint32LE, hmagic]
  omega

omit [ReedSolomon] in
theorem grew_fronts (header : Nat → Ec.ShardHeader) (width : Nat) :
    Grew 2048 (List.replicate width [])
      ((List.range width).map (fun i => Ec.encodeShard (header i))) := by
  rw [Grew, List.forall₂_iff_get]
  refine ⟨by simp, fun i _ _ => ?_⟩
  exact ⟨Ec.encodeShard (header i), by simp, (length_encodeShard_le _).2⟩

variable [Stream.Gcm] [Stream.LawfulGcm]

/-- A PUT whose streams have got the fronts of their shards and nothing else. -/
structure Fresh (call : PutCall) (setup : Setup) (op : PutOp) : Prop where
  eq : op = { call, setup, slots := op.slots, sw := op.sw
              failures := (skips setup.down setup.floor setup.nodes).count true }
  waiting : op.failures < op.width
  width : op.width = setup.k + setup.m
  failures : op.failures = op.slots.countP (·.failed)
  slots : List.Forall₂ (Slot.Ok false) op.slots op.sw.w.shards
  unreported : ∀ s ∈ op.slots, s.succeeded = false
  unacked : ∀ s ∈ op.slots, ∀ ws ∈ s.stream, ws.finished = false → ws.base = 0
  fronts : ∀ b ∈ op.sw.w.shards, 0 < b.length ∧ b.length ≤ 2048
  encoding : ∃ frameSize : Nat,
    (frameSize : Int) =
      Stream.frameSize call.size.toInt Stream.defaultChunkSize setup.dek.isSome ∧
    Encoding op.sw setup.k setup.m call.size.toInt.toNat frameSize op.sw.w.shards setup.dek []

theorem openPut_cases {call : PutCall} {setup : Setup}
    (hlaw : 0 < setup.m → Reconstructs setup.k setup.m) (nextReq : Nat) :
    (∃ width e, openPut call setup nextReq = some (none, failWith width e)) ∨
      ∃ op, openPut call setup nextReq = some (some op.replenish.1, op.replenish.2) ∧
        Fresh call setup op := by
  unfold openPut
  dsimp only
  have hwidth := setup.width_lt
  split
  next e hnew => exact Or.inl ⟨_, _, rfl⟩
  next ecw hnew =>
  obtain ⟨frameSize, hframeSize⟩ :=
    Int.eq_ofNat_of_zero_le (Ec.frameSize_pos_of_newWriter hnew).le
  rw [hframeSize] at hnew
  obtain ⟨hparams, -, hwriting⟩ := Ec.newWriter_eq_ok hlaw (by omega) (by omega) hnew
  have hcode := Ec.codes_codec hparams hlaw
  have hkpos := hparams.k_pos
  have hshards := hwriting.shards
  rw [fullBlocks_of_lt (Nat.mul_pos hkpos (by decide)), Ec.appendStripes, List.foldl_nil] at hshards
  -- The streams, which get the fronts of the shards first.
  have hfloor : 0 < setup.floor := by
    rw [Setup.floor]
    omega
  obtain ⟨hskip, hcount⟩ := @count_skips_lt setup.down setup.floor setup.nodes hfloor
    (by rw [setup.length_nodes, Setup.floor]; omega)
  obtain ⟨hok, hfailed, hstart⟩ :=
    @forall₂_openSlots setup.vid 0 nextReq setup.nodes _ hskip
  rw [setup.length_nodes] at hok
  have hroom : ∀ s ∈ openSlots setup.vid 0 nextReq setup.nodes
      (skips setup.down setup.floor setup.nodes), ∀ ws ∈ s.stream, ws.finished = false →
      2048 ≤ ws.window := fun s hs ws hws _ =>
    (by decide : 2048 ≤ windowBytes).trans_eq (hstart s hs ws hws).1.symm
  obtain ⟨slots₁, hpush₁, hok₁, hpushed₁⟩ := pushAll_of_room hok
    (hshards ▸ grew_fronts
      (fun i => ⟨setup.vid, i, setup.k, setup.m, Ec.defaultSliceSize, frameSize⟩)
      (setup.k + setup.m)) hroom
  rw [hpush₁, Option.bind_eq_bind, Option.bind_some]
  split
  next e hnewStream => exact Or.inl ⟨_, _, rfl⟩
  next sw hnewStream =>
  right
  rw [← Int.toNat_of_nonneg (Stream.size_nonneg_of_newWriter hnewStream)] at hnewStream
  obtain ⟨-, hkey, hframing⟩ := Stream.newWriter_eq_ok hnewStream
  have hencoding : Encoding sw setup.k setup.m call.size.toInt.toNat frameSize
      ((List.range (setup.k + setup.m)).map (fun i : Nat =>
        Ec.encodeShard ⟨setup.vid, i, setup.k, setup.m, Ec.defaultSliceSize, frameSize⟩))
      setup.dek [] :=
    ⟨hcode, hkey, by rw [List.length_map, List.length_range], Nat.zero_le _, ecw, hwriting,
      hframing⟩
  have hsame : sw.w.shards = ecw.shards := (hencoding.shards_eq_fronts (by decide)).trans hshards.symm
  have hgrew : Grew 0 ecw.shards sw.w.shards := by
    rw [hsame]
    exact Grew.refl _ 0
  obtain ⟨slots₂, hpush₂, hok₂, hpushed₂⟩ := pushAll_of_room hok₁ hgrew
    (fun _ _ _ _ _ => Nat.zero_le _)
  rw [hpush₂]
  have hlen : slots₂.length = setup.k + setup.m := by
    rw [hok₂.length_eq, hsame, hshards, List.length_map, List.length_range]
  have hfailures : slots₂.countP (·.failed) =
      (skips setup.down setup.floor setup.nodes).count true :=
    (countP_of_forall₂ (hpushed₂.imp (fun _ _ hs => hs.failed))).trans
      ((countP_of_forall₂ (hpushed₁.imp (fun _ _ hs => hs.failed))).trans hfailed)
  have hopened : ∀ s ∈ slots₂, ∃ s₀ ∈ openSlots setup.vid 0 nextReq setup.nodes
      (skips setup.down setup.floor setup.nodes), Slot.Pushed (2048 + 0) s₀ s := by
    intro s hs
    obtain ⟨s₁, hs₁, h₂⟩ := exists_of_mem_forall₂ hpushed₂.flip hs
    obtain ⟨s₀, hs₀, h₁⟩ := exists_of_mem_forall₂ hpushed₁.flip hs₁
    exact ⟨s₀, hs₀, h₁.trans h₂⟩
  refine ⟨{ call, setup, slots := slots₂, sw
            failures := (skips setup.down setup.floor setup.nodes).count true }, rfl, ?_⟩
  exact {
    eq := rfl
    waiting := by
      show _ < slots₂.length
      rw [hlen, ← setup.length_nodes]
      exact hcount
    width := hlen
    failures := hfailures.symm
    slots := hok₂
    unreported := fun s hs => by
      obtain ⟨s₀, hs₀, hpushed⟩ := hopened s hs
      rw [hpushed.succeeded]
      refine Slot.not_succeeded_of_allows (n := windowBytes) (by decide) ?_
      unfold Slot.allows
      split
      · exact Bool.or_true _
      next ws hws => simp [(hstart s₀ hs₀ ws hws).1]
    unacked := fun s hs ws hws hlive => by
      obtain ⟨s₀, hs₀, hpushed⟩ := hopened s hs
      obtain ⟨ws₀, hws₀, -, -, hbase⟩ := hpushed.window ws hws hlive
      rw [hbase, (hstart s₀ hs₀ ws₀ hws₀).2]
    fronts := fun b hb => by
      rw [hsame, hshards] at hb
      obtain ⟨i, -, rfl⟩ := List.mem_map.mp hb
      exact length_encodeShard_le _
    encoding := ⟨frameSize, hframeSize.symm, by rwa [hsame, hshards]⟩ }

omit [Protowire] [LawfulProtowire] [BoundedProtowire] [Stream.LawfulGcm] in
theorem Fresh.running {op : PutOp} (h : Fresh call setup op)
    (hpace : Paceable setup.k call.size.toInt.toNat) : Running op [] := by
  obtain ⟨frameSize, -, hencoding⟩ := h.encoding
  have hwaiting := h.waiting
  have hfailures := h.failures
  have hwidth := h.width
  have hslots := h.slots
  have hnone := List.countP_eq_zero.mpr (fun s hs => ne_true_of_eq_false (h.unreported s hs))
  have hfronts := h.fronts
  rw [h.eq] at hencoding hwaiting hfailures hwidth hslots hnone hfronts ⊢
  exact {
    unfinished := rfl
    idle := rfl
    quiet := fun a ha => (by cases ha)
    width := hwidth
    failures := hfailures
    successes := hnone.symm
    slots := hslots
    encoding := fun _ => ⟨_, _, _, _, hpace, fun b hb => (hfronts b hb).2, hencoding⟩
    committed := fun hclosed => (by cases hclosed)
    durable := fun hclosed => (by cases hclosed)
    waiting := (Nat.zero_add _).trans_lt hwaiting }

/-- What a PUT is after its streams were opened: in order, or failed. -/
inductive Opened : Option PutOp → List PutAction → Prop
  | good {op : PutOp} {actions : List PutAction} (h : Good op actions) : Opened (some op) actions
  | failed (width : Nat) (e : PutError) : Opened none (failWith width e)

theorem openPut_opened (hlaw : 0 < setup.m → Reconstructs setup.k setup.m)
    (hpace : Paceable setup.k call.size.toInt.toNat) (nextReq : Nat) :
    ∃ op actions, openPut call setup nextReq = some (op, actions) ∧ Opened op actions := by
  rcases @openPut_cases _ _ _ _ _ _ call setup hlaw nextReq with
    ⟨width, e, hopen⟩ | ⟨op, hopen, hfresh⟩
  · exact ⟨none, _, hopen, .failed width e⟩
  · exact ⟨_, _, hopen, .good (Or.inl (hfresh.running hpace).replenish)⟩

end Opening

/-! ## The limiter -/

theorem inflight_settle (l : Limiter) (headroom : Bool) (actions : List PutAction) :
    (Coordinator.settle l headroom actions).inflight =
      l.inflight - actions.countP PutAction.isRelease := by
  rw [Coordinator.settle, List.countP_eq_length_filter]
  generalize actions.filter PutAction.isRelease = releases
  induction releases generalizing l with
  | nil => rfl
  | cons a releases ih =>
    rw [List.foldl_cons, ih, List.length_cons]
    show l.inflight - 1 - releases.length = _
    omega

theorem tryAcquire_eq_some {l l' : Limiter} (h : l.tryAcquire = some l') :
    l'.inflight = l.inflight + 1 := by
  rw [Limiter.tryAcquire] at h
  split at h
  · cases h
  · obtain rfl := Option.some.inj h
    rfl

/-! ## Every run of a node -/

def Put.answered (p : Put) : Bool := p.trace.any PutAction.isDone

def Put.unanswered (p : Put) : Bool := p.admitted && !p.answered

/-- Every stream that was opened has reported, and a proposal that was made is
answered. -/
def Put.Settled (p : Put) : Prop :=
  ∀ op ∈ p.op, (∀ s ∈ op.slots, ∀ ws ∈ s.stream, ws.finished = true) ∧ op.awaiting = false

structure Put.Acked (p : Put) : Prop where
  /-- `done` is called once at most. -/
  atMostOnce : p.trace.countP PutAction.isDone ≤ 1
  /-- It is called when everything it waits for has come. -/
  once : p.Settled → p.trace.countP PutAction.isDone = 1
  /-- An admitted PUT gives its slot back with its answer. -/
  released : p.trace.countP PutAction.isRelease =
    if p.admitted then p.trace.countP PutAction.isDone else 0
  /-- Success means enough shards, durable as the record has them. -/
  durable : ∀ r, .done (.ok r) ∈ p.trace →
    ∃ op record, p.op = some op ∧ DurableBefore (min (op.setup.k + 1) (op.setup.k + op.setup.m))
      record [.done (.ok r)] p.trace

section Runs

variable [ReedSolomon] [Stream.Gcm] {trace : List PutAction} {op : PutOp}

theorem Good.counts (h : Good op trace) :
    trace.countP PutAction.isRelease = trace.countP PutAction.isDone ∧
      trace.countP PutAction.isDone ≤ 1 := by
  rcases h with h | h | h
  · obtain ⟨hdone, hrelease⟩ := counts_of_quiet (not_release_of_quiet h.quiet)
    exact ⟨hrelease.trans hdone.symm, hdone.trans_le (Nat.zero_le 1)⟩
  · obtain ⟨hdone, hrelease⟩ := counts_of_quiet (fun a ha => (h.unanswered a ha).2)
    exact ⟨hrelease.trans hdone.symm, hdone.trans_le (Nat.zero_le 1)⟩
  · exact ⟨h.released.trans h.once.symm, h.once.le⟩

theorem Running.exists_open (h : Running op trace) :
    ∃ s ∈ op.slots, ∃ ws ∈ s.stream, ws.finished = false := by
  by_contra hnone
  push Not at hnone
  have hall : ∀ s ∈ op.slots, s.failed = true ∨ s.succeeded = true := by
    intro s hs
    cases hfailed : s.failed with
    | true => exact Or.inl rfl
    | false =>
      obtain ⟨b, -, hok⟩ := exists_of_mem_forall₂ h.slots hs
      obtain ⟨ws, hws⟩ := Option.isSome_iff_exists.mp (hok.opened hfailed)
      have hfinished : ws.finished = true := by simpa using hnone s hs ws hws
      exact Or.inr (by simp [Slot.succeeded, hfailed, hws, hfinished])
  have hsum : ∀ slots : List Slot, (∀ s ∈ slots, s.failed = true ∨ s.succeeded = true) →
      slots.length ≤ slots.countP Slot.succeeded + slots.countP (·.failed) := by
    intro slots
    induction slots with
    | nil => exact fun _ => Nat.zero_le _
    | cons s slots ih =>
      intro hslots
      have hrest := ih (fun t ht => hslots t (List.mem_cons_of_mem s ht))
      rw [List.countP_cons, List.countP_cons, List.length_cons]
      rcases hslots s List.mem_cons_self with hs | hs
      · rw [if_pos hs]
        omega
      · rw [if_pos hs]
        omega
  have hle := hsum op.slots hall
  have hwaiting := h.waiting
  rw [h.successes, h.failures] at hwaiting
  exact Nat.not_lt.mpr hle hwaiting

theorem acked_of_good (h : Good op trace) : Put.Acked ⟨true, some op, trace⟩ where
  atMostOnce := h.counts.2
  once := by
    intro hsettled
    obtain ⟨hclosed, hidle⟩ := hsettled op rfl
    rcases h with h | h | h
    · obtain ⟨s, hs, ws, hws, hlive⟩ := h.exists_open
      rw [hclosed s hs ws hws] at hlive
      cases hlive
    · rw [h.awaiting] at hidle
      cases hidle
    · exact h.once
  released := h.counts.1
  durable := by
    intro r hr
    rcases h with h | h | h
    · exact absurd (h.quiet _ hr) (fun hf => (by cases hf))
    · exact absurd (h.unanswered _ hr).2.2 (fun hf => (by cases hf))
    · obtain ⟨p, hp⟩ := h.durable r hr
      exact ⟨op, p, rfl, hp⟩

inductive Put.Ordered : Put → Prop
  | good {op : PutOp} {trace : List PutAction} (h : Good op trace) : Ordered ⟨true, some op, trace⟩
  | failed (width : Nat) (e : PutError) : Ordered ⟨true, none, failWith width e⟩
  | unplaced (e : PutError) : Ordered ⟨true, none, [.release, .done (.error e)]⟩
  | shed : Ordered ⟨false, none, [.done (.error .shed)]⟩

theorem Put.Ordered.acked {p : Put} (h : p.Ordered) : p.Acked := by
  cases h with
  | good h => exact acked_of_good h
  | failed width e =>
    obtain ⟨hdone, hrelease⟩ := counts_failWith width e
    refine ⟨hdone.le, fun _ => hdone, hrelease.trans hdone.symm, fun r hr => ?_⟩
    simp [failWith] at hr
  | unplaced e | shed => exact ⟨Nat.le_refl 1, fun _ => rfl, rfl, fun r hr => by simp at hr⟩

structure Orderly (c : Coordinator) : Prop where
  running : c.panicked = false
  inflight : c.limiter.inflight = c.puts.countP Put.unanswered
  puts : ∀ p ∈ c.puts, p.Ordered

theorem unanswered_good (h : Good op trace) :
    (if Put.unanswered ⟨true, some op, trace⟩ then 1 else 0) +
      trace.countP PutAction.isRelease = 1 := by
  obtain ⟨hsame, hle⟩ := h.counts
  rw [hsame]
  cases hany : trace.any PutAction.isDone with
  | true =>
    have hpos : 0 < trace.countP PutAction.isDone := by
      obtain ⟨a, ha, hdone⟩ := List.any_eq_true.mp hany
      exact List.countP_pos_iff.mpr ⟨a, ha, hdone⟩
    simp only [Put.unanswered, Put.answered, hany]
    simp
    omega
  | false =>
    have hzero : trace.countP PutAction.isDone = 0 := List.countP_eq_zero.mpr
      (fun a ha hdone => by rw [List.any_eq_true.mpr ⟨a, ha, hdone⟩] at hany; cases hany)
    simp [Put.unanswered, Put.answered, hany, hzero]

end Runs

section Steps

variable [ReedSolomon]

/-- The windows that a PUT asks for are large enough for its object. -/
def PutEvent.Paceable : PutEvent → Prop
  | .call put (.ok setup) => Coord.Paceable setup.k put.size.toInt.toNat
  | _ => True

def PutEvent.Coded : PutEvent → Prop
  | .call _ (.ok setup) => 0 < setup.m → Reconstructs setup.k setup.m
  | _ => True

instance PutEvent.Paceable.decidable (e : PutEvent) : Decidable e.Paceable := by
  unfold PutEvent.Paceable
  split <;> infer_instance

variable {c : Coordinator}

variable [Stream.Gcm]

theorem Orderly.add (h : Orderly c) {put : Put} (hput : put.Ordered) {limiter : Limiter}
    (hinflight : limiter.inflight = c.limiter.inflight + if put.unanswered then 1 else 0)
    (nextReq : Nat) : Orderly { c with limiter, nextReq, puts := c.puts ++ [put] } where
  running := h.running
  inflight := by
    rw [List.countP_append, List.countP_singleton, ← h.inflight]
    exact hinflight
  puts := fun p hp => by
    rcases List.mem_append.mp hp with hp | hp
    · exact h.puts p hp
    · rwa [List.mem_singleton.mp hp]

variable [Stream.LawfulGcm]

theorem Orderly.begin [Protowire] [LawfulProtowire] [BoundedProtowire] (h : Orderly c)
    {setup : Except PutError Setup} {headroom : Bool} (hpace : (PutEvent.call call setup).Paceable)
    (hcoded : (PutEvent.call call setup).Coded) :
    ∃ c', c.begin call setup headroom = some c' ∧ Orderly c' := by
  unfold Coordinator.begin
  match hacquire : c.limiter.tryAcquire with
  | none => exact ⟨_, rfl, h.add .shed rfl c.nextReq⟩
  | some l =>
    have hl := tryAcquire_eq_some hacquire
    match setup, hpace, hcoded with
    | .error e, _, _ =>
      refine ⟨_, rfl, h.add (.unplaced e) ?_ c.nextReq⟩
      show l.inflight - 1 = c.limiter.inflight + 0
      omega
    | .ok setup, hpace, hcoded =>
      have hpace : Paceable setup.k call.size.toInt.toNat := hpace
      obtain ⟨op, actions, hopen, hopened⟩ := openPut_opened hcoded hpace c.nextReq
      dsimp only
      rw [hopen]
      refine ⟨_, rfl, ?_⟩
      cases hopened with
      | good hgood =>
        refine h.add (.good hgood) ?_ _
        have hcount := unanswered_good hgood
        rw [inflight_settle, hl]
        dsimp only
        omega
      | failed width e =>
        refine h.add (.failed width e) ?_ _
        have hanswered : Put.unanswered ⟨true, none, failWith width e⟩ = false := by
          simp [Put.unanswered, Put.answered, failWith, PutAction.isDone]
        rw [inflight_settle, hl, (counts_failWith width e).2, hanswered]
        rfl

theorem Orderly.handle (h : Orderly c) {j : Nat} {input : PutInput} {headroom : Bool} :
    ∃ c', c.handle j input headroom = some c' ∧ Orderly c' := by
  unfold Coordinator.handle
  match hput : c.puts[j]? with
  | none => exact ⟨_, rfl, h⟩
  | some ⟨admitted, none, trace⟩ => exact ⟨_, rfl, h⟩
  | some ⟨admitted, some op, trace⟩ =>
    have hordered := h.puts _ (List.mem_of_getElem? hput)
    cases hordered with
    | good hgood =>
      obtain ⟨r, hr, hgood'⟩ := Good.handle hgood
      dsimp only
      rw [hr]
      refine ⟨_, rfl, h.running, ?_, fun p hp => ?_⟩
      · obtain ⟨hlt, hget⟩ := List.getElem?_eq_some_iff.mp hput
        have hbefore := unanswered_good hgood
        have hafter := unanswered_good hgood'
        have hmem : 0 < c.puts.countP Put.unanswered ∨
            Put.unanswered ⟨true, some op, trace⟩ = false := by
          cases hun : Put.unanswered ⟨true, some op, trace⟩ with
          | true => exact Or.inl (List.countP_pos_iff.mpr ⟨_, List.mem_of_getElem? hput, hun⟩)
          | false => exact Or.inr rfl
        rw [List.countP_append] at hafter
        show (Coordinator.settle c.limiter headroom r.2).inflight = _
        rw [inflight_settle, h.inflight, List.countP_set hlt, hget]
        rcases hmem with hpos | hnot
        · omega
        · rw [hnot] at hbefore ⊢
          simp only [Bool.false_eq_true, if_false] at hbefore ⊢
          omega
      · rcases List.mem_or_eq_of_mem_set hp with hp | rfl
        · exact h.puts p hp
        · exact .good hgood'

theorem Orderly.step [Protowire] [LawfulProtowire] [BoundedProtowire] (h : Orderly c)
    {e : PutEvent × Bool} (hpace : e.1.Paceable) (hcoded : e.1.Coded) :
    Orderly (c.step e) := by
  obtain ⟨event, headroom⟩ := e
  have hnext : ∃ c', c.next event headroom = some c' ∧ Orderly c' := by
    cases event with
    | call call setup => exact h.begin hpace hcoded
    | input j input => exact h.handle
  obtain ⟨c', hc', horderly⟩ := hnext
  rw [Coordinator.step, if_neg (by simp [h.running]), hc']
  exact horderly

/-- In every run of a node whose objects are paceable, nothing panics, every PUT
keeps its promise, and the limiter counts the admitted PUTs without an answer. -/
theorem acks_of_paceable [Protowire] [LawfulProtowire] [BoundedProtowire]
    {events : List (PutEvent × Bool)} (hcoded : ∀ e ∈ events, e.1.Coded)
    (hpace : ∀ e ∈ events, e.1.Paceable) :
    let c := events.foldl Coordinator.step {}
    c.panicked = false ∧ c.limiter.inflight = c.puts.countP Put.unanswered ∧
      ∀ p ∈ c.puts, p.Acked := by
  have hstart : Orderly {} := ⟨rfl, rfl, fun p hp => (by cases hp)⟩
  have horderly := foldl_invariant (P := fun e : PutEvent × Bool => e.1.Coded ∧ e.1.Paceable)
    (fun c e he (h : Orderly c) => h.step he.2 he.1) (fun e he => ⟨hcoded e he, hpace e he⟩) hstart
  exact ⟨horderly.running, horderly.inflight, fun p hp => (horderly.puts p hp).acked⟩

end Steps

/-! ## One PUT -/

section OnePut

variable [ReedSolomon] [Stream.Gcm]

/-- An operation after an input; `none` once it has panicked. -/
def PutOp.next (o : Option PutOp) (input : PutInput) : Option PutOp :=
  o.bind (fun op => (op.handle input).map Prod.fst)

omit [ReedSolomon] in
theorem setupPut_params {env : PutEnv} {layout : Layout} (hlayout : env.layout = some layout)
    {size : Int64} (h : setupPut env size = .ok setup) :
    (Ec.autoProfile layout.activeCount).params size = (setup.k, setup.m) := by
  unfold setupPut at h
  simp only [hlayout] at h
  split at h
  · cases h
  next plan hplan =>
    obtain ⟨hparams, -⟩ := planPut_ok hplan
    split at h
    · split at h
      · cases h
      split at h
      · cases h
      split at h
      · cases h
      split at h
      · cases h
      cases h
      exact hparams
    · cases h
      exact hparams

omit [ReedSolomon] [Stream.Gcm] in
theorem paceable_params {nodes : Nat} {size : Int64} (hmax : size.toInt ≤ 5368709120)
    (h : size.toInt + 4096 ≤ Stream.defaultChunkSize ∨ 3 ≤ nodes) :
    Paceable ((Ec.autoProfile nodes).params size).1 size.toInt.toNat := by
  have hchunk : Stream.defaultChunkSize = 1048576 := rfl
  rcases h with h | h
  · exact Or.inl (by omega)
  · have hdata : 2 ≤ (Ec.autoProfile nodes).data := by
      unfold Ec.autoProfile
      split_ifs <;> dsimp only <;> omega
    have hsmall : Ec.smallObjectThreshold.toInt = 131072 := rfl
    unfold Ec.Profile.params
    split
    next hlt =>
      have hlt' := Int64.lt_iff_toInt_lt.mp hlt.1
      exact Or.inl (by omega)
    next => exact Or.inr ⟨hdata, by omega⟩

/-- With three active nodes, or an object that is smaller than a chunk, no write to
a stream overruns its window. -/
theorem pacing_fits_windows [Protowire] [LawfulProtowire] [BoundedProtowire] [Stream.LawfulGcm]
    {env : PutEnv} {layout : Layout} (hlayout : env.layout = some layout) {call : PutCall}
    {setup : Setup} (hsetup : setupPut env call.size = .ok setup)
    (hcoded : 0 < setup.m → Reconstructs setup.k setup.m) (hmax : call.size.toInt ≤ 5368709120)
    (hfits : call.size.toInt + 4096 ≤ Stream.defaultChunkSize ∨ 3 ≤ layout.activeCount)
    (nextReq : Nat) :
    ∃ op actions, openPut call setup nextReq = some (op, actions) ∧
      ∀ op₀ ∈ op, ∀ inputs : List PutInput, inputs.foldl PutOp.next (some op₀) ≠ none := by
  have hpace : Paceable setup.k call.size.toInt.toNat := by
    have hparams := paceable_params hmax hfits
    rwa [setupPut_params hlayout hsetup] at hparams
  obtain ⟨op, actions, hopen, hopened⟩ := openPut_opened hcoded hpace nextReq
  refine ⟨op, actions, hopen, fun op₀ hop inputs => ?_⟩
  cases hopened with
  | failed width e => cases hop
  | good hgood =>
    obtain rfl := Option.some.inj hop
    have hnext : ∀ o input, (∃ op trace, o = some op ∧ Good op trace) →
        ∃ op trace, PutOp.next o input = some op ∧ Good op trace := by
      rintro _ input ⟨op, trace, rfl, hgood⟩
      obtain ⟨r, hr, hgood'⟩ : ∃ r, op.handle input = some r ∧ Good r.1 (trace ++ r.2) :=
        hgood.handle
      exact ⟨r.1, _, by rw [PutOp.next, Option.bind_some, hr, Option.map_some], hgood'⟩
    obtain ⟨op', trace, hop', -⟩ := foldl_preserves hnext inputs ⟨_, _, rfl, hgood⟩
    rw [hop']
    exact nofun

end OnePut

/-! ## A window that is too small -/

section Overrun

theorem write_eq_none {ws : WriteStream} {p : Bytes} (hlive : ws.finished = false)
    (hroom : ws.window < p.length) : ws.write p = none := by
  rw [WriteStream.write, if_neg (by simp [hlive])]
  split
  · rfl
  · rfl

theorem pushAll_eq_none {slots : List Slot} {before after : List Bytes} {i : Nat} {s : Slot}
    {b a : Bytes} (hs : slots[i]? = some s) (hb : before[i]? = some b)
    (ha : after[i]? = some a) (hpush : s.push (a.drop b.length) = none) :
    pushAll slots before after = none := by
  induction i generalizing slots before after with
  | zero =>
    obtain ⟨slots, rfl⟩ := List.head?_eq_some_iff.mp (List.head?_eq_getElem? ▸ hs)
    obtain ⟨before, rfl⟩ := List.head?_eq_some_iff.mp (List.head?_eq_getElem? ▸ hb)
    obtain ⟨after, rfl⟩ := List.head?_eq_some_iff.mp (List.head?_eq_getElem? ▸ ha)
    rw [pushAll, hpush]
    rfl
  | succ i ih =>
    cases slots with
    | nil => cases hs
    | cons s' slots =>
      cases before with
      | nil => cases hb
      | cons b' before =>
        cases after with
        | nil => cases ha
        | cons a' after =>
          rw [pushAll, ih hs hb ha]
          cases s'.push (a'.drop b'.length) with
          | none | some _ => rfl

variable [ReedSolomon] [Stream.Gcm] [Stream.LawfulGcm]

/-- A PUT with a single data shard whose fronts are not acknowledged.  The first
chunk of the body is `X` and what is pending. -/
structure Unacked (op : PutOp) (X : Bytes) : Prop where
  slots : List.Forall₂ (Slot.Ok false) op.slots op.sw.w.shards
  unreported : ∀ s ∈ op.slots, s.succeeded = false
  bases : ∀ s ∈ op.slots, ∀ ws ∈ s.stream, ws.finished = false → ws.base = 0
  fronts : ∀ b ∈ op.sw.w.shards, 0 < b.length ∧ b.length ≤ 2048
  live : ∃ s ∈ op.slots, s.failed = false
  single : op.setup.k = 1
  chunk : X.length + op.pending.length = Stream.defaultChunkSize
  short : X.length < Stream.defaultChunkSize
  encoding : ∃ n frameSize, Stream.defaultChunkSize ≤ n ∧
    Stream.defaultChunkSize + 60 ≤ frameSize ∧
    Encoding op.sw 1 op.setup.m n frameSize op.sw.w.shards op.setup.dek X

variable {op : PutOp} {X : Bytes}

omit [Stream.LawfulGcm] in
theorem Unacked.window (h : Unacked op X) {s : Slot} (hs : s ∈ op.slots) {ws : WriteStream}
    (hws : ws ∈ s.stream) (hlive : ws.finished = false) :
    stepNeed ≤ ws.window ∧ ws.window < Stream.defaultChunkSize := by
  obtain ⟨b, hb, hok⟩ := exists_of_mem_forall₂ h.slots hs
  obtain ⟨hpos, hle⟩ := h.fronts b hb
  have hwritten : ws.base + ws.buf.length = b.length := (hok.sending ws hws hlive).1
  have hbase := h.bases s hs ws hws hlive
  have hwindow := window_of_live hlive
  have hsize : windowBytes = 1048576 := rfl
  have hchunk : Stream.defaultChunkSize = 1048576 := rfl
  have hneed : stepNeed = 532480 := rfl
  omega

omit [Stream.LawfulGcm] in
theorem Unacked.unfinished (h : Unacked op X) {s : Slot} (hs : s ∈ op.slots)
    (hfailed : s.failed = false) {ws : WriteStream} (hws : s.stream = some ws) :
    ws.finished = false := by
  simpa [Slot.succeeded, hfailed, hws] using h.unreported s hs

omit [Stream.LawfulGcm] in
theorem Unacked.windowsAllow (h : Unacked op X) : op.windowsAllow stepNeed = true := by
  refine List.all_eq_true.mpr (fun s hs => ?_)
  unfold Slot.allows
  cases hfailed : s.failed with
  | true => rfl
  | false =>
    cases hws : s.stream with
    | none => rfl
    | some ws => simpa using (h.window hs hws (h.unfinished hs hfailed hws)).1

/-- The steps before the last send nothing; the last one sends the chunk, which
does not fit. -/
theorem Unacked.pace_eq_none (h : Unacked op X) {turns : Nat}
    (hturns : op.pending.length ≤ turns) : op.pace turns = none := by
  induction turns generalizing op X with
  | zero =>
    have hchunk := h.chunk
    have hshort := h.short
    omega
  | succ turns ih =>
    have hchunk := h.chunk
    have hshort := h.short
    have hsize : Stream.defaultChunkSize = 1048576 := rfl
    have hpending : op.pending.isEmpty = false := by
      rw [List.isEmpty_eq_false_iff, ← List.length_pos_iff]
      omega
    have hstep : op.stepBytes = 258048 := by
      rw [PutOp.stepBytes, h.single]
      rfl
    obtain ⟨n, frameSize, hn, hframe, hencoding⟩ := h.encoding
    rw [PutOp.pace, if_neg (by simp [hpending]), if_neg (by simp [h.windowsAllow])]
    dsimp only
    have hlen : (op.pending.take (min op.stepBytes op.pending.length)).length =
        min op.stepBytes op.pending.length := by
      rw [List.length_take]
      omega
    rcases Nat.lt_or_ge op.stepBytes op.pending.length with hmore | hlast
    · obtain ⟨w₀, hw₀, hframing⟩ := hencoding.started
      obtain ⟨sw, hwrite, hsame⟩ := hframing.write_of_lt
        (p := op.pending.take (min op.stepBytes op.pending.length)) (by omega) (by omega)
      have hgrew : Grew 0 op.sw.w.shards sw.w.shards := by
        rw [hsame]
        exact Grew.refl _ 0
      obtain ⟨slots, hpush, hslots, hpushed⟩ := pushAll_of_room h.slots hgrew
        (fun _ _ _ _ _ => Nat.zero_le _)
      have hfeed : op.feedShards sw = some { op with slots, sw } := by
        rw [PutOp.feedShards, hpush]
        rfl
      rw [hwrite]
      dsimp only
      rw [hfeed, Option.bind_eq_bind, Option.bind_some]
      refine @ih _ (X ++ op.pending.take (min op.stepBytes op.pending.length)) ?_ ?_
      · refine ⟨hslots, fun s' hs' => ?_, fun s' hs' ws' hws' hlive' => ?_, ?_, ?_, h.single, ?_,
          ?_, ?_⟩
        · obtain ⟨s, hs, hpushed⟩ := exists_of_mem_forall₂ hpushed.flip hs'
          rw [hpushed.succeeded, h.unreported s hs]
        · obtain ⟨s, hs, hpushed⟩ := exists_of_mem_forall₂ hpushed.flip hs'
          obtain ⟨ws, hws, hlive, -, hbase⟩ := hpushed.window ws' hws' hlive'
          rw [hbase, h.bases s hs ws hws hlive]
        · rw [hsame]
          exact h.fronts
        · obtain ⟨s, hs, hfailed⟩ := h.live
          obtain ⟨s', hs', hpushed⟩ := exists_of_mem_forall₂ hpushed hs
          exact ⟨s', hs', hpushed.failed.trans hfailed⟩
        · rw [List.length_append, hlen, List.length_drop]
          omega
        · rw [List.length_append, hlen]
          omega
        · exact ⟨n, frameSize, hn, hframe, by rw [hsame]; exact hencoding.next hwrite⟩
      · rw [List.length_drop]
        omega
    · obtain ⟨sw, hwrite, hgrown⟩ := hencoding.write_chunk
        (p := op.pending.take (min op.stepBytes op.pending.length)) hshort (by omega) hn hframe
      obtain ⟨s, hs, hfailed⟩ := h.live
      obtain ⟨i, hi⟩ := List.mem_iff_getElem?.mp hs
      obtain ⟨b, hb, hok⟩ := getElem?_forall₂ h.slots.flip hi
      obtain ⟨ws, hws⟩ := Option.isSome_iff_exists.mp (hok.opened hfailed)
      have hlive := h.unfinished hs hfailed hws
      obtain ⟨d, hd, hlarge⟩ := hgrown i b hb
      have hroom := (h.window hs hws hlive).2
      have hpush : s.push ((b ++ d).drop b.length) = none := by
        rw [List.drop_left, Slot.push, hws]
        dsimp only
        rw [write_eq_none hlive (hroom.trans_le hlarge)]
        rfl
      rw [hwrite]
      dsimp only
      rw [PutOp.feedShards, pushAll_eq_none hi hb hd hpush]
      rfl

theorem Fresh.feed_eq_none (h : Fresh call setup op) (hsingle : setup.k = 1)
    (hsize : Stream.defaultChunkSize ≤ call.size.toInt.toNat)
    (hframe : Stream.defaultChunkSize + 60 ≤
      Stream.frameSize call.size.toInt Stream.defaultChunkSize setup.dek.isSome)
    {chunk : Bytes} (hchunk : chunk.length = Stream.defaultChunkSize) :
    op.replenish.1.feed chunk = none := by
  have hfinished : op.finished = false := by rw [h.eq]
  have hclosed : op.closed = false := by rw [h.eq]
  have hpending : op.pending = [] := by rw [h.eq]
  have hsetup : op.setup = setup := by rw [h.eq]
  obtain ⟨frameSize, hframeSize, hencoding⟩ := h.encoding
  have hunacked : Unacked { op.replenish.1 with
      fed := op.fed ++ chunk, pending := op.pending ++ chunk
      outstanding := op.replenish.1.outstanding - 1 } [] := by
    refine ⟨h.slots, h.unreported, h.unacked, h.fronts, ?_, ?_, ?_, by decide, ?_⟩
    · by_contra hnone
      push Not at hnone
      have hall : op.slots.countP (·.failed) = op.slots.length :=
        List.countP_eq_length.mpr (fun s hs => by simpa using hnone s hs)
      have hwaiting := h.waiting
      rw [h.failures, hall] at hwaiting
      exact Nat.lt_irrefl _ hwaiting
    · exact (congrArg Setup.k hsetup).trans hsingle
    · show 0 + (op.pending ++ chunk).length = _
      rw [hpending, List.nil_append, Nat.zero_add, hchunk]
    · refine ⟨_, frameSize, hsize, by omega, ?_⟩
      show Encoding op.sw 1 op.setup.m _ frameSize op.sw.w.shards op.setup.dek []
      rw [hsetup, ← hsingle]
      exact hencoding
  have hlive : ¬ op.replenish.1.finished = true := by
    show ¬ op.finished = true
    rw [hfinished]
    exact Bool.false_ne_true
  have hopen : ¬ (op.finished = true ∨ op.closed = true) := by
    rw [hfinished, hclosed]
    decide
  rw [PutOp.feed, if_neg hlive, PutOp.step]
  refine (if_neg hopen).trans ?_
  have hpace := hunacked.pace_eq_none (Nat.le_refl _)
  split
  next => rfl
  all_goals
    next hother =>
      cases hpace.symm.trans hother

end Overrun

section Concrete

local instance plainWire : Protowire := wireFormat

local instance plainWire_lawful : LawfulProtowire := wireFormat_lawful

local instance plainWire_bounded : BoundedProtowire := wireFormat_bounded

/-- The library for one data shard, or two and a parity shard. -/
local instance plainCode : ReedSolomon :=
  ⟨fun k m =>
    if k = 1 then some (replication m) else if (k, m) = (2, 1) then some xorParity else none⟩

/-- A stand-in for AES-GCM: the objects below have no key, and nothing is
sealed. -/
local instance plainGcm : Stream.Gcm where
  aeadSeal _ _ p := p ++ List.replicate 16 0
  aeadOpen _ _ b := some (b.take (b.length - 16))

local instance plainGcm_lawful : Stream.LawfulGcm where
  length_aeadSeal p _ _ := by
    show (p ++ List.replicate 16 0).length = _
    rw [List.length_append, List.length_replicate]
    rfl
  aeadOpen_aeadSeal p _ _ := by
    show some ((p ++ List.replicate 16 0).take ((p ++ List.replicate 16 0).length - 16)) = some p
    rw [List.length_append, List.length_replicate, Nat.add_sub_cancel, List.take_left]

def plainEnv (n : Nat) : PutEnv where
  atMS := 1000
  vid := VersionID.ofByte 1
  layout := some { partitionCount := 4096, members := (List.range n).map (fun i =>
    ⟨[UInt8.ofNat i], [UInt8.ofNat i], [UInt8.ofNat i], 1, false⟩) }
  down := fun _ => false
  kek := ⟨none, fun _ h => (by cases h)⟩
  encOn := false
  posture := { formatVersion := 1, algorithm := encNone }
  entropy := none

def putCall (size : Int64) : PutCall := { bucket := [98], key := [107], size }

/-- The call of a PUT on a cluster of `n` nodes. -/
def plainCall (n : Nat) (size : Int64) : PutEvent :=
  .call (putCall size) (setupPut (plainEnv n) size)

def oneChunk : Bytes := List.replicate Stream.defaultChunkSize 7

/-- A node on its own gets the first chunk of an object of two. -/
def overrunRun : List (PutEvent × Bool) :=
  [(plainCall 1 2097152, true), (.input 0 (.feed oneChunk), true)]

theorem exists_setup {n : Nat} {size : Int64} {k m : Nat}
    (h : ((setupPut (plainEnv n) size).toOption.map (fun setup => (setup.k, setup.m, setup.dek))) =
      some (k, m, none)) :
    ∃ setup, setupPut (plainEnv n) size = .ok setup ∧ setup.k = k ∧ setup.m = m ∧
      setup.dek = none := by
  obtain ⟨setup, hsetup, hfields⟩ := Option.map_eq_some_iff.mp h
  obtain ⟨hk, hm, hdek⟩ : setup.k = k ∧ setup.m = m ∧ setup.dek = none := by
    simpa using hfields
  exact ⟨setup, toOption_eq_some_iff.mp hsetup, hk, hm, hdek⟩

theorem overrun_opens :
    ∃ (setup : Setup) (op : PutOp), setupPut (plainEnv 1) 2097152 = .ok setup ∧
      (0 < setup.m → Reconstructs setup.k setup.m) ∧
      openPut (putCall 2097152) setup 0 = some (some op.replenish.1, op.replenish.2) ∧
      op.replenish.1.feed oneChunk = none := by
  obtain ⟨setup, hsetup, hk, hm, hdek⟩ :=
    @exists_setup 1 2097152 1 0 (by decide +kernel)
  have hcoded : 0 < setup.m → Reconstructs setup.k setup.m := fun hpos => by omega
  have hopens : ((setupPut (plainEnv 1) 2097152).toOption.bind
      (fun setup => (openPut (putCall 2097152) setup 0).bind Prod.fst)).isSome = true := by
    decide +kernel
  obtain ⟨op, hopen, hfresh⟩ : ∃ op, openPut (putCall 2097152) setup 0 =
      some (some op.replenish.1, op.replenish.2) ∧ Fresh (putCall 2097152) setup op := by
    rcases @openPut_cases _ _ _ _ _ _ (putCall 2097152) setup hcoded 0 with
      ⟨width, e, hfails⟩ | hopen
    · rw [hsetup, toOption_eq_some_iff.mpr rfl, Option.bind_some, hfails] at hopens
      cases hopens
    · exact hopen
  exact ⟨setup, op, hsetup, hcoded, hopen,
    hfresh.feed_eq_none hk (by decide) (by rw [hdek]; decide +kernel) List.length_replicate⟩

/-- The PUT panics before it answers, although nothing has failed. -/
theorem oneShard_panics :
    (∀ e ∈ overrunRun, e.1.Coded) ∧
      (overrunRun.foldl Coordinator.step {}).panicked = true ∧
      ∀ p ∈ (overrunRun.foldl Coordinator.step {}).puts, p.answered = false := by
  obtain ⟨setup, op, hsetup, hcoded, hopen, hfeed⟩ := overrun_opens
  have hcall : plainCall 1 2097152 = .call (putCall 2097152) (.ok setup) := by
    rw [plainCall, hsetup]
  have hfirst : ∃ c, Coordinator.step {} (plainCall 1 2097152, true) = c ∧ c.panicked = false ∧
      c.puts = [⟨true, some op.replenish.1, op.replenish.2⟩] := by
    refine ⟨{
      limiter := Coordinator.settle { inflight := 1 } true op.replenish.2
      nextReq := 0 + (skips setup.down setup.floor setup.nodes).count false
      puts := [⟨true, some op.replenish.1, op.replenish.2⟩] }, ?_, rfl, rfl⟩
    rw [hcall, Coordinator.step, if_neg Bool.false_ne_true]
    simp only [Coordinator.next, Coordinator.begin, Limiter.tryAcquire, hopen]
    rfl
  obtain ⟨c, hfirst, hrunning, hputs⟩ := hfirst
  have hpanics : overrunRun.foldl Coordinator.step {} = { c with panicked := true } := by
    rw [overrunRun, List.foldl_cons, hfirst, List.foldl_cons, List.foldl_nil, Coordinator.step,
      if_neg (by simp [hrunning])]
    simp only [Coordinator.next, Coordinator.handle, hputs, List.getElem?_cons_zero, PutOp.handle,
      hfeed]
    rfl
  rw [hpanics]
  refine ⟨?_, rfl, ?_⟩
  · intro e he
    rcases List.mem_cons.mp he with rfl | he
    · show (plainCall 1 2097152).Coded
      rw [hcall]
      exact hcoded
    · rw [List.mem_singleton.mp he]
      trivial
  · intro p hp
    have hp : p ∈ c.puts := hp
    rw [hputs, List.mem_singleton] at hp
    rw [hp]
    exact List.any_eq_false.mpr (fun a ha => by rw [List.eq_of_mem_replicate ha]; decide)

/-- A node on its own: the whole first chunk is written to the only stream, whose
window the front of the shard has made smaller than a chunk. -/
theorem chunk_overruns_window :
    ∃ setup op actions, setupPut (plainEnv 1) 2097152 = .ok setup ∧
      openPut (putCall 2097152) setup 0 = some (some op, actions) ∧
      PutOp.next (some op) (.feed oneChunk) = none := by
  obtain ⟨setup, op, hsetup, -, hopen, hfeed⟩ := overrun_opens
  refine ⟨setup, op.replenish.1, op.replenish.2, hsetup, hopen, ?_⟩
  rw [PutOp.next, Option.bind_some, PutOp.handle, hfeed]
  rfl

/-- Two nodes, an object of three bytes; both shards become durable and the
object is committed. -/
def mirroredRun : List (PutEvent × Bool) :=
  [(plainCall 2 3, true), (.input 0 (.feed [1, 2, 3]), true), (.input 0 .feedEOF, true),
    (.input 0 (.ack 1 { key := ⟨VersionID.ofByte 1, 1⟩, committed := true, stream := 2 }), true),
    (.input 0 (.ack 0 { key := ⟨VersionID.ofByte 1, 0⟩, committed := true, stream := 1 }), true),
    (.input 0 (.proposed (.ok (VersionID.ofByte 1))), true)]

def PutAction.success : PutAction → Option PutResult
  | .done (.ok r) => some r
  | _ => none

theorem acks_mirroredRun :
    let c := mirroredRun.foldl Coordinator.step {}
    (c.puts.map (fun p => p.trace.filterMap PutAction.success)) =
        [[⟨VersionID.ofByte 1, md5 [1, 2, 3], 2⟩]] ∧
      c.panicked = false ∧ c.limiter.inflight = c.puts.countP Put.unanswered ∧
      ∀ p ∈ c.puts, p.Acked := by
  refine ⟨by decide +kernel, ?_⟩
  obtain ⟨setup, hsetup, hk, hm, -⟩ := @exists_setup 2 3 1 1 (by decide +kernel)
  refine acks_of_paceable (fun e he => ?_) (by decide +kernel)
  rcases List.mem_cons.mp he with rfl | he
  · show (plainCall 2 3).Coded
    rw [plainCall, hsetup]
    intro _
    rw [hk, hm]
    exact ⟨replication 1, rfl, replication_lawful 1⟩
  · simp only [List.mem_cons, List.not_mem_nil, or_false] at he
    rcases he with rfl | rfl | rfl | rfl | rfl <;> trivial

/-- No input panics the PUT of an object of this size on `n` nodes. -/
def NeverPanics (n : Nat) (size : Int64) : Prop :=
  ∃ setup op actions, setupPut (plainEnv n) size = .ok setup ∧
    openPut (putCall size) setup 0 = some (some op, actions) ∧
    ∀ inputs : List PutInput, inputs.foldl PutOp.next (some op) ≠ none

theorem neverPanics_of_opens {n : Nat} {size : Int64}
    (hsetup : setupPut (plainEnv n) size = .ok setup)
    (hopens : ((setupPut (plainEnv n) size).toOption.bind
      (fun setup => (openPut (putCall size) setup 0).bind Prod.fst)).isSome = true)
    (hfits : ∃ op actions, openPut (putCall size) setup 0 = some (op, actions) ∧
      ∀ op₀ ∈ op, ∀ inputs : List PutInput, inputs.foldl PutOp.next (some op₀) ≠ none) :
    NeverPanics n size := by
  obtain ⟨op, actions, hopen, hruns⟩ := hfits
  rw [hsetup, toOption_eq_some_iff.mpr rfl, Option.bind_some, hopen, Option.bind_some] at hopens
  obtain ⟨op, rfl⟩ := Option.isSome_iff_exists.mp hopens
  exact ⟨setup, op, actions, hsetup, hopen, hruns op rfl⟩

theorem pacing_fits_windows_mirrored_striped : NeverPanics 2 3 ∧ NeverPanics 3 2097152 := by
  constructor
  · obtain ⟨setup, hsetup, hk, hm, -⟩ := @exists_setup 2 3 1 1 (by decide +kernel)
    refine neverPanics_of_opens hsetup (by decide +kernel)
      (@pacing_fits_windows _ _ _ _ _ _ (plainEnv 2) _ rfl (putCall 3) setup hsetup (fun _ => ?_)
        (by decide) (Or.inl (by decide)) 0)
    rw [hk, hm]
    exact ⟨replication 1, rfl, replication_lawful 1⟩
  · obtain ⟨setup, hsetup, hk, hm, -⟩ := @exists_setup 3 2097152 2 1 (by decide +kernel)
    refine neverPanics_of_opens hsetup (by decide +kernel)
      (@pacing_fits_windows _ _ _ _ _ _ (plainEnv 3) _ rfl (putCall 2097152) setup hsetup
        (fun _ => ?_)
        (by decide) (Or.inr (by decide)) 0)
    rw [hk, hm]
    exact ⟨xorParity, rfl, xorParity_lawful⟩

end Concrete

end Hamster.Coord
