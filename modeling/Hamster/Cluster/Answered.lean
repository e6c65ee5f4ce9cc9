import Hamster.Cluster.Forward
import Hamster.Coord.AckRule
import Hamster.Raftnode.Waiters

/-!
# Answers to the coordinator's proposals

`forwardingProposer.Propose` and `forwardAsync` (`internal/cluster/forward.go`), with
the raft of the node and the goroutines of its forwarded calls, over runs that do not
end.  The node keeps running, so no step is a restart.

A call is answered by the callback that its own raft holds, or by a goroutine that
forwards it and posts the outcome to the loop.  `Fair` is what a stable and reachable
leader gives: every entry that the node was handed is committed, replaced or covered by
a snapshot later, every exchange ends, and the loop runs what is posted to it.

Raft drops the callback of an entry that is replaced, and that of an entry that a
snapshot covers.  `every_call_answered` is what holds while neither happens to an entry
with a callback.
-/

namespace Hamster.Cluster

open CodeLib Meta Raftnode

/-! ## The calls of a node -/

/-- What happens to a call that is being forwarded. -/
inductive HopEvent where
  | resolve (known : Bool)
  | fail
  | deliver (x : Nat) (offer : Offer)
  | timeOut (x : Nat)
  | settle (i : Nat) (result : Except MetaError ApplyResult)
  | receive

namespace Call

def handle (c : Call) : HopEvent → Call
  | .resolve known => c.resolve known
  | .fail => c.fail
  | .deliver x offer => c.deliver x offer
  | .timeOut x => c.timeOut x
  | .settle i result => c.settle i result
  | .receive => c.receive

def Returned (c : Call) : Prop :=
  match c.phase with
  | .answered _ => True
  | _ => False

instance returnedDecidable : (c : Call) → Decidable c.Returned
  | ⟨_, _, .answered _, _, _⟩ => isTrue trivial
  | ⟨_, _, .own _, _, _⟩ => isFalse id
  | ⟨_, _, .resolving _, _, _⟩ => isFalse id
  | ⟨_, _, .exchanging _ _ _, _, _⟩ => isFalse id

end Call

inductive Taken where
  /-- The node does not lead. -/
  | follower
  /-- The raft of the node refuses the proposal. -/
  | dropped
  /-- The raft of the node creates an entry. -/
  | accepted (e : Entry) (rd : Turn)

inductive CallEvent where
  | submit (p : Proposal) (taken : Taken)
  /-- Another step of the raft of the node. -/
  | raft (ev : ProposerEvent)
  | hop (k : Nat) (ev : HopEvent)
  /-- The loop runs the closure that the goroutine of call `k` has posted. -/
  | post (k : Nat)

structure Calls where
  raft : Proposer := {}
  /-- The number of the next call. -/
  next : Nat := 0
  /-- The call whose `done` a callback of the raft runs. -/
  owner : Nat → Option Nat := fun _ => none
  /-- The goroutines of `forwardAsync`, by call. -/
  hops : List (Nat × Call) := []
  /-- The calls whose posted closure has run. -/
  posts : List Nat := []

namespace Calls

def answers (c : Calls) : List Nat :=
  (c.raft.called.map Prod.fst).filterMap c.owner ++ c.posts

/-- A call goes to the raft of the node. -/
def offer (c : Calls) (ev : ProposerEvent) : Calls :=
  { c with
    raft := c.raft.step ev
    next := c.next + 1
    owner := fun a => if a = c.raft.next then some c.next else c.owner a }

def step (c : Calls) : CallEvent → Calls
  | .submit p .follower =>
    { c with
      next := c.next + 1
      hops := c.hops ++ [(c.next, Call.start p false (.refused .notLeader))] }
  | .submit _ .dropped => c.offer .refuse
  | .submit _ (.accepted e rd) => c.offer (.propose e rd)
  | .raft ev => { c with raft := c.raft.step ev }
  | .hop k ev =>
    { c with hops := c.hops.map (fun x => if x.1 = k then (x.1, x.2.handle ev) else x) }
  | .post k =>
    if ∃ x ∈ c.hops, x.1 = k ∧ x.2.Returned then
      { c with hops := c.hops.filter (fun x => x.1 ≠ k), posts := c.posts ++ [k] }
    else c

end Calls

/-- The step of the raft that an event makes. -/
def CallEvent.ofRaft : CallEvent → Option ProposerEvent
  | .submit _ .dropped => some .refuse
  | .submit _ (.accepted e rd) => some (.propose e rd)
  | .raft ev => some ev
  | _ => none

def CallEvent.ready (ev : CallEvent) : Option Turn :=
  match ev.ofRaft with
  | some (.propose _ rd) | some (.ready rd) => some rd
  | _ => none

/-! ## What may happen -/

/-- The library keeps its contract, a new entry comes after everything that the store
holds, and the node keeps running. -/
def Allowed (c : Calls) (ev : CallEvent) : Prop :=
  ∀ rev ∈ ev.ofRaft, RaftAllows c.raft rev ∧
    match rev with
    | .propose e rd =>
      c.raft.waiting.persistedIndex < e.index ∧ ∀ index ∈ rd.snapshot, index < e.index
    | .restart _ _ _ => False
    | _ => True

/-- No entry with a waiting callback is replaced, cut off or covered by a snapshot. -/
def CallbacksKept (c : Calls) (ev : CallEvent) : Prop :=
  ∀ rd ∈ ev.ready, Raftnode.Undisturbed c.raft rd

def Call.Wakes (c : Call) : HopEvent → Prop
  | .resolve _ => ∃ attempt, c.phase = .resolving attempt
  | .fail => ∃ attempt redial x, c.phase = .exchanging attempt redial x
  | .receive => ∃ attempt redial x, c.phase = .exchanging attempt redial x ∧
      (c.exchanges[x]?.bind Exchange.reply).isSome
  | _ => False

/-- A leader is stable and reachable from some time on.  Each entry that the node was
handed is committed on it, or raft replaces it or covers it with a snapshot; each
goroutine gets what it waits for; and the loop runs each posted closure. -/
structure Fair (c : Calls) (events : Nat → CallEvent) : Prop where
  entries : ∀ s, ∀ rd ∈ (events s).ready, ∀ e ∈ rd.entries,
    ∃ t ≥ s, ∃ rd' ∈ (events t).ready,
      (∃ e' ∈ rd'.committedEntries, e'.index = e.index) ∨
        s < t ∧ ((∃ e' ∈ rd'.entries, e'.index ≤ e.index) ∨
          ∃ index ∈ rd'.snapshot, e.index ≤ index)
  hops : ∀ t k call, (k, call) ∈ (states Calls.step c events t).hops → ¬ call.Returned →
    ∃ u ≥ t, ∃ ev, events u = .hop k ev ∧
      ∀ call', (k, call') ∈ (states Calls.step c events u).hops → call'.Wakes ev
  posts : ∀ t k call, (k, call) ∈ (states Calls.step c events t).hops → call.Returned →
    ∃ u ≥ t, events u = .post k

/-! ## No call is answered twice -/

def Calls.held (c : Calls) : List Nat := c.hops.map Prod.fst ++ c.posts

/-- A call has one callback or one goroutine, and neither is used twice. -/
structure Numbered (c : Calls) : Prop where
  raft : Paired c.raft
  owned : ∀ a k, c.owner a = some k → a < c.raft.next ∧ k < c.next ∧ k ∉ c.held
  alone : ∀ a b k, c.owner a = some k → c.owner b = some k → a = b
  below : ∀ k ∈ c.held, k < c.next
  nodup : c.held.Nodup

theorem Numbered.answers_nodup {c : Calls} (h : Numbered c) : c.answers.Nodup := by
  have hraft : ((c.raft.called.map Prod.fst).filterMap c.owner).Nodup :=
    h.raft.once.filterMap (fun a b k ha hb => h.alone a b k ha hb)
  refine hraft.append (List.nodup_append.mp h.nodup).2.1 ?_
  intro k hk hpost
  obtain ⟨a, -, ha⟩ := List.mem_filterMap.mp hk
  exact (h.owned a k ha).2.2 (List.mem_append_right _ hpost)

namespace Proposer

theorem next_le_step (n : Raftnode.Proposer) (ev : ProposerEvent) : n.next ≤ (n.step ev).next := by
  cases ev with
  | refuse | propose e rd => exact Nat.le_succ _
  | ready rd | restart => exact Nat.le_refl _

end Proposer

theorem paired_step {c : Calls} (h : Paired c.raft) {ev : CallEvent} (hallowed : Allowed c ev)
    (hkept : CallbacksKept c ev) {rev : ProposerEvent} (hrev : rev ∈ ev.ofRaft) :
    Paired (c.raft.step rev) := by
  refine h.step (hallowed rev hrev).1 ?_
  have hev : ev.ofRaft = some rev := hrev
  cases rev with
  | refuse | restart => trivial
  | propose e rd | ready rd => exact (hkept rd (by rw [CallEvent.ready, hev]; rfl)).free

namespace Numbered

variable {c : Calls}

theorem offer (h : Numbered c) {rev : ProposerEvent} (hraft : Paired (c.raft.step rev))
    (hnext : c.raft.next < (c.raft.step rev).next) : Numbered (c.offer rev) where
  raft := hraft
  owned := by
    intro a k hk
    show a < (c.raft.step rev).next ∧ k < c.next + 1 ∧ _
    change (if a = c.raft.next then some c.next else c.owner a) = some k at hk
    split_ifs at hk with ha
    · cases hk
      exact ⟨ha ▸ hnext, Nat.lt_succ_self _, fun hmem => Nat.lt_irrefl _ (h.below _ hmem)⟩
    · obtain ⟨hlt, hk, hrest⟩ := h.owned a k hk
      exact ⟨hlt.trans hnext, Nat.lt_succ_of_lt hk, hrest⟩
  alone := by
    intro a b k ha hb
    change (if a = c.raft.next then some c.next else c.owner a) = some k at ha
    change (if b = c.raft.next then some c.next else c.owner b) = some k at hb
    split_ifs at ha hb with ha' hb' hb'
    · rw [ha', hb']
    · cases ha
      exact absurd (h.owned b _ hb).2.1 (Nat.lt_irrefl _)
    · cases hb
      exact absurd (h.owned a _ ha).2.1 (Nat.lt_irrefl _)
    · exact h.alone a b k ha hb
  below := fun k hk => Nat.lt_succ_of_lt (h.below k hk)
  nodup := h.nodup

theorem of_perm (h : Numbered c) {c' : Calls} (hraft : Paired c'.raft)
    (hcallbacks : c.raft.next ≤ c'.raft.next) (howner : c'.owner = c.owner)
    (hnext : c'.next = c.next) (hheld : c'.held.Perm c.held) : Numbered c' where
  raft := hraft
  owned := by
    intro a k hk
    rw [howner] at hk
    obtain ⟨ha, hlt, hnot⟩ := h.owned a k hk
    rw [hnext, hheld.mem_iff]
    exact ⟨ha.trans_le hcallbacks, hlt, hnot⟩
  alone := by rw [howner]; exact h.alone
  below := fun k hk => by rw [hnext]; exact h.below k (hheld.mem_iff.mp hk)
  nodup := hheld.nodup_iff.mpr h.nodup

theorem post (h : Numbered c) {k : Nat} (hreturned : ∃ x ∈ c.hops, x.1 = k ∧ x.2.Returned) :
    Numbered { c with hops := c.hops.filter (fun x => x.1 ≠ k), posts := c.posts ++ [k] } := by
  obtain ⟨x, hx, rfl, -⟩ := hreturned
  refine h.of_perm h.raft (Nat.le_refl _) rfl rfl ?_
  have hkeys : (c.hops.filter (fun y => y.1 ≠ x.1)).map Prod.fst =
      (c.hops.map Prod.fst).erase x.1 := by
    rw [(List.nodup_append.mp h.nodup).1.erase_eq_filter, List.filter_map]
    exact congrArg (List.map Prod.fst)
      (List.filter_congr (fun y _ => Bool.eq_iff_iff.mpr (by simp)))
  show (List.map Prod.fst _ ++ (c.posts ++ [x.1])).Perm _
  rw [hkeys, ← List.append_assoc]
  refine (List.perm_append_singleton x.1 _).trans ?_
  exact (List.perm_cons_erase (List.mem_map_of_mem hx)).symm.append_right c.posts

theorem step (h : Numbered c) {ev : CallEvent} (hallowed : Allowed c ev)
    (hkept : CallbacksKept c ev) : Numbered (c.step ev) := by
  cases ev with
  | submit p taken =>
    cases taken with
    | follower =>
      have hheld : (c.step (.submit p .follower)).held.Perm (c.next :: c.held) := by
        simp only [Calls.held, Calls.step, List.map_append, List.append_assoc]
        exact List.perm_middle
      exact {
        raft := h.raft
        owned := by
          intro a k hk
          obtain ⟨ha, hlt, hnot⟩ := h.owned a k hk
          rw [hheld.mem_iff, List.mem_cons, not_or]
          exact ⟨ha, Nat.lt_succ_of_lt hlt, Nat.ne_of_lt hlt, hnot⟩
        alone := h.alone
        below := by
          intro k hk
          rcases List.mem_cons.mp (hheld.mem_iff.mp hk) with rfl | hk
          · exact Nat.lt_succ_self _
          · exact Nat.lt_succ_of_lt (h.below k hk)
        nodup := by
          rw [hheld.nodup_iff, List.nodup_cons]
          exact ⟨fun hmem => Nat.lt_irrefl _ (h.below _ hmem), h.nodup⟩ }
    | dropped | accepted e rd =>
      exact h.offer (paired_step h.raft hallowed hkept rfl) (Nat.lt_succ_self _)
  | raft rev =>
    exact h.of_perm (paired_step h.raft hallowed hkept rfl)
      (Proposer.next_le_step c.raft rev) rfl rfl
      (.refl _)
  | hop k ev =>
    refine h.of_perm h.raft (Nat.le_refl _) rfl rfl (.of_eq ?_)
    simp only [Calls.held, Calls.step, List.map_map]
    refine congrArg (· ++ c.posts) (List.map_congr_left (fun x _ => ?_))
    simp only [Function.comp_apply]
    split_ifs <;> rfl
  | post k =>
    rw [Calls.step]
    split_ifs with hreturned
    · exact h.post hreturned
    · exact h

end Numbered

/-! ## Every call is answered -/

/-- How many turns of `forward` and `controlRoundTrip` are left, at most. -/
def Phase.rank : Phase → Nat
  | .answered _ => 0
  | .own _ => 1
  | .exchanging attempt redial _ =>
    (forwardAttempts - attempt) * (controlRetries + 2) + (controlRetries - redial) + 1
  | .resolving attempt =>
    (forwardAttempts - attempt) * (controlRetries + 2) + controlRetries + 2

theorem rank_nextAttempt (attempt : Nat) :
    (nextAttempt attempt).rank ≤ (forwardAttempts - attempt) * (controlRetries + 2) := by
  rw [nextAttempt]
  split_ifs with hmore
  · show (forwardAttempts - (attempt + 1)) * (controlRetries + 2) + controlRetries + 2 ≤ _
    rw [forwardAttempts] at hmore ⊢
    rw [controlRetries]
    omega
  · exact Nat.zero_le _

namespace Call

theorem rank_handle (c : Call) (ev : HopEvent) : (c.handle ev).phase.rank < c.phase.rank ∨
    (c.handle ev).phase.rank ≤ c.phase.rank ∧ ¬c.Wakes ev := by
  cases ev with
  | resolve known =>
    simp only [handle, resolve, Wakes]
    cases hphase : c.phase with
    | resolving attempt =>
      left
      dsimp only
      split_ifs
      · simp only [exchange, Phase.rank]
        omega
      · refine Nat.lt_of_le_of_lt (rank_nextAttempt attempt) ?_
        simp only [Phase.rank]
        omega
    | _ => simp [hphase]
  | fail =>
    simp only [handle, fail, Wakes]
    cases hphase : c.phase with
    | exchanging attempt redial x =>
      left
      dsimp only
      split_ifs with hmore
      · simp only [exchange, Phase.rank]
        omega
      · exact Nat.lt_succ_of_le ((rank_nextAttempt attempt).trans (Nat.le_add_right _ _))
    | _ => simp [hphase]
  | receive =>
    simp only [handle, receive, Wakes]
    cases hphase : c.phase with
    | exchanging attempt redial x =>
      cases hreply : c.exchanges[x]?.bind Exchange.reply with
      | none => simp [hphase, hreply]
      | some fr =>
        simp only [hreply]
        refine Or.inl (Nat.lt_succ_of_le (Nat.le_trans ?_ (Nat.le_add_right _ _)))
        unfold afterReply
        split
        · exact rank_nextAttempt attempt
        all_goals exact Nat.zero_le _
    | _ => simp [hphase]
  | deliver x offer => exact Or.inr ⟨Nat.le_of_eq (congrArg _ (c.deliver_phase x offer)), id⟩
  | timeOut x => exact Or.inr ⟨Nat.le_of_eq (congrArg _ (c.timeOut_phase x)), id⟩
  | settle i result =>
    refine Or.inr ⟨?_, id⟩
    simp only [handle, settle]
    split_ifs
    · exact Nat.zero_le _
    · exact Nat.le_refl _

theorem rank_handle_le (c : Call) (ev : HopEvent) : (c.handle ev).phase.rank ≤ c.phase.rank :=
  (c.rank_handle ev).elim Nat.le_of_lt And.left

theorem returned_iff_rank (c : Call) : c.Returned ↔ c.phase.rank = 0 := by
  rw [Returned]
  cases c.phase <;> simp [Phase.rank]

end Call

/-- Call `k` has been answered by its goroutine, or that has at most `r` turns left. -/
def Going (k r : Nat) (c : Calls) : Prop :=
  k ∈ c.posts ∨ ∃ call, (k, call) ∈ c.hops ∧ call.phase.rank ≤ r

theorem Going.step {k r : Nat} {c : Calls} (h : Going k r c) (ev : CallEvent) :
    Going k r (c.step ev) := by
  rcases h with hposts | ⟨call, hcall, hrank⟩
  · cases ev with
    | submit p taken => cases taken <;> exact Or.inl hposts
    | raft rev | hop k' ev => exact Or.inl hposts
    | post k' =>
      rw [Calls.step]
      split_ifs
      · exact Or.inl (List.mem_append_left _ hposts)
      · exact Or.inl hposts
  · cases ev with
    | submit p taken =>
      cases taken with
      | follower => exact Or.inr ⟨call, List.mem_append_left _ hcall, hrank⟩
      | dropped | accepted e rd => exact Or.inr ⟨call, hcall, hrank⟩
    | raft rev => exact Or.inr ⟨call, hcall, hrank⟩
    | hop k' ev =>
      have hmem : (if k = k' then (k, call.handle ev) else (k, call)) ∈
          (c.step (.hop k' ev)).hops :=
        List.mem_map_of_mem (f := fun x => if x.1 = k' then (x.1, x.2.handle ev) else x) hcall
      split_ifs at hmem
      · exact Or.inr ⟨call.handle ev, hmem, (call.rank_handle_le ev).trans hrank⟩
      · exact Or.inr ⟨call, hmem, hrank⟩
    | post k' =>
      rw [Calls.step]
      split_ifs
      · by_cases hk : k = k'
        · exact Or.inl (List.mem_append_right _ (by rw [hk]; exact List.mem_cons_self))
        · exact Or.inr ⟨call, List.mem_filter.mpr ⟨hcall, by simpa using hk⟩, hrank⟩
      · exact Or.inr ⟨call, hcall, hrank⟩

section Runs

variable {c : Calls} {events : Nat → CallEvent}

/-- A goroutine comes to its end: what it waits for takes it on, and nothing sets it
back. -/
theorem exists_mem_posts (hfair : Fair c events) {k r t : Nat}
    (h : Going k r (states Calls.step c events t)) :
    ∃ u, k ∈ (states Calls.step c events u).posts := by
  induction r using Nat.strong_induction_on generalizing t with
  | _ r ih =>
    have hlater : ∀ u, t ≤ u → Going k r (states Calls.step c events u) := fun u htu =>
      states_invariant (Q := fun _ _ => True) (fun _ ev _ hs => hs.step ev) (fun _ => trivial)
        htu h
    rcases h with hposts | ⟨call, hcall, hrank⟩
    · exact ⟨t, hposts⟩
    by_cases hreturned : call.Returned
    · obtain ⟨u, htu, hpost⟩ := hfair.posts t k call hcall hreturned
      have hzero : Going k 0 (states Calls.step c events u) :=
        states_invariant (Q := fun _ _ => True) (fun _ ev _ hs => hs.step ev) (fun _ => trivial)
          htu (Or.inr ⟨call, hcall, Nat.le_of_eq ((call.returned_iff_rank).mp hreturned)⟩)
      rcases hzero with hposts | ⟨call', hcall', hrank'⟩
      · exact ⟨u, hposts⟩
      · have hreturned' := (call'.returned_iff_rank).mpr (Nat.le_zero.mp hrank')
        refine ⟨u + 1, ?_⟩
        rw [states, hpost, Calls.step, if_pos ⟨(k, call'), hcall', rfl, hreturned'⟩]
        exact List.mem_append_right _ List.mem_cons_self
    · obtain ⟨u, htu, ev, hhop, hwakes⟩ := hfair.hops t k call hcall hreturned
      rcases hlater u htu with hposts | ⟨call', hcall', hrank'⟩
      · exact ⟨u, hposts⟩
      · have hlt := ((call'.rank_handle ev).resolve_right (fun h => h.2 (hwakes call' hcall')))
        refine ih ((call'.handle ev).phase.rank) (hlt.trans_le hrank') (t := u + 1) (Or.inr ?_)
        refine ⟨call'.handle ev, ?_, Nat.le_refl _⟩
        rw [states, hhop]
        have hmem := List.mem_map_of_mem
          (f := fun x => if x.1 = k then (x.1, x.2.handle ev) else x) hcall'
        rwa [if_pos rfl] at hmem

/-- What holds of call `k` while the raft of the node has its entry `e`. -/
structure Offered (k a : Nat) (e : Entry) (c : Calls) : Prop where
  numbered : Numbered c
  owner : c.owner a = some k
  created : (a, e) ∈ c.raft.created
  due : Due c.raft a e.index

theorem Offered.mem_answers {k a : Nat} {e : Entry} (h : Offered k a e c)
    (hcalled : a ∈ c.raft.called.map Prod.fst) : k ∈ c.answers :=
  List.mem_append_left _ (List.mem_filterMap.mpr ⟨a, hcalled, h.owner⟩)

theorem mem_created_step {n : Raftnode.Proposer} {x : Nat × Entry} (hx : x ∈ n.created)
    (rev : ProposerEvent) : x ∈ (n.step rev).created := by
  cases rev with
  | refuse | ready rd | restart => exact hx
  | propose e rd => exact List.mem_append_left _ hx

theorem due_step {a : Nat} {i : UInt64} (h : Due c.raft a i) {ev : CallEvent}
    (hallowed : Allowed c ev) (hkept : CallbacksKept c ev) {rev : ProposerEvent}
    (hrev : rev ∈ ev.ofRaft) : Due (c.raft.step rev) a i := by
  have hev : ev.ofRaft = some rev := hrev
  refine h.step (fun rd hrd => hkept rd ?_) ?_
  · rw [CallEvent.ready, hev]
    rcases hrd with rfl | ⟨e, rfl⟩ <;> rfl
  · rintro usePersisted persistedIndex applied rfl
    exact (hallowed _ hrev).2

theorem Offered.step {k a : Nat} {e : Entry} (h : Offered k a e c) {ev : CallEvent}
    (hallowed : Allowed c ev) (hkept : CallbacksKept c ev) : Offered k a e (c.step ev) := by
  have hnumbered := h.numbered.step hallowed hkept
  have hold : a ≠ c.raft.next := Nat.ne_of_lt (h.numbered.owned a k h.owner).1
  cases ev with
  | submit p taken =>
    cases taken with
    | follower => exact ⟨hnumbered, h.owner, h.created, h.due⟩
    | dropped | accepted e rd =>
      refine ⟨hnumbered, ?_, mem_created_step h.created _, due_step h.due hallowed hkept rfl⟩
      exact (if_neg hold).trans h.owner
  | raft rev =>
    exact ⟨hnumbered, h.owner, mem_created_step h.created _, due_step h.due hallowed hkept rfl⟩
  | hop k' ev => exact ⟨hnumbered, h.owner, h.created, h.due⟩
  | post k' =>
    rw [Calls.step] at hnumbered ⊢
    split_ifs at hnumbered ⊢
    · exact ⟨hnumbered, h.owner, h.created, h.due⟩
    · exact h

theorem step_raft {ev : CallEvent} {rev : ProposerEvent} (hrev : rev ∈ ev.ofRaft) :
    (c.step ev).raft = c.raft.step rev := by
  cases ev with
  | submit p taken =>
    cases taken with
    | follower => cases hrev
    | dropped | accepted e rd => cases hrev; rfl
  | raft rev' => cases hrev; rfl
  | hop k ev | post k => cases hrev

theorem exists_ofRaft {ev : CallEvent} {rd : Turn} (hrd : rd ∈ ev.ready) :
    ∃ rev ∈ ev.ofRaft, rev = .ready rd ∨ ∃ e, rev = .propose e rd := by
  rw [CallEvent.ready] at hrd
  split at hrd
  next e rd' hev =>
    cases hrd
    exact ⟨_, hev, Or.inr ⟨e, rfl⟩⟩
  next rd' hev =>
    cases hrd
    exact ⟨_, hev, Or.inl rfl⟩
  next => cases hrd

namespace Offered

variable {k a : Nat} {e : Entry} {ev : CallEvent} {rd : Turn}

theorem waits (h : Offered k a e c) :
    k ∈ c.answers ∨ a ∈ c.raft.waiting.waiters e.index ∧ c.raft.carried e.index = some e := by
  rcases h.due with hcalled | ⟨hwaits, -⟩
  · exact Or.inl (h.mem_answers hcalled)
  · obtain ⟨e', he', -, hcarried⟩ := h.numbered.raft.waiters e.index a hwaits
    have hsame : (a, e') = (a, e) :=
      List.inj_on_of_nodup_map h.numbered.raft.created he' h.created rfl
    rw [(Prod.mk.inj hsame).2] at hcarried
    exact Or.inr ⟨hwaits, hcarried⟩

theorem answered_of_commit (h : Offered k a e c) (htype : e.type = .entryNormal)
    (hdata : e.data ≠ []) (hallowed : Allowed c ev) (hkept : CallbacksKept c ev)
    (hrd : rd ∈ ev.ready) {e' : Entry} (he' : e' ∈ rd.committedEntries)
    (hi : e'.index = e.index) : k ∈ c.answers ∨ k ∈ (c.step ev).answers := by
  rcases h.waits with hanswered | ⟨hwaits, hcarried⟩
  · exact Or.inl hanswered
  obtain ⟨rev, hrev, hturn⟩ := exists_ofRaft hrd
  have hkeeps : carry c.raft.carried rd.entries e.index = some e :=
    (Paired.carried_eq (hkept rd hrd).free hwaits).trans hcarried
  have hown : ∀ hcommits : CommitsCarried c.raft rd, e' = e := by
    intro hcommits
    exact (hcommits e' he' e (by rw [hi]; exact hkeeps)).symm
  refine Or.inr ((h.step hallowed hkept).mem_answers ?_)
  rw [step_raft hrev]
  have hlib := (hallowed rev hrev).1
  rcases hturn with rfl | ⟨e'', rfl⟩
  · rw [hown hlib] at he'
    show a ∈ (c.raft.turn rd).called.map Prod.fst
    rw [Proposer.turn_eq_foldl]
    exact (h.due.claimed (hkept rd hrd)).called_of_mem he' rfl htype hdata
  · rw [hown hlib.2.2.2] at he'
    have hproposed : Due (c.raft.proposed e'') a e.index := h.due
    show a ∈ ((c.raft.proposed e'').turn rd).called.map Prod.fst
    rw [Proposer.turn_eq_foldl]
    exact (hproposed.claimed (hkept rd hrd)).called_of_mem he' rfl htype hdata

theorem not_disturbed (h : Offered k a e c) (hunanswered : k ∉ c.answers)
    (hkept : CallbacksKept c ev) (hrd : rd ∈ ev.ready) :
    (∀ e' ∈ rd.entries, e.index < e'.index) ∧ ∀ index ∈ rd.snapshot, index < e.index := by
  rcases h.waits with hanswered | ⟨hwaits, -⟩
  · exact absurd hanswered hunanswered
  · exact hkept rd hrd e.index (List.ne_nil_of_mem hwaits)

end Offered

section Submit

variable {p : Proposal} {e : Entry} {rd : Turn}

variable (h : Numbered c) (hallowed : Allowed c (.submit p (.accepted e rd)))

include h hallowed

theorem due_claimed : Due ((c.raft.proposed e).claimed rd) c.raft.next e.index := by
  obtain ⟨⟨htype, hdata, hentries, -⟩, hnew, hbelow⟩ := hallowed (.propose e rd) rfl
  exact Due.proposed h.raft.drained htype hdata hentries hnew hbelow

theorem offered_submit (hkept : CallbacksKept c (.submit p (.accepted e rd))) :
    Offered c.next c.raft.next e (c.step (.submit p (.accepted e rd))) where
  numbered := h.step hallowed hkept
  owner := if_pos rfl
  created := List.mem_append_right _ List.mem_cons_self
  due := by
    show Due ((c.raft.proposed e).turn rd) c.raft.next e.index
    rw [Proposer.turn_eq_foldl]
    exact (due_claimed h hallowed).foldl _

theorem answered_at_once (hkept : CallbacksKept c (.submit p (.accepted e rd))) {e' : Entry}
    (he' : e' ∈ rd.committedEntries) (hi : e'.index = e.index) :
    c.next ∈ (c.step (.submit p (.accepted e rd))).answers := by
  obtain ⟨⟨htype, hdata, hentries, hcommits⟩, -⟩ := hallowed (.propose e rd) rfl
  have hsame : e = e' :=
    hcommits e' he' e (by rw [hentries, hi]; exact carry_single c.raft.carried e)
  rw [← hsame] at he'
  refine (offered_submit h hallowed hkept).mem_answers ?_
  show c.raft.next ∈ ((c.raft.proposed e).turn rd).called.map Prod.fst
  rw [Proposer.turn_eq_foldl]
  exact (due_claimed h hallowed).called_of_mem he' rfl htype hdata

end Submit

/-- A call whose entry the raft of the node has created is answered when that entry
commits. -/
theorem exists_mem_answers (hc : ∀ t, Numbered (states Calls.step c events t))
    (hallowed : ∀ t, Allowed (states Calls.step c events t) (events t))
    (hkept : ∀ t, CallbacksKept (states Calls.step c events t) (events t))
    (hfair : Fair c events) {s : Nat} {p : Proposal} {e : Entry} {rd : Turn}
    (hsubmit : events s = .submit p (.accepted e rd)) :
    ∃ t, (states Calls.step c events s).next ∈ (states Calls.step c events t).answers := by
  have hallowedS := hallowed s
  have hkeptS := hkept s
  rw [hsubmit] at hallowedS hkeptS
  obtain ⟨htype, hdata, hentries, -⟩ := (hallowedS (.propose e rd) rfl).1
  have hrd : rd ∈ (events s).ready := by rw [hsubmit]; rfl
  have hnext : states Calls.step c events (s + 1) =
      (states Calls.step c events s).step (.submit p (.accepted e rd)) := by rw [states, hsubmit]
  have hoffered : ∀ t, s + 1 ≤ t → Offered (states Calls.step c events s).next
      (states Calls.step c events s).raft.next e (states Calls.step c events t) := by
    intro t hst
    refine states_invariant (Q := fun c ev => Allowed c ev ∧ CallbacksKept c ev)
      (fun _ _ hev h => h.step hev.1 hev.2) (fun t => ⟨hallowed t, hkept t⟩) hst ?_
    rw [hnext]
    exact offered_submit (hc s) hallowedS hkeptS
  obtain ⟨t, hst, rd', hrd', hcase⟩ :=
    hfair.entries s rd hrd e (by rw [hentries]; exact List.mem_cons_self)
  rcases Nat.eq_or_lt_of_le hst with rfl | hlt
  · -- only a commit counts in the step that brings the entry
    rcases hcase with ⟨e', he', hi⟩ | ⟨hlt, -⟩
    · cases hrd.symm.trans hrd'
      refine ⟨s + 1, ?_⟩
      rw [hnext]
      exact answered_at_once (hc s) hallowedS hkeptS he' hi
    · exact absurd hlt (Nat.lt_irrefl s)
  · by_cases hanswered : (states Calls.step c events s).next ∈
        (states Calls.step c events t).answers
    · exact ⟨t, hanswered⟩
    have hstays := (hoffered t hlt).not_disturbed hanswered (hkept t) hrd'
    rcases hcase with ⟨e', he', hi⟩ | ⟨-, ⟨e', he', hle⟩ | ⟨index, hindex, hle⟩⟩
    · rcases (hoffered t hlt).answered_of_commit htype hdata (hallowed t) (hkept t) hrd' he' hi with
        hanswered' | hanswered'
      · exact absurd hanswered' hanswered
      · exact ⟨t + 1, hanswered'⟩
    · exact absurd (hstays.1 e' he') (UInt64.not_lt.mpr hle)
    · exact absurd (hstays.2 index hindex) (UInt64.not_lt.mpr hle)

end Runs

/-- A node that has booted and taken no call. -/
def Calls.boot (usePersisted : Bool) (persistedIndex applied : UInt64) : Calls :=
  { raft := { waiting := { usePersisted, persistedIndex, applied } } }

theorem numbered_boot (usePersisted : Bool) (persistedIndex applied : UInt64) :
    Numbered (Calls.boot usePersisted persistedIndex applied) where
  raft := by constructor <;> simp [Calls.boot]
  owned := fun _ _ h => nomatch h
  alone := fun _ _ _ h => nomatch h
  below := fun _ h => nomatch h
  nodup := List.nodup_nil

/-- In every endless run of a node that finds a stable leader, and in which no entry with
a waiting callback is replaced, cut off or covered by a snapshot, every call is answered
and none is answered twice.  The answer gives the slot of a PUT back. -/
theorem every_call_answered (usePersisted : Bool) (persistedIndex applied : UInt64)
    (events : Nat → CallEvent)
    (hallowed : ∀ t, Allowed
      (states Calls.step (.boot usePersisted persistedIndex applied) events t) (events t))
    (hkept : ∀ t, CallbacksKept
      (states Calls.step (.boot usePersisted persistedIndex applied) events t) (events t))
    (hfair : Fair (.boot usePersisted persistedIndex applied) events) :
    (∀ s p taken, events s = .submit p taken →
        ∃ t, (states Calls.step (.boot usePersisted persistedIndex applied) events s).next ∈
          (states Calls.step (.boot usePersisted persistedIndex applied) events t).answers) ∧
      (∀ t, (states Calls.step
        (.boot usePersisted persistedIndex applied) events t).answers.Nodup) ∧
      ∀ op trace result, Coord.Awaiting op trace →
        (trace ++ (op.onProposed result).2).countP Coord.PutAction.isRelease = 1 := by
  have hboot := numbered_boot usePersisted persistedIndex applied
  generalize Calls.boot usePersisted persistedIndex applied = c at hboot hallowed hkept hfair ⊢
  have hnumbered : ∀ t, Numbered (states Calls.step c events t) := fun t =>
    states_invariant (Q := fun c ev => Allowed c ev ∧ CallbacksKept c ev)
      (fun _ _ hev h => h.step hev.1 hev.2) (fun t => ⟨hallowed t, hkept t⟩) (Nat.zero_le t) hboot
  refine ⟨fun s p taken hsubmit => ?_, fun t => (hnumbered t).answers_nodup,
    fun op trace result h => (h.proposed result).released⟩
  cases taken with
  | follower =>
    have hgoing : Going (states Calls.step c events s).next
        (Call.start p false (.refused .notLeader)).phase.rank
          (states Calls.step c events (s + 1)) := by
      rw [states, hsubmit]
      exact Or.inr ⟨_, List.mem_append_right _ List.mem_cons_self, Nat.le_refl _⟩
    obtain ⟨u, hu⟩ := exists_mem_posts hfair hgoing
    exact ⟨u, List.mem_append_right _ hu⟩
  | dropped =>
    refine ⟨s + 1, ?_⟩
    rw [states, hsubmit]
    refine List.mem_append_left _ (List.mem_filterMap.mpr ⟨_, ?_, if_pos rfl⟩)
    exact List.mem_map_of_mem (List.mem_append_right _ List.mem_cons_self)
  | accepted e rd => exact exists_mem_answers hnumbered hallowed hkept hfair hsubmit

def onePut : Proposal :=
  .putObject { proposedAtUnixMS := 9, bucket := [98], key := [107]
               versionID := VersionID.ofByte 1 }

/-- The node leads and commits its first call.  Then another node leads, and the second
call is forwarded to it. -/
def steadyCalls : Nat → CallEvent
  | 0 => .submit onePut (.accepted (dataEntry 1 5 [1]) { entries := [dataEntry 1 5 [1]] })
  | 1 => .raft (.ready { committedEntries := [dataEntry 1 5 [1]] })
  | 2 => .submit onePut .follower
  | 3 => .hop 1 (.resolve true)
  | 4 => .hop 1 (.deliver 0 .accepted)
  | 5 => .hop 1 (.settle 0 (.ok (.put ⟨VersionID.ofByte 1, []⟩)))
  | 6 => .hop 1 .receive
  | 7 => .post 1
  | _ => .raft (.ready {})

def forwarded (exchanges : List Exchange) (accepted : Nat) (phase : Phase) : Call :=
  { proposal := onePut, timed := false, phase, exchanges, accepted }

theorem hops_steadyCalls (t : Nat) :
    (states Calls.step (.boot true 4 4) steadyCalls t).hops = match t with
      | 3 => [(1, forwarded [] 0 (.resolving 0))]
      | 4 => [(1, forwarded [{}] 0 (.exchanging 0 0 0))]
      | 5 => [(1, forwarded [⟨some 0, none⟩] 1 (.exchanging 0 0 0))]
      | 6 => [(1, forwarded [⟨some 0, some (forwardResultOf (.put ⟨VersionID.ofByte 1, []⟩))⟩] 1
          (.exchanging 0 0 0))]
      | 7 => [(1, forwarded [⟨some 0, some (forwardResultOf (.put ⟨VersionID.ofByte 1, []⟩))⟩] 1
          (.answered (.ok (.put ⟨VersionID.ofByte 1, []⟩))))]
      | _ => [] := by
  match t with
  | 0 | 1 | 2 | 3 | 4 | 5 | 6 | 7 | 8 => decide +kernel
  | t + 9 => exact hops_steadyCalls (t + 8)

theorem fair_steadyCalls : Fair (.boot true 4 4) steadyCalls where
  entries := by
    intro s rd hrd e he
    match s with
    | 0 =>
      cases hrd
      cases List.mem_singleton.mp he
      exact ⟨1, Nat.zero_le 1, _, rfl, Or.inl ⟨_, List.mem_cons_self, rfl⟩⟩
    | 1 => cases hrd; cases he
    | 2 | 3 | 4 | 5 | 6 | 7 => cases hrd
    | s + 8 => cases hrd; cases he
  hops := by
    intro t k call hcall hreturned
    rw [hops_steadyCalls] at hcall
    have hreceive : t ≤ 6 → k = 1 → ∃ u ≥ t, ∃ ev, steadyCalls u = .hop k ev ∧
        ∀ call', (k, call') ∈ (states Calls.step (.boot true 4 4) steadyCalls u).hops →
          call'.Wakes ev := by
      rintro ht rfl
      refine ⟨6, ht, .receive, rfl, fun call' hcall' => ?_⟩
      rw [hops_steadyCalls] at hcall'
      cases List.mem_singleton.mp hcall'
      exact ⟨0, 0, 0, rfl, rfl⟩
    match t with
    | 0 | 1 | 2 => cases hcall
    | 3 =>
      cases List.mem_singleton.mp hcall
      refine ⟨3, Nat.le_refl 3, .resolve true, rfl, fun call' hcall' => ?_⟩
      rw [hops_steadyCalls] at hcall'
      cases List.mem_singleton.mp hcall'
      exact ⟨0, rfl⟩
    | 4 | 5 | 6 =>
      cases List.mem_singleton.mp hcall
      exact hreceive (by decide) rfl
    | 7 =>
      cases List.mem_singleton.mp hcall
      exact absurd trivial hreturned
    | t + 8 => cases hcall
  posts := by
    intro t k call hcall hreturned
    rw [hops_steadyCalls] at hcall
    match t with
    | 0 | 1 | 2 => cases hcall
    | 3 | 4 | 5 | 6 =>
      cases List.mem_singleton.mp hcall
      exact hreturned.elim
    | 7 =>
      cases List.mem_singleton.mp hcall
      exact ⟨7, Nat.le_refl 7, rfl⟩
    | t + 8 => cases hcall

theorem allowed_steadyCalls (t : Nat) :
    Allowed (states Calls.step (.boot true 4 4) steadyCalls t) (steadyCalls t) ∧
      CallbacksKept (states Calls.step (.boot true 4 4) steadyCalls t) (steadyCalls t) := by
  match t with
  | 0 =>
    refine ⟨fun rev hrev => ?_, fun rd hrd i hi => absurd rfl hi⟩
    cases hrev
    exact ⟨by decide +kernel, by decide +kernel, fun _ hindex => (nomatch hindex)⟩
  | 1 =>
    refine ⟨fun rev hrev => ?_, fun rd hrd i hi => ?_⟩
    · cases hrev
      decide +kernel
    · cases hrd
      exact ⟨fun _ he => (nomatch he), fun _ hindex => (nomatch hindex)⟩
  | 2 | 3 | 4 | 5 | 6 | 7 => exact ⟨fun rev hrev => (nomatch hrev), fun rd hrd => (nomatch hrd)⟩
  | t + 8 =>
    refine ⟨fun rev hrev => ?_, fun rd hrd i hi => ?_⟩
    · cases hrev
      exact ⟨fun e he => (nomatch he), trivial⟩
    · cases hrd
      exact ⟨fun _ he => (nomatch he), fun _ hindex => (nomatch hindex)⟩

/-- Both calls are answered. -/
theorem every_call_answered_steady :
    (∀ t, Allowed (states Calls.step (.boot true 4 4) steadyCalls t) (steadyCalls t)) ∧
      (∀ t, CallbacksKept (states Calls.step (.boot true 4 4) steadyCalls t) (steadyCalls t)) ∧
      Fair (.boot true 4 4) steadyCalls ∧
      (∃ t, 0 ∈ (states Calls.step (.boot true 4 4) steadyCalls t).answers) ∧
      ∃ t, 1 ∈ (states Calls.step (.boot true 4 4) steadyCalls t).answers := by
  have hallowed := fun t => (allowed_steadyCalls t).1
  have hkept := fun t => (allowed_steadyCalls t).2
  have hanswered := (every_call_answered true 4 4 steadyCalls hallowed hkept fair_steadyCalls).1
  exact ⟨hallowed, hkept, fair_steadyCalls, hanswered 0 _ _ rfl, hanswered 2 _ _ rfl⟩

/-- A leader takes a call, loses its lead before the entry is replicated, and gets the
barrier of the next leader for the same index.  Nothing else happens on the node. -/
def deposedCall : Nat → CallEvent
  | 0 => .submit onePut (.accepted (dataEntry 1 5 [1]) { entries := [dataEntry 1 5 [1]] })
  | 1 => .raft (.ready { entries := [dataEntry 2 5 []] })
  | 2 => .raft (.ready { committedEntries := [dataEntry 2 5 []] })
  | _ => .raft (.ready {})

structure Silent (c : Calls) : Prop where
  hops : c.hops = []
  posts : c.posts = []
  called : c.raft.called = []

theorem Silent.idle {c : Calls} (h : Silent c) : Silent (c.step (.raft (.ready {}))) where
  hops := h.hops
  posts := h.posts
  called := by
    show c.raft.called ++ [] = []
    rw [h.called, List.append_nil]

theorem silent_deposedCall (t : Nat) :
    Silent (states Calls.step (.boot true 4 4) deposedCall t) := by
  match t with
  | 0 => exact ⟨rfl, rfl, rfl⟩
  | 1 => exact ⟨rfl, rfl, by decide +kernel⟩
  | 2 => exact ⟨rfl, rfl, by decide +kernel⟩
  | 3 => exact ⟨rfl, rfl, by decide +kernel⟩
  | t + 4 => exact (silent_deposedCall (t + 3)).idle

/-- The call is never answered. -/
theorem overwritten_call_unanswered :
    (∀ t, Allowed (states Calls.step (.boot true 4 4) deposedCall t) (deposedCall t)) ∧
      Fair (.boot true 4 4) deposedCall ∧
      (∃ p taken, deposedCall 0 = .submit p taken) ∧
      ∀ t, (states Calls.step (.boot true 4 4) deposedCall t).answers = [] := by
  refine ⟨fun t => ?_,
    ⟨fun s rd hrd e he => ?_, fun t k call hcall => ?_, fun t k call hcall => ?_⟩,
    ⟨_, _, rfl⟩, fun t => ?_⟩
  · match t with
    | 0 =>
      intro rev hrev
      cases hrev
      exact ⟨by decide +kernel, by decide +kernel, fun _ hindex => (nomatch hindex)⟩
    | 1 =>
      intro rev hrev
      cases hrev
      decide +kernel
    | 2 =>
      intro rev hrev
      cases hrev
      decide +kernel
    | t + 3 =>
      intro rev hrev
      cases hrev
      exact ⟨fun e he => (nomatch he), trivial⟩
  · match s with
    | 0 =>
      cases hrd
      cases List.mem_singleton.mp he
      refine ⟨1, Nat.zero_le 1, _, rfl, Or.inr ⟨Nat.zero_lt_one, Or.inl ?_⟩⟩
      exact ⟨_, List.mem_cons_self, UInt64.le_refl _⟩
    | 1 =>
      cases hrd
      cases List.mem_singleton.mp he
      exact ⟨2, by decide, _, rfl, Or.inl ⟨_, List.mem_cons_self, rfl⟩⟩
    | 2 =>
      cases hrd
      cases he
    | s + 3 =>
      cases hrd
      cases he
  · rw [(silent_deposedCall t).hops] at hcall
    cases hcall
  · rw [(silent_deposedCall t).hops] at hcall
    cases hcall
  · rw [Calls.answers, (silent_deposedCall t).called, (silent_deposedCall t).posts]
    rfl

end Hamster.Cluster
