import Mathlib.Data.List.Nodup
import Hamster.CodeLib.Run
import Hamster.Raftnode.Raft

/-!
# Callbacks of proposals

`Propose`, `claimIndexes`, `applyEntry` and the loop body of `processReady`
(`internal/raftnode/raftnode.go`), as far as they decide which callback is called with
the outcome of which entry.  A callback is known by the number of its call.

`Propose` queues its callback and hands the proposal to the library, whose next
`Ready` carries the new entry; `claimIndexes` moves the callback to the index of that
entry, and `applyEntry` calls whatever waits at the index of a committed one.  The
library is not part of the repository: what it may do is `RaftAllows`.

A callback stays at its index when its entry is overwritten.  It is then called with
the outcome of the entry that took its place, or not at all.  `callback_reports_own`
is what holds while no `Ready` carries an entry for an index at which a callback
already waits.
-/

namespace Hamster.Raftnode

open CodeLib

/-! ## The node -/

/-- A turn of `processReady`: its `Ready`, as far as the callbacks depend on it. -/
structure Turn where
  /-- Entries to be made durable. -/
  entries : List Entry := []
  /-- The index of a snapshot to install. -/
  snapshot : Option UInt64 := none
  committedEntries : List Entry := []

structure Waiting where
  proposing : List Nat := []
  waiters : UInt64 → List Nat := fun _ => []
  applied : UInt64 := 0
  usePersisted : Bool := false
  persistedIndex : UInt64 := 0

namespace Waiting

variable (w : Waiting)

def withWaiters (i : UInt64) (cs : List Nat) : Waiting :=
  { w with waiters := fun j => if j = i then cs else w.waiters j }

/-- Pending callbacks go to the new entries with data, in order. -/
def claimIndexes : List Entry → Waiting → Waiting
  | [], w => w
  | e :: es, w =>
    match w.proposing with
    | [] => w
    | c :: rest =>
      if e.type ≠ .entryNormal ∨ e.data = [] then claimIndexes es w
      else
        claimIndexes es
          { w.withWaiters e.index (w.waiters e.index ++ [c]) with proposing := rest }

/-- One committed entry, and the callbacks that are called with its outcome. -/
def applyEntry (e : Entry) : Waiting × List Nat :=
  let w := { w with applied := e.index }
  match e.type with
  | .entryNormal =>
    if e.data = [] then (w, [])
    else if e.index ≤ w.persistedIndex then (w, [])
    else (w.withWaiters e.index [], w.waiters e.index)
  | .entryConfChange | .entryConfChangeV2 => (w, [])

/-- `restoreSnapshot`: a durable store that is ahead is kept. -/
def restoreSnapshot (index : UInt64) : Waiting :=
  { w with
    applied := index
    persistedIndex :=
      if w.usePersisted ∧ index ≤ w.persistedIndex then w.persistedIndex else index }

/-- The snapshot of a `Ready`, if it has one. -/
def install : Option UInt64 → Waiting
  | some index => w.restoreSnapshot index
  | none => w

def applyAll : Waiting → List Entry → Waiting × List (Nat × Entry)
  | w, [] => (w, [])
  | w, e :: es =>
    let (w', cs) := w.applyEntry e
    let (w'', called) := w'.applyAll es
    (w'', cs.map (·, e) ++ called)

def processReady (rd : Turn) : Waiting × List (Nat × Entry) :=
  (claimIndexes rd.entries (w.install rd.snapshot)).applyAll rd.committedEntries

end Waiting

/-! ## Runs -/

/-- A raft node with its calls: which entry was created for which call, what each
`Ready` carried, and what has been called. -/
structure Proposer where
  waiting : Waiting := {}
  /-- The number of the next call. -/
  next : Nat := 0
  created : List (Nat × Entry) := []
  /-- The last entry that a `Ready` carried for an index. -/
  carried : UInt64 → Option Entry := fun _ => none
  /-- The calls of callbacks: with the outcome of an entry, or with an error of
  `Propose` itself. -/
  called : List (Nat × Option Entry) := []

inductive ProposerEvent where
  /-- `Propose` on a node that does not lead, or the library refuses the proposal. -/
  | refuse
  /-- The library creates an entry, and `processReady` takes its first turn. -/
  | propose (e : Entry) (rd : Turn)
  /-- Another turn of `processReady`. -/
  | ready (rd : Turn)
  | restart (usePersisted : Bool) (persistedIndex applied : UInt64)

def carry (carried : UInt64 → Option Entry) (es : List Entry) (i : UInt64) : Option Entry :=
  match es.reverse.find? (fun e => e.index = i) with
  | some e => some e
  | none => carried i

namespace Proposer

def turn (n : Proposer) (rd : Turn) : Proposer :=
  let (waiting, called) := n.waiting.processReady rd
  { n with
    waiting
    carried := carry n.carried rd.entries
    called := n.called ++ called.map (fun x => (x.1, some x.2)) }

def proposed (n : Proposer) (e : Entry) : Proposer :=
  { n with
    waiting := { n.waiting with proposing := n.waiting.proposing ++ [n.next] }
    next := n.next + 1
    created := n.created ++ [(n.next, e)] }

def step (n : Proposer) : ProposerEvent → Proposer
  | .refuse => { n with next := n.next + 1, called := n.called ++ [(n.next, none)] }
  | .propose e rd => (n.proposed e).turn rd
  | .ready rd => n.turn rd
  | .restart usePersisted persistedIndex applied =>
    { n with waiting := { usePersisted, persistedIndex, applied } }

def run (n : Proposer) (es : List ProposerEvent) : Proposer := es.foldl step n

end Proposer

/-- A committed entry is the one that the node has been given for its index. -/
def CommitsCarried (n : Proposer) (rd : Turn) : Prop :=
  ∀ e ∈ rd.committedEntries, ∀ e' ∈ carry n.carried rd.entries e.index, e' = e
deriving Decidable

/-- What the library documents: a new entry holds the proposal and is handed out at
once, alone, as everything before it has been; and only entries that have been handed
out are committed. -/
def RaftAllows (n : Proposer) : ProposerEvent → Prop
  | .propose e rd =>
    e.type = .entryNormal ∧ e.data ≠ [] ∧ rd.entries = [e] ∧ CommitsCarried n rd
  | .ready rd => CommitsCarried n rd
  | .refuse | .restart _ _ _ => True

/-- No entry comes to an index at which a callback waits. -/
def NotOverwritten (n : Proposer) : ProposerEvent → Prop
  | .propose _ rd | .ready rd => ∀ e ∈ rd.entries, n.waiting.waiters e.index = []
  | .refuse | .restart _ _ _ => True

instance raftAllowsDecidable (n : Proposer) (ev : ProposerEvent) : Decidable (RaftAllows n ev) := by
  unfold RaftAllows
  split <;> infer_instance

instance notOverwrittenDecidable (n : Proposer) (ev : ProposerEvent) :
    Decidable (NotOverwritten n ev) := by
  unfold NotOverwritten
  split <;> infer_instance

/-! ## One entry at a time -/

variable {e : Entry}

namespace Waiting

variable {w : Waiting}

theorem applyEntry_spec (w : Waiting) (e : Entry) :
    (w.applyEntry e).1.proposing = w.proposing ∧
      (∀ i, ((w.applyEntry e).1.waiters i).Sublist (w.waiters i)) ∧
      (w.applyEntry e).2.Sublist (w.waiters e.index) ∧
      ((w.applyEntry e).2 ≠ [] → (w.applyEntry e).1.waiters e.index = []) := by
  have hnobody : w.proposing = w.proposing ∧ (∀ i, (w.waiters i).Sublist (w.waiters i)) ∧
      ([] : List Nat).Sublist (w.waiters e.index) ∧
      (([] : List Nat) ≠ [] → w.waiters e.index = []) :=
    ⟨rfl, fun i => List.Sublist.refl _, List.nil_sublist _, fun h => absurd rfl h⟩
  rw [applyEntry]
  cases e.type with
  | entryNormal =>
    simp only
    split_ifs
    · exact hnobody
    · exact hnobody
    · refine ⟨rfl, fun i => ?_, List.Sublist.refl _, fun _ => if_pos rfl⟩
      show List.Sublist (if i = e.index then [] else w.waiters i) _
      split_ifs
      · exact List.nil_sublist _
      · exact List.Sublist.refl _
  | entryConfChange | entryConfChangeV2 => exact hnobody

@[simp] theorem install_proposing (w : Waiting) (snapshot : Option UInt64) :
    (w.install snapshot).proposing = w.proposing := by
  cases snapshot <;> rfl

@[simp] theorem install_waiters (w : Waiting) (snapshot : Option UInt64) :
    (w.install snapshot).waiters = w.waiters := by
  cases snapshot <;> rfl

theorem claimIndexes_single {c : Nat} (h : w.proposing = [c]) (htype : e.type = .entryNormal)
    (hdata : e.data ≠ []) :
    claimIndexes [e] w =
      { w.withWaiters e.index (w.waiters e.index ++ [c]) with proposing := [] } := by
  rw [claimIndexes, h]
  simp only
  rw [if_neg (by simp [htype, hdata])]
  rfl

end Waiting

namespace Proposer

def claimed (n : Proposer) (rd : Turn) : Proposer :=
  { n with
    waiting := Waiting.claimIndexes rd.entries (n.waiting.install rd.snapshot)
    carried := carry n.carried rd.entries }

def applyOne (n : Proposer) (e : Entry) : Proposer :=
  { n with
    waiting := (n.waiting.applyEntry e).1
    called := n.called ++ (n.waiting.applyEntry e).2.map (fun c => (c, some e)) }

theorem called_applyOne (n : Proposer) (e : Entry) : (n.applyOne e).called.map Prod.fst =
    n.called.map Prod.fst ++ (n.waiting.applyEntry e).2 := by
  simp [applyOne, Function.comp_def]

theorem turn_eq_foldl (n : Proposer) (rd : Turn) :
    n.turn rd = rd.committedEntries.foldl applyOne (n.claimed rd) := by
  have happly : ∀ (es : List Entry) (m : Proposer),
      es.foldl applyOne m =
        { m with
          waiting := (m.waiting.applyAll es).1
          called := m.called ++ (m.waiting.applyAll es).2.map (fun x => (x.1, some x.2)) } := by
    intro es
    induction es with
    | nil =>
      intro m
      simp [Waiting.applyAll]
    | cons e es ih =>
      intro m
      rw [List.foldl_cons, ih]
      simp [applyOne, Waiting.applyAll, Function.comp_def]
  rw [happly]
  rfl

theorem waiting_claimed_proposed {n : Proposer} {rd : Turn} (hdrained : n.waiting.proposing = [])
    (htype : e.type = .entryNormal) (hdata : e.data ≠ []) (hentries : rd.entries = [e]) :
    ((n.proposed e).claimed rd).waiting =
      { ((n.proposed e).waiting.install rd.snapshot).withWaiters e.index
          (n.waiting.waiters e.index ++ [n.next]) with proposing := [] } := by
  have hpending : ((n.proposed e).waiting.install rd.snapshot).proposing = [n.next] := by
    rw [Waiting.install_proposing]
    show n.waiting.proposing ++ [n.next] = [n.next]
    rw [hdrained, List.nil_append]
  show Waiting.claimIndexes rd.entries ((n.proposed e).waiting.install rd.snapshot) = _
  rw [hentries, Waiting.claimIndexes_single hpending htype hdata, Waiting.install_waiters]
  rfl

end Proposer

variable {es : List Entry}

theorem carry_of_forall_ne {carried : UInt64 → Option Entry} {i : UInt64}
    (h : ∀ e ∈ es, e.index ≠ i) : carry carried es i = carried i := by
  have hnone : es.reverse.find? (fun e => e.index = i) = none := by
    rw [List.find?_eq_none]
    intro e he
    simpa using h e (List.mem_reverse.mp he)
  rw [carry, hnone]

theorem carry_single (carried : UInt64 → Option Entry) (e : Entry) :
    carry carried [e] e.index = some e := by
  simp [carry]

/-! ## Every callback has its entry -/

/-- A waiting callback waits for the entry that was created for it, and that is the
entry at its index. -/
structure Paired (n : Proposer) : Prop where
  drained : n.waiting.proposing = []
  created : (n.created.map Prod.fst).Nodup
  below : ∀ c ∈ n.created.map Prod.fst ++ n.called.map Prod.fst, c < n.next
  waiters : ∀ i, ∀ c ∈ n.waiting.waiters i, ∃ e, (c, e) ∈ n.created ∧ e.index = i ∧
    n.carried i = some e
  alone : ∀ i, (n.waiting.waiters i).length ≤ 1
  pending : ∀ i, ∀ c ∈ n.waiting.waiters i, c ∉ n.called.map Prod.fst
  once : (n.called.map Prod.fst).Nodup
  own : ∀ c e, (c, some e) ∈ n.called → (c, e) ∈ n.created

variable {ev : ProposerEvent}

namespace Paired

variable {n : Proposer} {rd : Turn}

theorem start : Paired {} := by
  constructor <;> simp

theorem index_eq (h : Paired n) {i j : UInt64} {c : Nat} (hi : c ∈ n.waiting.waiters i)
    (hj : c ∈ n.waiting.waiters j) : i = j := by
  obtain ⟨e, he, rfl, -⟩ := h.waiters i c hi
  obtain ⟨e', he', rfl, -⟩ := h.waiters j c hj
  have hsame : (c, e) = (c, e') := List.inj_on_of_nodup_map h.created he he' rfl
  rw [(Prod.mk.inj hsame).2]

theorem applyOne (h : Paired n) (hcommit : ∀ e' ∈ n.carried e.index, e' = e) :
    Paired (n.applyOne e) := by
  obtain ⟨hproposing, hsub, hcalled, hsettled⟩ := n.waiting.applyEntry_spec e
  have hmap := n.called_applyOne e
  have hown : ∀ c ∈ (n.waiting.applyEntry e).2, (c, e) ∈ n.created := by
    intro c hc
    obtain ⟨e', he', -, hcarried⟩ := h.waiters e.index c (hcalled.subset hc)
    rw [← hcommit e' hcarried]
    exact he'
  exact { h with
    drained := hproposing.trans h.drained
    below := by
      intro c hc
      rw [hmap, ← List.append_assoc, List.mem_append] at hc
      rcases hc with hc | hc
      · exact h.below c hc
      · exact h.below c (List.mem_append_left _ (List.mem_map_of_mem (hown c hc)))
    waiters := fun i c hc => h.waiters i c ((hsub i).subset hc)
    alone := fun i => (hsub i).length_le.trans (h.alone i)
    pending := by
      intro i c hc
      have hbefore := (hsub i).subset hc
      rw [hmap, List.mem_append, not_or]
      refine ⟨h.pending i c hbefore, fun hnow => ?_⟩
      have hi := h.index_eq hbefore (hcalled.subset hnow)
      have hgone : (n.applyOne e).waiting.waiters e.index = [] :=
        hsettled (List.ne_nil_of_mem hnow)
      rw [hi, hgone] at hc
      exact nomatch hc
    once := by
      rw [hmap]
      refine h.once.append ?_ (fun c hc hnow => h.pending _ c (hcalled.subset hnow) hc)
      have hlength := hcalled.length_le.trans (h.alone e.index)
      match (n.waiting.applyEntry e).2, hlength with
      | [], _ => exact List.nodup_nil
      | [c], _ => exact List.nodup_singleton c
    own := by
      intro c e' hc
      rcases List.mem_append.mp hc with hc | hc
      · exact h.own c e' hc
      · obtain ⟨c', hc', heq⟩ := List.mem_map.mp hc
        cases heq
        exact hown c hc' }

theorem carried_eq (h : ∀ e ∈ rd.entries, n.waiting.waiters e.index = []) {i : UInt64} {c : Nat}
    (hc : c ∈ n.waiting.waiters i) : carry n.carried rd.entries i = n.carried i := by
  apply carry_of_forall_ne
  rintro e he rfl
  rw [h e he] at hc
  exact nomatch hc

theorem claimed (h : Paired n) (hfree : ∀ e ∈ rd.entries, n.waiting.waiters e.index = []) :
    Paired (n.claimed rd) := by
  have hdrained : (n.waiting.install rd.snapshot).proposing = [] := by
    rw [Waiting.install_proposing, h.drained]
  have hwaiting : (n.claimed rd).waiting = n.waiting.install rd.snapshot := by
    unfold Proposer.claimed
    cases rd.entries with
    | nil => rfl
    | cons e es => rw [Waiting.claimIndexes, hdrained]
  have hwaiters : (n.claimed rd).waiting.waiters = n.waiting.waiters := by
    rw [hwaiting, Waiting.install_waiters]
  exact { h with
    drained := by rw [hwaiting, hdrained]
    waiters := by
      intro i c hc
      rw [hwaiters] at hc
      obtain ⟨e, he, hi, hcarried⟩ := h.waiters i c hc
      exact ⟨e, he, hi, (carried_eq hfree hc).trans hcarried⟩
    alone := by rw [hwaiters]; exact h.alone
    pending := by rw [hwaiters]; exact h.pending }

theorem proposed (h : Paired n) (htype : e.type = .entryNormal) (hdata : e.data ≠ [])
    (hentries : rd.entries = [e]) (hfree : ∀ e ∈ rd.entries, n.waiting.waiters e.index = []) :
    Paired ((n.proposed e).claimed rd) := by
  have hempty : n.waiting.waiters e.index = [] :=
      hfree e (by rw [hentries]; exact List.mem_cons_self)
  have hwaiting := Proposer.waiting_claimed_proposed h.drained htype hdata hentries
  have hwaiters : ((n.proposed e).claimed rd).waiting.waiters =
      fun j => if j = e.index then [n.next] else n.waiting.waiters j := by
    rw [hwaiting]
    show (fun j => if j = e.index then n.waiting.waiters e.index ++ [n.next] else
      ((n.proposed e).waiting.install rd.snapshot).waiters j) = _
    rw [hempty, Waiting.install_waiters]
    rfl
  have hcalled : ((n.proposed e).claimed rd).called = n.called := rfl
  have hcreated : ((n.proposed e).claimed rd).created = n.created ++ [(n.next, e)] := rfl
  have hcarried : ((n.proposed e).claimed rd).carried = carry n.carried rd.entries := rfl
  have hnew : ∀ c ∈ n.created.map Prod.fst ++ n.called.map Prod.fst, c ≠ n.next :=
    fun c hc => Nat.ne_of_lt (h.below c hc)
  exact { h with
    drained := by rw [hwaiting]
    created := by
      rw [hcreated, List.map_append]
      refine h.created.append (List.nodup_singleton _) ?_
      intro c hc hnow
      exact hnew c (List.mem_append_left _ hc) (List.mem_singleton.mp hnow)
    below := by
      intro c hc
      show c < n.next + 1
      rw [hcreated, hcalled, List.map_append, List.mem_append, List.mem_append] at hc
      rcases hc with (hc | hc) | hc
      · exact Nat.lt_succ_of_lt (h.below c (List.mem_append_left _ hc))
      · rw [List.mem_singleton.mp hc]
        exact Nat.lt_succ_self _
      · exact Nat.lt_succ_of_lt (h.below c (List.mem_append_right _ hc))
    waiters := by
      intro i c hc
      rw [hwaiters] at hc
      rw [hcreated, hcarried]
      by_cases hi : i = e.index
      · simp only [hi, if_true, List.mem_singleton] at hc
        rw [hc, hi, hentries]
        exact ⟨e, by simp, rfl, carry_single _ e⟩
      · simp only [if_neg hi] at hc
        obtain ⟨e', he', hi', hcarried'⟩ := h.waiters i c hc
        exact ⟨e', List.mem_append_left _ he', hi', (carried_eq hfree hc).trans hcarried'⟩
    alone := by
      intro i
      rw [hwaiters]
      simp only
      split_ifs
      · exact Nat.le_refl 1
      · exact h.alone i
    pending := by
      intro i c hc
      rw [hwaiters] at hc
      rw [hcalled]
      by_cases hi : i = e.index
      · simp only [hi, if_true, List.mem_singleton] at hc
        rw [hc]
        exact fun hmem => hnew n.next (List.mem_append_right _ hmem) rfl
      · simp only [if_neg hi] at hc
        exact h.pending i c hc
    own := fun c e' hc => List.mem_append_left _ (h.own c e' hc) }

theorem turn (h : Paired (n.claimed rd)) (hcommits : CommitsCarried n rd) : Paired (n.turn rd) := by
  rw [Proposer.turn_eq_foldl]
  -- `carried` does not change while the entries are applied
  have hkeep : Paired (rd.committedEntries.foldl Proposer.applyOne (n.claimed rd)) ∧
      (rd.committedEntries.foldl Proposer.applyOne (n.claimed rd)).carried =
        carry n.carried rd.entries := by
    apply foldl_invariant (I := fun m => Paired m ∧ m.carried = carry n.carried rd.entries)
      (P := fun e => ∀ e' ∈ carry n.carried rd.entries e.index, e' = e)
    · intro m e hcommit hm
      exact ⟨hm.1.applyOne (by rw [hm.2]; exact hcommit), hm.2⟩
    · exact hcommits
    · exact ⟨h, rfl⟩
  exact hkeep.1

theorem step (h : Paired n) (hlib : RaftAllows n ev) (hfree : NotOverwritten n ev) :
    Paired (n.step ev) := by
  cases ev with
  | refuse =>
    have hnew : ∀ c ∈ n.created.map Prod.fst ++ n.called.map Prod.fst, c ≠ n.next :=
      fun c hc => Nat.ne_of_lt (h.below c hc)
    exact { h with
      below := by
        intro c hc
        show c < n.next + 1
        have hc' : c ∈ n.created.map Prod.fst ++ (n.called ++ [(n.next, none)]).map Prod.fst := hc
        rw [List.map_append, ← List.append_assoc, List.mem_append] at hc'
        rcases hc' with hc' | hc'
        · exact Nat.lt_succ_of_lt (h.below c hc')
        · rw [List.mem_singleton.mp hc']
          exact Nat.lt_succ_self _
      pending := by
        intro i c hc hmem
        have hmem' : c ∈ (n.called ++ [(n.next, none)]).map Prod.fst := hmem
        rw [List.map_append, List.mem_append] at hmem'
        rcases hmem' with hmem' | hmem'
        · exact h.pending i c hc hmem'
        · obtain ⟨e, he, -⟩ := h.waiters i c hc
          refine hnew c (List.mem_append_left _ (List.mem_map_of_mem he)) ?_
          exact List.mem_singleton.mp hmem'
      once := by
        show ((n.called ++ [(n.next, none)]).map Prod.fst).Nodup
        rw [List.map_append]
        refine h.once.append (List.nodup_singleton _) ?_
        intro c hc hnow
        exact hnew c (List.mem_append_right _ hc) (List.mem_singleton.mp hnow)
      own := by
        intro c e hc
        rcases List.mem_append.mp hc with hc | hc
        · exact h.own c e hc
        · cases List.mem_singleton.mp hc }
  | propose e rd =>
    obtain ⟨htype, hdata, hentries, hcommits⟩ := hlib
    exact (h.proposed htype hdata hentries hfree).turn hcommits
  | ready rd => exact (h.claimed hfree).turn hlib
  | restart usePersisted persistedIndex applied =>
    exact { h with
      drained := rfl
      waiters := fun _ _ hc => nomatch hc
      alone := fun _ => Nat.zero_le 1
      pending := fun _ _ hc => nomatch hc }

end Paired

/-! ## A waiting callback stays until it is called -/

/-- A `Ready` neither takes an entry for which a callback waits from the log, nor jumps
over it with a snapshot. -/
def Undisturbed (n : Proposer) (rd : Turn) : Prop :=
  ∀ i, n.waiting.waiters i ≠ [] →
    (∀ e ∈ rd.entries, i < e.index) ∧ ∀ index ∈ rd.snapshot, index < i

theorem Undisturbed.free {n : Proposer} {rd : Turn} (h : Undisturbed n rd) :
    ∀ e ∈ rd.entries, n.waiting.waiters e.index = [] := by
  intro e he
  by_contra hwaits
  exact absurd ((h e.index hwaits).1 e he) (UInt64.lt_irrefl e.index)

/-- Callback `c` has been called, or it waits at index `i`, which the store has not
reached. -/
def Due (n : Proposer) (c : Nat) (i : UInt64) : Prop :=
  c ∈ n.called.map Prod.fst ∨ c ∈ n.waiting.waiters i ∧ n.waiting.persistedIndex < i

namespace Waiting

variable {w : Waiting} {i : UInt64}

/-- Who waits for an entry with data that is new to the store is called with it; others
stay. -/
theorem mem_applyEntry {c : Nat} (hc : c ∈ w.waiters i) (hnew : w.persistedIndex < i) (e : Entry) :
    c ∈ (w.applyEntry e).2 ∨
      c ∈ (w.applyEntry e).1.waiters i ∧ (w.applyEntry e).1.persistedIndex < i ∧
        (e.type = .entryNormal → e.data ≠ [] → e.index ≠ i) := by
  rw [applyEntry]
  cases htype : e.type with
  | entryNormal =>
    simp only
    split_ifs with hdata hold
    · exact Or.inr ⟨hc, hnew, fun _ h => absurd hdata h⟩
    · refine Or.inr ⟨hc, hnew, fun _ _ hi => ?_⟩
      rw [hi] at hold
      exact absurd hnew (UInt64.not_lt.mpr hold)
    · by_cases hi : e.index = i
      · exact Or.inl (by rw [hi]; exact hc)
      · refine Or.inr ⟨?_, hnew, fun _ _ => hi⟩
        show c ∈ if i = e.index then [] else w.waiters i
        rw [if_neg (Ne.symm hi)]
        exact hc
  | entryConfChange | entryConfChangeV2 => exact Or.inr ⟨hc, hnew, fun h => nomatch h⟩

theorem mem_claimIndexes {c : Nat} (hc : c ∈ w.waiters i) (es : List Entry) :
    c ∈ (claimIndexes es w).waiters i := by
  fun_induction claimIndexes es w with
  | case1 w | case2 e es w hdrained => exact hc
  | case3 e es w c' rest hpending hskip ih => exact ih hc
  | case4 e es w c' rest hpending htake ih =>
    apply ih
    show c ∈ if i = e.index then w.waiters e.index ++ [c'] else w.waiters i
    split_ifs with hi
    · rw [← hi]
      exact List.mem_append_left _ hc
    · exact hc

theorem claimIndexes_persistedIndex (es : List Entry) (w : Waiting) :
    (claimIndexes es w).persistedIndex = w.persistedIndex := by
  fun_induction claimIndexes es w with
  | case1 w | case2 e es w hdrained => rfl
  | case3 e es w c' rest hpending hskip ih | case4 e es w c' rest hpending htake ih => exact ih

theorem install_persistedIndex_lt (hnew : w.persistedIndex < i) {snapshot : Option UInt64}
    (hbelow : ∀ index ∈ snapshot, index < i) : (w.install snapshot).persistedIndex < i := by
  cases snapshot with
  | none => exact hnew
  | some index =>
    show (if w.usePersisted ∧ index ≤ w.persistedIndex then w.persistedIndex else index) < i
    split_ifs
    · exact hnew
    · exact hbelow index rfl

end Waiting

namespace Due

variable {n : Proposer} {rd : Turn} {c : Nat} {i : UInt64}

theorem applyOne (h : Due n c i) (e : Entry) : Due (n.applyOne e) c i := by
  have hmap := n.called_applyOne e
  rcases h with hcalled | ⟨hc, hnew⟩
  · exact Or.inl (by rw [hmap]; exact List.mem_append_left _ hcalled)
  · rcases Waiting.mem_applyEntry hc hnew e with hnow | ⟨hstill, hnew', -⟩
    · exact Or.inl (by rw [hmap]; exact List.mem_append_right _ hnow)
    · exact Or.inr ⟨hstill, hnew'⟩

theorem foldl (h : Due n c i) (es : List Entry) : Due (es.foldl Proposer.applyOne n) c i :=
  foldl_preserves (I := fun m => Due m c i) (fun _ e hm => hm.applyOne e) _ h

theorem called_of_mem (h : Due n c i) (he : e ∈ es) (hi : e.index = i)
    (htype : e.type = .entryNormal) (hdata : e.data ≠ []) :
    c ∈ (es.foldl Proposer.applyOne n).called.map Prod.fst := by
  have hkeep : ∀ (es : List Entry) (m : Proposer), c ∈ m.called.map Prod.fst →
      c ∈ (es.foldl Proposer.applyOne m).called.map Prod.fst := by
    intro es
    induction es with
    | nil => exact fun m hm => hm
    | cons e es ih =>
      intro m hm
      refine ih (m.applyOne e) ?_
      rw [m.called_applyOne]
      exact List.mem_append_left _ hm
  induction es generalizing n with
  | nil => exact nomatch he
  | cons e' es ih =>
    rcases List.mem_cons.mp he with rfl | hrest
    · rcases h with hcalled | ⟨hc, hnew⟩
      · exact hkeep (e :: es) n hcalled
      · rcases Waiting.mem_applyEntry hc hnew e with hnow | ⟨-, -, hother⟩
        · refine hkeep es (n.applyOne e) ?_
          rw [n.called_applyOne]
          exact List.mem_append_right _ hnow
        · exact absurd hi (hother htype hdata)
    · exact ih (h.applyOne e') hrest

theorem claimed (h : Due n c i) (hrd : Undisturbed n rd) : Due (n.claimed rd) c i := by
  rcases h with hcalled | ⟨hc, hnew⟩
  · exact Or.inl hcalled
  · have hbelow := (hrd i (List.ne_nil_of_mem hc)).2
    refine Or.inr ⟨Waiting.mem_claimIndexes ?_ rd.entries, ?_⟩
    · rw [Waiting.install_waiters]
      exact hc
    · show (Waiting.claimIndexes _ _).persistedIndex < i
      rw [Waiting.claimIndexes_persistedIndex]
      exact Waiting.install_persistedIndex_lt hnew hbelow

theorem proposed (hdrained : n.waiting.proposing = []) (htype : e.type = .entryNormal)
    (hdata : e.data ≠ []) (hentries : rd.entries = [e]) (hnew : n.waiting.persistedIndex < e.index)
    (hbelow : ∀ index ∈ rd.snapshot, index < e.index) :
    Due ((n.proposed e).claimed rd) n.next e.index := by
  refine Or.inr ?_
  rw [Proposer.waiting_claimed_proposed hdrained htype hdata hentries]
  refine ⟨?_, ?_⟩
  · show n.next ∈ if e.index = e.index then _ ++ [n.next] else _
    rw [if_pos rfl]
    exact List.mem_append_right _ List.mem_cons_self
  · show ((n.proposed e).waiting.install rd.snapshot).persistedIndex < e.index
    exact Waiting.install_persistedIndex_lt (w := (n.proposed e).waiting) hnew hbelow

theorem step (h : Due n c i)
    (hev : ∀ rd, ev = .ready rd ∨ (∃ e, ev = .propose e rd) → Undisturbed n rd)
    (hruns : ∀ u p a, ev ≠ .restart u p a) : Due (n.step ev) c i := by
  cases ev with
  | refuse =>
    refine h.imp_left (fun hcalled => ?_)
    show c ∈ (n.called ++ [(n.next, none)]).map Prod.fst
    rw [List.map_append]
    exact List.mem_append_left _ hcalled
  | propose e rd =>
    have hproposed : Due (n.proposed e) c i := h
    show Due ((n.proposed e).turn rd) c i
    rw [Proposer.turn_eq_foldl]
    exact (hproposed.claimed (hev rd (Or.inr ⟨e, rfl⟩))).foldl _
  | ready rd =>
    show Due (n.turn rd) c i
    rw [Proposer.turn_eq_foldl]
    exact (h.claimed (hev rd (Or.inl rfl))).foldl _
  | restart usePersisted persistedIndex applied => exact absurd rfl (hruns _ _ _)

end Due

/-- In every run in which no entry comes to an index at which a callback waits, a
callback is called with the outcome of the entry that was created for its proposal, and
none is called twice. -/
theorem callback_reports_own (es : List ProposerEvent)
    (h : EachStep Proposer.step (fun n ev => RaftAllows n ev ∧ NotOverwritten n ev) {} es) :
    (∀ c e, (c, some e) ∈ (Proposer.run {} es).called →
        (c, e) ∈ (Proposer.run {} es).created ∧
          ∀ e', (c, e') ∈ (Proposer.run {} es).created → e' = e) ∧
      ((Proposer.run {} es).called.map Prod.fst).Nodup := by
  have hpaired : Paired (Proposer.run {} es) :=
    h.invariant (fun _ _ hev hn => hn.step hev.1 hev.2) Paired.start (List.prefix_refl es)
  refine ⟨fun c e hc => ⟨hpaired.own c e hc, fun e' he' => ?_⟩, hpaired.once⟩
  have hsame : (c, e') = (c, e) :=
    List.inj_on_of_nodup_map hpaired.created he' (hpaired.own c e hc) rfl
  exact (Prod.mk.inj hsame).2

def dataEntry (term index : UInt64) (data : Bytes) : Entry :=
  ⟨term, index, .entryNormal, data⟩

/-- The node leads, is refused a proposal after it lost the lead, and takes the entries
of the next leader. -/
def followingRun : List ProposerEvent :=
  [.restart true 4 4,
    .propose (dataEntry 1 5 [1]) { entries := [dataEntry 1 5 [1]] },
    .ready { committedEntries := [dataEntry 1 5 [1]] },
    .refuse,
    .ready { entries := [dataEntry 2 6 [], dataEntry 2 7 [2]] },
    .ready { entries := [dataEntry 3 7 [3]], committedEntries := [dataEntry 2 6 []] },
    .ready { committedEntries := [dataEntry 3 7 [3]] }]

theorem callback_reports_own_following :
    EachStep Proposer.step (fun n ev => RaftAllows n ev ∧ NotOverwritten n ev) {} followingRun ∧
      (Proposer.run {} followingRun).called = [(0, some (dataEntry 1 5 [1])), (1, none)] ∧
      (0, dataEntry 1 5 [1]) ∈ (Proposer.run {} followingRun).created := by
  have hsteps : EachStep Proposer.step (fun n ev => RaftAllows n ev ∧ NotOverwritten n ev) {}
      followingRun := by decide +kernel
  have hcalled : (Proposer.run {} followingRun).called =
      [(0, some (dataEntry 1 5 [1])), (1, none)] := by decide +kernel
  refine ⟨hsteps, hcalled, ((callback_reports_own followingRun hsteps).1 0 _ ?_).1⟩
  rw [hcalled]
  exact List.mem_cons_self

/-- A leader takes two proposals, loses its lead before they are replicated, and gets
the next leader's entries for the same indexes: the barrier at 5 and a proposal of
another node at 6. -/
def deposedRun : List ProposerEvent :=
  [.restart true 4 4,
    .propose (dataEntry 1 5 [1]) { entries := [dataEntry 1 5 [1]] },
    .propose (dataEntry 1 6 [2]) { entries := [dataEntry 1 6 [2]] },
    .ready { entries := [dataEntry 2 5 [], dataEntry 2 6 [3]] },
    .ready { committedEntries := [dataEntry 2 5 [], dataEntry 2 6 [3]] }]

/-- The second callback is told the outcome of the other node's proposal. -/
theorem callback_reports_another :
    EachStep Proposer.step RaftAllows {} deposedRun ∧
      (Proposer.run {} deposedRun).called = [(1, some (dataEntry 2 6 [3]))] ∧
      (Proposer.run {} deposedRun).created =
        [(0, dataEntry 1 5 [1]), (1, dataEntry 1 6 [2])] := by
  decide +kernel

end Hamster.Raftnode
