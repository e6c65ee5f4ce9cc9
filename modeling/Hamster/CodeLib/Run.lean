import Mathlib.Data.List.Basic

/-!
# Runs of a state machine

A state machine is a step function over a list of inputs, and a run is the
fold of it.  `foldl_invariant` is the induction of the safety theorems, and
`foldl_invariant_upto` its form for an invariant that weakens with each step and
is kept as long as a bound on the number of steps is not used up.  `EachStep` is a condition on every step of a run that also sees
the state the step starts from.  `EachStep.invariant` is its rule, and
`eachStep_congr` exchanges one condition for another.  `states` is a run that
does not end, for properties of what happens eventually.

`runOutputs` is a run that also answers each input.  `runOutputs_simulation`
is the simulation rule: machines whose steps answer alike from related states
answer alike along whole runs.
-/

namespace Hamster.CodeLib

variable {σ ι : Type} {step : σ → ι → σ} {P : ι → Prop} {as : List ι} {s : σ} {I : σ → Prop}

/-- What every allowed step keeps, every run of allowed steps keeps. -/
theorem foldl_invariant (hstep : ∀ s a, P a → I s → I (step s a)) (has : ∀ a ∈ as, P a) (hs : I s) :
    I (as.foldl step s) := by
  induction as generalizing s with
  | nil => exact hs
  | cons a rest ih =>
    have hnext : I (step s a) := hstep s a (has a List.mem_cons_self) hs
    exact ih (fun a' ha' => has a' (List.mem_cons_of_mem a ha')) hnext

theorem foldl_preserves (hstep : ∀ s a, I s → I (step s a)) (as : List ι) (hs : I s) :
    I (as.foldl step s) :=
  foldl_invariant (P := fun _ => True) (fun s a _ => hstep s a) (fun _ _ => trivial) hs

variable {bound : Nat}

/-- The same for an invariant that counts steps, up to a bound. -/
theorem foldl_invariant_upto {I : Nat → σ → Prop}
    (hstep : ∀ n s a, n < bound → P a → I n s → I (n + 1) (step s a)) (has : ∀ a ∈ as, P a)
    {n : Nat} (hn : n + as.length ≤ bound) (hs : I n s) : I (n + as.length) (as.foldl step s) := by
  induction as generalizing n s with
  | nil => exact hs
  | cons a rest ih =>
    rw [List.length_cons] at hn ⊢
    have hnext : I (n + 1) (step s a) := hstep n s a (by omega) (has a List.mem_cons_self) hs
    have hrest := ih (fun a' ha' => has a' (List.mem_cons_of_mem a ha')) (by omega) hnext
    rw [show n + (rest.length + 1) = n + 1 + rest.length by omega]
    exact hrest

/-- Every step of the run from a state meets a condition on the state it
starts from. -/
def EachStep (step : σ → ι → σ) (P : σ → ι → Prop) : σ → List ι → Prop
  | _, [] => True
  | s, a :: rest => P s a ∧ EachStep step P (step s a) rest

instance EachStep.decidable (step : σ → ι → σ) (Q : σ → ι → Prop) [∀ s a, Decidable (Q s a)] :
    (s : σ) → (as : List ι) → Decidable (EachStep step Q s as)
  | _, [] => inferInstanceAs (Decidable True)
  | s, a :: rest =>
    have := EachStep.decidable step Q (step s a) rest
    inferInstanceAs (Decidable (Q s a ∧ EachStep step Q (step s a) rest))

variable {Q : σ → ι → Prop} {Q' : σ → ι → Prop}

/-- A weaker condition. -/
theorem EachStep.imp (himp : ∀ s a, Q s a → Q' s a) (h : EachStep step Q s as) :
    EachStep step Q' s as := by
  induction as generalizing s with
  | nil => trivial
  | cons a rest ih => exact ⟨himp s a h.1, ih h.2⟩

/-- A condition on the inputs alone joins one on the steps. -/
theorem EachStep.and_of_forall (has : ∀ a ∈ as, P a) (h : EachStep step Q s as) :
    EachStep step (fun s a => P a ∧ Q s a) s as := by
  induction as generalizing s with
  | nil => trivial
  | cons a rest ih =>
    refine ⟨⟨has a List.mem_cons_self, h.1⟩, ?_⟩
    exact ih (fun a' ha' => has a' (List.mem_cons_of_mem a ha')) h.2

/-- The rest of a run is a run from the state in between. -/
theorem EachStep.of_append {bs : List ι} (h : EachStep step Q s (as ++ bs)) :
    EachStep step Q (as.foldl step s) bs := by
  induction as generalizing s with
  | nil => exact h
  | cons a rest ih => exact ih h.2

/-- What a step under the condition keeps, every state of the run has. -/
theorem EachStep.invariant (hstep : ∀ s a, Q s a → I s → I (step s a)) (h : EachStep step Q s as)
    (hs : I s) {bs : List ι} (hbs : bs <+: as) : I (bs.foldl step s) := by
  induction as generalizing s bs with
  | nil =>
    rw [List.prefix_nil.mp hbs]
    exact hs
  | cons a rest ih =>
    cases bs with
    | nil => exact hs
    | cons b bs =>
      obtain ⟨rfl, hrest⟩ := List.cons_prefix_cons.mp hbs
      exact ih h.2 (hstep s b h.1 hs) hrest

/-- Conditions that agree wherever an invariant holds agree along runs. -/
theorem eachStep_congr (hstep : ∀ s a, I s → I (step s a)) (hiff : ∀ s a, I s → (Q s a ↔ Q' s a))
    (hs : I s) (as : List ι) : EachStep step Q s as ↔ EachStep step Q' s as := by
  induction as generalizing s with
  | nil => exact Iff.rfl
  | cons a rest ih => exact and_congr (hiff s a hs) (ih (hstep s a hs))

/-! ## Endless runs -/

/-- The states of a run that does not end. -/
def states (step : σ → ι → σ) (s : σ) (as : Nat → ι) : Nat → σ
  | 0 => s
  | t + 1 => step (states step s as t) (as t)

/-- What every step of an endless run keeps, every later state has. -/
theorem states_invariant (hstep : ∀ s a, Q s a → I s → I (step s a)) {as : Nat → ι}
    (has : ∀ t, Q (states step s as t) (as t)) {t u : Nat} (htu : t ≤ u)
    (ht : I (states step s as t)) : I (states step s as u) := by
  induction htu with
  | refl => exact ht
  | step _ ih => exact hstep _ _ (has _) ih

/-! ## Runs with answers -/

section Outputs

variable {τ ω : Type}

/-- The answers along a run, and the state it ends in. -/
def runOutputs (step : σ → ι → ω × σ) : σ → List ι → List ω × σ
  | s, [] => ([], s)
  | s, a :: rest =>
    ((step s a).1 :: (runOutputs step (step s a).2 rest).1,
      (runOutputs step (step s a).2 rest).2)

/-- Steps that answer alike and keep a relation lift to runs.  The relation
may count steps up to a bound. -/
theorem runOutputs_simulation {spec : τ → ι → ω × τ} {impl : σ → ι → ω × σ} {R : Nat → τ → σ → Prop}
    (hstep : ∀ n m s a, n < bound → P a → R n m s →
      (impl s a).1 = (spec m a).1 ∧ R (n + 1) (spec m a).2 (impl s a).2)
    (has : ∀ a ∈ as, P a) {n : Nat} (hn : n + as.length ≤ bound) {m : τ} (h : R n m s) :
    (runOutputs impl s as).1 = (runOutputs spec m as).1 ∧
      R (n + as.length) (runOutputs spec m as).2 (runOutputs impl s as).2 := by
  induction as generalizing n m s with
  | nil => exact ⟨rfl, h⟩
  | cons a rest ih =>
    rw [List.length_cons] at hn ⊢
    obtain ⟨hout, hnext⟩ := hstep n m s a (by omega) (has a List.mem_cons_self) h
    obtain ⟨houts, hend⟩ :=
      ih (fun a' ha' => has a' (List.mem_cons_of_mem a ha')) (by omega) hnext
    rw [show n + (rest.length + 1) = n + 1 + rest.length by omega]
    refine ⟨?_, hend⟩
    show (impl s a).1 :: _ = (spec m a).1 :: _
    rw [hout, houts]

end Outputs

end Hamster.CodeLib
