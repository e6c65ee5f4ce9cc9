import Mathlib.Data.List.Basic

/-!
# Programs that may be cut short

A program over a state is a sequence of atomic actions, and power may fail
before each of them.  `Prog` runs a program and keeps the states it passed
through, so that "a crash at any point of it" is a quantifier over a list.

`Triple P p Q C` is a Hoare triple with a fourth part: from a state in `P`
the program ends with `Q`, and every state in which it can be cut short meets
`C`.  `Triple.bind` and the rule for one action are what proofs use; a
program's own control flow needs no rule, since `Prog` is a monad over
ordinary functions.
-/

namespace Hamster.CodeLib

/-- One execution: what it returns, the state it ends in, and the states it
passed, each before one action. -/
structure Exec (σ α : Type) where
  value : α
  final : σ
  points : List σ

/-- A program over states of type `σ`. -/
def Prog (σ α : Type) : Type := σ → Exec σ α

namespace Prog

variable {σ α β : Type}

instance : Monad (Prog σ) where
  pure a := fun s => ⟨a, s, []⟩
  bind p f := fun s =>
    let first := p s
    let second := f first.value first.final
    ⟨second.value, second.final, first.points ++ second.points⟩

/-- One atomic action. -/
def act (f : σ → α × σ) : Prog σ α := fun s => ⟨(f s).1, (f s).2, [s]⟩

/-- An action that only looks. -/
def look (f : σ → α) : Prog σ α := act (fun s => (f s, s))

/-- An action that only changes the state. -/
def change (f : σ → σ) : Prog σ Unit := act (fun s => ((), f s))

/-- An action that may fail, and then changes nothing. -/
def attempt (fails : Bool) (f : σ → σ) : Prog σ Bool :=
  act (fun s => if fails then (false, s) else (true, f s))

def value (p : Prog σ α) (s : σ) : α := (p s).value

def final (p : Prog σ α) (s : σ) : σ := (p s).final

/-- The states in which the program can be cut short, the last of them after
its last action. -/
def states (p : Prog σ α) (s : σ) : List σ := (p s).points ++ [(p s).final]

section Equations

variable (p : Prog σ α) (f : α → Prog σ β) (s : σ)

@[simp] theorem value_bind : (p >>= f).value s = (f (p.value s)).value (p.final s) := rfl

@[simp] theorem final_bind : (p >>= f).final s = (f (p.value s)).final (p.final s) := rfl

theorem bind_apply :
    (p >>= f) s =
      ⟨(f (p s).value (p s).final).value, (f (p s).value (p s).final).final,
        (p s).points ++ (f (p s).value (p s).final).points⟩ := rfl

/-- A sequence whose first part is known. -/
theorem run_bind {a : α} {s' : σ} {points : List σ} (h : p s = ⟨a, s', points⟩) :
    (p >>= f) s = ⟨(f a s').value, (f a s').final, points ++ (f a s').points⟩ := by
  show Exec.mk _ _ _ = _
  rw [h]

/-- An action that does not fail. -/
theorem attempt_bind (g : σ → σ) (f : Bool → Prog σ β) :
    (attempt false g >>= f) = (change g >>= fun _ => f true) := rfl

end Equations

/-- From a state in `P` the program ends with `Q`, and whenever it is cut
short the state is in `C`. -/
def Triple (P : σ → Prop) (p : Prog σ α) (Q : α → σ → Prop) (C : σ → Prop) : Prop :=
  ∀ s, P s → Q (p s).value (p s).final ∧ ∀ x ∈ (p s).points, C x

namespace Triple

variable {P P' : σ → Prop} {Q Q' : α → σ → Prop} {R : β → σ → Prop} {C C' : σ → Prop}
variable {p : Prog σ α} {f : α → Prog σ β}

theorem pure {a : α} (h : ∀ s, P s → Q a s) : Triple P (Pure.pure a) Q C :=
  fun s hs => ⟨h s hs, by intro x hx; cases hx⟩

theorem act {g : σ → α × σ} (hC : ∀ s, P s → C s) (hQ : ∀ s, P s → Q (g s).1 (g s).2) :
    Triple P (Prog.act g) Q C := by
  intro s hs
  refine ⟨hQ s hs, ?_⟩
  intro x hx
  rw [List.mem_singleton.mp hx]
  exact hC s hs

theorem look {g : σ → α} (hC : ∀ s, P s → C s) (hQ : ∀ s, P s → Q (g s) s) :
    Triple P (Prog.look g) Q C := act hC hQ

theorem change {g : σ → σ} {Q : Unit → σ → Prop} (hC : ∀ s, P s → C s)
    (hQ : ∀ s, P s → Q () (g s)) : Triple P (Prog.change g) Q C := act hC hQ

theorem bind (hp : Triple P p Q C) (hf : ∀ a, Triple (Q a) (f a) R C) :
    Triple P (p >>= f) R C := by
  intro s hs
  obtain ⟨hQ, hfirst⟩ := hp s hs
  obtain ⟨hR, hsecond⟩ := hf (p s).value (p s).final hQ
  refine ⟨hR, ?_⟩
  intro x hx
  rcases List.mem_append.mp hx with hx | hx
  · exact hfirst x hx
  · exact hsecond x hx

theorem pre (h : Triple P p Q C) (hP : ∀ s, P' s → P s) : Triple P' p Q C :=
  fun s hs => h s (hP s hs)

theorem cut (h : Triple P p Q C) (hC : ∀ s, C s → C' s) : Triple P p Q C' :=
  fun s hs => ⟨(h s hs).1, fun x hx => hC x ((h s hs).2 x hx)⟩

/-- A family of triples of one program. -/
theorem all {ι : Type} {R : ι → Prop} {P : ι → σ → Prop} {Q : ι → α → σ → Prop}
    {C : ι → σ → Prop} (h : ∀ i, R i → Triple (P i) p (Q i) (C i)) :
    Triple (fun s => ∀ i, R i → P i s) p (fun a s => ∀ i, R i → Q i a s)
      (fun s => ∀ i, R i → C i s) :=
  fun s hs => ⟨fun i hi => (h i hi s (hs i hi)).1, fun x hx i hi => (h i hi s (hs i hi)).2 x hx⟩

/-- The cut condition holds at every point when the end meets it too. -/
theorem states (h : Triple P p Q C) (hend : ∀ a s, Q a s → C s) {s : σ} (hs : P s) :
    ∀ x ∈ p.states s, C x := by
  intro x hx
  obtain ⟨hpost, hcut⟩ := h s hs
  rcases List.mem_append.mp hx with hx | hx
  · exact hcut x hx
  · rw [List.mem_singleton.mp hx]
    exact hend _ _ hpost

theorem post (h : Triple P p Q C) {s : σ} (hs : P s) : Q (p.value s) (p.final s) := (h s hs).1

end Triple

/-- The program keeps `I`, also where it is cut short. -/
abbrev Keeps (I : σ → Prop) (p : Prog σ α) : Prop := Triple I p (fun _ => I) I

namespace Keeps

variable {I : σ → Prop} {p : Prog σ α} {f : α → Prog σ β}

theorem pure (a : α) : Keeps I (Pure.pure a) := Triple.pure (fun _ h => h)

theorem look (g : σ → α) : Keeps I (Prog.look g) := Triple.look (fun _ h => h) (fun _ h => h)

theorem change {g : σ → σ} (h : ∀ s, I s → I (g s)) : Keeps I (Prog.change g) :=
  Triple.change (fun _ h => h) h

theorem attempt (fails : Bool) {g : σ → σ} (h : ∀ s, I s → I (g s)) :
    Keeps I (Prog.attempt fails g) := by
  refine Triple.act (fun _ h => h) (fun s hs => ?_)
  cases fails with
  | true => exact hs
  | false => exact h s hs

theorem bind (hp : Keeps I p) (hf : ∀ a, Keeps I (f a)) : Keeps I (p >>= f) := Triple.bind hp hf

end Keeps

end Prog

end Hamster.CodeLib
