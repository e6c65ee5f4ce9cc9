import Mathlib.Data.List.Forall2
import Mathlib.Tactic.Common

/-!
# Lists and loops

Lists that are related element by element, counting, and loops over a list
that can fail.  `Except` is the result of code that can return an error:
`bind_eq_ok_iff` takes a sequence of steps that succeeded apart; `bind_ok` and
`mapM_eq_ok` and `foldlM_collect` put one together.
-/

namespace Hamster.CodeLib

variable {ε α β : Type}

/-- A sequence succeeds when each step does. -/
theorem bind_eq_ok_iff {x : Except ε α} {f : α → Except ε β} {b : β} :
    (x >>= f) = .ok b ↔ ∃ a, x = .ok a ∧ f a = .ok b := by
  cases x with
  | error e | ok a => simp [bind, Except.bind]

theorem bind_ok (a : α) (f : α → Except ε β) : ((.ok a : Except ε α) >>= f) = f a := rfl

/-- A loop whose turns all succeed. -/
theorem mapM_eq_ok {f : α → Except ε β} {g : α → β} {xs : List α} (h : ∀ a ∈ xs, f a = .ok (g a)) :
    xs.mapM f = .ok (xs.map g) := by
  induction xs with
  | nil => rfl
  | cons a xs ih =>
    rw [List.mapM_cons, h a List.mem_cons_self, bind_ok,
      ih (fun b hb => h b (List.mem_cons_of_mem a hb)), bind_ok]
    rfl

/-- A loop that collects what it sees: `state ys` is where it is with `ys` collected. -/
theorem foldlM_collect {γ : Type} {f : α → γ → Except ε α} {g : β → γ} {xs : List β}
    (state : List β → α) (h : ∀ x ∈ xs, ∀ ys, f (state ys) (g x) = .ok (state (ys ++ [x])))
    (ys : List β) : (xs.map g).foldlM f (state ys) = .ok (state (ys ++ xs)) := by
  induction xs generalizing ys with
  | nil => simp [pure, Except.pure]
  | cons x xs ih =>
    rw [List.map_cons, List.foldlM_cons, h x List.mem_cons_self, bind_ok,
      ih (fun y hy => h y (List.mem_cons_of_mem x hy)), List.append_assoc]
    rfl

variable {as : List α} {R : α → β → Prop} {bs : List β}

theorem exists_of_mem_forall₂ (h : List.Forall₂ R as bs) {a : α} (ha : a ∈ as) :
    ∃ b ∈ bs, R a b := by
  induction h with
  | nil => cases ha
  | @cons x y as bs hxy _ ih =>
    rcases List.mem_cons.mp ha with rfl | ha
    · exact ⟨y, List.mem_cons_self, hxy⟩
    · obtain ⟨b, hb, hR⟩ := ih ha
      exact ⟨b, List.mem_cons_of_mem y hb, hR⟩

theorem getElem?_forall₂ (h : List.Forall₂ R as bs) {i : Nat} {b : β} (hb : bs[i]? = some b) :
    ∃ a, as[i]? = some a ∧ R a b := by
  induction h generalizing i with
  | nil => cases hb
  | cons hxy _ ih =>
    cases i with
    | zero =>
      obtain rfl := Option.some.inj hb
      exact ⟨_, rfl, hxy⟩
    | succ i => exact ih hb

variable {f : α → α}

theorem forall₂_modify {i : Nat} (h : List.Forall₂ R as bs)
    (hf : ∀ a b, as[i]? = some a → R a b → R (f a) b) : List.Forall₂ R (as.modify i f) bs := by
  induction h generalizing i with
  | nil => cases i <;> exact .nil
  | @cons a b as bs hab hrest ih =>
    cases i with
    | zero => exact .cons (hf a b rfl hab) hrest
    | succ i => exact .cons hab (ih (fun a b ha hab => hf a b ha hab))

variable {p : α → Bool}

theorem countP_modify {i : Nat} {a : α} (ha : as[i]? = some a) :
    (as.modify i f).countP p + (if p a then 1 else 0) =
      as.countP p + (if p (f a) then 1 else 0) := by
  induction as generalizing i with
  | nil => cases ha
  | cons x as ih =>
    cases i with
    | zero =>
      obtain rfl := Option.some.inj ha
      rw [List.modify_zero_cons, List.countP_cons, List.countP_cons]
      omega
    | succ i =>
      have := ih ha
      rw [List.modify_succ_cons, List.countP_cons, List.countP_cons]
      omega

theorem countP_of_forall₂ {bs : List α} (h : List.Forall₂ (fun a b => p b = p a) as bs) :
    bs.countP p = as.countP p := by
  induction h with
  | nil => rfl
  | cons h _ ih => rw [List.countP_cons, List.countP_cons, ih, h]

end Hamster.CodeLib
