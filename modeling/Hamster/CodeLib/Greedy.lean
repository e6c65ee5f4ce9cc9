import Mathlib.Data.List.Perm.Subperm
import Mathlib.Data.List.Sort

/-!
# Greedy selection

Picking `n` candidates from a ranked list, one at a time.  Each round scans the
remaining candidates in order and replaces the best one so far by a strictly
better one; what is better depends on the picks made before.

The picks are distinct members of the list (`greedy_subperm`), as many as were
asked for (`length_greedy`), and fewer picks are the first of more (`greedy_take`).
Where one class of candidates beats the rest in every round, it is picked first
(`greedy_pairwise`), and while it is large enough the rest plays no part
(`greedy_filter`).  Where no candidate beats another, the picks are the first of the
list (`greedy_eq_take`).  `exists_of_greedy` is the rule for invariants of the rounds.
-/

namespace Hamster.CodeLib

variable {α σ : Type*}

/-- The best of `best` and a list, where a later element has to be strictly
better. -/
def selectFrom (better : α → α → Bool) (best : α) : List α → α
  | [] => best
  | x :: xs => selectFrom better (if better x best then x else best) xs

/-- The best element of a list. -/
def select (better : α → α → Bool) : List α → Option α
  | [] => none
  | x :: xs => some (selectFrom better x xs)

/-- Pick `n` elements.  `better` compares under the loads that the picks so far
have left, and `spend` adds a pick to them. -/
def greedy [DecidableEq α] (better : σ → α → α → Bool) (spend : σ → α → σ) :
    Nat → σ → List α → List α
  | 0, _, _ => []
  | n + 1, loads, cands =>
    match select (better loads) cands with
    | none => []
    | some x => x :: greedy better spend n (spend loads x) (cands.erase x)

/-! ## One round -/

variable {x : α}

section Select

variable {better : α → α → Bool} {p : α → Bool}

theorem selectFrom_mem (best : α) (xs : List α) : selectFrom better best xs ∈ best :: xs := by
  induction xs generalizing best with
  | nil => exact List.mem_singleton.mpr rfl
  | cons x xs ih =>
    have hih := ih (if better x best then x else best)
    rw [selectFrom]
    rcases List.mem_cons.mp hih with h | h
    · rw [h]
      split <;> simp
    · exact List.mem_cons_of_mem best (List.mem_cons_of_mem x h)

variable {xs : List α}

theorem mem_of_select (h : select better xs = some x) : x ∈ xs := by
  cases xs with
  | nil => cases h
  | cons y ys =>
    cases h
    exact selectFrom_mem y ys

theorem select_isSome (h : xs ≠ []) : ∃ x, select better xs = some x := by
  cases xs with
  | nil => exact absurd rfl h
  | cons y ys => exact ⟨_, rfl⟩

variable {best : α}

theorem selectFrom_eq_self (h : ∀ x ∈ xs, better x best = false) :
    selectFrom better best xs = best := by
  induction xs with
  | nil => rfl
  | cons x xs ih =>
    rw [selectFrom, h x List.mem_cons_self]
    exact ih (fun y hy => h y (List.mem_cons_of_mem x hy))

/-- A best element of the leading class is not displaced by the others. -/
theorem selectFrom_filter (hlast : ∀ x y, p x → !p y → better y x = false) (hbest : p best)
    (xs : List α) : selectFrom better best xs = selectFrom better best (xs.filter p) := by
  induction xs generalizing best with
  | nil => rfl
  | cons x xs ih =>
    by_cases hx : p x
    · rw [List.filter_cons_of_pos hx, selectFrom, selectFrom]
      apply ih
      split
      · exact hx
      · exact hbest
    · rw [List.filter_cons_of_neg hx, selectFrom, hlast best x hbest (by simpa using hx)]
      exact ih hbest

section

variable (hfirst : ∀ x y, p x → !p y → better x y = true)
  (hlast : ∀ x y, p x → !p y → better y x = false)

include hfirst hlast

/-- The first element of the leading class displaces one of the others. -/
theorem selectFrom_filter_of_not (hbest : !p best) (hex : ∃ x ∈ xs, p x) :
    some (selectFrom better best xs) = select better (xs.filter p) := by
  induction xs generalizing best with
  | nil =>
    obtain ⟨x, hx, _⟩ := hex
    cases hx
  | cons x xs ih =>
    by_cases hx : p x
    · rw [List.filter_cons_of_pos hx, selectFrom, hfirst x best hx hbest, select]
      exact congrArg some (selectFrom_filter hlast hx xs)
    · rw [List.filter_cons_of_neg hx, selectFrom]
      apply ih
      · split
        · simpa using hx
        · exact hbest
      · obtain ⟨y, hy, hpy⟩ := hex
        rcases List.mem_cons.mp hy with rfl | hy
        · exact absurd hpy hx
        · exact ⟨y, hy, hpy⟩

/-- Where the leading class is present, only it matters. -/
theorem select_filter (hex : ∃ x ∈ xs, p x) : select better xs = select better (xs.filter p) := by
  cases xs with
  | nil => rfl
  | cons x xs =>
    by_cases hx : p x
    · rw [List.filter_cons_of_pos hx, select, select]
      exact congrArg some (selectFrom_filter hlast hx xs)
    · rw [List.filter_cons_of_neg hx, select]
      refine selectFrom_filter_of_not hfirst hlast (by simpa using hx) ?_
      obtain ⟨y, hy, hpy⟩ := hex
      rcases List.mem_cons.mp hy with rfl | hy
      · exact absurd hpy hx
      · exact ⟨y, hy, hpy⟩

end

/-- Where the comparison is that of a key, no candidate has a smaller one than the
pick. -/
theorem key_selectFrom_le {κ : Type*} [LinearOrder κ] {key : α → κ}
    (hkey : ∀ a b, better a b = true ↔ key a < key b) (best : α) (xs : List α) :
    ∀ y ∈ best :: xs, key (selectFrom better best xs) ≤ key y := by
  induction xs generalizing best with
  | nil => simp [selectFrom]
  | cons x xs ih =>
    have hih := ih (if better x best then x else best)
    have hbest := List.forall_mem_cons.mp hih
    rw [selectFrom]
    refine List.forall_mem_cons.mpr ⟨?_, List.forall_mem_cons.mpr ⟨?_, hbest.2⟩⟩
    · refine hbest.1.trans ?_
      split
      next h => exact ((hkey x best).mp h).le
      next => exact le_rfl
    · refine hbest.1.trans ?_
      split
      next => exact le_rfl
      next h => exact not_lt.mp (mt (hkey x best).mpr h)

theorem key_select_le {κ : Type*} [LinearOrder κ] {key : α → κ}
    (hkey : ∀ a b, better a b = true ↔ key a < key b) (h : select better xs = some x) :
    ∀ y ∈ xs, key x ≤ key y := by
  cases xs with
  | nil => cases h
  | cons y ys =>
    cases h
    exact key_selectFrom_le hkey y ys

end Select

/-! ## All rounds -/

section Greedy

variable [DecidableEq α] {better : σ → α → α → Bool} {spend : σ → α → σ}

/-- The picks are members of the list, each as often at most as it stands
there. -/
theorem greedy_subperm (n : Nat) (loads : σ) (cands : List α) :
    (greedy better spend n loads cands).Subperm cands := by
  induction n generalizing loads cands with
  | zero => exact List.nil_subperm
  | succ n ih =>
    rw [greedy]
    split
    · exact List.nil_subperm
    · rename_i x hx
      have hperm := (List.perm_cons_erase (mem_of_select hx)).symm
      exact ((List.subperm_cons x).mpr (ih (spend loads x) (cands.erase x))).trans hperm.subperm

variable {cands : List α} {n : Nat}

theorem mem_of_mem_greedy {loads : σ} (h : x ∈ greedy better spend n loads cands) : x ∈ cands :=
  (greedy_subperm n loads cands).subset h

theorem length_greedy (loads : σ) (h : n ≤ cands.length) :
    (greedy better spend n loads cands).length = n := by
  induction n generalizing loads cands with
  | zero => rfl
  | succ n ih =>
    have hne : cands ≠ [] := List.ne_nil_of_length_pos (by omega)
    obtain ⟨x, hx⟩ : ∃ x, select (better loads) cands = some x := select_isSome hne
    have herase := List.length_erase_of_mem (mem_of_select hx)
    rw [greedy, hx]
    exact congrArg (· + 1) (ih (spend loads x) (by omega))

variable {p : α → Bool}

/-- Where a class of candidates beats the others in every round and has enough
members, the picks are those from that class alone. -/
theorem greedy_filter (hfirst : ∀ loads x y, p x → !p y → better loads x y = true)
    (hlast : ∀ loads x y, p x → !p y → better loads y x = false) (loads : σ)
    (hn : n ≤ (cands.filter p).length) :
    greedy better spend n loads cands = greedy better spend n loads (cands.filter p) := by
  induction n generalizing loads cands with
  | zero => rfl
  | succ n ih =>
    have hex : ∃ x ∈ cands, p x := by
      obtain ⟨x, hx⟩ := List.exists_mem_of_length_pos (Nat.lt_of_lt_of_le n.succ_pos hn)
      exact ⟨x, List.mem_filter.mp hx⟩
    rw [greedy, greedy, ← select_filter (hfirst loads) (hlast loads) hex]
    cases hsel : select (better loads) cands with
    | none => rfl
    | some x =>
      rw [select_filter (hfirst loads) (hlast loads) hex] at hsel
      have hmem := mem_of_select hsel
      have herase := List.length_erase_of_mem hmem
      have hcomm : (cands.erase x).filter p = (cands.filter p).erase x := by
        rw [List.erase_filter]
      dsimp only
      rw [ih (spend loads x) (by rw [hcomm]; omega), hcomm]

/-- Fewer picks are the first of more. -/
theorem greedy_take {m : Nat} (h : m ≤ n) (loads : σ) (cands : List α) :
    (greedy better spend n loads cands).take m = greedy better spend m loads cands := by
  induction m generalizing n loads cands with
  | zero => rfl
  | succ m ih =>
    cases n with
    | zero => omega
    | succ n =>
      rw [greedy, greedy]
      cases select (better loads) cands with
      | none => rfl
      | some x => exact congrArg (x :: ·) (ih (by omega) (spend loads x) (cands.erase x))

/-- Where no candidate ever beats another, the first ones are picked. -/
theorem greedy_eq_take (h : ∀ loads, ∀ x ∈ cands, ∀ y ∈ cands, better loads x y = false) (n : Nat)
    (loads : σ) : greedy better spend n loads cands = cands.take n := by
  induction n generalizing loads cands with
  | zero => rfl
  | succ n ih =>
    cases cands with
    | nil => rfl
    | cons x xs =>
      have hselect : select (better loads) (x :: xs) = some x :=
        congrArg some (selectFrom_eq_self (fun y hy => h loads y (.tail x hy) x (.head xs)))
      rw [greedy, hselect, List.take_succ_cons]
      dsimp only
      rw [List.erase_cons_head]
      refine congrArg (x :: ·) (ih (fun loads y hy z hz => ?_) (spend loads x))
      exact h loads y (.tail x hy) z (.tail x hz)

/-- A class that beats the others in every round is picked first. -/
theorem greedy_pairwise (hfirst : ∀ loads x y, p x → !p y → better loads x y = true)
    (hlast : ∀ loads x y, p x → !p y → better loads y x = false) (n : Nat) (loads : σ)
    (cands : List α) : (greedy better spend n loads cands).Pairwise (fun x y => p y → p x) := by
  induction n generalizing loads cands with
  | zero => exact .nil
  | succ n ih =>
    rw [greedy]
    split
    next => exact .nil
    next x hx =>
      refine .cons (fun y hy hpy => ?_) (ih _ _)
      have hex : ∃ z ∈ cands, p z := ⟨y, List.mem_of_mem_erase (mem_of_mem_greedy hy), hpy⟩
      rw [select_filter (hfirst loads) (hlast loads) hex] at hx
      exact (List.mem_filter.mp (mem_of_select hx)).2

/-- What each round keeps, of the picks so far, the loads and the candidates that are
left, holds at the end. -/
theorem exists_of_greedy {I : List α → σ → List α → Prop}
    (hstep : ∀ done loads cands x, I done loads cands → select (better loads) cands = some x →
      I (done ++ [x]) (spend loads x) (cands.erase x))
    (n : Nat) {loads : σ} (h : I [] loads cands) :
    ∃ loads' rest, I (greedy better spend n loads cands) loads' rest := by
  suffices hrounds : ∀ done loads cands, I done loads cands →
      ∃ loads' rest, I (done ++ greedy better spend n loads cands) loads' rest from
    hrounds [] loads cands h
  clear h
  induction n with
  | zero => exact fun done loads cands h => ⟨loads, cands, by simpa [greedy] using h⟩
  | succ n ih =>
    intro done loads cands h
    rw [greedy]
    cases hsel : select (better loads) cands with
    | none => exact ⟨loads, cands, by simpa using h⟩
    | some x => simpa using ih (done ++ [x]) _ _ (hstep done loads cands x h hsel)

end Greedy

/-! ## The ranking -/

section Sorting

variable {r : α → α → Prop} [DecidableRel r] [IsTrans α r] [Std.Total r] {xs ys : List α}

/-- Where the order tells the elements apart, a list is sorted in one way. -/
theorem eq_insertionSort (hperm : ys.Perm xs) (hsorted : ys.Pairwise r)
    (hanti : ∀ a ∈ xs, ∀ b ∈ xs, r a b → r b a → a = b) : ys = xs.insertionSort r := by
  refine (hperm.trans (List.perm_insertionSort r xs).symm).eq_of_pairwise ?_ hsorted
    (List.pairwise_insertionSort r xs)
  intro a b ha hb
  exact hanti a (hperm.mem_iff.mp ha) b ((List.mem_insertionSort r).mp hb)

theorem insertionSort_eq_of_perm (hperm : ys.Perm xs)
    (hanti : ∀ a ∈ xs, ∀ b ∈ xs, r a b → r b a → a = b) :
    ys.insertionSort r = xs.insertionSort r :=
  eq_insertionSort ((List.perm_insertionSort r ys).trans hperm) (List.pairwise_insertionSort r ys)
    hanti

/-- Sorting commutes with removing elements. -/
theorem insertionSort_filter (hanti : ∀ a ∈ xs, ∀ b ∈ xs, r a b → r b a → a = b) (p : α → Bool) :
    (xs.filter p).insertionSort r = (xs.insertionSort r).filter p := by
  refine (eq_insertionSort ((List.perm_insertionSort r xs).filter p)
    ((List.pairwise_insertionSort r xs).filter p) (fun a ha b hb => ?_)).symm
  exact hanti a (List.mem_filter.mp ha).1 b (List.mem_filter.mp hb).1

end Sorting

end Hamster.CodeLib
