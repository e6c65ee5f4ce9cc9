import Hamster.CodeLib.Bytes
import Mathlib.Logic.Function.Basic

/-!
# A sorted in-memory key-value map

The map keeps a sorted slice of its keys next to an unordered map of their
values, the layout an in-memory stand-in for an ordered store uses.  The two
halves agree and the slice is strictly sorted; both facts are fields of the
structure, so no operation can be written that breaks them.

`get`, `set`, `delete` and `scan` are the operations.  The lemmas reduce them
to lookups: `get_set`, `get_delete`, and `ext`, which says that two maps with
the same lookups are the same map, slice included.

A scan walks the rows from a starting key upward and stops when its callback
says so.  `scan_under` is the rule for the callbacks that stop at the
first key without a given prefix: such a scan visits exactly the rows under
the prefix, in key order.
-/

namespace Hamster.CodeLib

/-- A sorted key slice and the values of those keys. -/
structure SortedKV (κ α : Type) [LinearOrder κ] where
  keys : List κ
  vals : κ → Option α
  sorted : keys.Pairwise (· < ·)
  mem_keys : ∀ k, k ∈ keys ↔ (vals k).isSome

/-- The position of `k` in a sorted slice: the number of keys below it. -/
def binarySearch {κ : Type} [LinearOrder κ] (keys : List κ) (k : κ) : Nat :=
  (keys.takeWhile (fun x => decide (x < k))).length

section Search

variable {κ : Type} [LinearOrder κ]

section

variable {keys : List κ} (h : keys.Pairwise (· < ·))

include h

/-- In a sorted slice the keys below `k` stand in front. -/
theorem takeWhile_lt_eq_filter (k : κ) :
    keys.takeWhile (fun x => decide (x < k)) = keys.filter (fun x => decide (x < k)) := by
  induction keys with
  | nil => rfl
  | cons x xs ih =>
    rw [List.pairwise_cons] at h
    by_cases hx : x < k
    · simp [hx, ih h.2]
    · have hnone : xs.filter (fun y => decide (y < k)) = [] := by
        rw [List.filter_eq_nil_iff]
        intro y hy
        have := lt_of_le_of_lt (not_lt.mp hx) (h.1 y hy)
        simpa using this.le
      simp [hx, hnone]

/-- In a sorted slice the keys from `k` up stand behind. -/
theorem dropWhile_lt_eq_filter (k : κ) :
    keys.dropWhile (fun x => decide (x < k)) = keys.filter (fun x => decide (k ≤ x)) := by
  induction keys with
  | nil => rfl
  | cons x xs ih =>
    rw [List.pairwise_cons] at h
    by_cases hx : x < k
    · simp [hx, ih h.2]
    · have hall : xs.filter (fun y => decide (k ≤ y)) = xs := by
        rw [List.filter_eq_self]
        intro y hy
        simpa using (lt_of_le_of_lt (not_lt.mp hx) (h.1 y hy)).le
      simp [hx, not_lt.mp hx, hall]

theorem drop_binarySearch (k : κ) :
    keys.drop (binarySearch keys k) = keys.filter (fun x => decide (k ≤ x)) := by
  have hcut := List.takeWhile_append_dropWhile (p := fun x => decide (x < k)) (l := keys)
  rw [← dropWhile_lt_eq_filter h k]
  calc keys.drop (binarySearch keys k)
      = (keys.takeWhile (fun x => decide (x < k)) ++
          keys.dropWhile (fun x => decide (x < k))).drop (binarySearch keys k) := by rw [hcut]
    _ = keys.dropWhile (fun x => decide (x < k)) := List.drop_left

theorem insertIdx_binarySearch (k : κ) :
    keys.insertIdx (binarySearch keys k) k =
      keys.filter (fun x => decide (x < k)) ++ k :: keys.filter (fun x => decide (k ≤ x)) := by
  rw [← takeWhile_lt_eq_filter h, ← dropWhile_lt_eq_filter h]
  clear h
  induction keys with
  | nil => rfl
  | cons x xs ih =>
    by_cases hx : x < k
    · simpa [binarySearch, hx] using ih
    · simp [binarySearch, hx]

theorem eraseIdx_binarySearch {k : κ} (hk : k ∈ keys) :
    keys.eraseIdx (binarySearch keys k) = keys.filter (fun x => decide (x ≠ k)) := by
  induction keys with
  | nil => simp at hk
  | cons x xs ih =>
    rw [List.pairwise_cons] at h
    by_cases hx : x < k
    · have hk' : k ∈ xs := by
        rcases List.mem_cons.mp hk with rfl | hk
        · exact absurd hx (lt_irrefl _)
        · exact hk
      have hstep := ih h.2 hk'
      simp only [binarySearch, hx, decide_true, List.takeWhile_cons_of_pos, List.length_cons,
        List.eraseIdx_cons_succ] at hstep ⊢
      rw [hstep, List.filter_cons_of_pos (by simpa using hx.ne)]
    · have hxk : x = k := by
        rcases List.mem_cons.mp hk with rfl | hk
        · rfl
        · exact absurd (h.1 k hk) hx
      subst hxk
      have hall : xs.filter (fun y => decide (y ≠ x)) = xs := by
        rw [List.filter_eq_self]
        intro y hy
        simpa using (h.1 y hy).ne'
      simp only [binarySearch, hx, decide_false, Bool.false_eq_true, not_false_eq_true,
        List.takeWhile_cons_of_neg, List.length_nil, List.eraseIdx_cons_zero]
      rw [List.filter_cons_of_neg (by simp), hall]

end

/-- Strictly sorted lists with the same members are the same list. -/
theorem eq_of_sorted_of_mem_iff {α : Type} {r : α → α → Prop} [Std.Irrefl r] [IsTrans α r]
    {as bs : List α} (ha : as.Pairwise r) (hb : bs.Pairwise r)
    (h : ∀ x, x ∈ as ↔ x ∈ bs) : as = bs := by
  induction as generalizing bs with
  | nil =>
    cases bs with
    | nil => rfl
    | cons b bs => exact absurd ((h b).mpr List.mem_cons_self) List.not_mem_nil
  | cons a as ih =>
    cases bs with
    | nil => exact absurd ((h a).mp List.mem_cons_self) List.not_mem_nil
    | cons b bs =>
      rw [List.pairwise_cons] at ha hb
      have hab : a = b := by
        rcases List.mem_cons.mp ((h a).mp List.mem_cons_self) with hab | hab
        · exact hab
        · rcases List.mem_cons.mp ((h b).mpr List.mem_cons_self) with hba | hba
          · exact hba.symm
          · exact absurd (IsTrans.trans _ _ _ (ha.1 b hba) (hb.1 a hab)) (Std.Irrefl.irrefl a)
      subst hab
      congr 1
      refine ih ha.2 hb.2 (fun x => ?_)
      constructor
      · intro hx
        rcases List.mem_cons.mp ((h x).mp (List.mem_cons_of_mem a hx)) with rfl | hx'
        · exact absurd (ha.1 x hx) (Std.Irrefl.irrefl x)
        · exact hx'
      · intro hx
        rcases List.mem_cons.mp ((h x).mpr (List.mem_cons_of_mem a hx)) with rfl | hx'
        · exact absurd (hb.1 x hx) (Std.Irrefl.irrefl x)
        · exact hx'

end Search

/-- The first `max` rows; a bound at most zero is none. -/
def cutTo {γ : Type} (max : Int) (rows : List γ) : List γ :=
  if 0 < max then rows.take max.toNat else rows

namespace SortedKV

variable {κ α : Type} [LinearOrder κ]

/-- The map without rows. -/
def empty : SortedKV κ α where
  keys := []
  vals := fun _ => none
  sorted := List.Pairwise.nil
  mem_keys := by simp

def get (kv : SortedKV κ α) (k : κ) : Option α := kv.vals k

/-- Store `v` under `k`.  A new key is inserted at its sorted position, an
existing one keeps its place. -/
def set (kv : SortedKV κ α) (k : κ) (v : α) : SortedKV κ α where
  keys :=
    if (kv.vals k).isSome then kv.keys
    else kv.keys.insertIdx (binarySearch kv.keys k) k
  vals := Function.update kv.vals k (some v)
  sorted := by
    split
    · exact kv.sorted
    · rename_i hk
      have hnot : k ∉ kv.keys := fun hmem => hk ((kv.mem_keys k).mp hmem)
      rw [insertIdx_binarySearch kv.sorted, List.pairwise_append, List.pairwise_cons]
      refine ⟨kv.sorted.filter _, ⟨?_, kv.sorted.filter _⟩, ?_⟩
      · intro y hy
        rw [List.mem_filter, decide_eq_true_eq] at hy
        exact lt_of_le_of_ne hy.2 (fun heq => hnot (heq ▸ hy.1))
      · intro x hx y hy
        rw [List.mem_filter, decide_eq_true_eq] at hx
        rw [List.mem_cons, List.mem_filter, decide_eq_true_eq] at hy
        rcases hy with rfl | hy
        · exact hx.2
        · exact lt_of_lt_of_le hx.2 hy.2
  mem_keys := by
    intro x
    split
    · rename_i hk
      by_cases hx : x = k
      · subst hx
        simp [kv.mem_keys, hk]
      · simp [Function.update_of_ne hx, kv.mem_keys]
    · rw [insertIdx_binarySearch kv.sorted]
      by_cases hx : x = k
      · subst hx
        simp
      · rw [Function.update_of_ne hx, ← kv.mem_keys]
        have hcut := lt_or_ge x k
        simp only [List.mem_append, List.mem_cons, List.mem_filter, decide_eq_true_eq, hx,
          false_or]
        tauto

/-- Remove the row under `k`, if there is one. -/
def delete (kv : SortedKV κ α) (k : κ) : SortedKV κ α where
  keys :=
    if (kv.vals k).isSome then kv.keys.eraseIdx (binarySearch kv.keys k)
    else kv.keys
  vals := Function.update kv.vals k none
  sorted := by
    split
    · rename_i hk
      rw [eraseIdx_binarySearch kv.sorted ((kv.mem_keys k).mpr hk)]
      exact kv.sorted.filter _
    · exact kv.sorted
  mem_keys := by
    intro x
    split
    · rename_i hk
      rw [eraseIdx_binarySearch kv.sorted ((kv.mem_keys k).mpr hk)]
      by_cases hx : x = k
      · subst hx
        simp
      · simp [kv.mem_keys, hx]
    · rename_i hk
      by_cases hx : x = k
      · subst hx
        simpa [kv.mem_keys] using hk
      · simp [Function.update_of_ne hx, kv.mem_keys]

/-! ## Lookups -/

@[simp] theorem get_empty (k : κ) : (empty : SortedKV κ α).get k = none := rfl

theorem get_set (kv : SortedKV κ α) (k k' : κ) (v : α) :
    (kv.set k v).get k' = if k' = k then some v else kv.get k' := by
  simp [get, set, Function.update_apply]

theorem get_delete (kv : SortedKV κ α) (k k' : κ) :
    (kv.delete k).get k' = if k' = k then none else kv.get k' := by
  simp [get, delete, Function.update_apply]

@[simp] theorem get_set_self (kv : SortedKV κ α) (k : κ) (v : α) :
    (kv.set k v).get k = some v := by
  simp [get_set]

@[simp] theorem get_delete_self (kv : SortedKV κ α) (k : κ) : (kv.delete k).get k = none := by
  simp [get_delete]

theorem get_set_of_ne (kv : SortedKV κ α) {k k' : κ} (v : α) (h : k' ≠ k) :
    (kv.set k v).get k' = kv.get k' := by
  simp [get_set, h]

theorem get_delete_of_ne (kv : SortedKV κ α) {k k' : κ} (h : k' ≠ k) :
    (kv.delete k).get k' = kv.get k' := by
  simp [get_delete, h]

/-- Rows deleted one after another are gone, and the others stay. -/
theorem get_foldl_delete (kv : SortedKV κ α) (ks : List κ) (k : κ) :
    (ks.foldl delete kv).get k = if k ∈ ks then none else kv.get k := by
  induction ks generalizing kv with
  | nil => simp
  | cons k₀ rest ih =>
    rw [List.foldl_cons, ih, get_delete]
    by_cases hrest : k ∈ rest
    · simp [hrest]
    · by_cases hk : k = k₀
      · simp [hk]
      · simp [hrest, hk]

variable {a : SortedKV κ α}

/-- The lookups decide the map, the sorted key slice included. -/
theorem ext_get {b : SortedKV κ α} (h : ∀ k, a.get k = b.get k) : a = b := by
  have hvals : a.vals = b.vals := funext h
  have hkeys : a.keys = b.keys :=
    eq_of_sorted_of_mem_iff a.sorted b.sorted
      (fun k => by rw [a.mem_keys, b.mem_keys, hvals])
  cases a
  cases b
  simp_all

/-! ## Rows -/

/-- The row under a key of the slice. -/
def row? (kv : SortedKV κ α) (k : κ) : Option (κ × α) := (kv.vals k).map (Prod.mk k)

/-- All rows in key order. -/
def rows (kv : SortedKV κ α) : List (κ × α) := kv.keys.filterMap kv.row?

/-- The rows from key `start` up, in key order. -/
def rowsFrom (kv : SortedKV κ α) (start : κ) : List (κ × α) :=
  (kv.keys.drop (binarySearch kv.keys start)).filterMap kv.row?

variable {kv : SortedKV κ α} {r : κ × α}

theorem row?_eq_some_iff {k : κ} : kv.row? k = some r ↔ r.1 = k ∧ kv.get k = some r.2 := by
  obtain ⟨k', v⟩ := r
  simp only [row?, get, Option.map_eq_some_iff, Prod.mk.injEq]
  constructor
  · rintro ⟨w, hw, rfl, rfl⟩
    exact ⟨rfl, hw⟩
  · rintro ⟨rfl, hv⟩
    exact ⟨v, hv, rfl, rfl⟩

/-- The rows are the successful lookups. -/
theorem mem_rows : r ∈ kv.rows ↔ kv.get r.1 = some r.2 := by
  rw [rows, List.mem_filterMap]
  constructor
  · rintro ⟨k, _, hrow⟩
    obtain ⟨rfl, hget⟩ := row?_eq_some_iff.mp hrow
    exact hget
  · intro hget
    refine ⟨r.1, (kv.mem_keys r.1).mpr ?_, row?_eq_some_iff.mpr ⟨rfl, hget⟩⟩
    rw [get] at hget
    simp [hget]

private theorem pairwise_filterMap_row? (kv : SortedKV κ α) {keys : List κ}
    (h : keys.Pairwise (· < ·)) :
    (keys.filterMap kv.row?).Pairwise (fun a b => a.1 < b.1) := by
  rw [List.pairwise_filterMap]
  refine h.imp (fun {x y} hxy a ha b hb => ?_)
  rw [(row?_eq_some_iff.mp ha).1, (row?_eq_some_iff.mp hb).1]
  exact hxy

theorem rows_sorted (kv : SortedKV κ α) : kv.rows.Pairwise (fun a b => a.1 < b.1) :=
  pairwise_filterMap_row? kv kv.sorted

/-- A new key adds one row. -/
theorem rows_set_perm {k : κ} (hnew : kv.get k = none) (v : α) :
    (kv.set k v).rows.Perm ((k, v) :: kv.rows) := by
  have hnodup (kv : SortedKV κ α) : kv.rows.Nodup :=
    List.Pairwise.imp (fun hlt heq => hlt.ne (congrArg Prod.fst heq)) kv.rows_sorted
  have hfresh : (k, v) ∉ kv.rows := by
    rw [mem_rows, hnew]
    exact nofun
  refine (List.perm_ext_iff_of_nodup (hnodup _) (List.nodup_cons.mpr ⟨hfresh, hnodup kv⟩)).mpr
    (fun r => ?_)
  rw [List.mem_cons, mem_rows, mem_rows, get_set]
  split_ifs with hk
  · rw [hk, hnew, Option.some.injEq, Prod.ext_iff]
    simp [hk, eq_comm]
  · simp [Prod.ext_iff, hk]

/-- Two maps whose values correspond have corresponding rows. -/
theorem rows_eq_map {β : Type} {f : α → β} {b : SortedKV κ β} (h : ∀ k, b.get k = (a.get k).map f) :
    b.rows = a.rows.map (fun r => (r.1, f r.2)) := by
  have : Std.Irrefl (fun a b : κ × β => a.1 < b.1) := ⟨fun a => lt_irrefl a.1⟩
  have : IsTrans (κ × β) (fun a b => a.1 < b.1) := ⟨fun _ _ _ => lt_trans⟩
  refine eq_of_sorted_of_mem_iff b.rows_sorted ?_ ?_
  · rw [List.pairwise_map]
    exact a.rows_sorted
  · rintro ⟨k, v⟩
    rw [mem_rows, h, List.mem_map]
    constructor
    · intro hv
      obtain ⟨w, hw, rfl⟩ := Option.map_eq_some_iff.mp hv
      exact ⟨(k, w), mem_rows.mpr hw, rfl⟩
    · rintro ⟨⟨k', w⟩, hrow, heq⟩
      cases heq
      rw [mem_rows.mp hrow]
      rfl

/-- A scan from `start` sees the rows at or above it. -/
theorem rowsFrom_eq_filter (kv : SortedKV κ α) (start : κ) :
    kv.rowsFrom start = kv.rows.filter (fun r => decide (start ≤ r.1)) := by
  rw [rowsFrom, rows, drop_binarySearch kv.sorted, List.filterMap_filter, List.filter_filterMap]
  congr 1
  funext k
  cases hrow : kv.row? k with
  | none => simp
  | some r =>
    have hk := (row?_eq_some_iff.mp hrow).1
    by_cases hle : start ≤ k <;> simp [hle, hk, Option.filter]

/-! ## Scans -/

section Scan

variable {σ ε : Type}

/-- Visit rows in order until the callback asks to stop.  The callback gets
the state it left behind at the row before. -/
def scanRows (fn : σ → κ → α → Except ε (σ × Bool)) : σ → List (κ × α) → Except ε σ
  | s, [] => .ok s
  | s, (k, v) :: rest =>
    match fn s k v with
    | .error e => .error e
    | .ok (s', true) => scanRows fn s' rest
    | .ok (s', false) => .ok s'

/-- Visit the rows with key at or above `start` in ascending key order. -/
def scan (kv : SortedKV κ α) (start : κ) (fn : σ → κ → α → Except ε (σ × Bool)) (s : σ) :
    Except ε σ :=
  scanRows fn s (kv.rowsFrom start)

omit [LinearOrder κ] in
/-- The rule for callbacks that collect one value at each row, until there are
`max`. -/
theorem scanRows_cutTo {γ : Type} {fn : List γ → κ → α → Except ε (List γ × Bool)}
    {g : κ × α → Option γ} (max : Int) {rs : List (κ × α)}
    (hfn : ∀ r ∈ rs, ∃ x, g r = some x ∧ ∀ out, fn out r.1 r.2 =
      if 0 < max ∧ (out.length : Int) = max then .ok (out, false) else .ok (out ++ [x], true))
    (out : List γ) (hout : 0 < max → (out.length : Int) ≤ max) :
    scanRows fn out rs = .ok (cutTo max (out ++ rs.filterMap g)) := by
  induction rs generalizing out with
  | nil =>
    have hcut : cutTo max out = out := by
      unfold cutTo
      split
      · rename_i hmax
        have := hout hmax
        exact List.take_of_length_le (by omega)
      · rfl
    simp [scanRows, hcut]
  | cons r rest ih =>
    obtain ⟨x, hx, hstep⟩ := hfn r List.mem_cons_self
    obtain ⟨key, v⟩ := r
    rw [scanRows, hstep]
    by_cases hfull : 0 < max ∧ (out.length : Int) = max
    · -- the bound is used up
      rw [if_pos hfull, cutTo, if_pos hfull.1]
      have hlen : max.toNat = out.length := by omega
      simp [hlen]
    · rw [if_neg hfull]
      have hnext : 0 < max → ((out ++ [x]).length : Int) ≤ max := by
        intro hmax
        have hle := hout hmax
        have hne : (out.length : Int) ≠ max := fun h => hfull ⟨hmax, h⟩
        rw [List.length_append, List.length_singleton]
        push_cast
        omega
      have hrest := ih (fun r hr => hfn r (List.mem_cons_of_mem _ hr)) _ hnext
      simpa [hx] using hrest

end Scan

/-! ## Prefixes -/

section Prefix

variable {β : Type} [LinearOrder β] {σ ε : Type}

/-- The rows whose key starts with `p`, in key order. -/
def rowsUnder (kv : SortedKV (List β) α) (p : List β) : List (List β × α) :=
  kv.rows.filter (fun r => p.isPrefixOf r.1)

variable {p : List β}

theorem mem_rowsUnder {kv : SortedKV (List β) α} {r : List β × α} :
    r ∈ kv.rowsUnder p ↔ kv.get r.1 = some r.2 ∧ p <+: r.1 := by
  rw [rowsUnder, List.mem_filter, mem_rows, List.isPrefixOf_iff_prefix]

theorem rowsUnder_sorted (kv : SortedKV (List β) α) (p : List β) :
    (kv.rowsUnder p).Pairwise (fun a b => a.1 < b.1) :=
  kv.rows_sorted.filter _

variable {fn : σ → List β → α → Except ε (σ × Bool)}

/-- Sorted rows at or above `p` keep the rows under `p` in front. -/
private theorem scanRows_prefix_aux {fn' : σ → List β → α → Except ε (σ × Bool)}
    (hin : ∀ s k v, p <+: k → fn s k v = fn' s k v)
    (hout : ∀ s k v, ¬ p <+: k → fn s k v = .ok (s, false)) (rs : List (List β × α))
    (hsorted : rs.Pairwise (fun a b => a.1 < b.1)) (hfrom : ∀ r ∈ rs, p ≤ r.1) (s : σ) :
    scanRows fn s rs = scanRows fn' s (rs.filter (fun r => p.isPrefixOf r.1)) := by
  induction rs generalizing s with
  | nil => rfl
  | cons r rest ih =>
    obtain ⟨k, v⟩ := r
    rw [List.pairwise_cons] at hsorted
    by_cases hp : p <+: k
    · have hfilter : ((k, v) :: rest).filter (fun r => p.isPrefixOf r.1) =
          (k, v) :: rest.filter (fun r => p.isPrefixOf r.1) :=
        List.filter_cons_of_pos (List.isPrefixOf_iff_prefix.mpr hp)
      rw [hfilter, scanRows, scanRows, hin s k v hp]
      match fn' s k v with
      | .error e => rfl
      | .ok (s', false) => rfl
      | .ok (s', true) =>
        exact ih hsorted.2 (fun r hr => hfrom r (List.mem_cons_of_mem _ hr)) s'
    · -- the first key outside the prefix is above every key under it
      have hempty : rest.filter (fun r => p.isPrefixOf r.1) = [] := by
        rw [List.filter_eq_nil_iff]
        intro r hr hpre
        refine hp (isPrefix_of_le_of_le (hfrom (k, v) List.mem_cons_self)
          (hsorted.1 r hr).le (List.isPrefixOf_iff_prefix.mp hpre))
      have hfilter : ((k, v) :: rest).filter (fun r => p.isPrefixOf r.1) =
          rest.filter (fun r => p.isPrefixOf r.1) :=
        List.filter_cons_of_neg (fun h => hp (List.isPrefixOf_iff_prefix.mp h))
      rw [hfilter, hempty]
      simp only [scanRows, hout s k v hp]

/-- The scan rule.  A callback that stops at the first key without the prefix
`p`, started at or above `p`, visits exactly the rows under `p` from the
start on, in key order. -/
theorem scan_under (kv : SortedKV (List β) α) {start : List β} (hstart : p ≤ start)
    (fn' : σ → List β → α → Except ε (σ × Bool)) (hin : ∀ s k v, p <+: k → fn s k v = fn' s k v)
    (hout : ∀ s k v, ¬ p <+: k → fn s k v = .ok (s, false)) (s : σ) :
    kv.scan start fn s =
      scanRows fn' s ((kv.rowsUnder p).filter (fun r => decide (start ≤ r.1))) := by
  rw [scan, rowsFrom_eq_filter,
    scanRows_prefix_aux hin hout _ (kv.rows_sorted.filter _) ?_ s,
    rowsUnder, List.filter_filter, List.filter_filter]
  · simp only [Bool.and_comm]
  · intro r hr
    rw [List.mem_filter, decide_eq_true_eq] at hr
    exact hstart.trans hr.2

/-- The scan rule from the prefix itself. -/
theorem scan_under_self (kv : SortedKV (List β) α) (fn' : σ → List β → α → Except ε (σ × Bool))
    (hin : ∀ s k v, p <+: k → fn s k v = fn' s k v)
    (hout : ∀ s k v, ¬ p <+: k → fn s k v = .ok (s, false)) (s : σ) :
    kv.scan p fn s = scanRows fn' s (kv.rowsUnder p) := by
  rw [scan_under kv le_rfl fn' hin hout s]
  congr 1
  rw [List.filter_eq_self]
  intro r hr
  simpa using le_of_isPrefix (mem_rowsUnder.mp hr).2

end Prefix

end SortedKV

end Hamster.CodeLib
