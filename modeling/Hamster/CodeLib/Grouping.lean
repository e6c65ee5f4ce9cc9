import Hamster.CodeLib.Bytes

/-!
# Grouping sorted keys by a prefix

A grouping gives some keys a group: a prefix of the key, which is the group of
every other key that starts with it.  Grouping by the first delimiter after a
fixed prefix is one (`groupOf`).

`label` is the group of a key, or the key.  Labels come in the order of the
keys (`label_mono`), so a sorted list of keys becomes a sorted list of entries,
each group once, at its first key.  `grouped` is that list.
-/

namespace Hamster.CodeLib

/-! ## The first occurrence of a substring -/

section Index

variable {β : Type} [DecidableEq β]

/-- `strings.Index` -/
def index (sub : List β) : List β → Option Nat
  | [] => if sub = [] then some 0 else none
  | x :: xs => if sub.isPrefixOf (x :: xs) then some 0 else (index sub xs).map (· + 1)

theorem index_eq_some_iff {sub s : List β} {i : Nat} :
    index sub s = some i ↔ i ≤ s.length ∧ sub <+: s.drop i ∧ ∀ j < i, ¬ sub <+: s.drop j := by
  induction s generalizing i with
  | nil =>
    unfold index
    constructor
    · intro h
      split at h
      next hsub =>
        cases h
        exact ⟨Nat.le_refl 0, by simp [hsub], fun j hj => absurd hj (Nat.not_lt_zero j)⟩
      next => cases h
    · rintro ⟨hi, hsub, -⟩
      obtain rfl : i = 0 := Nat.le_zero.mp hi
      rw [if_pos (List.prefix_nil.mp hsub)]
  | cons x xs ih =>
    unfold index
    by_cases hsub : sub <+: x :: xs
    · rw [if_pos (List.isPrefixOf_iff_prefix.mpr hsub)]
      constructor
      · intro h
        cases h
        exact ⟨Nat.zero_le _, hsub, fun j hj => absurd hj (Nat.not_lt_zero j)⟩
      · rintro ⟨-, -, hfirst⟩
        cases i with
        | zero => rfl
        | succ i => exact absurd hsub (hfirst 0 (Nat.zero_lt_succ i))
    · rw [if_neg (fun h => hsub (List.isPrefixOf_iff_prefix.mp h))]
      cases i with
      | zero =>
        refine iff_of_false ?_ (fun h => hsub h.2.1)
        simp
      | succ i =>
        rw [Option.map_eq_some_iff]
        simp only [Nat.add_right_cancel_iff, exists_eq_right, ih, List.drop_succ_cons,
          List.length_cons, Nat.add_le_add_iff_right]
        refine and_congr_right (fun _ => and_congr_right (fun _ => ?_))
        constructor
        · intro hfirst j hj
          cases j with
          | zero => exact hsub
          | succ j => exact hfirst j (Nat.lt_of_succ_lt_succ hj)
        · intro hfirst j hj
          exact hfirst (j + 1) (Nat.succ_lt_succ hj)

/-- The first occurrence depends on nothing after it. -/
theorem index_congr {sub s s' : List β} {i : Nat} (h : index sub s = some i)
    (htake : s.take (i + sub.length) <+: s') : index sub s' = some i := by
  obtain ⟨hi, hsub, hfirst⟩ := index_eq_some_iff.mp h
  have hlen : i + sub.length ≤ s.length := by
    have := hsub.length_le
    rw [List.length_drop] at this
    omega
  obtain ⟨t, rfl⟩ := htake
  have hdrop : ∀ j ≤ i, sub <+: (s.take (i + sub.length) ++ t).drop j ↔ sub <+: s.drop j := by
    intro j hj
    have hshort : sub.length ≤ ((s.take (i + sub.length)).drop j).length := by
      rw [List.length_drop, List.length_take]
      omega
    rw [List.drop_append_of_le_length (by rw [List.length_take]; omega)]
    constructor
    · intro hpre
      have hin : sub <+: (s.take (i + sub.length)).drop j :=
        List.prefix_of_prefix_length_le hpre (List.prefix_append _ t) hshort
      exact hin.trans ((List.take_prefix _ s).drop j)
    · intro hpre
      have hin : sub <+: (s.take (i + sub.length)).drop j :=
        List.prefix_of_prefix_length_le hpre ((List.take_prefix _ s).drop j) hshort
      exact hin.trans (List.prefix_append _ t)
  refine index_eq_some_iff.mpr ⟨?_, (hdrop i (Nat.le_refl i)).mpr hsub, fun j hj => ?_⟩
  · rw [List.length_append, List.length_take]
    omega
  · exact fun hpre => hfirst j hj ((hdrop j (Nat.le_of_lt hj)).mp hpre)

/-- The part of the key up to the first delimiter after the prefix. -/
def groupOf (pre delimiter key : List β) : Option (List β) :=
  if delimiter = [] then none
  else (index delimiter (key.drop pre.length)).map
    (fun i => key.take (pre.length + i + delimiter.length))

section GroupOf

variable {pre delimiter key key' g : List β}

theorem groupOf_eq_some (h : groupOf pre delimiter key = some g) :
    delimiter ≠ [] ∧ ∃ i, index delimiter (key.drop pre.length) = some i ∧
      pre.length + i + delimiter.length ≤ key.length ∧
      g = key.take (pre.length + i + delimiter.length) := by
  unfold groupOf at h
  split at h
  next => cases h
  next hne =>
    obtain ⟨i, hi, rfl⟩ := Option.map_eq_some_iff.mp h
    refine ⟨hne, i, hi, ?_, rfl⟩
    have hsub := (index_eq_some_iff.mp hi).2.1.length_le
    have hpos : 0 < delimiter.length := List.length_pos_iff.mpr hne
    rw [List.drop_drop, List.length_drop] at hsub
    omega

theorem groupOf_isPrefix (h : groupOf pre delimiter key = some g) : g <+: key := by
  obtain ⟨-, i, -, -, rfl⟩ := groupOf_eq_some h
  exact List.take_prefix _ key

theorem isPrefix_groupOf (hpre : pre <+: key) (h : groupOf pre delimiter key = some g) :
    pre <+: g := by
  obtain ⟨-, i, -, hlen, rfl⟩ := groupOf_eq_some h
  refine List.prefix_of_prefix_length_le hpre (List.take_prefix _ key) ?_
  rw [List.length_take]
  omega

theorem groupOf_isSuffix (h : groupOf pre delimiter key = some g) : delimiter <:+ g := by
  obtain ⟨-, i, hi, hlen, rfl⟩ := groupOf_eq_some h
  obtain ⟨-, ⟨t, ht⟩, -⟩ := index_eq_some_iff.mp hi
  have htake : (key.drop (pre.length + i)).take delimiter.length = delimiter := by
    rw [← List.drop_drop, ← ht, List.take_left]
  have hsplit := List.take_add (l := key) (i := pre.length + i) (j := delimiter.length)
  rw [htake] at hsplit
  exact ⟨key.take (pre.length + i), hsplit.symm⟩

/-- The group of a key is the group of every key that starts with it. -/
theorem groupOf_of_isPrefix (h : groupOf pre delimiter key = some g) (hpre : g <+: key') :
    groupOf pre delimiter key' = some g := by
  obtain ⟨hne, i, hi, hlen, hg⟩ := groupOf_eq_some h
  have hglen : g.length = pre.length + i + delimiter.length := by
    rw [hg, List.length_take]
    omega
  have htake : key'.take (pre.length + i + delimiter.length) = g := by
    rw [← hglen]
    exact (List.prefix_iff_eq_take.mp hpre).symm
  have hindex : index delimiter (key'.drop pre.length) = some i := by
    refine index_congr hi ?_
    have hdrop : (key.drop pre.length).take (i + delimiter.length) = g.drop pre.length := by
      rw [hg, List.drop_take, Nat.add_assoc, Nat.add_sub_cancel_left]
    rw [hdrop]
    exact hpre.drop pre.length
  rw [groupOf, if_neg hne, hindex, Option.map_some, htake]

end GroupOf

end Index

/-! ## Groupings -/

/-- Some keys have a group: a prefix that groups every key that starts with
it. -/
structure Grouping (β : Type) where
  group : List β → Option (List β)
  isPrefix : ∀ {k g}, group k = some g → g <+: k
  closed : ∀ {k k' g}, group k = some g → g <+: k' → group k' = some g

/-- Grouping by the first delimiter after a prefix. -/
def delimiterGrouping {β : Type} [DecidableEq β] (pre delimiter : List β) : Grouping β where
  group := groupOf pre delimiter
  isPrefix := groupOf_isPrefix
  closed := groupOf_of_isPrefix

namespace Grouping

variable {β : Type} (G : Grouping β)

/-- The group of a key, or the key. -/
def label (k : List β) : List β := (G.group k).getD k

variable {G} {k k' l g : List β}

theorem label_of_some (h : G.group k = some g) : G.label k = g := by
  rw [label, h]
  rfl

theorem label_of_none (h : G.group k = none) : G.label k = k := by
  rw [label, h]
  rfl

theorem label_isPrefix (k : List β) : G.label k <+: k := by
  cases h : G.group k with
  | none => rw [label_of_none h]
  | some g =>
    rw [label_of_some h]
    exact G.isPrefix h

/-- A group is its own label. -/
theorem label_label (k : List β) : G.label (G.label k) = G.label k := by
  cases h : G.group k with
  | none => rw [label_of_none h, label_of_none h]
  | some g =>
    rw [label_of_some h]
    exact label_of_some (G.closed h (List.prefix_refl g))

variable [LinearOrder β]

/-- What lies between a label and its key has that label. -/
theorem label_eq_of_between (hlow : G.label k ≤ k') (hhigh : k' ≤ k) : G.label k' = G.label k := by
  cases h : G.group k with
  | none =>
    rw [label_of_none h] at hlow ⊢
    rw [le_antisymm hhigh hlow]
    exact label_of_none h
  | some g =>
    rw [label_of_some h] at hlow ⊢
    exact label_of_some (G.closed h (isPrefix_of_le_of_le hlow hhigh (G.isPrefix h)))

theorem label_mono (h : k ≤ k') : G.label k ≤ G.label k' := by
  by_contra hlt
  rw [not_le] at hlt
  have heq : G.label k = G.label k' :=
    label_eq_of_between (hlt.le.trans (le_of_isPrefix (label_isPrefix k))) h
  exact absurd heq hlt.ne'

/-- The keys after a label are those whose label is after it, and the rest of
its group. -/
theorem lt_label_iff (k : List β) (hl : G.label l = l) : l < G.label k ↔ l < k ∧ G.label k ≠ l := by
  constructor
  · intro h
    exact ⟨h.trans_le (le_of_isPrefix (label_isPrefix k)), h.ne'⟩
  · rintro ⟨hlt, hne⟩
    have hle : l ≤ G.label k := by
      rw [← hl]
      exact label_mono hlt.le
    exact lt_of_le_of_ne hle (Ne.symm hne)

/-- A key without a group is the label of no later key. -/
theorem label_ne_of_none (hl : G.group l = none) (h : l < k) : G.label k ≠ l := by
  rintro rfl
  cases hk : G.group k with
  | none =>
    rw [label_of_none hk] at h
    exact lt_irrefl k h
  | some g =>
    rw [label_of_some hk, G.closed hk (List.prefix_refl g)] at hl
    cases hl

omit [LinearOrder β] in
/-- A key without a group that starts another key starts its label. -/
theorem isPrefix_label_iff (hl : G.group l = none) : l <+: G.label k ↔ l <+: k := by
  constructor
  · exact fun h => h.trans (label_isPrefix k)
  · intro h
    rcases List.prefix_or_prefix_of_prefix h (label_isPrefix (G := G) k) with hle | hle
    · exact hle
    · cases hk : G.group k with
      | none =>
        rw [label_of_none hk]
        exact h
      | some g =>
        rw [label_of_some hk] at hle
        rw [G.closed hk hle] at hl
        cases hl

omit [LinearOrder β] in
/-- The keys of a group are those that start with it. -/
theorem label_eq_iff (hl : G.group l = some l) : G.label k = l ↔ l <+: k := by
  constructor
  · rintro rfl
    exact label_isPrefix k
  · exact fun h => label_of_some (G.closed hl h)

end Grouping

/-! ## Entries -/

/-- In a sorted list, what is above an element is what stands after it. -/
theorem filter_gt_getElem {α κ : Type} [LinearOrder κ] {key : α → κ} {l : List α}
    (hsorted : l.Pairwise (fun a b => key a < key b)) {i : Nat} {a : α} (hi : l[i]? = some a)
    {p : α → Bool} (hp : ∀ b ∈ l, p b = true ↔ key a < key b) : l.filter p = l.drop (i + 1) := by
  induction l generalizing i with
  | nil => cases hi
  | cons b l ih =>
    obtain ⟨hhead, htail⟩ := List.pairwise_cons.mp hsorted
    cases i with
    | zero =>
      obtain rfl : b = a := Option.some.inj hi
      have hnot : ¬ p b = true := fun h => lt_irrefl _ ((hp b List.mem_cons_self).mp h)
      rw [List.filter_cons_of_neg hnot, List.drop_succ_cons, List.drop_zero]
      refine List.filter_eq_self.mpr (fun c hc => ?_)
      exact (hp c (List.mem_cons_of_mem b hc)).mpr (hhead c hc)
    | succ i =>
      have hmem : a ∈ l := List.mem_of_getElem? hi
      have hnot : ¬ p b = true := fun h =>
        lt_asymm (hhead a hmem) ((hp b List.mem_cons_self).mp h)
      rw [List.filter_cons_of_neg hnot,
        ih htail hi (fun c hc => hp c (List.mem_cons_of_mem b hc))]
      rfl

/-- An item that has no group, or a group. -/
inductive Entry (α β : Type) where
  | item (a : α)
  | group (g : List β)
deriving DecidableEq

namespace Entry

variable {α β : Type}

def key (keyOf : α → List β) : Entry α β → List β
  | item a => keyOf a
  | group g => g

def item? : Entry α β → Option α
  | item a => some a
  | group _ => none

def group? : Entry α β → Option (List β)
  | item _ => none
  | group g => some g

end Entry

section Grouped

variable {α β : Type} [LinearOrder β] (G : Grouping β) (keyOf : α → List β)

/-- The entry of an item. -/
def entryOf (a : α) : Entry α β :=
  match G.group (keyOf a) with
  | none => .item a
  | some g => .group g

/-- The entries of items: a group stands at its first item and nowhere else. -/
def grouped : List α → List (Entry α β)
  | [] => []
  | a :: as =>
    match G.group (keyOf a) with
    | none => .item a :: grouped as
    | some g => .group g :: (grouped as).filter (fun e => e.group? ≠ some g)

variable {G keyOf}

omit [LinearOrder β] in
theorem entryOf_of_none {a : α} (h : G.group (keyOf a) = none) : entryOf G keyOf a = .item a := by
  rw [entryOf, h]

omit [LinearOrder β] in
theorem entryOf_of_some {a : α} {g : List β} (h : G.group (keyOf a) = some g) :
    entryOf G keyOf a = .group g := by
  rw [entryOf, h]

omit [LinearOrder β] in
theorem key_entryOf (a : α) : (entryOf G keyOf a).key keyOf = G.label (keyOf a) := by
  cases h : G.group (keyOf a) with
  | none =>
    rw [entryOf_of_none h, Grouping.label_of_none h]
    rfl
  | some g =>
    rw [entryOf_of_some h, Grouping.label_of_some h]
    rfl

omit [LinearOrder β] in
theorem group?_eq_some_iff {e : Entry α β} {g : List β} : e.group? = some g ↔ e = .group g := by
  cases e with
  | item a | group g' => simp [Entry.group?]

/-- The first item's entry, and then the others without its group. -/
theorem grouped_cons (a : α) (as : List α) : grouped G keyOf (a :: as) = entryOf G keyOf a ::
    (grouped G keyOf as).filter
      (fun e => e.group? = none ∨ e.group? ≠ (entryOf G keyOf a).group?) := by
  cases h : G.group (keyOf a) with
  | none => simp [grouped, h, entryOf_of_none h, Entry.group?, Decidable.em]
  | some g =>
    simp only [grouped, h, entryOf_of_some h]
    refine congrArg _ (List.filter_congr (fun e _ => ?_))
    cases e with
    | item a' | group g' => simp [Entry.group?]

omit [LinearOrder β] in
theorem eq_of_group?_eq {e e' : Entry α β} (h : ¬ (e.group? = none ∨ e.group? ≠ e'.group?)) :
    e = e' := by
  cases e with
  | item a => exact absurd (Or.inl rfl) h
  | group g =>
    refine (group?_eq_some_iff.mp ?_).symm
    exact (not_not.mp (not_or.mp h).2).symm

theorem mem_grouped {as : List α} {e : Entry α β} :
    e ∈ grouped G keyOf as ↔ ∃ a ∈ as, entryOf G keyOf a = e := by
  induction as with
  | nil => simp [grouped]
  | cons a as ih =>
    rw [grouped_cons, List.mem_cons, List.mem_filter, ih, decide_eq_true_eq]
    simp only [List.mem_cons, exists_eq_or_imp]
    by_cases he : e = entryOf G keyOf a
    · exact iff_of_true (Or.inl he) (Or.inl he.symm)
    · rw [or_iff_right he, or_iff_right (Ne.symm he), and_iff_left]
      exact not_not.mp (fun h => he (eq_of_group?_eq h))

/-- Picking entries picks their items. -/
theorem grouped_filter (p : Entry α β → Bool) (as : List α) :
    grouped G keyOf (as.filter (fun a => p (entryOf G keyOf a))) =
      (grouped G keyOf as).filter p := by
  induction as with
  | nil => rfl
  | cons a as ih =>
    rw [grouped_cons, List.filter_cons, List.filter_cons]
    by_cases hp : p (entryOf G keyOf a) = true
    · rw [if_pos hp, if_pos hp, grouped_cons, ih, List.filter_filter, List.filter_filter]
      simp only [Bool.and_comm]
    · rw [if_neg hp, if_neg hp, ih, List.filter_filter]
      refine List.filter_congr (fun e _ => ?_)
      by_cases he : e = entryOf G keyOf a
      · simp [he, hp]
      · have hkeep := not_not.mp (fun h => he (eq_of_group?_eq h))
        rw [decide_eq_true hkeep, Bool.and_true]

/-- Items in key order have their entries in key order, each once. -/
theorem grouped_sorted {as : List α} (h : as.Pairwise (fun a a' => keyOf a < keyOf a')) :
    (grouped G keyOf as).Pairwise (fun e e' => e.key keyOf < e'.key keyOf) := by
  induction as with
  | nil => exact List.Pairwise.nil
  | cons a as ih =>
    obtain ⟨hhead, htail⟩ := List.pairwise_cons.mp h
    rw [grouped_cons]
    refine List.pairwise_cons.mpr ⟨fun e he => ?_, (ih htail).filter _⟩
    rw [List.mem_filter, decide_eq_true_eq] at he
    obtain ⟨hmem, hkeep⟩ := he
    obtain ⟨a', ha', rfl⟩ := mem_grouped.mp hmem
    have hlt := hhead a' ha'
    rw [key_entryOf, key_entryOf]
    -- A later entry has a later label, unless it is the group of `a`.
    refine lt_of_le_of_ne (Grouping.label_mono hlt.le) (fun heq => ?_)
    cases hg' : G.group (keyOf a') with
    | none =>
      rw [Grouping.label_of_none hg'] at heq
      have hle := le_of_isPrefix (Grouping.label_isPrefix (G := G) (keyOf a))
      rw [heq] at hle
      exact absurd hlt (not_lt.mpr hle)
    | some g =>
      rw [Grouping.label_of_some hg'] at heq
      have hg : G.group (keyOf a) = some g :=
        G.closed hg' (heq ▸ Grouping.label_isPrefix (keyOf a))
      rw [entryOf_of_some hg', entryOf_of_some hg] at hkeep
      simp [Entry.group?] at hkeep

end Grouped

end Hamster.CodeLib
