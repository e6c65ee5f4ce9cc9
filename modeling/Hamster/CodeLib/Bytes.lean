import Mathlib.Algebra.Group.Int.Defs
import Mathlib.Algebra.Group.Nat.Defs
import Mathlib.Data.List.Lex
import Mathlib.Data.List.Infix
import Mathlib.Order.Lattice

/-!
# Byte strings in byte order

A byte string is a list of bytes, compared byte by byte.  This is the order
of Go strings and of the keys of an ordered key-value store.

* Order.  `byteLinearOrder` is the one linear order of bytes that every
  module shares.  It gives lists of bytes their lexicographic order.
* Prefixes.  The strings that start with a prefix form an interval whose
  least element is the prefix.  `isPrefix_of_le_of_le` is that fact; it is
  what makes a prefix scan of a sorted store stop at the right row.
* Separators.  A string that cannot hold the separator is cut off at the
  first one.  `append_separator_inj` is that fact, and
  `append_separator_inj_of_left` is the form for a string that holds the
  separator once.
-/

namespace Hamster.CodeLib

/-- A Go string or byte slice. -/
abbrev Bytes := List UInt8

/- `UInt8` has computational `LE` and `LT` operations but no bundled
`LinearOrder`.  All sorted structures below use exactly this instance. -/
instance byteLinearOrder : LinearOrder UInt8 where
  le := @LE.le UInt8 instLEUInt8
  lt := @LT.lt UInt8 instLTUInt8
  le_refl := UInt8.le_refl
  le_trans := fun _ _ _ => UInt8.le_trans
  le_antisymm := fun _ _ => UInt8.le_antisymm
  lt_iff_le_not_ge := by
    intro a b
    rw [UInt8.lt_iff_toNat_lt, UInt8.le_iff_toNat_le, UInt8.le_iff_toNat_le]
    omega
  le_total := UInt8.le_total
  toDecidableLE := UInt8.decLe
  toDecidableEq := instDecidableEqUInt8
  toDecidableLT := UInt8.decLt

section Order

variable {β : Type} [LinearOrder β]

/-- A common prefix does not change a comparison. -/
theorem append_lt_append_left_iff (p a b : List β) : p ++ a < p ++ b ↔ a < b := by
  induction p with
  | nil => rfl
  | cons x p ih =>
    rw [List.cons_append, List.cons_append, List.cons_lt_cons_iff]
    simp [ih]

theorem append_le_append_left_iff (p a b : List β) : p ++ a ≤ p ++ b ↔ a ≤ b := by
  rw [← not_lt, ← not_lt, append_lt_append_left_iff]

/-- Fields of one width are compared before what follows them. -/
theorem append_lt_append_iff_of_length {a b : List β} (h : a.length = b.length) (s t : List β) :
    a ++ s < b ++ t ↔ a < b ∨ a = b ∧ s < t := by
  induction a generalizing b with
  | nil =>
    have hb : b = [] := List.length_eq_zero_iff.mp h.symm
    simp [hb]
  | cons x a ih =>
    cases b with
    | nil => simp at h
    | cons y b =>
      rw [List.cons_append, List.cons_append, List.cons_lt_cons_iff, List.cons_lt_cons_iff,
        ih (by simpa using h), List.cons.injEq]
      tauto

/-- A prefix is at or below every string that starts with it. -/
theorem le_of_isPrefix {p x : List β} (h : p <+: x) : p ≤ x := by
  obtain ⟨t, rfl⟩ := h
  have ht : ([] : List β) ≤ t := not_lt.mp (List.not_lt_nil t)
  simpa using (append_le_append_left_iff p [] t).mpr ht

/-- The strings that start with `p` form an interval: whatever lies between
`p` and a string that starts with `p` starts with `p` too. -/
theorem isPrefix_of_le_of_le {p x y : List β} (hpx : p ≤ x) (hxy : x ≤ y)
    (hpy : p <+: y) : p <+: x := by
  induction p generalizing x y with
  | nil => exact List.nil_prefix
  | cons a p ih =>
    obtain ⟨t, rfl⟩ := hpy
    cases x with
    | nil => exact absurd hpx (not_le.mpr (List.nil_lt_cons a p))
    | cons b x =>
      rw [← not_lt, List.cons_lt_cons_iff] at hpx
      rw [List.cons_append, ← not_lt, List.cons_lt_cons_iff] at hxy
      push Not at hpx hxy
      have hab : a = b := le_antisymm hpx.1 hxy.1
      subst hab
      have hpx' : p ≤ x := not_lt.mp (fun h => absurd h (not_lt.mpr (hpx.2 rfl)))
      have hxy' : x ≤ p ++ t := hxy.2 rfl
      exact List.cons_prefix_cons.mpr ⟨rfl, ih hpx' hxy' (List.prefix_append p t)⟩

end Order

/-- Appending a zero byte gives the next string in byte order: whatever is
above `x` is at or above `x ++ [0]`. -/
theorem append_zero_le_iff (x y : Bytes) : x ++ [0] ≤ y ↔ x < y := by
  induction x generalizing y with
  | nil =>
    cases y with
    | nil => simp
    | cons b y =>
      rw [List.nil_append, ← not_lt, List.cons_lt_cons_iff]
      have hb : ¬ b < 0 := UInt8.not_lt.mpr (UInt8.zero_le)
      simp [hb]
  | cons a x ih =>
    cases y with
    | nil => simp
    | cons b y =>
      rw [List.cons_append, ← not_lt, List.cons_lt_cons_iff, List.cons_lt_cons_iff,
        ← ih y, ← not_lt]
      constructor
      · intro h
        push Not at h
        rcases lt_or_eq_of_le h.1 with hlt | heq
        · exact Or.inl hlt
        · exact Or.inr ⟨heq, not_lt.mpr (h.2 heq.symm)⟩
      · rintro (hlt | ⟨rfl, hle⟩)
        · rintro (hlt' | ⟨rfl, _⟩)
          · exact lt_asymm hlt hlt'
          · exact lt_irrefl _ hlt
        · rintro (hlt' | ⟨_, hlt'⟩)
          · exact lt_irrefl _ hlt'
          · exact hle hlt'

/-! ## Separators -/

section Separators

variable {β : Type} {sep : β}

/-- Two fields that cannot hold the separator, each followed by the
separator, agree as soon as the whole strings do. -/
theorem append_separator_inj {a b s t : List β} (ha : sep ∉ a) (hb : sep ∉ b)
    (h : a ++ sep :: s = b ++ sep :: t) : a = b ∧ s = t := by
  induction a generalizing b with
  | nil =>
    cases b with
    | nil => simpa using h
    | cons y b =>
      simp only [List.nil_append, List.cons_append, List.cons.injEq] at h
      exact absurd (h.1 ▸ List.mem_cons_self) hb
  | cons x a ih =>
    cases b with
    | nil =>
      simp only [List.nil_append, List.cons_append, List.cons.injEq] at h
      exact absurd (h.1 ▸ List.mem_cons_self) ha
    | cons y b =>
      simp only [List.cons_append, List.cons.injEq] at h
      have := ih (List.not_mem_of_not_mem_cons ha)
        (List.not_mem_of_not_mem_cons hb) h.2
      exact ⟨by rw [h.1, this.1], this.2⟩

/-- A prefix that holds the separator fixes the field before it. -/
theorem append_separator_prefix_iff {a b s t : List β} (ha : sep ∉ a) (hb : sep ∉ b) :
    a ++ sep :: s <+: b ++ sep :: t ↔ a = b ∧ s <+: t := by
  constructor
  · rintro ⟨u, hu⟩
    rw [List.append_assoc, List.cons_append] at hu
    obtain ⟨hab, hst⟩ := append_separator_inj ha hb hu
    exact ⟨hab, u, hst⟩
  · rintro ⟨rfl, u, rfl⟩
    exact ⟨u, by simp⟩

/-- A prefix without the separator ends in the first field. -/
theorem isPrefix_append_separator_iff {p a s : List β} (hp : sep ∉ p) :
    p <+: a ++ sep :: s ↔ p <+: a := by
  refine ⟨fun h => ?_, fun h => h.trans (List.prefix_append _ _)⟩
  have hcut : a ++ [sep] <+: a ++ sep :: s := ⟨s, by simp⟩
  rcases List.prefix_or_prefix_of_prefix h hcut with hpa | hap
  · rcases List.prefix_concat_iff.mp hpa with rfl | hpa
    · exact absurd (by simp) hp
    · exact hpa
  · exact absurd (hap.subset (by simp)) hp

/-- A string that holds the separator once can be cut in one way only. -/
theorem append_separator_inj_of_left {a b s t : List β} (ha : sep ∉ a) (hs : sep ∉ s)
    (h : a ++ sep :: s = b ++ sep :: t) : a = b ∧ s = t := by
  refine append_separator_inj ha ?_ h
  induction a generalizing b with
  | nil =>
    cases b with
    | nil => exact List.not_mem_nil
    | cons y b =>
      -- the separator after `b` would stand inside `s`
      simp only [List.nil_append, List.cons_append, List.cons.injEq] at h
      exact absurd (h.2 ▸ List.mem_append_right b List.mem_cons_self) hs
  | cons x a ih =>
    cases b with
    | nil => exact List.not_mem_nil
    | cons y b =>
      simp only [List.cons_append, List.cons.injEq] at h
      have hb := ih (List.not_mem_of_not_mem_cons ha) h.2
      rw [List.mem_cons, not_or]
      exact ⟨fun heq => ha (by rw [heq, ← h.1]; exact List.mem_cons_self), hb⟩

end Separators

/-- NUL is the least byte, so fields that it ends are compared as they are. -/
theorem append_zero_lt_iff {a b : Bytes} (ha : 0 ∉ a) (hb : 0 ∉ b) (s t : Bytes) :
    a ++ 0 :: s < b ++ 0 :: t ↔ a < b ∨ a = b ∧ s < t := by
  have hpos : ∀ {y : UInt8} {b : Bytes}, 0 ∉ y :: b → 0 < y := by
    intro y b h
    exact UInt8.pos_iff_ne_zero.mpr (fun hy => h (hy ▸ List.mem_cons_self))
  induction a generalizing b with
  | nil =>
    cases b with
    | nil => simp
    | cons y b => simp [List.cons_lt_cons_iff, hpos hb]
  | cons x a ih =>
    cases b with
    | nil => simp [List.cons_lt_cons_iff, (hpos ha).not_gt, (hpos ha).ne']
    | cons y b =>
      have hrest := ih (List.not_mem_of_not_mem_cons ha) (List.not_mem_of_not_mem_cons hb)
      rw [List.cons_append, List.cons_append, List.cons_lt_cons_iff, List.cons_lt_cons_iff,
        List.cons.injEq]
      tauto

end Hamster.CodeLib
