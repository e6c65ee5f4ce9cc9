import Hamster.CodeLib.Bytes
import Mathlib.Tactic.Ring
import Mathlib.Tactic.Linarith

/-!
# Big-endian numbers as byte strings

`beNat` reads a byte string as a big-endian number.  On byte strings of one
length the byte order is the numeric order (`lt_iff_beNat_lt`), so a fixed
width identifier sorts as the number it spells.

`increment` adds one with a carry from the last byte, `complement` flips
every bit.  `beNat_increment` and `beNat_complement` give both as arithmetic.
-/

namespace Hamster.CodeLib

/-- The number that a byte string spells, most significant byte first. -/
def beNat : Bytes → Nat
  | [] => 0
  | b :: bs => b.toNat * 256 ^ bs.length + beNat bs

theorem beNat_lt (bs : Bytes) : beNat bs < 256 ^ bs.length := by
  induction bs with
  | nil => simp [beNat]
  | cons b bs ih =>
    have hb := b.toNat_lt
    have hmul : b.toNat * 256 ^ bs.length + 256 ^ bs.length ≤ 256 * 256 ^ bs.length := by
      rw [← Nat.succ_mul]
      exact Nat.mul_le_mul_right _ (by omega)
    rw [beNat, List.length_cons, Nat.pow_succ, Nat.mul_comm (256 ^ bs.length)]
    omega

theorem beNat_append (a b : Bytes) :
    beNat (a ++ b) = beNat a * 256 ^ b.length + beNat b := by
  induction a with
  | nil => simp [beNat]
  | cons x a ih =>
    rw [List.cons_append, beNat, beNat, ih, List.length_append, Nat.pow_add]
    ring

/-- On byte strings of one length the byte order is the numeric order. -/
theorem lt_iff_beNat_lt {a b : Bytes} (h : a.length = b.length) :
    a < b ↔ beNat a < beNat b := by
  induction a generalizing b with
  | nil =>
    have hb : b = [] := List.length_eq_zero_iff.mp h.symm
    subst hb
    simp
  | cons x a ih =>
    cases b with
    | nil => simp at h
    | cons y b =>
      have hlen : a.length = b.length := by simpa using h
      have ha := beNat_lt a
      have hb := beNat_lt b
      rw [hlen] at ha
      rw [List.cons_lt_cons_iff, ih hlen, beNat, beNat, hlen]
      constructor
      · rintro (hxy | ⟨rfl, hab⟩)
        · rw [UInt8.lt_iff_toNat_lt] at hxy
          have := Nat.mul_le_mul_right (256 ^ b.length) (Nat.succ_le_of_lt hxy)
          rw [Nat.succ_mul] at this
          omega
        · omega
      · intro hlt
        rcases lt_trichotomy x y with hxy | rfl | hxy
        · exact Or.inl hxy
        · exact Or.inr ⟨rfl, by omega⟩
        · rw [UInt8.lt_iff_toNat_lt] at hxy
          have := Nat.mul_le_mul_right (256 ^ b.length) (Nat.succ_le_of_lt hxy)
          rw [Nat.succ_mul] at this
          omega

theorem beNat_inj {a b : Bytes} (h : a.length = b.length) (hval : beNat a = beNat b) :
    a = b := by
  apply le_antisymm
  · rw [← not_lt, lt_iff_beNat_lt h.symm]
    omega
  · rw [← not_lt, lt_iff_beNat_lt h]
    omega

/-! ## Increment -/

/-- Add one to a little-endian number: the carry moves on exactly when the
byte wrapped to zero. -/
def incrementLE : Bytes → Bytes
  | [] => []
  | b :: bs => if b + 1 ≠ 0 then (b + 1) :: bs else (b + 1) :: incrementLE bs

/-- Add one to a big-endian number, wrapping at the width of the string. -/
def increment (bs : Bytes) : Bytes := (incrementLE bs.reverse).reverse

@[simp] theorem length_incrementLE (bs : Bytes) :
    (incrementLE bs).length = bs.length := by
  induction bs with
  | nil => rfl
  | cons b bs ih =>
    rw [incrementLE]
    split <;> simp [ih]

@[simp] theorem length_increment (bs : Bytes) : (increment bs).length = bs.length := by
  simp [increment]

private theorem toNat_add_one_of_ne {b : UInt8} (h : b + 1 ≠ 0) :
    (b + 1).toNat = b.toNat + 1 := by
  have hb := b.toNat_lt
  have hne : b.toNat ≠ 255 := by
    intro hb
    apply h
    rw [← UInt8.toNat_inj, UInt8.toNat_add, hb]
    rfl
  rw [UInt8.toNat_add, show (1 : UInt8).toNat = 1 from rfl]
  omega

private theorem toNat_of_add_one_eq {b : UInt8} (h : b + 1 = 0) : b.toNat = 255 := by
  have hb := b.toNat_lt
  have h' := congrArg UInt8.toNat h
  rw [UInt8.toNat_add, show (1 : UInt8).toNat = 1 from rfl,
    show (0 : UInt8).toNat = 0 from rfl] at h'
  omega

private theorem beNat_reverse_incrementLE (bs : Bytes) :
    beNat (incrementLE bs).reverse = (beNat bs.reverse + 1) % 256 ^ bs.length := by
  induction bs with
  | nil => rfl
  | cons b bs ih =>
    have hlt := beNat_lt bs.reverse
    rw [List.length_reverse] at hlt
    have hb := b.toNat_lt
    rw [incrementLE, List.length_cons, Nat.pow_succ]
    split
    · rename_i hne
      rw [List.reverse_cons, List.reverse_cons, beNat_append, beNat_append]
      simp only [beNat, List.length_cons, List.length_nil, Nat.pow_zero, Nat.mul_one,
        Nat.add_zero, Nat.zero_add, Nat.pow_one]
      rw [toNat_add_one_of_ne hne, Nat.mod_eq_of_lt]
      · omega
      · have := UInt8.toNat_lt (b + 1)
        rw [toNat_add_one_of_ne hne] at this
        have := Nat.mul_le_mul_right 256 (Nat.succ_le_of_lt hlt)
        rw [Nat.succ_mul] at this
        omega
    · rename_i hzero
      rw [not_not] at hzero
      rw [List.reverse_cons, List.reverse_cons, beNat_append, beNat_append, ih, hzero]
      simp only [beNat, List.length_cons, List.length_nil, Nat.pow_zero, Nat.mul_one,
        Nat.add_zero, Nat.zero_add, Nat.pow_one, show (0 : UInt8).toNat = 0 from rfl]
      have hcarry : beNat bs.reverse * 256 + b.toNat + 1 = (beNat bs.reverse + 1) * 256 := by
        rw [toNat_of_add_one_eq hzero]
        omega
      rw [hcarry, Nat.mul_mod_mul_right]

theorem beNat_increment (bs : Bytes) :
    beNat (increment bs) = (beNat bs + 1) % 256 ^ bs.length := by
  have h := beNat_reverse_incrementLE bs.reverse
  rwa [List.reverse_reverse, List.length_reverse] at h

/-! ## Complement -/

/-- Flip every bit. -/
def complement (bs : Bytes) : Bytes := bs.map (fun b => ~~~b)

@[simp] theorem length_complement (bs : Bytes) :
    (complement bs).length = bs.length := by
  simp [complement]

@[simp] theorem complement_complement (bs : Bytes) : complement (complement bs) = bs := by
  simp [complement, Function.comp_def]

theorem beNat_complement (bs : Bytes) :
    beNat (complement bs) + beNat bs + 1 = 256 ^ bs.length := by
  induction bs with
  | nil => rfl
  | cons b bs ih =>
    have hb := b.toNat_lt
    have hnot : (~~~b).toNat = 255 - b.toNat := by
      rw [UInt8.toNat_not]
      rfl
    have hlen : (bs.map (fun b => ~~~b)).length = bs.length := by simp
    rw [complement] at ih ⊢
    rw [List.map_cons, beNat, beNat, hnot, hlen, List.length_cons, Nat.pow_succ]
    have hsum : (255 - b.toNat) * 256 ^ bs.length + b.toNat * 256 ^ bs.length =
        255 * 256 ^ bs.length := by
      rw [← Nat.add_mul]
      congr 1
      omega
    omega

/-- The complement turns the byte order around. -/
theorem complement_lt_complement_iff {a b : Bytes} (h : a.length = b.length) :
    complement a < complement b ↔ b < a := by
  rw [lt_iff_beNat_lt (by simpa using h), lt_iff_beNat_lt h.symm]
  have ha := beNat_complement a
  have hb := beNat_complement b
  rw [h] at ha
  omega

/-! ## Words -/

/-- `binary.BigEndian.PutUint64`. -/
def putUint64 (n : UInt64) : Bytes :=
  [(n >>> 56).toUInt8, (n >>> 48).toUInt8, (n >>> 40).toUInt8, (n >>> 32).toUInt8,
    (n >>> 24).toUInt8, (n >>> 16).toUInt8, (n >>> 8).toUInt8, n.toUInt8]

end Hamster.CodeLib
