import Hamster.CodeLib.Bytes
import Mathlib.Tactic.Ring

/-!
# Unsigned varints

The base-128 encoding of a 64-bit number: seven bits a byte, low bits first,
with the high bit set on every byte but the last.  `uvarint` is the reader of
Go's `encoding/binary`: it stops at the first byte below 128 and refuses a
value that does not fit 64 bits.

A reader that gets the whole encoding gives the number and how many bytes it
took, whatever follows (`uvarint_appendUvarint`).  A reader that gets a
proper part of it gives nothing (`uvarint_eq_none_of_isPrefix`).
-/

namespace Hamster.CodeLib

/-- The groups of a number below `128 ^ fuel`. -/
def uvarintGroups : Nat → Nat → Bytes
  | 0, _ => []
  | fuel + 1, x =>
    if x < 128 then [UInt8.ofNat x]
    else UInt8.ofNat (x % 128 + 128) :: uvarintGroups fuel (x / 128)

/-- `binary.AppendUvarint` to an empty slice.  Ten groups hold 64 bits. -/
def appendUvarint (x : UInt64) : Bytes := uvarintGroups 10 x.toNat

/-- The loop of `binary.Uvarint` at byte `i`, with the value read so far. -/
def uvarintLoop (i x : Nat) : Bytes → Option (Nat × Nat)
  | [] => none
  | b :: rest =>
    if i = 10 then none
    else if b < 128 then
      if i = 9 ∧ 1 < b then none else some (x + b.toNat * 128 ^ i, i + 1)
    else uvarintLoop (i + 1) (x + b.toNat % 128 * 128 ^ i) rest

/-- `binary.Uvarint`: the value and the number of bytes read.  Go reports a
short buffer and an overflow with a count that is not positive; both are
`none` here. -/
def uvarint (b : Bytes) : Option (Nat × Nat) := uvarintLoop 0 0 b

private theorem toNat_ofNat_low {x : Nat} (h : x < 128) : (UInt8.ofNat x).toNat = x := by
  rw [UInt8.toNat_ofNat']
  omega

private theorem toNat_ofNat_high (x : Nat) :
    (UInt8.ofNat (x % 128 + 128)).toNat = x % 128 + 128 := by
  rw [UInt8.toNat_ofNat']
  omega

private theorem not_lt_high (x : Nat) : ¬ UInt8.ofNat (x % 128 + 128) < 128 := by
  rw [UInt8.lt_iff_toNat_lt, toNat_ofNat_high]
  have h128 : (128 : UInt8).toNat = 128 := rfl
  omega

theorem uvarintLoop_groups {fuel i : Nat} (hfuel : fuel + i = 10) {v : Nat}
    (hv : v * 128 ^ i < 2 ^ 64) (hpos : 0 < fuel) (x : Nat) (rest : Bytes) :
    uvarintLoop i x (uvarintGroups fuel v ++ rest) =
      some (x + v * 128 ^ i, i + (uvarintGroups fuel v).length) := by
  induction fuel generalizing i v x with
  | zero => omega
  | succ fuel ih =>
    by_cases hlast : v < 128
    · have hbyte : UInt8.ofNat v < 128 := by
        rw [UInt8.lt_iff_toNat_lt, toNat_ofNat_low hlast]
        exact hlast
      -- the tenth byte holds the top bit only
      have hfits : ¬ (i = 9 ∧ 1 < UInt8.ofNat v) := by
        rintro ⟨rfl, hbig⟩
        rw [UInt8.lt_iff_toNat_lt, toNat_ofNat_low hlast] at hbig
        have h1 : (1 : UInt8).toNat = 1 := rfl
        omega
      rw [uvarintGroups, if_pos hlast, List.singleton_append, uvarintLoop,
        if_neg (by omega), if_pos hbyte, if_neg hfits, toNat_ofNat_low hlast]
      rfl
    · have hdiv : v / 128 * 128 ^ (i + 1) ≤ v * 128 ^ i := by
        rw [Nat.pow_succ, Nat.mul_comm (128 ^ i) 128, ← Nat.mul_assoc]
        exact Nat.mul_le_mul_right _ (Nat.div_mul_le_self v 128)
      have hfuel' : 0 < fuel := by
        rcases Nat.eq_zero_or_pos fuel with rfl | h
        · exfalso
          have hi : i = 9 := by omega
          subst hi
          have hge : 128 * 128 ^ 9 ≤ v * 128 ^ 9 := Nat.mul_le_mul_right _ (not_lt.mp hlast)
          omega
        · exact h
      have hmod : (v % 128 + 128) % 128 = v % 128 := by omega
      have hsum : v % 128 * 128 ^ i + v / 128 * 128 ^ (i + 1) = v * 128 ^ i := by
        have hsplit := Nat.mod_add_div v 128
        calc v % 128 * 128 ^ i + v / 128 * 128 ^ (i + 1)
            = (v % 128 + 128 * (v / 128)) * 128 ^ i := by ring
          _ = v * 128 ^ i := by rw [hsplit]
      rw [uvarintGroups, if_neg hlast, List.cons_append, uvarintLoop, if_neg (by omega),
        if_neg (not_lt_high v), toNat_ofNat_high, hmod,
        ih (by omega) (by omega) hfuel', List.length_cons]
      congr 2
      · omega
      · omega

/-- The reader gives back what was written, with whatever follows. -/
theorem uvarint_appendUvarint (x : UInt64) (rest : Bytes) :
    uvarint (appendUvarint x ++ rest) = some (x.toNat, (appendUvarint x).length) := by
  have hx : x.toNat * 128 ^ 0 < 2 ^ 64 := by
    have := x.toNat_lt
    omega
  have h : uvarintLoop 0 0 (uvarintGroups 10 x.toNat ++ rest) = _ :=
    uvarintLoop_groups rfl hx (by omega) 0 rest
  simpa [uvarint, appendUvarint] using h

theorem uvarintLoop_of_isPrefix {fuel v : Nat} {t : Bytes} (ht : t <+: uvarintGroups fuel v)
    (hne : t ≠ uvarintGroups fuel v) (i x : Nat) : uvarintLoop i x t = none := by
  induction fuel generalizing v t i x with
  | zero =>
    rw [uvarintGroups, List.prefix_nil] at ht
    exact absurd ht hne
  | succ fuel ih =>
    rw [uvarintGroups] at ht hne
    cases t with
    | nil => rfl
    | cons b t =>
      split at ht
      · rename_i hlast
        rw [if_pos hlast] at hne
        obtain ⟨rfl, hnil⟩ := List.cons_prefix_cons.mp ht
        rw [List.prefix_nil.mp hnil] at hne
        exact absurd rfl hne
      · rename_i hlast
        rw [if_neg hlast] at hne
        obtain ⟨rfl, htail⟩ := List.cons_prefix_cons.mp ht
        have hne' : t ≠ uvarintGroups fuel (v / 128) := fun h => hne (by rw [h])
        rw [uvarintLoop, if_neg (not_lt_high v)]
        split
        · rfl
        · exact ih htail hne' _ _

/-- A proper part of an encoding is no varint. -/
theorem uvarint_eq_none_of_isPrefix {x : UInt64} {t : Bytes} (ht : t <+: appendUvarint x)
    (hne : t ≠ appendUvarint x) : uvarint t = none :=
  uvarintLoop_of_isPrefix ht hne 0 0

theorem length_uvarintGroups_le (fuel x : Nat) : (uvarintGroups fuel x).length ≤ fuel := by
  induction fuel generalizing x with
  | zero => exact Nat.le_refl 0
  | succ fuel ih =>
    rw [uvarintGroups]
    split
    · simp
    · simpa using ih (x / 128)

theorem length_appendUvarint_le (x : UInt64) : (appendUvarint x).length ≤ 10 :=
  length_uvarintGroups_le 10 x.toNat

theorem appendUvarint_ne_nil (x : UInt64) : appendUvarint x ≠ [] := by
  rw [appendUvarint, uvarintGroups]
  split <;> simp

/-! ## Little-endian words -/

/-- `binary.LittleEndian.AppendUint32` to an empty slice. -/
def putUint32LE (x : UInt32) : Bytes :=
  [x.toUInt8, (x >>> 8).toUInt8, (x >>> 16).toUInt8, (x >>> 24).toUInt8]

/-- `binary.LittleEndian.Uint32` of a slice of at least four bytes. -/
def uint32LE : Bytes → UInt32
  | b₀ :: b₁ :: b₂ :: b₃ :: _ =>
    UInt32.ofNat (b₀.toNat + b₁.toNat * 2 ^ 8 + b₂.toNat * 2 ^ 16 + b₃.toNat * 2 ^ 24)
  | _ => 0

@[simp] theorem length_putUint32LE (x : UInt32) : (putUint32LE x).length = 4 := rfl

@[simp] theorem uint32LE_putUint32LE (x : UInt32) (rest : Bytes) :
    uint32LE (putUint32LE x ++ rest) = x := by
  have hx := x.toNat_lt
  have h8 : (8 : UInt32).toNat = 8 := rfl
  have h16 : (16 : UInt32).toNat = 16 := rfl
  have h24 : (24 : UInt32).toNat = 24 := rfl
  show UInt32.ofNat (x.toUInt8.toNat + (x >>> 8).toUInt8.toNat * 2 ^ 8 +
    (x >>> 16).toUInt8.toNat * 2 ^ 16 + (x >>> 24).toUInt8.toNat * 2 ^ 24) = x
  apply UInt32.toNat_inj.mp
  simp only [UInt32.toNat_ofNat', UInt32.toNat_toUInt8, UInt32.toNat_shiftRight, h8, h16, h24,
    Nat.shiftRight_eq_div_pow, Nat.reduceMod]
  omega

end Hamster.CodeLib
