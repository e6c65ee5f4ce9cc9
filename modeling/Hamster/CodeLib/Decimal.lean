import Hamster.CodeLib.Bytes
import Mathlib.Tactic.Common

/-!
# Decimal numbers

`strconv.FormatUint` and `strconv.ParseUint` in base ten, for 64-bit numbers.
What one writes the other reads (`parseUint_formatUint`), so different numbers
are written differently.
-/

namespace Hamster.CodeLib

/-- The decimal digits of a number below `10 ^ fuel`, most significant
first. -/
def decimalDigits : Nat → Nat → Bytes
  | 0, _ => []
  | fuel + 1, n =>
    if n < 10 then [UInt8.ofNat (48 + n)]
    else decimalDigits fuel (n / 10) ++ [UInt8.ofNat (48 + n % 10)]

/-- `strconv.FormatUint(n, 10)`.  Twenty digits hold 64 bits. -/
def formatUint (n : UInt64) : Bytes := decimalDigits 20 n.toNat

/-- Read one more digit. -/
def parseDigit (v : Nat) (b : UInt8) : Option Nat :=
  if 48 ≤ b ∧ b ≤ 57 then some (v * 10 + (b.toNat - 48)) else none

/-- `strconv.ParseUint(s, 10, 64)`; `none` is its error. -/
def parseUint (s : Bytes) : Option UInt64 :=
  if s = [] then none
  else
    match s.foldlM parseDigit 0 with
    | none => none
    | some v => if v < 2 ^ 64 then some (UInt64.ofNat v) else none

theorem parseDigit_ofNat {n : Nat} (hn : n < 10) (v : Nat) :
    parseDigit v (UInt8.ofNat (48 + n)) = some (v * 10 + n) := by
  have hbyte : (UInt8.ofNat (48 + n)).toNat = 48 + n := by
    rw [UInt8.toNat_ofNat']
    omega
  have h48 : (48 : UInt8).toNat = 48 := rfl
  have h57 : (57 : UInt8).toNat = 57 := rfl
  have hdigit : 48 ≤ UInt8.ofNat (48 + n) ∧ UInt8.ofNat (48 + n) ≤ 57 := by
    rw [UInt8.le_iff_toNat_le, UInt8.le_iff_toNat_le, hbyte]
    omega
  rw [parseDigit, if_pos hdigit, hbyte]
  congr 2
  omega

theorem foldlM_parseDigit {fuel n : Nat} (hpos : 0 < fuel) (hn : n < 10 ^ fuel) :
    (decimalDigits fuel n).foldlM parseDigit 0 = some n := by
  induction fuel generalizing n with
  | zero => omega
  | succ fuel ih =>
    rw [decimalDigits]
    by_cases hlast : n < 10
    · rw [if_pos hlast, List.foldlM_cons, parseDigit_ofNat hlast]
      simp
    · have hdiv : n / 10 < 10 ^ fuel := by
        rw [Nat.pow_succ] at hn
        omega
      have hfuel : 0 < fuel := by
        rcases Nat.eq_zero_or_pos fuel with rfl | h
        · omega
        · exact h
      rw [if_neg hlast, List.foldlM_append, ih hfuel hdiv]
      show List.foldlM parseDigit (n / 10) _ = _
      rw [List.foldlM_cons, parseDigit_ofNat (by omega)]
      show some (n / 10 * 10 + n % 10) = some n
      congr 1
      omega

/-- Every digit is at most `'9'`. -/
theorem le_of_mem_decimalDigits {fuel n : Nat} {x : UInt8} (hx : x ∈ decimalDigits fuel n) :
    x ≤ 57 := by
  have hdigit : ∀ d < 10, UInt8.ofNat (48 + d) ≤ 57 := by decide
  induction fuel generalizing n with
  | zero => cases hx
  | succ fuel ih =>
    rw [decimalDigits] at hx
    split at hx
    next hlt =>
      rw [List.mem_singleton.mp hx]
      exact hdigit n hlt
    next =>
      rcases List.mem_append.mp hx with hx | hx
      · exact ih hx
      · rw [List.mem_singleton.mp hx]
        exact hdigit _ (Nat.mod_lt _ (by decide))

theorem formatUint_ne_nil (n : UInt64) : formatUint n ≠ [] := by
  rw [formatUint, decimalDigits]
  split
  · simp
  · simp

/-- The number that was written is read. -/
theorem parseUint_formatUint (n : UInt64) : parseUint (formatUint n) = some n := by
  have hn := n.toNat_lt
  have hread : (formatUint n).foldlM parseDigit 0 = some n.toNat :=
    foldlM_parseDigit (by omega) (by omega)
  rw [parseUint, if_neg (formatUint_ne_nil n), hread]
  dsimp only
  rw [if_pos hn, UInt64.ofNat_toNat]

theorem formatUint_inj {m n : UInt64} (h : formatUint m = formatUint n) : m = n := by
  have hread := parseUint_formatUint m
  rw [h, parseUint_formatUint] at hread
  exact (Option.some.inj hread).symm

end Hamster.CodeLib
