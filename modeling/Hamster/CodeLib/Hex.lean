import Hamster.CodeLib.Bytes
import Mathlib.Tactic.Common

/-!
# Hexadecimal

`hex.EncodeToString`: two lower-case digits for each byte.  Different byte
strings are written differently (`hexEncode_inj`), and the length of the text
is known, which is what file names that contain one rely on.
`hex.DecodeString` takes digits of either case.
-/

namespace Hamster.CodeLib

/-- A digit of `"0123456789abcdef"`. -/
def hexDigit (n : Nat) : UInt8 := UInt8.ofNat (if n < 10 then 48 + n else 87 + n)

/-- `hex.EncodeToString` -/
def hexEncode (b : Bytes) : Bytes :=
  b.flatMap (fun x => [hexDigit (x.toNat / 16), hexDigit (x.toNat % 16)])

theorem hexEncode_cons (x : UInt8) (b : Bytes) :
    hexEncode (x :: b) =
      hexDigit (x.toNat / 16) :: hexDigit (x.toNat % 16) :: hexEncode b := rfl

theorem hexDigit_inj {m n : Nat} (hm : m < 16) (hn : n < 16) (h : hexDigit m = hexDigit n) :
    m = n := by
  have hall : ∀ a b : Fin 16, hexDigit a = hexDigit b → a = b := by decide
  exact congrArg Fin.val (hall ⟨m, hm⟩ ⟨n, hn⟩ h)

@[simp] theorem length_hexEncode (b : Bytes) : (hexEncode b).length = 2 * b.length := by
  induction b with
  | nil => rfl
  | cons x b ih =>
    rw [hexEncode_cons, List.length_cons, List.length_cons, List.length_cons, ih]
    omega

theorem hexEncode_inj {a b : Bytes} (h : hexEncode a = hexEncode b) : a = b := by
  induction a generalizing b with
  | nil =>
    cases b with
    | nil => rfl
    | cons y b => cases h
  | cons x a ih =>
    cases b with
    | nil => cases h
    | cons y b =>
      rw [hexEncode_cons, hexEncode_cons, List.cons.injEq, List.cons.injEq] at h
      obtain ⟨hhigh, hlow, hrest⟩ := h
      have hx := x.toNat_lt
      have hy := y.toNat_lt
      have hdiv := hexDigit_inj (by omega) (by omega) hhigh
      have hmod := hexDigit_inj (by omega) (by omega) hlow
      have hxy : x = y := UInt8.toNat_inj.mp (by omega)
      rw [hxy, ih hrest]

/-- The value of a digit. -/
def hexValue (c : UInt8) : Option Nat :=
  if 48 ≤ c ∧ c ≤ 57 then some (c.toNat - 48)
  else if 97 ≤ c ∧ c ≤ 102 then some (c.toNat - 87)
  else if 65 ≤ c ∧ c ≤ 70 then some (c.toNat - 55)
  else none

/-- `hex.DecodeString` -/
def hexDecode : Bytes → Option Bytes
  | [] => some []
  | [_] => none
  | c :: c' :: rest => do
    let high ← hexValue c
    let low ← hexValue c'
    let b ← hexDecode rest
    some (UInt8.ofNat (16 * high + low) :: b)

end Hamster.CodeLib
