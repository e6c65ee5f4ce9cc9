import Mathlib.Analysis.SpecialFunctions.Log.Basic

/-!
# Binary logarithms by squaring

The bits of the logarithm of a number from 1 up to 2, in fixed point with `q` bits
after the point.  Squaring doubles the logarithm; where the square reaches 2, the
next bit is one and the square is halved.  Products are cut to `q` bits.

`logStep_mono` is what makes the bits monotone, `logBits_near` how far they are from
the logarithm: the `q` cuts together cost less than one unit.
-/

namespace Hamster.CodeLib

/-- One squaring, on the number and the bits so far. -/
def logStep (q : Nat) (s : Nat × Nat) : Nat × Nat :=
  if 2 ^ (q + 1) ≤ s.1 * s.1 / 2 ^ q then (s.1 * s.1 / 2 ^ q / 2, 2 * s.2 + 1)
  else (s.1 * s.1 / 2 ^ q, 2 * s.2)

/-- `q` bits of the logarithm. -/
def logBits (q x : Nat) : Nat := ((logStep q)^[q] (x, 0)).2

/-- From 1 up to 2. -/
def Mantissa (q x : Nat) : Prop := 2 ^ q ≤ x ∧ x < 2 ^ (q + 1)

section Steps

variable {q : Nat} {s t : Nat × Nat}

theorem Mantissa.logStep (h : Mantissa q s.1) : Mantissa q (logStep q s).1 := by
  have hpos : 0 < 2 ^ q := Nat.two_pow_pos q
  have hlow : 2 ^ q ≤ s.1 * s.1 / 2 ^ q :=
    (Nat.le_div_iff_mul_le hpos).mpr (Nat.mul_le_mul h.1 h.1)
  have hhigh : s.1 * s.1 / 2 ^ q < 2 ^ (q + 1) * 2 := by
    refine Nat.div_lt_of_lt_mul ((Nat.mul_lt_mul'' h.2 h.2).trans_eq ?_)
    ring
  unfold CodeLib.logStep
  split_ifs with hcarry
  · exact ⟨(Nat.le_div_iff_mul_le two_pos).mpr hcarry, Nat.div_lt_of_lt_mul (by omega)⟩
  · exact ⟨hlow, Nat.not_le.mp hcarry⟩

theorem Mantissa.iterate (h : Mantissa q s.1) (n : Nat) :
    Mantissa q ((CodeLib.logStep q)^[n] s).1 := by
  induction n with
  | zero => exact h
  | succ n ih =>
    rw [Function.iterate_succ_apply']
    exact ih.logStep

theorem bits_iterate_lt (n : Nat) {k : Nat} (h : s.2 < 2 ^ k) :
    ((logStep q)^[n] s).2 < 2 ^ (k + n) := by
  induction n with
  | zero => exact h
  | succ n ih =>
    rw [Function.iterate_succ_apply', ← Nat.add_assoc, pow_succ]
    generalize (logStep q)^[n] s = s' at ih ⊢
    unfold logStep
    split_ifs <;> dsimp only <;> omega

/-- More bits, or as many and no smaller a number. -/
def LogLE (s t : Nat × Nat) : Prop := s.2 < t.2 ∨ s.2 = t.2 ∧ s.1 ≤ t.1

theorem logStep_mono (h : LogLE s t) : LogLE (logStep q s) (logStep q t) := by
  unfold LogLE logStep
  rcases h with h | ⟨heq, hle⟩
  · left
    split_ifs <;> dsimp only <;> omega
  · have hsquare : s.1 * s.1 / 2 ^ q ≤ t.1 * t.1 / 2 ^ q :=
      Nat.div_le_div_right (Nat.mul_le_mul hle hle)
    split_ifs <;> dsimp only <;> omega

theorem logBits_mono {x y : Nat} (h : x ≤ y) : logBits q x ≤ logBits q y := by
  have hrun : ∀ n, LogLE ((logStep q)^[n] (x, 0)) ((logStep q)^[n] (y, 0)) := by
    intro n
    induction n with
    | zero => exact Or.inr ⟨rfl, h⟩
    | succ n ih =>
      rw [Function.iterate_succ_apply', Function.iterate_succ_apply']
      exact logStep_mono ih
  rcases hrun q with hlt | ⟨heq, -⟩
  · exact hlt.le
  · exact heq.le

end Steps

/-! ## Accuracy -/

section Accuracy

variable {q : Nat} {s : Nat × Nat}

/-- A cut costs the logarithm of a number of `q` bits at most one unit. -/
theorem log_cut {a d : Nat} (hd : 0 < d) (h : 2 ^ q ≤ a / d) :
    0 ≤ Real.log ((a : ℝ) / d) - Real.log (a / d : Nat) ∧
      Real.log ((a : ℝ) / d) - Real.log (a / d : Nat) ≤ 1 / 2 ^ q := by
  have hd' : (0 : ℝ) < d := Nat.cast_pos.mpr hd
  have hx : (2 : ℝ) ^ q ≤ (a / d : Nat) := by exact_mod_cast h
  have hpos : (0 : ℝ) < (a / d : Nat) := lt_of_lt_of_le (by positivity) hx
  have hle : ((a / d : Nat) : ℝ) ≤ a / d := Nat.cast_div_le
  have hlt : (a : ℝ) / d < (a / d : Nat) + 1 := by
    rw [div_lt_iff₀ hd']
    exact_mod_cast Nat.lt_mul_of_div_lt (Nat.lt_succ_self (a / d)) hd
  refine ⟨sub_nonneg.mpr (Real.log_le_log hpos hle), ?_⟩
  rw [← Real.log_div (hpos.trans_le hle).ne' hpos.ne']
  calc Real.log ((a : ℝ) / d / (a / d : Nat))
      ≤ (a : ℝ) / d / (a / d : Nat) - 1 :=
        Real.log_le_sub_one_of_pos (div_pos (hpos.trans_le hle) hpos)
    _ = ((a : ℝ) / d - (a / d : Nat)) / (a / d : Nat) := by rw [sub_div, div_self hpos.ne']
    _ ≤ 1 / 2 ^ q := div_le_div₀ zero_le_one (by linarith) (by positivity) hx

/-- The logarithm that a state stands for. -/
noncomputable def logValue (q : Nat) (s : Nat × Nat) : ℝ :=
  s.2 * Real.log 2 + (Real.log s.1 - q * Real.log 2)

theorem logValue_logStep (h : Mantissa q s.1) :
    0 ≤ 2 * logValue q s - logValue q (logStep q s) ∧
      2 * logValue q s - logValue q (logStep q s) ≤ 1 / 2 ^ q := by
  have hnext := h.logStep.1
  have hs : (s.1 : ℝ) ≠ 0 := Nat.cast_ne_zero.mpr (Nat.two_pow_pos q |>.trans_le h.1).ne'
  have hlog : ∀ k : Nat, Real.log ((s.1 * s.1 : Nat) / (2 ^ k : Nat)) =
      2 * Real.log s.1 - k * Real.log 2 := by
    intro k
    push_cast
    rw [Real.log_div (mul_ne_zero hs hs) (by positivity), Real.log_mul hs hs, Real.log_pow]
    ring
  unfold logStep at hnext ⊢
  split_ifs at hnext ⊢
  · rw [Nat.div_div_eq_div_mul, ← pow_succ] at hnext ⊢
    have hcut := log_cut (Nat.two_pow_pos (q + 1)) hnext
    rw [hlog (q + 1)] at hcut
    simp only [logValue]
    push_cast at hcut ⊢
    constructor <;> linarith
  · have hcut := log_cut (Nat.two_pow_pos q) hnext
    rw [hlog q] at hcut
    simp only [logValue]
    push_cast at hcut ⊢
    constructor <;> linarith

theorem logValue_iterate (h : Mantissa q s.1) (n : Nat) :
    0 ≤ 2 ^ n * logValue q s - logValue q ((logStep q)^[n] s) ∧
      2 ^ n * logValue q s - logValue q ((logStep q)^[n] s) ≤ (2 ^ n - 1) * (1 / 2 ^ q) := by
  induction n with
  | zero => simp
  | succ n ih =>
    have hstep := logValue_logStep (h.iterate n)
    rw [Function.iterate_succ_apply', pow_succ]
    constructor <;> linarith

/-- The bits are at most `1 + ln 2` units of `ln 2` below the logarithm. -/
theorem logBits_near {x : Nat} (h : Mantissa q x) :
    0 ≤ 2 ^ q * (Real.log x - q * Real.log 2) - logBits q x * Real.log 2 ∧
      2 ^ q * (Real.log x - q * Real.log 2) - logBits q x * Real.log 2 ≤ 1 + Real.log 2 := by
  have hrun := logValue_iterate (s := (x, 0)) h q
  obtain ⟨hlow, hhigh⟩ := Mantissa.iterate (s := (x, 0)) h q
  have hunit : ((2 : ℝ) ^ q - 1) * (1 / 2 ^ q) ≤ 1 := by
    rw [mul_one_div, div_le_one (by positivity)]
    linarith
  have hrest : q * Real.log 2 ≤ Real.log ((logStep q)^[q] (x, 0)).1 ∧
      Real.log ((logStep q)^[q] (x, 0)).1 ≤ q * Real.log 2 + Real.log 2 := by
    rw [← Real.log_pow, ← Real.log_mul (by positivity) two_ne_zero, ← pow_succ]
    have hpos : (0 : ℝ) < ((logStep q)^[q] (x, 0)).1 :=
      Nat.cast_pos.mpr ((Nat.two_pow_pos q).trans_le hlow)
    exact ⟨Real.log_le_log (by positivity) (by exact_mod_cast hlow),
      Real.log_le_log hpos (by exact_mod_cast hhigh.le)⟩
  simp only [logValue, Nat.cast_zero, zero_mul, zero_add] at hrun
  rw [logBits]
  constructor <;> linarith

end Accuracy

end Hamster.CodeLib
