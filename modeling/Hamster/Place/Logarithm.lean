import Hamster.CodeLib.BinaryLog
import Hamster.Place.Spread
import Mathlib.Analysis.Complex.ExponentialBounds

/-!
# The fixed-point logarithm of the ranking

`negLn` against the same steps on integers without bounds (`Exact`), which shows that
no word of it overflows, and against the real logarithm.  `cmpKey` against the
rational numbers.  `negLn_accurate` has all of it.
-/

namespace Hamster.Place

open CodeLib

/-- The number from 1 up to 2 whose logarithm has the fractional bits, in Q32. -/
def mantissa (h : Nat) : Nat := h * 2 ^ 32 / 2 ^ Nat.log2 h

/-- `-log2(h / 2^64)` in Q32, on integers without bounds. -/
def exactNegLog2 (h : Nat) : Int := (64 - Nat.log2 h) * 2 ^ 32 - logBits 32 (mantissa h)

def exactNegLn (h : Nat) : Int := max 1 (exactNegLog2 h * ln2Q32.toNat / 2 ^ 32)

def normalized (h : UInt64) : UInt64 :=
  if len64 h - 1 ≤ 32 then h <<< UInt64.ofNat (32 - (len64 h - 1))
  else h >>> UInt64.ofNat (len64 h - 1 - 32)

def negLog2 (h : UInt64) : UInt64 :=
  (UInt64.ofNat (65 - len64 h) <<< 32) - (squareStep^[32] (normalized h, 0)).2

/-- Every word of `negLn h` is the integer it stands for: no high bit is lost. -/
structure Exact (h : UInt64) : Prop where
  normalized : (normalized h).toNat = mantissa h.toNat
  squares : ∀ k ≤ 32, ((squareStep^[k] (Place.normalized h, 0)).1.toNat,
    (squareStep^[k] (Place.normalized h, 0)).2.toNat) = (logStep 32)^[k] (mantissa h.toNat, 0)
  whole : (UInt64.ofNat (65 - len64 h) <<< 32).toNat = (64 - h.toNat.log2) * 2 ^ 32
  difference : ((negLog2 h).toNat : Int) = exactNegLog2 h.toNat
  product : ((negLn h).toNat : Int) = exactNegLn h.toNat

section Words

variable {n : Nat}

theorem mantissa_mem (hn : n ≠ 0) : Mantissa 32 (mantissa n) := by
  have hpos := Nat.two_pow_pos n.log2
  have hlow := Nat.log2_self_le hn
  have hhigh : n < 2 ^ (n.log2 + 1) := Nat.lt_log2_self
  rw [pow_succ] at hhigh
  constructor
  · rw [mantissa, Nat.le_div_iff_mul_le hpos]
    omega
  · refine Nat.div_lt_of_lt_mul ?_
    omega

theorem logBits_lt (x : Nat) : logBits 32 x < 2 ^ 32 := @bits_iterate_lt 32 (x, 0) 32 0 Nat.one_pos

theorem toNat_mulQ32 {x y : UInt64} (h : x.toNat * y.toNat < 2 ^ 96) :
    (mulQ32 x y).toNat = x.toNat * y.toNat / 2 ^ 32 := by
  have hmul := toNat_mul64 x y
  unfold mulQ32
  generalize mul64 x y = p at hmul
  have hlow := p.2.toNat_lt
  have hhigh : p.1.toNat < 2 ^ 32 := by omega
  rw [UInt64.toNat_or, UInt64.toNat_shiftLeft, UInt64.toNat_shiftRight,
    show (32 : UInt64).toNat % 64 = 32 from rfl, Nat.mod_eq_of_lt, Nat.shiftRight_eq_div_pow,
    ← Nat.shiftLeft_add_eq_or_of_lt (Nat.div_lt_of_lt_mul hlow), Nat.shiftLeft_eq,
    ← hmul]
  · clear hmul h
    omega
  · rw [Nat.shiftLeft_eq]
    omega

theorem toNat_squareStep {s : UInt64 × UInt64} (hx : Mantissa 32 s.1.toNat)
    (hfrac : s.2.toNat < 2 ^ 63) :
    ((squareStep s).1.toNat, (squareStep s).2.toNat) = logStep 32 (s.1.toNat, s.2.toNat) := by
  have hsquare : s.1.toNat * s.1.toNat < 2 ^ 33 * 2 ^ 33 := Nat.mul_lt_mul'' hx.2 hx.2
  have hmul := toNat_mulQ32 (x := s.1) (y := s.1) (by omega)
  have hshift : (s.2 <<< 1).toNat = 2 * s.2.toNat := by
    rw [UInt64.toNat_shiftLeft, show (1 : UInt64).toNat % 64 = 1 from rfl, Nat.shiftLeft_eq]
    omega
  have hcarry : mulQ32 s.1 s.1 ≥ (2 : UInt64) <<< 32 ↔ 2 ^ 33 ≤ s.1.toNat * s.1.toNat / 2 ^ 32 := by
    rw [ge_iff_le, UInt64.le_iff_toNat_le, hmul]
    rfl
  unfold squareStep logStep
  simp only [hcarry]
  split
  · have hor : (s.2 <<< 1 ||| 1).toNat = 2 * s.2.toNat + 1 := by
      rw [UInt64.toNat_or, hshift, UInt64.toNat_one, Nat.mul_comm,
        ← Nat.shiftLeft_eq (a := s.2.toNat)
        (b := 1), ← Nat.shiftLeft_add_eq_or_of_lt (by decide)]
    rw [hor, UInt64.toNat_shiftRight, hmul]
    rfl
  · rw [hshift, hmul]

theorem toNat_iterate_squareStep {x : UInt64} (hx : Mantissa 32 x.toNat) {k : Nat} (hk : k ≤ 32) :
    ((squareStep^[k] (x, 0)).1.toNat, (squareStep^[k] (x, 0)).2.toNat) =
      (logStep 32)^[k] (x.toNat, 0) := by
  induction k with
  | zero => rfl
  | succ k ih =>
    have ih := ih (Nat.le_of_succ_le hk)
    have hmantissa := Mantissa.iterate (s := (x.toNat, 0)) hx k
    have hbits : ((logStep 32)^[k] (x.toNat, 0)).2 < 2 ^ (0 + k) := bits_iterate_lt k Nat.one_pos
    rw [Function.iterate_succ_apply', Function.iterate_succ_apply', ← ih]
    rw [← ih] at hmantissa hbits
    refine toNat_squareStep hmantissa (hbits.trans_le ?_)
    exact Nat.pow_le_pow_right two_pos (by omega)

theorem toNat_normalized {h : UInt64} (hh : h ≠ 0) : (normalized h).toNat = mantissa h.toNat := by
  have hn : h.toNat ≠ 0 := fun h0 => hh (UInt64.toNat_inj.mp h0)
  have hlog : h.toNat.log2 < 64 := (Nat.log2_lt hn).mpr h.toNat_lt
  have hmem := mantissa_mem hn
  have hlog64 : 64 < UInt64.size := by decide
  rw [normalized, len64, if_neg hh, Nat.add_sub_cancel]
  split
  next hsmall =>
    have hexact : mantissa h.toNat = h.toNat * 2 ^ (32 - h.toNat.log2) := by
      rw [mantissa, ← Nat.sub_add_cancel hsmall, pow_add, ← Nat.mul_assoc,
        Nat.mul_div_cancel _ (Nat.two_pow_pos _), Nat.sub_add_cancel hsmall]
    rw [UInt64.toNat_shiftLeft, UInt64.toNat_ofNat_of_lt' (Nat.lt_trans (by omega) hlog64),
      Nat.mod_eq_of_lt (b := 64) (by omega), Nat.shiftLeft_eq, ← hexact]
    exact Nat.mod_eq_of_lt (hmem.2.trans (by decide))
  next hlarge =>
    rw [UInt64.toNat_shiftRight, UInt64.toNat_ofNat_of_lt' (Nat.lt_trans (by omega) hlog64),
      Nat.mod_eq_of_lt (b := 64) (by omega), Nat.shiftRight_eq_div_pow, mantissa]
    conv_rhs => rw [← Nat.sub_add_cancel (Nat.le_of_not_le hlarge), pow_add]
    rw [Nat.mul_div_mul_right _ _ (Nat.two_pow_pos 32)]

theorem exactNegLog2_mem (hn : n ≠ 0) (hlt : n < 2 ^ 64) :
    0 < exactNegLog2 n ∧ exactNegLog2 n ≤ 2 ^ 38 := by
  have hlog : n.log2 < 64 := (Nat.log2_lt hn).mpr hlt
  have hbits := logBits_lt (mantissa n)
  unfold exactNegLog2
  omega

theorem negLn_eq {h : UInt64} (hh : h ≠ 0) : negLn h = orOne (mulQ32 (negLog2 h) ln2Q32) := by
  rw [negLn, show orOne h = h from if_neg hh]
  rfl

theorem toNat_ln2Q32 : ln2Q32.toNat = 2977044472 := rfl

theorem toNat_orOne_mulQ32 {y : UInt64} {z : Int} (hy : (y.toNat : Int) = z) (hz : z ≤ 2 ^ 38) :
    ((orOne (mulQ32 y ln2Q32)).toNat : Int) = max 1 (z * ln2Q32.toNat / 2 ^ 32) := by
  have hmul := toNat_mulQ32 (x := y) (y := ln2Q32) (by rw [toNat_ln2Q32]; omega)
  have hcast : ((mulQ32 y ln2Q32).toNat : Int) = y.toNat * ln2Q32.toNat / 2 ^ 32 := by
    rw [hmul, Int.natCast_ediv, Int.natCast_mul, Nat.cast_pow, Nat.cast_ofNat]
  rw [← hy, ← hcast, orOne]
  split
  next hzero =>
    rw [hzero]
    rfl
  next hsome =>
    have hne : (mulQ32 y ln2Q32).toNat ≠ 0 := fun h0 => hsome (UInt64.toNat_inj.mp h0)
    omega

theorem exact_of_ne {h : UInt64} (hh : h ≠ 0) : Exact h := by
  have hn : h.toNat ≠ 0 := fun h0 => hh (UInt64.toNat_inj.mp h0)
  have hlog : h.toNat.log2 < 64 := (Nat.log2_lt hn).mpr h.toNat_lt
  have hbits := logBits_lt (mantissa h.toNat)
  have hmantissa := toNat_normalized hh
  have hsquares : ∀ k ≤ 32, ((squareStep^[k] (normalized h, 0)).1.toNat,
      (squareStep^[k] (normalized h, 0)).2.toNat) = (logStep 32)^[k] (mantissa h.toNat, 0) := by
    intro k hk
    rw [← hmantissa]
    exact toNat_iterate_squareStep (hmantissa ▸ mantissa_mem hn) hk
  have hfrac : (squareStep^[32] (normalized h, 0)).2.toNat = logBits 32 (mantissa h.toNat) := by
    rw [logBits, ← hsquares 32 (Nat.le_refl 32)]
  have hwhole : (UInt64.ofNat (65 - len64 h) <<< 32).toNat = (64 - h.toNat.log2) * 2 ^ 32 := by
    rw [len64, if_neg hh, UInt64.toNat_shiftLeft,
      UInt64.toNat_ofNat_of_lt' (Nat.lt_trans (m := 65) (by omega) (by decide)),
      show (32 : UInt64).toNat % 64 = 32 from rfl, Nat.shiftLeft_eq]
    omega
  have hdifference : ((negLog2 h).toNat : Int) = exactNegLog2 h.toNat := by
    rw [negLog2, UInt64.toNat_sub_of_le _ _ (UInt64.le_iff_toNat_le.mpr (by omega)), hwhole, hfrac,
      exactNegLog2]
    omega
  refine ⟨hmantissa, hsquares, hwhole, hdifference, ?_⟩
  rw [negLn_eq hh]
  exact toNat_orOne_mulQ32 hdifference (exactNegLog2_mem hn h.toNat_lt).2

end Words

/-! ## Order and accuracy -/

section Numbers

variable {n n' : Nat}

theorem exactNegLog2_anti (hle : n ≤ n') : exactNegLog2 n' ≤ exactNegLog2 n := by
  have hlog : n.log2 ≤ n'.log2 := by
    rw [Nat.log2_eq_log_two, Nat.log2_eq_log_two]
    exact Nat.log_mono_right hle
  have hbits := logBits_lt (mantissa n)
  unfold exactNegLog2
  rcases hlog.lt_or_eq with hlt | heq
  · omega
  · have hmantissa : mantissa n ≤ mantissa n' := by
      rw [mantissa, mantissa, heq]
      exact Nat.div_le_div_right (Nat.mul_le_mul_right _ hle)
    have hmono := logBits_mono (q := 32) hmantissa
    omega

theorem exactNegLn_anti (hle : n ≤ n') : exactNegLn n' ≤ exactNegLn n := by
  refine max_le_max le_rfl (Int.ediv_le_ediv (by decide) ?_)
  exact Int.mul_le_mul_of_nonneg_right (exactNegLog2_anti hle) (Int.natCast_nonneg _)

theorem negLn_anti {h₁ h₂ : UInt64} (hle : h₁ ≤ h₂) : negLn h₂ ≤ negLn h₁ := by
  have hexact : ∀ h : UInt64, ((negLn h).toNat : Int) = exactNegLn (max 1 h.toNat) := by
    intro h
    by_cases hh : h = 0
    · rw [hh]
      exact (exact_of_ne (h := 1) (by decide)).product
    · have hpos : 0 < h.toNat := Nat.pos_of_ne_zero (fun h0 => hh (UInt64.toNat_inj.mp h0))
      rw [(exact_of_ne hh).product, Nat.max_eq_right hpos]
  have hanti := exactNegLn_anti (max_le_max (le_refl 1) (UInt64.le_iff_toNat_le.mp hle))
  rw [← hexact, ← hexact] at hanti
  exact UInt64.le_iff_toNat_le.mpr (Int.ofNat_le.mp hanti)

theorem exactNegLog2_near (hn : n ≠ 0) :
    0 ≤ exactNegLog2 n * Real.log 2 - 2 ^ 32 * (64 * Real.log 2 - Real.log n) ∧
      exactNegLog2 n * Real.log 2 - 2 ^ 32 * (64 * Real.log 2 - Real.log n) ≤
        2 + Real.log 2 := by
  obtain ⟨hlow, hhigh⟩ := logBits_near (mantissa_mem hn)
  have hcut := log_cut (Nat.two_pow_pos n.log2) (mantissa_mem hn).1
  have hn' : (n : ℝ) ≠ 0 := Nat.cast_ne_zero.mpr hn
  have hlog : Real.log ((n * 2 ^ 32 : Nat) / (2 ^ n.log2 : Nat)) =
      Real.log n + 32 * Real.log 2 - n.log2 * Real.log 2 := by
    rw [Nat.cast_mul, Nat.cast_pow, Nat.cast_pow, Real.log_div (by positivity) (by positivity),
      Real.log_mul hn' (by positivity), Real.log_pow, Real.log_pow]
    rfl
  rw [hlog, ← mantissa] at hcut
  rw [exactNegLog2]
  push_cast at hlow hhigh ⊢
  constructor <;> linarith

theorem exactNegLn_near (hn : n ≠ 0) (hlt : n < 2 ^ 64) :
    |(exactNegLn n : ℝ) - 2 ^ 32 * (64 * Real.log 2 - Real.log n)| ≤ 64 := by
  obtain ⟨hlow, hhigh⟩ := exactNegLog2_near hn
  obtain ⟨hpos, hmax⟩ := exactNegLog2_mem hn hlt
  obtain ⟨hconst, hconst'⟩ := abs_le.mp Real.log_two_near_10
  rw [exactNegLn, toNat_ln2Q32]
  generalize exactNegLog2 n = z at *
  have hz : (0 : ℝ) ≤ z := by exact_mod_cast hpos.le
  have hz' : (z : ℝ) ≤ 2 ^ 38 := by exact_mod_cast hmax
  -- Scaling by the rounded constant, then cutting the product.
  have hscale : |(z : ℝ) * 2977044472 - z * Real.log 2 * 2 ^ 32| ≤ 2 ^ 38 * (5 / 8) := by
    rw [mul_assoc, ← mul_sub, abs_mul, abs_of_nonneg hz]
    refine mul_le_mul hz' (abs_le.mpr ⟨?_, ?_⟩) (abs_nonneg _) (by positivity) <;> linarith
  have hround : max 1 (z * 2977044472 / 2 ^ 32) * 2 ^ 32 ≤ z * 2977044472 + 2 ^ 32 ∧
      z * 2977044472 ≤ max 1 (z * 2977044472 / 2 ^ 32) * 2 ^ 32 + 2 ^ 32 := by
    have hw : 0 ≤ z * 2977044472 := by positivity
    generalize z * 2977044472 = w at hw
    omega
  generalize max 1 (z * 2977044472 / 2 ^ 32) = res at hround
  have hround₁ : (res : ℝ) * 2 ^ 32 ≤ z * 2977044472 + 2 ^ 32 := by exact_mod_cast hround.1
  have hround₂ : (z : ℝ) * 2977044472 ≤ res * 2 ^ 32 + 2 ^ 32 := by exact_mod_cast hround.2
  obtain ⟨hscale₁, hscale₂⟩ := abs_le.mp hscale
  exact abs_le.mpr ⟨by linarith, by linarith⟩

end Numbers

/-! ## The comparison of the keys -/

/-- A weight of a member and a score, neither of them zero. -/
structure WeightedScore where
  weight : UInt32
  score : UInt64
  weight_ne : weight ≠ 0
  score_ne : score ≠ 0

namespace WeightedScore

def cmp (a b : WeightedScore) : Ordering :=
  cmpKey a.weight.toUInt64 (negLn a.score) b.weight.toUInt64 (negLn b.score)

def value (a : WeightedScore) : ℚ := a.weight.toNat / (negLn a.score).toNat

variable (a b : WeightedScore)

theorem cmp_eq_compare : a.cmp b = compare b.value a.value := by
  have hpos : ∀ h, 0 < negLn h := fun _ => orOne_pos _
  rw [cmp, cmpKey_eq_compare_div (hpos _) (hpos _), UInt32.toNat_toUInt64,
    UInt32.toNat_toUInt64, value, value]

theorem strictWeakOrder : IsStrictWeakOrder WeightedScore fun a b => a.cmp b = .lt := by
  have hlt : ∀ a b : WeightedScore, a.cmp b = .lt ↔ b.value < a.value := fun a b => by
    rw [cmp_eq_compare, compare_lt_iff_lt]
  refine { irrefl := ?_, trans := ?_, incomp_trans := ?_ } <;> simp only [hlt]
  · exact fun a => lt_irrefl _
  · exact fun a b c hab hbc => hbc.trans hab
  · rintro a b c ⟨hab, hba⟩ ⟨hbc, hcb⟩
    have heq := le_antisymm (not_lt.mp hab) (not_lt.mp hba)
    rw [heq]
    exact ⟨hbc, hcb⟩

end WeightedScore

/-- `negLn` loses no high bit, is positive, antitone and within 64 units of
`-ln(h / 2^64)`; `cmpKey` is the order of the rational keys, the larger first. -/
theorem negLn_accurate :
    (∀ h : UInt64, h ≠ 0 → 1 ≤ negLn h ∧ Exact h ∧
      |((negLn h).toNat : ℝ) - 2 ^ 32 * (64 * Real.log 2 - Real.log h.toNat)| ≤ 64) ∧
    (∀ h₁ h₂ : UInt64, h₁ ≠ 0 → h₁ ≤ h₂ → negLn h₁ ≥ negLn h₂) ∧
    (∀ a b : WeightedScore, a.cmp b = compare b.value a.value) ∧
    IsStrictWeakOrder WeightedScore fun a b => a.cmp b = .lt := by
  refine ⟨fun h hh => ?_, fun h₁ h₂ _ hle => negLn_anti hle, WeightedScore.cmp_eq_compare,
    WeightedScore.strictWeakOrder⟩
  have hn : h.toNat ≠ 0 := fun h0 => hh (UInt64.toNat_inj.mp h0)
  have hexact := exact_of_ne hh
  have hnear := exactNegLn_near hn h.toNat_lt
  rw [← hexact.product, Int.cast_natCast] at hnear
  exact ⟨UInt64.le_iff_toNat_le.mpr (UInt64.lt_iff_toNat_lt.mp (orOne_pos _)), hexact, hnear⟩

theorem negLn_accurate_two : 1 ≤ negLn 2 ∧ Exact 2 ∧ negLn 1 ≥ negLn 2 :=
  ⟨(negLn_accurate.1 2 (by decide)).1, (negLn_accurate.1 2 (by decide)).2.1,
    negLn_accurate.2.1 1 2 (by decide) (by decide)⟩

end Hamster.Place
