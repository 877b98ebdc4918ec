import Mathlib
import BayesGraph.Double

/-!
# Doubles that are finite

Integers and quotients that are not larger than words are far below the largest double, so they do
not overflow when they are converted. `binaryOrder` is the order of magnitude of a quotient, and the
mantissa that is rounded for it has no more than 53 bits.
-/

set_option autoImplicit false

namespace BayesGraph.Double

/-- A double is finite unless all bits of its exponent are set. -/
theorem isFinite_iff {x : Double} : x.isFinite = true ↔ x.bits.toNat / 2 ^ 52 % 2 ^ 11 ≠ 2047 := by
  have hbiased : x.biasedExponent = x.bits.toNat / 2 ^ 52 % 2 ^ 11 := by
    unfold biasedExponent
    rw [UInt64.toNat_and, UInt64.toNat_shiftRight, Nat.shiftRight_eq_div_pow]
    exact Nat.and_two_pow_sub_one_eq_mod _ 11
  unfold isFinite
  rw [hbiased, bne_iff_ne]

/-- A double of parts in range is finite. -/
theorem isFinite_ofParts {negative : Bool} {mantissa : Nat} {exponent : Int}
    (hmantissa : mantissa < 2 ^ 53) (hexponent : exponent ≤ 971) :
    (ofParts negative mantissa exponent).isFinite = true := by
  unfold ofParts
  dsimp only
  generalize hmagnitude : (if mantissa < Nat.pow 2 52 then mantissa
    else if exponent > 971 then 2047 * Nat.pow 2 52
    else (exponent + 1075).toNat * Nat.pow 2 52 + (mantissa - Nat.pow 2 52)) = magnitude
  have hlt : magnitude < 2047 * 2 ^ 52 := by
    rw [← hmagnitude]
    have hpow : Nat.pow 2 52 = 2 ^ 52 := rfl
    rw [hpow, if_neg (Int.not_lt.mpr hexponent)]
    split
    · omega
    · have hbiased : (exponent + 1075).toNat ≤ 2046 := by omega
      have hmul := Nat.mul_le_mul_right (2 ^ 52) hbiased
      omega
  have hpow : Nat.pow 2 63 = 2 ^ 63 := rfl
  rw [isFinite_iff, hpow]
  change (UInt64.ofNat _).toNat / 2 ^ 52 % 2 ^ 11 ≠ 2047
  rw [UInt64.toNat_ofNat']
  cases negative with
  | true =>
    rw [if_pos rfl]
    omega
  | false =>
    rw [if_neg Bool.false_ne_true]
    omega

/-- A power with an integral exponent, by natural ones. -/
theorem zpow_eq_toNat (b : ℝ) (e : ℤ) : b ^ e = b ^ e.toNat / b ^ (-e).toNat := by
  rcases le_total 0 e with he | he
  · obtain ⟨n, rfl⟩ := Int.eq_ofNat_of_zero_le he
    simp
  · obtain ⟨n, hn⟩ := Int.eq_ofNat_of_zero_le (Int.neg_nonneg_of_nonpos he)
    have he' : e = -(n : ℤ) := by omega
    subst he'
    simp

/-- The quotient is below the power of two that comes after its order. -/
theorem lt_two_zpow_binaryOrder {num den : Nat} (hden : 0 < den) :
    (num / den : ℝ) < 2 ^ (binaryOrder num den + 1) := by
  have hden' : (0 : ℝ) < den := by exact_mod_cast hden
  unfold binaryOrder
  dsimp only
  split
  · next hlt =>
    rw [sub_add_cancel, zpow_eq_toNat, div_lt_div_iff₀ hden' (by positivity)]
    have hcast : ((num * 2 ^ (-((Nat.log2 num : ℤ) - Nat.log2 den)).toNat : ℕ) : ℝ) <
        ((den * 2 ^ ((Nat.log2 num : ℤ) - Nat.log2 den).toNat : ℕ) : ℝ) := by
      exact_mod_cast hlt
    push_cast at hcast
    linarith
  · have hnum : (num : ℝ) < 2 ^ (Nat.log2 num + 1) := by exact_mod_cast Nat.lt_log2_self
    have hlow : (2 : ℝ) ^ (Nat.log2 den) ≤ den := by exact_mod_cast Nat.log2_self_le hden.ne'
    rw [div_lt_iff₀ hden']
    calc (num : ℝ) < 2 ^ (Nat.log2 num + 1) := hnum
      _ = 2 ^ ((Nat.log2 num : ℤ) - Nat.log2 den + 1) * 2 ^ (Nat.log2 den) := by
        rw [← zpow_natCast, ← zpow_natCast, ← zpow_add₀ two_ne_zero]
        congr 1
        push_cast
        ring
      _ ≤ 2 ^ ((Nat.log2 num : ℤ) - Nat.log2 den + 1) * den := by gcongr

/-- The binary order of a quotient is at most that of its numerator. -/
theorem binaryOrder_le (num den : Nat) : binaryOrder num den ≤ Nat.log2 num := by
  unfold binaryOrder
  dsimp only
  split <;> omega

/-- Rounding does not go above a bound that is an integer. -/
theorem roundQuotient_le {num den bound : Nat} (h : num < bound * den) :
    roundQuotient num den ≤ bound := by
  have hquotient : num / den < bound := Nat.div_lt_of_lt_mul (by rwa [mul_comm] at h)
  unfold roundQuotient
  dsimp only
  split_ifs <;> omega

/-- What is rounded to a mantissa has at most 53 bits. -/
theorem mantissa_le {num den : Nat} (hden : 0 < den) {e : ℤ} (he : binaryOrder num den - 52 ≤ e) :
    roundQuotient (num * Nat.pow 2 (-e).toNat) (den * Nat.pow 2 e.toNat) ≤ 2 ^ 53 := by
  have hden' : (0 : ℝ) < den := by exact_mod_cast hden
  have hpow (k : Nat) : Nat.pow 2 k = 2 ^ k := rfl
  apply roundQuotient_le
  have hquotient : (num / den : ℝ) < 2 ^ (53 : ℤ) * 2 ^ e := by
    rw [← zpow_add₀ two_ne_zero]
    exact (lt_two_zpow_binaryOrder hden).trans_le (zpow_le_zpow_right₀ one_le_two (by omega))
  rw [zpow_eq_toNat 2 e, div_lt_iff₀ hden'] at hquotient
  have hreal : (num : ℝ) * 2 ^ (-e).toNat < 2 ^ 53 * (den * 2 ^ e.toNat) := by
    have hpos : (0 : ℝ) < 2 ^ (-e).toNat := by positivity
    calc (num : ℝ) * 2 ^ (-e).toNat
        < 2 ^ (53 : ℤ) * (2 ^ e.toNat / 2 ^ (-e).toNat) * den * 2 ^ (-e).toNat := by gcongr
      _ = 2 ^ 53 * (den * 2 ^ e.toNat) := by
        field_simp
  rw [hpow, hpow]
  exact_mod_cast hreal

/-- A quotient whose numerator has at most 64 bits does not overflow. -/
theorem isFinite_ofQuotient {m n : Int} (hm : m.natAbs < 2 ^ 64) (hn : n ≠ 0) :
    (ofQuotient m n).isFinite = true := by
  unfold ofQuotient nearest
  split
  · exact isFinite_ofParts (by omega) (by omega)
  · next hzero =>
    dsimp only
    generalize he : max (binaryOrder m.natAbs n.natAbs - 52) (-1074) = e
    have hexponent : e ≤ 11 := by
      have hlog : Nat.log2 m.natAbs < 64 := (Nat.log2_lt hzero).mpr hm
      have horder := binaryOrder_le m.natAbs n.natAbs
      omega
    have horder : binaryOrder m.natAbs n.natAbs - 52 ≤ e := he ▸ le_max_left _ _
    have hmantissa := mantissa_le (Int.natAbs_pos.mpr hn) horder
    generalize roundQuotient _ _ = mantissa at hmantissa ⊢
    split
    · exact isFinite_ofParts (by decide) (by omega)
    · next hne =>
      have hpow : Nat.pow 2 53 = 2 ^ 53 := rfl
      rw [hpow] at hne
      exact isFinite_ofParts (lt_of_le_of_ne hmantissa hne) (by omega)

end BayesGraph.Double
