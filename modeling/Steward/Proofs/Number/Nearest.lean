import Mathlib.Algebra.Order.Field.Power
import Mathlib.Algebra.Order.Field.Rat
import Mathlib.Tactic.FieldSimp
import Mathlib.Tactic.Linarith
import Mathlib.Tactic.NormNum
import Mathlib.Tactic.Positivity
import Mathlib.Tactic.Ring
import Steward.Number.Binary64
/-!
Rounding to a number of 64 bits, over the rationals. A quotient is rounded to a number if it lies
at most half a step to either side of it: a tie goes to the even mantissa, and below a power of two
the step is half as long.
-/
namespace Steward.Number

variable {num den base a b k m : Nat} {e g : Int}

/-- What lies at most one half from a natural number is rounded to it, a tie if it is even. -/
theorem roundHalfEven_eq (hden : 0 < den) (low : 2 * (k * den) ≤ 2 * num + den)
    (high : 2 * num ≤ 2 * (k * den) + den)
    (odd : k % 2 = 1 → 2 * (k * den) < 2 * num + den ∧ 2 * num < 2 * (k * den) + den) :
    roundHalfEven num den = k := by
  have hnum := Nat.div_add_mod' num den
  have hmod := Nat.mod_lt num hden
  unfold roundHalfEven
  dsimp only
  generalize num / den = q at *
  generalize num % den = r at *
  obtain hk | rfl | rfl | hk : k < q ∨ k = q ∨ k = q + 1 ∨ q + 2 ≤ k := by omega
  · have := Nat.mul_le_mul_right den (show k + 1 ≤ q from hk)
    rw [Nat.add_mul] at this
    omega
  · split <;> [skip; split <;> [skip; split]] <;> omega
  · rw [Nat.add_mul] at low high odd
    split <;> [skip; split <;> [skip; split]] <;> omega
  · have := Nat.mul_le_mul_right den hk
    rw [Nat.add_mul] at this
    omega

theorem roundHalfEven_of_near (hden : 0 < den) (low : (k : ℚ) - 1 / 2 ≤ num / den)
    (high : (num / den : ℚ) ≤ k + 1 / 2)
    (odd : k % 2 = 1 → (k : ℚ) - 1 / 2 < num / den ∧ (num / den : ℚ) < k + 1 / 2) :
    roundHalfEven num den = k := by
  have hpos : (0 : ℚ) < den := by exact_mod_cast hden
  rw [le_div_iff₀ hpos] at low
  rw [div_le_iff₀ hpos] at high
  rw [lt_div_iff₀ hpos, div_lt_iff₀ hpos] at odd
  apply roundHalfEven_eq hden
  · have : (2 * (k * den) : ℚ) ≤ 2 * num + den := by linarith
    exact_mod_cast this
  · have : (2 * num : ℚ) ≤ 2 * (k * den) + den := by linarith
    exact_mod_cast this
  · intro hk
    obtain ⟨hlow, hhigh⟩ := odd hk
    have hleft : (2 * (k * den) : ℚ) < 2 * num + den := by linarith
    have hright : (2 * num : ℚ) < 2 * (k * den) + den := by linarith
    exact ⟨by exact_mod_cast hleft, by exact_mod_cast hright⟩

theorem cast_pow_toNat (base : Nat) (h : 0 ≤ g) :
    ((Nat.pow base g.toNat : Nat) : ℚ) = (base : ℚ) ^ g := by
  obtain ⟨n, rfl⟩ := Int.eq_ofNat_of_zero_le h
  simp

theorem cast_pow_neg_toNat (base : Nat) (h : ¬ 0 ≤ g) :
    ((Nat.pow base (-g).toNat : Nat) : ℚ) = ((base : ℚ) ^ g)⁻¹ := by
  rw [cast_pow_toNat base (by omega), zpow_neg]

theorem scaled_spec (n : Nat) (e : Int) (hbase : 0 < base) {r : Nat × Nat}
    (hr : r = if 0 ≤ e then (n * Nat.pow base e.toNat, 1) else (n, Nat.pow base (-e).toNat)) :
    0 < r.2 ∧ (r.1 / r.2 : ℚ) = n * (base : ℚ) ^ e := by
  subst hr
  split
  · rename_i h
    refine ⟨Nat.one_pos, ?_⟩
    rw [Nat.cast_mul, cast_pow_toNat base h, Nat.cast_one, div_one]
  · rename_i h
    refine ⟨Nat.pow_pos hbase, ?_⟩
    rw [cast_pow_neg_toNat base h, div_inv_eq_mul]

theorem pow_fits_iff (num : Nat) (g : Int) (hbase : 0 < base) (hden : 0 < den) :
    (if 0 ≤ g then decide (den * Nat.pow base g.toNat ≤ num)
      else decide (den ≤ num * Nat.pow base (-g).toNat)) = true ↔
      (base : ℚ) ^ g ≤ num / den := by
  have hd : (0 : ℚ) < den := by exact_mod_cast hden
  have hp : (0 : ℚ) < (base : ℚ) ^ g := zpow_pos (by exact_mod_cast hbase) g
  rw [le_div_iff₀ hd]
  split
  · rename_i h
    rw [decide_eq_true_eq, ← cast_pow_toNat base h, mul_comm]
    exact_mod_cast Iff.rfl
  · rename_i h
    rw [decide_eq_true_eq, ← mul_le_mul_iff_right₀ (inv_pos.2 hp), inv_mul_cancel_left₀ hp.ne',
      ← cast_pow_neg_toNat base h, mul_comm]
    exact_mod_cast Iff.rfl

theorem pow_bounds_div (hbase : 0 < base) (hnum : base ^ a ≤ num ∧ num < base ^ (a + 1))
    (hden : base ^ b ≤ den ∧ den < base ^ (b + 1)) :
    (base : ℚ) ^ ((a : Int) - b - 1) ≤ num / den ∧
      (num / den : ℚ) < (base : ℚ) ^ ((a : Int) - b + 1) := by
  have hbase0 : (0 : ℚ) < base := by exact_mod_cast hbase
  have hpow : (0 : ℚ) < (base : ℚ) ^ b := by positivity
  have hnumLow : (base : ℚ) ^ a ≤ num := by exact_mod_cast hnum.1
  have hnumHigh : (num : ℚ) < (base : ℚ) ^ (a + 1) := by exact_mod_cast hnum.2
  have hdenLow : (base : ℚ) ^ b ≤ den := by exact_mod_cast hden.1
  have hdenHigh : (den : ℚ) < (base : ℚ) ^ (b + 1) := by exact_mod_cast hden.2
  have hd : (0 : ℚ) < den := lt_of_lt_of_le hpow hdenLow
  have hg : (base : ℚ) ^ ((a : Int) - b) = base ^ a / base ^ b := by
    rw [zpow_sub₀ hbase0.ne', zpow_natCast, zpow_natCast]
  rw [zpow_sub_one₀ hbase0.ne', zpow_add_one₀ hbase0.ne', hg]
  constructor
  · rw [le_div_iff₀ hd]
    calc (base : ℚ) ^ a / base ^ b * (base : ℚ)⁻¹ * den
        ≤ base ^ a / base ^ b * (base : ℚ)⁻¹ * base ^ (b + 1) := by gcongr
      _ = base ^ a := by rw [pow_succ]; field_simp
      _ ≤ num := hnumLow
  · rw [div_lt_iff₀ hd]
    calc (num : ℚ) < base ^ (a + 1) := hnumHigh
      _ = base ^ a / base ^ b * base * base ^ b := by rw [pow_succ]; field_simp
      _ ≤ base ^ a / base ^ b * base * den := by gcongr

theorem greatest_pow_spec {fits : Bool} (hbase : 0 < base)
    (hnum : base ^ a ≤ num ∧ num < base ^ (a + 1)) (hden : base ^ b ≤ den ∧ den < base ^ (b + 1))
    (hg : g = (a : Int) - b)
    (hfits : fits = if 0 ≤ g then decide (den * Nat.pow base g.toNat ≤ num)
      else decide (den ≤ num * Nat.pow base (-g).toNat)) :
    (base : ℚ) ^ (if fits then g else g - 1) ≤ num / den ∧
      (num / den : ℚ) < (base : ℚ) ^ ((if fits then g else g - 1) + 1) := by
  have hpos : 0 < den := lt_of_lt_of_le (Nat.pow_pos hbase) hden.1
  have hiff := pow_fits_iff num g hbase hpos
  have hbounds := pow_bounds_div hbase hnum hden
  rw [← hg] at hbounds
  rw [← hfits] at hiff
  cases fits with
  | true => exact ⟨hiff.1 rfl, hbounds.2⟩
  | false =>
    rw [if_neg Bool.false_ne_true, Int.sub_add_cancel]
    exact ⟨hbounds.1, not_le.1 fun h => Bool.false_ne_true (hiff.2 h)⟩

namespace Binary64

theorem floorLog2_spec (hnum : 0 < num) (hden : 0 < den) :
    (2 : ℚ) ^ floorLog2 num den ≤ num / den ∧
      (num / den : ℚ) < (2 : ℚ) ^ (floorLog2 num den + 1) :=
  greatest_pow_spec (show 0 < 2 by decide) ⟨Nat.log2_self_le hnum.ne', Nat.lt_log2_self⟩
    ⟨Nat.log2_self_le hden.ne', Nat.lt_log2_self⟩ rfl rfl

def reach (m : Nat) (e : Int) : ℚ := if m = 2 ^ 52 ∧ -1074 < e then 1 / 4 else 1 / 2

structure RoundsTo (x : ℚ) (m : Nat) (e : Int) : Prop where
  low : (m : ℚ) - reach m e ≤ x / 2 ^ e
  high : x / 2 ^ e ≤ m + 1 / 2
  odd : m % 2 = 1 → (m : ℚ) - 1 / 2 < x / 2 ^ e ∧ x / 2 ^ e < m + 1 / 2

def mantissaAt (num den : Nat) (e : Int) : Nat :=
  if 0 ≤ e then roundHalfEven num (den * Nat.pow 2 e.toNat)
  else roundHalfEven (num * Nat.pow 2 (-e).toNat) den

theorem mantissaAt_eq (hden : 0 < den) (low : (k : ℚ) - 1 / 2 ≤ num / den / 2 ^ e)
    (high : (num / den / 2 ^ e : ℚ) ≤ k + 1 / 2)
    (odd : k % 2 = 1 → (k : ℚ) - 1 / 2 < num / den / 2 ^ e ∧ (num / den / 2 ^ e : ℚ) < k + 1 / 2) :
    mantissaAt num den e = k := by
  unfold mantissaAt
  split
  · rename_i h
    have hcast : ((num : Nat) / (den * Nat.pow 2 e.toNat : Nat) : ℚ) = num / den / 2 ^ e := by
      rw [Nat.cast_mul, cast_pow_toNat 2 h, div_div, Nat.cast_ofNat]
    rw [← hcast] at low high odd
    exact roundHalfEven_of_near (Nat.mul_pos hden (Nat.pow_pos (by decide))) low high odd
  · rename_i h
    have hcast : ((num * Nat.pow 2 (-e).toNat : Nat) / (den : Nat) : ℚ) = num / den / 2 ^ e := by
      rw [Nat.cast_mul, cast_pow_neg_toNat 2 h, Nat.cast_ofNat, div_eq_mul_inv _ ((2 : ℚ) ^ e),
        mul_div_right_comm]
    rw [← hcast] at low high odd
    exact roundHalfEven_of_near hden low high odd

theorem ofRatio_of_mantissa {negative : Bool} (h : Canonical m e) (he : exponentFor num den = e)
    (hm : mantissaAt num den e = m) : ofRatio negative num den = .finite negative m e h := by
  have hne : m ≠ 2 ^ 53 := Nat.ne_of_lt h.1
  unfold mantissaAt at hm
  unfold ofRatio
  simp only [he, hm, if_neg hne, dif_pos h]

theorem ofRatio_of_carry {negative : Bool} (h : Canonical (2 ^ 52) e)
    (he : exponentFor num den = e - 1) (hm : mantissaAt num den (e - 1) = 2 ^ 53) :
    ofRatio negative num den = .finite negative (2 ^ 52) e h := by
  unfold mantissaAt at hm
  unfold ofRatio
  simp only [he, hm, ↓reduceIte, Int.sub_add_cancel, dif_pos h]

theorem exponentFor_spec (hnum : 0 < num) (den : Nat) :
    -1074 ≤ exponentFor num den ∧ floorLog2 num den - 52 ≤ exponentFor num den ∧
      (exponentFor num den = -1074 ∨ exponentFor num den = floorLog2 num den - 52) := by
  unfold exponentFor
  rw [if_neg hnum.ne']
  omega

theorem zpow_add_div (e n : Int) : (2 : ℚ) ^ (e + n) / 2 ^ e = 2 ^ n := by
  rw [zpow_add₀ two_ne_zero, mul_div_cancel_left₀ _ (zpow_pos two_pos e).ne']

theorem floorLog2_lt_of_div (hnum : 0 < num) (hden : 0 < den) {n : Int}
    (h : (num / den / 2 ^ e : ℚ) < 2 ^ n) : floorLog2 num den < e + n := by
  rw [← zpow_add_div e n, div_lt_div_iff_of_pos_right (zpow_pos two_pos e)] at h
  exact (zpow_lt_zpow_iff_right₀ one_lt_two).1 (lt_of_le_of_lt (floorLog2_spec hnum hden).1 h)

theorem le_floorLog2_of_div (hnum : 0 < num) (hden : 0 < den) {n : Int}
    (h : (2 : ℚ) ^ n ≤ num / den / 2 ^ e) : e + n ≤ floorLog2 num den := by
  rw [← zpow_add_div e n, div_le_div_iff_of_pos_right (zpow_pos two_pos e)] at h
  exact Int.lt_add_one_iff.1
    ((zpow_lt_zpow_iff_right₀ one_lt_two).1 (lt_of_le_of_lt h (floorLog2_spec hnum hden).2))

/-- A quotient just below a power of two, where numbers lie closer together, is rounded up to it. -/
theorem ofRatio_of_below {negative : Bool} (hnum : 0 < num) (hden : 0 < den)
    (h : Canonical (2 ^ 52) e) (he : -1074 < e) (hlow : (2 : ℚ) ^ 52 - 1 / 4 ≤ num / den / 2 ^ e)
    (hhigh : (num / den / 2 ^ e : ℚ) < 2 ^ 52) :
    ofRatio negative num den = .finite negative (2 ^ 52) e h := by
  obtain ⟨-, hfull, hexp⟩ := exponentFor_spec hnum den
  have hbelow : floorLog2 num den < e + 52 :=
    floorLog2_lt_of_div hnum hden (by exact_mod_cast hhigh)
  have habove : e + 51 ≤ floorLog2 num den := by
    apply le_floorLog2_of_div hnum hden
    norm_num at hlow ⊢
    linarith
  have hhalf : (num / den / 2 ^ (e - 1) : ℚ) = num / den / 2 ^ e * 2 := by
    rw [zpow_sub_one₀ two_ne_zero]
    field_simp
  apply ofRatio_of_carry h (by omega)
  apply mantissaAt_eq hden
  · rw [hhalf]
    push_cast
    linarith
  · rw [hhalf]
    push_cast
    linarith
  · intro hodd
    omega

theorem ofRatio_eq {negative : Bool} (hnum : 0 < num) (hden : 0 < den) (h : Canonical m e)
    (hround : RoundsTo (num / den) m e) : ofRatio negative num den = .finite negative m e h := by
  obtain ⟨hlow, hhigh, hodd⟩ := hround
  unfold reach at hlow
  obtain ⟨hleast, hfull, hexp⟩ := exponentFor_spec hnum den
  have ⟨hlimit, he, _, hshort⟩ := h
  have habove : floorLog2 num den < e + 53 := by
    apply floorLog2_lt_of_div hnum hden
    apply lt_of_le_of_lt hhigh
    have hmax : (m : ℚ) + 1 ≤ 2 ^ 53 := by exact_mod_cast hlimit
    norm_num at hmax ⊢
    linarith
  rcases lt_or_ge ((num : ℚ) / den / 2 ^ e) (2 ^ 52) with hsmall | hlarge
  · have hbelow : floorLog2 num den < e + 52 :=
      floorLog2_lt_of_div hnum hden (by exact_mod_cast hsmall)
    rcases he.eq_or_lt with rfl | he
    · rw [if_neg (by simp)] at hlow
      exact ofRatio_of_mantissa h (by omega) (mantissaAt_eq hden hlow hhigh hodd)
    · obtain rfl : m = 2 ^ 52 := by
        by_contra hm
        have hbig : (2 : ℚ) ^ 52 + 1 ≤ m := by
          have : 2 ^ 52 + 1 ≤ m := by omega
          exact_mod_cast this
        rw [if_neg (by tauto)] at hlow
        linarith
      rw [if_pos ⟨rfl, he⟩] at hlow
      push_cast at hlow
      exact ofRatio_of_below hnum hden h he hlow hsmall
  · have hfirst : e + 52 ≤ floorLog2 num den :=
      le_floorLog2_of_div hnum hden (by exact_mod_cast hlarge)
    refine ofRatio_of_mantissa h (by omega) (mantissaAt_eq hden (le_trans ?_ hlow) hhigh hodd)
    split <;> linarith

end Binary64

end Steward.Number
