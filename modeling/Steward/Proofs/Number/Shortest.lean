import Steward.Number.Decimal
import Steward.Proofs.Number.Nearest
import Steward.Proofs.Text.Digits
/-!
The shortest decimal of a number is rounded to the number again. The search for it always ends with
a hit: seventeen digits are finer than the range of decimals that are rounded to one number.
-/
namespace Steward.Number

variable {num den m : Nat} {e p : Int}

theorem Binary64.ratio_pos (m : Nat) (e : Int) : 0 < (Binary64.ratio m e).2 :=
  (scaled_spec m e (show 0 < 2 by decide) rfl).1

theorem Binary64.ratio_value (m : Nat) (e : Int) :
    ((Binary64.ratio m e).1 / (Binary64.ratio m e).2 : ℚ) = m * 2 ^ e :=
  (scaled_spec m e (show 0 < 2 by decide) rfl).2

namespace Decimal

open Binary64 (RoundsTo reach)

def value (d : Decimal) : ℚ := d.digits * 10 ^ d.exponent

theorem ratio_pos (d : Decimal) : 0 < d.ratio.2 :=
  (scaled_spec d.digits d.exponent (show 0 < 10 by decide) rfl).1

theorem ratio_value (d : Decimal) : (d.ratio.1 / d.ratio.2 : ℚ) = d.value :=
  (scaled_spec d.digits d.exponent (show 0 < 10 by decide) rfl).2

theorem holds_iff (i : Interval) (hden : 0 < i.den) (d : Decimal) :
    i.holds d = true ↔ if i.closed then (i.low / i.den : ℚ) ≤ d.value ∧ d.value ≤ i.high / i.den
      else (i.low / i.den : ℚ) < d.value ∧ d.value < i.high / i.den := by
  have hd : (0 : ℚ) < i.den := by exact_mod_cast hden
  have hr : (0 : ℚ) < d.ratio.2 := by exact_mod_cast d.ratio_pos
  rw [← ratio_value, div_le_div_iff₀ hd hr, div_le_div_iff₀ hr hd, div_lt_div_iff₀ hd hr,
    div_lt_div_iff₀ hr hd]
  unfold Interval.holds
  dsimp only
  split
  · rw [Bool.and_eq_true, decide_eq_true_eq, decide_eq_true_eq]
    exact_mod_cast Iff.rfl
  · rw [Bool.and_eq_true, decide_eq_true_eq, decide_eq_true_eq]
    exact_mod_cast Iff.rfl

theorem around_den_pos (m : Nat) (e : Int) : 0 < (Interval.around m e).den :=
  Binary64.ratio_pos 1 (e - 2)

theorem around_low (hm : 0 < m) (e : Int) :
    ((Interval.around m e).low / (Interval.around m e).den : ℚ) = (m - reach m e) * 2 ^ e := by
  have hstep := Binary64.ratio_value 1 (e - 2)
  rw [Nat.cast_one, one_mul, zpow_sub₀ two_ne_zero] at hstep
  have hsub : ((4 * m - (if m = 2 ^ 52 && -1074 < e then 1 else 2) : Nat) : ℚ) =
      4 * (m - reach m e) := by
    unfold reach
    by_cases h : m = 2 ^ 52 ∧ -1074 < e
    · rw [if_pos (by simpa using h), if_pos h, Nat.cast_sub (by omega)]
      push_cast
      ring
    · rw [if_neg (by simpa using h), if_neg h, Nat.cast_sub (by omega)]
      push_cast
      ring
  unfold Interval.around
  dsimp only
  rw [Nat.cast_mul, mul_div_assoc, hstep, hsub]
  ring

theorem around_high (m : Nat) (e : Int) :
    ((Interval.around m e).high / (Interval.around m e).den : ℚ) = (m + 1 / 2) * 2 ^ e := by
  have hstep := Binary64.ratio_value 1 (e - 2)
  rw [Nat.cast_one, one_mul, zpow_sub₀ two_ne_zero] at hstep
  unfold Interval.around
  dsimp only
  rw [Nat.cast_mul, mul_div_assoc, hstep]
  push_cast
  ring

theorem closed_around (m : Nat) (e : Int) : (Interval.around m e).closed = decide (m % 2 = 0) :=
  rfl

theorem roundsTo_of_holds {d : Decimal} (hm : 0 < m) (h : (Interval.around m e).holds d = true) :
    RoundsTo d.value m e := by
  have hstep : (0 : ℚ) < 2 ^ e := by positivity
  rw [holds_iff _ (around_den_pos m e), around_low hm, around_high, closed_around] at h
  by_cases heven : m % 2 = 0
  · rw [if_pos (by simpa using heven), ← le_div_iff₀ hstep, ← div_le_iff₀ hstep] at h
    exact ⟨h.1, h.2, fun hodd => absurd heven (by omega)⟩
  · rw [if_neg (by simpa using heven), ← lt_div_iff₀ hstep, ← div_lt_iff₀ hstep] at h
    have hreach : reach m e = 1 / 2 := if_neg fun hpow => heven (by omega)
    exact ⟨h.1.le, h.2.le, fun _ => ⟨hreach ▸ h.1, h.2⟩⟩

theorem holds_of_inside {d : Decimal} (hm : 0 < m) (low : (m - reach m e) * 2 ^ e < d.value)
    (high : d.value < (m + 1 / 2) * 2 ^ e) : (Interval.around m e).holds d = true := by
  rw [holds_iff _ (around_den_pos m e), around_low hm, around_high]
  split
  · exact ⟨low.le, high.le⟩
  · exact ⟨low, high⟩

theorem natDiv_around (num : Nat) (hden : 0 < den) :
    ((num / den : Nat) : ℚ) ≤ num / den ∧ (num / den : ℚ) < (num / den : Nat) + 1 := by
  have hd : (0 : ℚ) < den := by exact_mod_cast hden
  rw [le_div_iff₀ hd, div_lt_iff₀ hd]
  have hlow := Nat.div_mul_le_self num den
  have hhigh := Nat.lt_mul_of_div_lt (Nat.lt_succ_self (num / den)) hden
  exact ⟨by exact_mod_cast hlow, by exact_mod_cast hhigh⟩

theorem neighbours_around (num : Nat) (hden : 0 < den) (p : Int) :
    (neighbours num den p).1.value ≤ num / den ∧
      (num / den : ℚ) < (neighbours num den p).1.value + 10 ^ p := by
  have hgrid : (0 : ℚ) < 10 ^ p := by positivity
  unfold neighbours value
  dsimp only
  rw [← le_div_iff₀ hgrid, ← add_one_mul, ← div_lt_iff₀ hgrid]
  split
  · rename_i h
    have hpos : 0 < den * Nat.pow 10 p.toNat := Nat.mul_pos hden (Nat.pow_pos (by decide))
    have := natDiv_around num hpos
    rwa [Nat.cast_mul, cast_pow_toNat 10 h, Nat.cast_ofNat, ← div_div] at this
  · rename_i h
    have := natDiv_around (num * Nat.pow 10 (-p).toNat) hden
    rwa [Nat.cast_mul, cast_pow_neg_toNat 10 h, Nat.cast_ofNat, mul_div_right_comm,
      ← div_eq_mul_inv] at this

theorem neighbours_apart (num den : Nat) (p : Int) :
    (neighbours num den p).2.value = (neighbours num den p).1.value + 10 ^ p := by
  unfold neighbours value
  dsimp only
  push_cast
  ring

theorem holds_of_onGrid {i : Interval} {d : Decimal} (h : onGrid? num den i p = some d) :
    i.holds d = true := by
  unfold onGrid? at h
  dsimp only at h
  split at h
  · rename_i hlow hhigh
    split at h
    · exact Option.some.inj h ▸ hlow
    · exact Option.some.inj h ▸ hhigh
  · rename_i hlow _
    exact Option.some.inj h ▸ hlow
  · rename_i _ hhigh
    exact Option.some.inj h ▸ hhigh
  · cases h

theorem onGrid_isSome {i : Interval} (h : i.holds (neighbours num den p).1 = true ∨
    i.holds (neighbours num den p).2 = true) : (onGrid? num den i p).isSome = true := by
  unfold onGrid?
  dsimp only
  split
  · rfl
  · rfl
  · rfl
  · rename_i hlow hhigh
    simp [hlow, hhigh] at h

theorem search_spec {i : Interval} {tries k : Nat} (hk : k < tries)
    (hit : (onGrid? num den i (p - k)).isSome = true) :
    ∃ d, search num den i tries p = some d ∧ i.holds d = true := by
  induction tries generalizing p k with
  | zero => omega
  | succ tries ih =>
    unfold search
    split
    · rename_i d hd
      exact ⟨d, rfl, holds_of_onGrid hd⟩
    · rename_i hnone
      cases k with
      | zero =>
        rw [Int.natCast_zero, Int.sub_zero, hnone] at hit
        cases hit
      | succ k =>
        apply ih (Nat.lt_of_succ_lt_succ hk)
        rwa [Int.sub_sub, Int.add_comm, ← Int.natCast_succ]

theorem floorLog10_spec (hnum : 0 < num) (hden : 0 < den) :
    (10 : ℚ) ^ floorLog10 num den ≤ num / den := by
  have hnumLen : 0 < (Nat.toDigits 10 num).length := Nat.length_toDigits_pos
  have hdenLen : 0 < (Nat.toDigits 10 den).length := Nat.length_toDigits_pos
  apply (greatest_pow_spec (show 0 < 10 by decide) (Text.pow_length_toDigits hnum)
    (Text.pow_length_toDigits hden) _ rfl).1
  rw [Text.length_toString, Text.length_toString]
  omega

theorem seventeen_digits (h : Canonical m e) (hm : 0 < m) {num den : Nat} (hden : 0 < den)
    (hvalue : (num / den : ℚ) = m * 2 ^ e) (hplace : (10 : ℚ) ^ (p + 16) ≤ m * 2 ^ e) :
    (Interval.around m e).holds (neighbours num den p).1 = true ∨
      (Interval.around m e).holds (neighbours num den p).2 = true := by
  obtain ⟨hfrom, hto⟩ := neighbours_around num hden p
  have hapart := neighbours_apart num den p
  rw [hvalue] at hfrom hto
  have hstep : (0 : ℚ) < 2 ^ e := by positivity
  have hgrid : (10 : ℚ) ^ p * 10 ^ 16 ≤ m * 2 ^ e := by
    rwa [zpow_add₀ (by decide)] at hplace
  have hlimit : (m : ℚ) + 1 ≤ 2 ^ 53 := by exact_mod_cast h.1
  have hreach : 0 < reach m e * 2 ^ e := by
    apply mul_pos _ hstep
    unfold reach
    split <;> norm_num
  have hwide : (10 : ℚ) ^ p < (reach m e + 1 / 2) * 2 ^ e := by
    unfold reach
    split
    · rename_i hpow
      rw [hpow.1] at hgrid
      push_cast at hgrid
      nlinarith
    · nlinarith
  rcases lt_or_ge ((m - reach m e) * 2 ^ e) (neighbours num den p).1.value with hin | hout
  · left
    apply holds_of_inside hm hin
    linarith
  · right
    apply holds_of_inside hm
    · rw [hapart]
      linarith
    · rw [hapart]
      linarith

theorem roundsTo_shortest (h : Canonical m e) (hm : 0 < m) :
    RoundsTo (shortest m e).value m e := by
  have hvalue := Binary64.ratio_value m e
  have hden := Binary64.ratio_pos m e
  have hstep : (0 : ℚ) < 2 ^ e := by positivity
  unfold shortest
  dsimp only
  generalize (Binary64.ratio m e).1 = num at *
  generalize (Binary64.ratio m e).2 = den at *
  have hnum : 0 < num := by
    apply Nat.pos_of_ne_zero
    rintro rfl
    have hpos : (0 : ℚ) < m * 2 ^ e := mul_pos (by exact_mod_cast hm) hstep
    rw [← hvalue, Nat.cast_zero, zero_div] at hpos
    exact lt_irrefl _ hpos
  have hplace : (10 : ℚ) ^ (floorLog10 num den - (16 : Nat) + 16) ≤ m * 2 ^ e := by
    rw [Nat.cast_ofNat, Int.sub_add_cancel, ← hvalue]
    exact floorLog10_spec hnum hden
  obtain ⟨d, hd, hholds⟩ := search_spec (show 16 < 17 by decide)
    (onGrid_isSome (seventeen_digits h hm hden hvalue hplace))
  rw [hd]
  exact roundsTo_of_holds hm hholds

end Decimal

namespace Binary64

theorem RoundsTo.bounds {x : ℚ} (hround : RoundsTo x m e) (h : Canonical m e) (hm : 0 < m) :
    (2 : ℚ) ^ (-1075 : Int) ≤ x ∧ x < (2 : ℚ) ^ (1024 : Int) := by
  obtain ⟨hlow, hhigh, -⟩ := hround
  have hstep : (0 : ℚ) < 2 ^ e := by positivity
  rw [le_div_iff₀ hstep] at hlow
  rw [div_le_iff₀ hstep] at hhigh
  constructor
  · have hreach : reach m e ≤ 1 / 2 := by
      unfold reach
      split <;> norm_num
    have hone : (1 : ℚ) ≤ m := by exact_mod_cast hm
    calc (2 : ℚ) ^ (-1075 : Int) = 1 / 2 * 2 ^ (-1074 : Int) := by
          rw [show (-1075 : Int) = -1074 - 1 by decide, zpow_sub_one₀ two_ne_zero]
          ring
      _ ≤ 1 / 2 * 2 ^ e := by
          gcongr
          · exact one_le_two
          · exact h.2.1
      _ ≤ (m - reach m e) * 2 ^ e := by
          gcongr
          linarith
      _ ≤ x := hlow
  · have hlimit : (m : ℚ) + 1 ≤ 2 ^ 53 := by exact_mod_cast h.1
    calc x ≤ (m + 1 / 2) * 2 ^ e := hhigh
      _ < 2 ^ 53 * 2 ^ e := by
          gcongr
          linarith
      _ ≤ 2 ^ 53 * 2 ^ (971 : Int) := by
          gcongr
          · exact one_le_two
          · exact h.2.2.1
      _ = (2 : ℚ) ^ (1024 : Int) := by
          rw [show (1024 : Int) = (53 : Nat) + 971 by decide, zpow_add₀ two_ne_zero, zpow_natCast]

theorem RoundsTo.digits_pos {digits : Nat} {exponent : Int}
    (hround : RoundsTo (digits * 10 ^ exponent) m e) (h : Canonical m e) (hm : 0 < m) :
    0 < digits := by
  apply Nat.pos_of_ne_zero
  rintro rfl
  have hleast := (hround.bounds h hm).1
  rw [Nat.cast_zero, zero_mul] at hleast
  exact absurd hleast (not_le.2 (by positivity))

theorem two_zpow_le : (2 : ℚ) ^ (1075 : Int) ≤ 10 ^ (400 : Int) := by
  calc (2 : ℚ) ^ (1075 : Int) = (2 ^ (43 : Int)) ^ (25 : Int) := (zpow_mul 2 43 25)
    _ ≤ (10 ^ (16 : Int)) ^ (25 : Int) := by
        apply zpow_le_zpow_left₀ (by decide) (by positivity)
        norm_num
    _ = 10 ^ (400 : Int) := (zpow_mul 10 16 25).symm

theorem magnitude_bounds {digits : Nat} {exponent : Int} (hdigits : 0 < digits)
    (hleast : (2 : ℚ) ^ (-1075 : Int) ≤ digits * 10 ^ exponent)
    (hmost : (digits * 10 ^ exponent : ℚ) < 2 ^ (1024 : Int)) :
    -400 ≤ exponent + (toString digits).length ∧ exponent + (toString digits).length ≤ 400 := by
  have hlen : 0 < (Nat.toDigits 10 digits).length := Nat.length_toDigits_pos
  have hscale : (0 : ℚ) < 10 ^ exponent := by positivity
  obtain ⟨hfrom, hto⟩ := Text.pow_length_toDigits hdigits
  rw [Text.length_toString]
  generalize (Nat.toDigits 10 digits).length = len at *
  constructor
  · have hlast : (10 : ℚ) ^ (-400 : Int) < 10 ^ (len + exponent) := by
      calc (10 : ℚ) ^ (-400 : Int) ≤ 2 ^ (-1075 : Int) := by
            rw [zpow_neg, zpow_neg]
            exact inv_anti₀ (by positivity) two_zpow_le
        _ ≤ digits * 10 ^ exponent := hleast
        _ < 10 ^ len * 10 ^ exponent := by
            gcongr
            rw [Nat.sub_add_cancel hlen] at hto
            exact_mod_cast hto
        _ = 10 ^ (len + exponent) := by rw [zpow_add₀ (by decide), zpow_natCast]
    rw [zpow_lt_zpow_iff_right₀ (by norm_num)] at hlast
    omega
  · have hfirst : (10 : ℚ) ^ ((len - 1 : Nat) + exponent) < 10 ^ (400 : Int) := by
      calc (10 : ℚ) ^ ((len - 1 : Nat) + exponent) = 10 ^ (len - 1) * 10 ^ exponent := by
            rw [zpow_add₀ (by decide), zpow_natCast]
        _ ≤ digits * 10 ^ exponent := by
            gcongr
            exact_mod_cast hfrom
        _ < 2 ^ (1024 : Int) := hmost
        _ ≤ 2 ^ (1075 : Int) := zpow_le_zpow_right₀ one_le_two (by decide)
        _ ≤ 10 ^ (400 : Int) := two_zpow_le
    rw [zpow_lt_zpow_iff_right₀ (by norm_num)] at hfirst
    omega

theorem ofDecimal_eq {negative : Bool} {digits : Nat} {exponent : Int} (h : Canonical m e)
    (hm : 0 < m) (hround : RoundsTo (digits * 10 ^ exponent) m e) :
    ofDecimal negative digits exponent = .finite negative m e h := by
  obtain ⟨hleast, hmost⟩ := hround.bounds h hm
  have hdigits := hround.digits_pos h hm
  obtain ⟨hsmall, hlarge⟩ := magnitude_bounds hdigits hleast hmost
  unfold ofDecimal
  dsimp only
  rw [if_neg hdigits.ne', if_neg (by omega), if_neg (by omega)]
  split
  · rename_i hexp
    have hpow : 0 < Nat.pow 10 exponent.toNat := Nat.pow_pos (by decide)
    apply ofRatio_eq (Nat.mul_pos hdigits hpow) Nat.one_pos h
    rwa [Nat.cast_mul, cast_pow_toNat 10 hexp, Nat.cast_one, div_one, Nat.cast_ofNat]
  · rename_i hexp
    have hpow : 0 < Nat.pow 10 (-exponent).toNat := Nat.pow_pos (by decide)
    apply ofRatio_eq hdigits hpow h
    rwa [cast_pow_neg_toNat 10 hexp, div_inv_eq_mul, Nat.cast_ofNat]

end Binary64

end Steward.Number
