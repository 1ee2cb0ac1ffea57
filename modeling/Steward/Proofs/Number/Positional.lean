import Mathlib.Data.List.TakeWhile
import Steward.Proofs.Number.Shortest
/-!
The positional text of a decimal: digits, and after a point the places that are not zero at the
end. Read as one run of digits it stands for the decimal.
-/
namespace Steward.Number.Decimal

open Nat (toDigits)
open Text (IsNumeral isDigit valueOf)

structure Places (d : Decimal) (whole fraction : List Char) : Prop where
  numeral : IsNumeral whole
  digits : ∀ c ∈ fraction, isDigit c = true
  value : (valueOf (whole ++ fraction) * 10 ^ (-(fraction.length : Int)) : ℚ) = d.value

variable {d : Decimal} {whole fraction : List Char}

theorem places_zeros (k : Nat) :
    Places d whole (fraction ++ List.replicate k '0') ↔ Places d whole fraction := by
  have hvalue : (valueOf (whole ++ (fraction ++ List.replicate k '0'))
        * 10 ^ (-((fraction ++ List.replicate k '0').length : Int)) : ℚ) =
      valueOf (whole ++ fraction) * 10 ^ (-(fraction.length : Int)) := by
    rw [← List.append_assoc, Text.valueOf_append_zeros, List.length_append, List.length_replicate]
    push_cast
    rw [neg_add, zpow_add₀ (by decide), zpow_neg _ (k : Int), zpow_natCast]
    field_simp
  constructor
  · intro h
    exact ⟨h.numeral, fun c hc => h.digits c (List.mem_append_left _ hc), hvalue ▸ h.value⟩
  · intro h
    refine ⟨h.numeral, ?_, hvalue.trans h.value⟩
    intro c hc
    rcases List.mem_append.1 hc with hc | hc
    · exact h.digits c hc
    · rw [List.eq_of_mem_replicate hc]
      decide

theorem exists_zeros (ds : List Char) :
    ∃ k, (ds.reverse.dropWhile (· == '0')).reverse ++ List.replicate k '0' = ds := by
  refine ⟨(ds.reverse.takeWhile (· == '0')).length, ?_⟩
  have hzeros : ds.reverse.takeWhile (· == '0') =
      List.replicate (ds.reverse.takeWhile (· == '0')).length '0' := by
    apply List.eq_replicate_of_mem
    intro c hc
    simpa using List.mem_takeWhile_imp hc
  rw [← List.reverse_replicate, ← hzeros, ← List.reverse_append,
    List.takeWhile_append_dropWhile, List.reverse_reverse]

theorem places_whole (hd : 0 < d.digits) (h : 0 ≤ d.exponent) :
    Places d (toDigits 10 d.digits ++ List.replicate d.exponent.toNat '0') [] where
  numeral := by
    apply Text.isNumeral_of_head hd
    · simp
    · intro c hc
      rcases List.mem_append.1 hc with hc | hc
      · exact Text.isDigit_of_mem_toDigits hc
      · rw [List.eq_of_mem_replicate hc]
        decide
    · rw [List.head?_append_of_ne_nil _ Nat.toDigits_ne_nil]
  digits := by simp
  value := by
    rw [List.append_nil, Text.valueOf_append_zeros, Text.valueOf_toDigits]
    unfold value
    obtain ⟨n, hn⟩ := Int.eq_ofNat_of_zero_le h
    rw [hn, Int.toNat_natCast, zpow_natCast]
    push_cast
    simp [mul_comm]

theorem places_parted (hd : 0 < d.digits) (h : ¬ 0 ≤ d.exponent) {digits : List Char}
    {places whole : Nat} (hdigits : digits = toDigits 10 d.digits)
    (hplaces : places = (-d.exponent).toNat) (hwhole : whole = digits.length - places) :
    Places d (if whole = 0 then ['0'] else digits.take whole)
      (List.replicate (places - digits.length) '0' ++ digits.drop whole) where
  numeral := by
    split
    · exact Text.isNumeral_zero
    · have hlen : 0 < digits.length := by omega
      apply Text.isNumeral_of_head hd
      · intro hnil
        have := congrArg List.length hnil
        rw [List.length_take, List.length_nil] at this
        omega
      · intro c hc
        exact Text.isDigit_of_mem_toDigits (hdigits ▸ List.mem_of_mem_take hc)
      · rw [List.head?_take, if_neg ‹_›, hdigits]
  digits := by
    intro c hc
    rcases List.mem_append.1 hc with hc | hc
    · rw [List.eq_of_mem_replicate hc]
      decide
    · exact Text.isDigit_of_mem_toDigits (hdigits ▸ List.mem_of_mem_drop hc)
  value := by
    have hlen : (List.replicate (places - digits.length) '0' ++ digits.drop whole).length =
        places := by
      rw [List.length_append, List.length_replicate, List.length_drop]
      omega
    have hvalue : valueOf ((if whole = 0 then ['0'] else digits.take whole) ++
        (List.replicate (places - digits.length) '0' ++ digits.drop whole)) = d.digits := by
      split
      · rename_i hzero
        rw [hzero, List.drop_zero, ← List.replicate_one, Text.valueOf_zeros_append,
          Text.valueOf_zeros_append, hdigits, Text.valueOf_toDigits]
      · rw [show places - digits.length = 0 by omega, List.replicate_zero, List.nil_append,
          List.take_append_drop, hdigits, Text.valueOf_toDigits]
    unfold value
    rw [hlen, hvalue, hplaces, Int.toNat_of_nonneg (by omega), neg_neg]

theorem text_spec (hd : 0 < d.digits) : ∃ whole fraction, Places d whole fraction ∧
    d.text = if fraction = [] then whole else whole ++ '.' :: fraction := by
  unfold text
  rw [Text.toList_toString]
  dsimp only
  split
  · rename_i h
    exact ⟨_, [], places_whole hd h, (if_pos rfl).symm⟩
  · rename_i h
    have hparted := places_parted hd h rfl rfl rfl
    obtain ⟨k, hk⟩ := exists_zeros (List.replicate
      ((-d.exponent).toNat - (toDigits 10 d.digits).length) '0' ++
        (toDigits 10 d.digits).drop ((toDigits 10 d.digits).length - (-d.exponent).toNat))
    rw [← hk, places_zeros] at hparted
    refine ⟨_, _, hparted, ?_⟩
    simp only [List.isEmpty_iff]

end Steward.Number.Decimal
