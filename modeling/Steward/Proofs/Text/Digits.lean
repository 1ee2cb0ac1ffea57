import Mathlib.Algebra.Group.Nat.Defs
import Steward.Text.Basic
/-!
Natural numbers in decimal digits, and the numbers that runs of digits stand for.
-/
namespace Steward.Text

open Nat (toDigits ofDigitChars)

variable {n : Nat} {c : Char}

theorem isDigit_of_mem_toDigits (h : c ∈ toDigits 10 n) : isDigit c = true := by
  have hdigit := Nat.isDigit_of_mem_toDigits (by decide) (by decide) h
  simpa [Char.isDigit, isDigit, Char.le_def] using hdigit

theorem eq_zero_of_toDigits {ds : List Char} (h : toDigits 10 n = '0' :: ds) : n = 0 := by
  induction n using Nat.strongRecOn generalizing ds with
  | ind n ih =>
    rw [Nat.toDigits_eq_if (by decide)] at h
    split at h
    · exact Nat.digitChar_eq_zero.1 (List.cons.inj h).1
    · rename_i hlarge
      rcases hfront : toDigits 10 (n / 10) with _ | ⟨c, cs⟩
      · exact absurd hfront Nat.toDigits_ne_nil
      · rw [hfront, List.cons_append] at h
        rw [(List.cons.inj h).1] at hfront
        have hzero := ih (n / 10) (by omega) hfront
        omega

theorem toList_toString (n : Nat) : (toString n).toList = toDigits 10 n := by
  rw [Nat.toString_eq_ofList_toDigits, String.toList_ofList]

theorem length_toString (n : Nat) : (toString n).length = (toDigits 10 n).length := by
  rw [Nat.toString_eq_ofList_toDigits, String.length_ofList]

theorem pow_length_toDigits (h : 0 < n) :
    10 ^ ((toDigits 10 n).length - 1) ≤ n ∧ n < 10 ^ ((toDigits 10 n).length - 1 + 1) := by
  have hlen : 0 < (toDigits 10 n).length := Nat.length_toDigits_pos
  rw [Nat.sub_add_cancel hlen]
  constructor
  · rcases Nat.eq_zero_or_pos ((toDigits 10 n).length - 1) with hone | hmore
    · rw [hone]
      exact h
    · apply Nat.le_of_not_lt
      intro hlt
      have := (Nat.length_toDigits_le_iff (by decide) hmore).2 hlt
      omega
  · exact (Nat.length_toDigits_le_iff (by decide) hlen).1 (Nat.le_refl _)

theorem valueOf_toDigits (n : Nat) : valueOf (toDigits 10 n) = n :=
  Nat.ofDigitChars_ten_toDigits

theorem valueOf_append (as bs : List Char) :
    valueOf (as ++ bs) = 10 ^ bs.length * valueOf as + valueOf bs :=
  (Nat.ofDigitChars_append 0).trans Nat.ofDigitChars_eq_ofDigitChars_zero

theorem valueOf_zeros (k : Nat) : valueOf (List.replicate k '0') = 0 := by
  induction k with
  | zero => rfl
  | succ k ih =>
    rw [List.replicate_succ', valueOf_append, ih]
    rfl

theorem valueOf_append_zeros (ds : List Char) (k : Nat) :
    valueOf (ds ++ List.replicate k '0') = 10 ^ k * valueOf ds := by
  rw [valueOf_append, valueOf_zeros, List.length_replicate, Nat.add_zero]

theorem valueOf_zeros_append (ds : List Char) (k : Nat) :
    valueOf (List.replicate k '0' ++ ds) = valueOf ds := by
  rw [valueOf_append, valueOf_zeros, Nat.mul_zero, Nat.zero_add]

structure IsNumeral (ds : List Char) : Prop where
  some : ds ≠ []
  digits : ∀ c ∈ ds, isDigit c = true
  lone : ∀ more, ds = '0' :: more → more = []

theorem isNumeral_zero : IsNumeral ['0'] :=
  ⟨by decide, by simp [isDigit], fun _ h => (List.cons.inj h).2.symm⟩

theorem isNumeral_toDigits (n : Nat) : IsNumeral (toDigits 10 n) where
  some := Nat.toDigits_ne_nil
  digits := fun _ => isDigit_of_mem_toDigits
  lone := by
    intro more h
    obtain rfl := eq_zero_of_toDigits h
    rw [Nat.toDigits_zero] at h
    exact (List.cons.inj h).2.symm

theorem isNumeral_of_head (h : 0 < n) {ds : List Char} (hsome : ds ≠ [])
    (hdigits : ∀ c ∈ ds, isDigit c = true) (hhead : ds.head? = (toDigits 10 n).head?) :
    IsNumeral ds where
  some := hsome
  digits := hdigits
  lone := by
    rintro more rfl
    obtain ⟨c, cs, hcs⟩ := List.exists_cons_of_ne_nil (@Nat.toDigits_ne_nil n 10)
    rw [hcs] at hhead
    cases hhead
    exact absurd (eq_zero_of_toDigits hcs) (Nat.ne_of_gt h)

end Steward.Text
