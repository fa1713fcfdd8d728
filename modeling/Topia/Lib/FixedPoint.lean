import Mathlib.Data.Real.Basic
import Mathlib.Tactic.FieldSimp
import Mathlib.Tactic.Linarith
import Mathlib.Tactic.LinearCombination
import Mathlib.Tactic.Ring

/-!
# Arithmetic with a fixed point

A number is an integer in units of `1 / P`.  A product of two numbers is shifted back, which
rounds down.  The results here say how far such a computation is from the exact one, for factors
between 0 and a bound.
-/

namespace Topia.Lib.FixedPoint

section Division

variable {a b : ℤ}

theorem ediv_le_div (hb : 0 < b) : ((a / b : ℤ) : ℝ) ≤ (a : ℝ) / b := by
  have hb' : (0 : ℝ) < b := Int.cast_pos.mpr hb
  rw [le_div_iff₀ hb']
  exact_mod_cast Int.ediv_mul_le a hb.ne'

theorem div_sub_one_lt_ediv (hb : 0 < b) : (a : ℝ) / b - 1 < ((a / b : ℤ) : ℝ) := by
  have hb' : (0 : ℝ) < b := Int.cast_pos.mpr hb
  rw [sub_lt_iff_lt_add, div_lt_iff₀ hb']
  exact_mod_cast Int.lt_ediv_add_one_mul_self a hb

end Division

section Horner

variable {P x : ℤ} {K : ℕ}

theorem horner_step (hP : 0 < P) (hx : 0 ≤ x) (hxK : x ≤ K * P) (c : ℤ) {res : ℤ}
    {value err : ℝ} (hlow : 0 ≤ value - res) (hhigh : value - res ≤ err) :
    0 ≤ value * ((x : ℝ) / P) + c - (res * x / P + c : ℤ) ∧
      value * ((x : ℝ) / P) + c - (res * x / P + c : ℤ) ≤ K * err + 1 := by
  have hP' : (0 : ℝ) < P := Int.cast_pos.mpr hP
  have ht : 0 ≤ (x : ℝ) / P := div_nonneg (Int.cast_nonneg hx) hP'.le
  have htK : (x : ℝ) / P ≤ K := by
    rw [div_le_iff₀ hP']
    exact_mod_cast hxK
  have hdiv : ((res * x : ℤ) : ℝ) / P = res * ((x : ℝ) / P) := by rw [Int.cast_mul, mul_div_assoc]
  have hdown := @ediv_le_div (res * x) P hP
  have hup := @div_sub_one_lt_ediv (res * x) P hP
  rw [Int.cast_add]
  have hgap : 0 ≤ (value - res) * ((x : ℝ) / P) := mul_nonneg hlow ht
  have hgap' : (value - res) * ((x : ℝ) / P) ≤ K * err := by
    calc (value - res) * ((x : ℝ) / P) ≤ (value - res) * K := mul_le_mul_of_nonneg_left htK hlow
      _ ≤ err * K := mul_le_mul_of_nonneg_right hhigh (Nat.cast_nonneg K)
      _ = K * err := mul_comm _ _
  constructor <;> linarith

theorem horner_error (hP : 0 < P) (hx : 0 ≤ x) (hxK : x ≤ K * P) (coefs : List ℤ) {res : ℤ}
    {value err : ℝ} (hlow : 0 ≤ value - res) (hhigh : value - res ≤ err) :
    0 ≤ coefs.foldl (fun (value : ℝ) (c : ℤ) => value * ((x : ℝ) / P) + c) value -
        (coefs.foldl (fun res c => res * x / P + c) res : ℤ) ∧
      coefs.foldl (fun (value : ℝ) (c : ℤ) => value * ((x : ℝ) / P) + c) value -
          (coefs.foldl (fun res c => res * x / P + c) res : ℤ) ≤
        (fun err : ℝ => K * err + 1)^[coefs.length] err := by
  induction coefs generalizing res value err with
  | nil => exact ⟨hlow, hhigh⟩
  | cons c coefs ih =>
    obtain ⟨hlow', hhigh'⟩ := horner_step hP hx hxK c hlow hhigh
    exact ih hlow' hhigh'

theorem iterate_error (K : ℝ) (n : ℕ) :
    (K - 1) * (fun err : ℝ => K * err + 1)^[n] 0 = K ^ n - 1 := by
  induction n with
  | zero => simp
  | succ n ih =>
    rw [Function.iterate_succ_apply', pow_succ]
    linear_combination K * ih

theorem last_le_horner (hP : 0 < P) (hx : 0 ≤ x) (c : ℤ) {coefs : List ℤ} {res : ℤ}
    (hres : 0 ≤ res) (hcoefs : ∀ c ∈ coefs, 0 ≤ c) :
    c ≤ (coefs ++ [c]).foldl (fun res c => res * x / P + c) res := by
  induction coefs generalizing res with
  | nil => exact le_add_of_nonneg_left (Int.ediv_nonneg (mul_nonneg hres hx) hP.le)
  | cons d coefs ih =>
    obtain ⟨hd, hcoefs⟩ := List.forall_mem_cons.mp hcoefs
    exact ih (add_nonneg (Int.ediv_nonneg (mul_nonneg hres hx) hP.le) hd) hcoefs

end Horner

section Quotient

variable {P num deno : ℤ} {n d a b : ℝ}

theorem quotient_error (hP : 0 < P) (hdeno : P ≤ deno) (hn : 0 ≤ n) (hnd : n ≤ d)
    (hnum : 0 ≤ n - num) (hnum' : n - num ≤ a) (hden : 0 ≤ d - deno) (hden' : d - deno ≤ b) :
    -(a + 1) ≤ (num * P / deno : ℤ) - P * (n / d) ∧ (num * P / deno : ℤ) - P * (n / d) ≤ b := by
  have hP' : (0 : ℝ) < P := Int.cast_pos.mpr hP
  have hpos : 0 < deno := lt_of_lt_of_le hP hdeno
  have hpos' : (0 : ℝ) < deno := Int.cast_pos.mpr hpos
  have hdeno' : (P : ℝ) ≤ deno := Int.cast_le.mpr hdeno
  have hd : 0 < d := by linarith
  have hdown := @ediv_le_div (num * P) deno hpos
  have hup := @div_sub_one_lt_ediv (num * P) deno hpos
  rw [Int.cast_mul] at hdown hup
  -- the difference of the exact quotients
  have hdiff : (num : ℝ) * P / deno - P * (n / d) =
      P * (n * (d - deno) - (n - num) * d) / (d * deno) := by
    field_simp
    ring
  have hle : (P : ℝ) * (n * (d - deno) - (n - num) * d) / (d * deno) ≤ b := by
    rw [div_le_iff₀ (mul_pos hd hpos')]
    have hfirst : n * (d - deno) ≤ d * b := mul_le_mul hnd hden' hden hd.le
    have hsecond : 0 ≤ (n - num) * d := mul_nonneg hnum hd.le
    have hb : 0 ≤ d * b := le_trans (mul_nonneg hn hden) hfirst
    calc (P : ℝ) * (n * (d - deno) - (n - num) * d) ≤ P * (d * b) :=
          mul_le_mul_of_nonneg_left (by linarith) hP'.le
      _ ≤ deno * (d * b) := mul_le_mul_of_nonneg_right hdeno' hb
      _ = b * (d * deno) := by ring
  have hge : -a ≤ (P : ℝ) * (n * (d - deno) - (n - num) * d) / (d * deno) := by
    rw [le_div_iff₀ (mul_pos hd hpos')]
    have hfirst : 0 ≤ n * (d - deno) := mul_nonneg hn hden
    have hsecond : (n - num) * d ≤ a * d := mul_le_mul_of_nonneg_right hnum' hd.le
    have ha : 0 ≤ a * d := le_trans (mul_nonneg hnum hd.le) hsecond
    calc -a * (d * deno) = -(deno * (a * d)) := by ring
      _ ≤ -(P * (a * d)) := neg_le_neg (mul_le_mul_of_nonneg_right hdeno' ha)
      _ = P * -(a * d) := by ring
      _ ≤ P * (n * (d - deno) - (n - num) * d) :=
          mul_le_mul_of_nonneg_left (by linarith) hP'.le
  constructor <;> linarith

end Quotient

section Step

variable {P x a k : ℤ} {K : ℕ} {v : ℝ}

theorem step_error (hP : 0 < P) (hx : 0 ≤ x) (hxK : x ≤ K * P) (hk : 0 < k) :
    |((a / k * x / P : ℤ) : ℝ) - v / k * ((x : ℝ) / P)| ≤ K * |a - v| + (K + 1) := by
  have hP' : (0 : ℝ) < P := Int.cast_pos.mpr hP
  have hk' : (1 : ℝ) ≤ k := by exact_mod_cast hk
  have ht : 0 ≤ (x : ℝ) / P := div_nonneg (Int.cast_nonneg hx) hP'.le
  have htK : (x : ℝ) / P ≤ K := by
    rw [div_le_iff₀ hP']
    exact_mod_cast hxK
  have hdown := @ediv_le_div (a / k * x) P hP
  have hup := @div_sub_one_lt_ediv (a / k * x) P hP
  rw [Int.cast_mul, mul_div_assoc] at hdown hup
  have hdown' := mul_le_mul_of_nonneg_right (@ediv_le_div a k hk) ht
  have hup' := mul_le_mul_of_nonneg_right (@div_sub_one_lt_ediv a k hk).le ht
  -- the distance of the exact quotients is not larger than that of the values
  have hdist : |(a - v) / k * ((x : ℝ) / P)| ≤ K * |a - v| := by
    rw [abs_mul, abs_div, abs_of_nonneg ht, abs_of_pos (lt_of_lt_of_le one_pos hk'), mul_comm]
    refine mul_le_mul htK ?_ (by positivity) (Nat.cast_nonneg K)
    exact div_le_self (abs_nonneg _) hk'
  have hsplit : (a : ℝ) / k * ((x : ℝ) / P) - v / k * ((x : ℝ) / P) =
      (a - v) / k * ((x : ℝ) / P) := by
    ring
  obtain ⟨hlow, hhigh⟩ := abs_le.mp hdist
  rw [abs_le]
  constructor <;> linarith

end Step

end Topia.Lib.FixedPoint
