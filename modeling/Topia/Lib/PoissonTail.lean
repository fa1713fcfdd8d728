import Mathlib.Analysis.Calculus.Deriv.MeanValue
import Mathlib.Analysis.Calculus.Deriv.Pow
import Mathlib.Topology.Algebra.Module.ModuleTopology

/-!
# The tail of a Poisson distribution

The probability that a Poisson variable with mean `t` is larger than `j` is `1` minus `exp (-t)`
times the first terms of the exponential series. Here a function `R` stands in the place of `exp
(-t)`.

The derivative of the tail has a term that is not negative and one with the factor `-(R' + R)`,
which is zero for `exp (-t)`. When that factor has a positive lower bound the tail grows at least at
that rate.
-/

namespace Topia.Lib.PoissonTail

variable (j : ℕ) (t : ℝ)

noncomputable def partialExp : ℝ :=
  ∑ k ∈ Finset.range (j + 1), t ^ k / k.factorial

theorem partialExp_zero : partialExp 0 t = 1 := by
  simp [partialExp]

theorem partialExp_succ : partialExp (j + 1) t = partialExp j t + t ^ (j + 1) / (j + 1).factorial :=
  Finset.sum_range_succ _ _

theorem one_le_partialExp {t : ℝ} (ht : 0 ≤ t) (j : ℕ) : 1 ≤ partialExp j t := by
  induction j with
  | zero => rw [partialExp_zero]
  | succ j ih =>
    rw [partialExp_succ]
    have hterm : 0 ≤ t ^ (j + 1) / ((j + 1).factorial : ℝ) := by positivity
    linarith

theorem hasDerivAt_partialExp :
    HasDerivAt (partialExp j) (partialExp j t - t ^ j / j.factorial) t := by
  induction j with
  | zero =>
    have hconst : partialExp 0 = fun _ => (1 : ℝ) := funext partialExp_zero
    rw [hconst]
    refine (hasDerivAt_const t (1 : ℝ)).congr_deriv ?_
    simp
  | succ j ih =>
    have hsum : partialExp (j + 1) =
        fun t => partialExp j t + t ^ (j + 1) / ((j + 1).factorial : ℝ) :=
      funext (partialExp_succ j)
    have hterm : HasDerivAt (fun t : ℝ => t ^ (j + 1) / ((j + 1).factorial : ℝ))
        (t ^ j / j.factorial) t := by
      refine ((hasDerivAt_pow (j + 1) t).div_const _).congr_deriv ?_
      rw [Nat.factorial_succ, Nat.cast_mul, Nat.add_sub_cancel]
      have hsucc : ((j + 1 : ℕ) : ℝ) ≠ 0 := Nat.cast_ne_zero.mpr (Nat.succ_ne_zero j)
      rw [mul_div_mul_left _ _ hsucc]
    rw [hsum]
    refine (ih.add hterm).congr_deriv ?_
    simp [add_sub_cancel_right, sub_add_cancel]

section Tail

variable {R R' : ℝ → ℝ} {b c s t : ℝ}

noncomputable def tail (R : ℝ → ℝ) (j : ℕ) (t : ℝ) : ℝ :=
  1 - R t * partialExp j t

theorem tail_zero (R : ℝ → ℝ) (t : ℝ) : tail R 0 t = 1 - R t := by
  rw [tail, partialExp_zero, mul_one]

theorem tail_succ (R : ℝ → ℝ) (j : ℕ) (t : ℝ) :
    tail R (j + 1) t = tail R j t - R t * (t ^ (j + 1) / (j + 1).factorial) := by
  rw [tail, tail, partialExp_succ]
  ring

theorem hasDerivAt_tail (j : ℕ) (hR : HasDerivAt R (R' t) t) :
    HasDerivAt (tail R j)
      (-(R' t + R t) * partialExp j t + R t * (t ^ j / j.factorial)) t := by
  refine ((hR.mul (hasDerivAt_partialExp j t)).const_sub 1).congr_deriv ?_
  ring

/-- **The tail grows at the rate by which `R` falls faster than the exponential.** -/
theorem le_tail_sub_tail (j : ℕ) (hR : ∀ u ∈ Set.Icc 0 b, HasDerivAt R (R' u) u)
    (hpos : ∀ u ∈ Set.Icc 0 b, 0 ≤ R u) (hc : 0 ≤ c) (hrate : ∀ u ∈ Set.Icc 0 b, c ≤ -(R' u + R u))
    (hs : 0 ≤ s) (hst : s ≤ t) (htb : t ≤ b) : c * (t - s) ≤ tail R j t - tail R j s := by
  have hderiv : ∀ u ∈ Set.Icc 0 b, HasDerivAt (tail R j)
      (-(R' u + R u) * partialExp j u + R u * (u ^ j / j.factorial)) u :=
    fun u hu => hasDerivAt_tail j (hR u hu)
  refine (convex_Icc 0 b).mul_sub_le_image_sub_of_le_deriv
    (fun u hu => (hderiv u hu).continuousAt.continuousWithinAt)
    (fun u hu => (hderiv u (interior_subset hu)).differentiableAt.differentiableWithinAt)
    (fun u hu => ?_) s ⟨hs, hst.trans htb⟩ t ⟨hs.trans hst, htb⟩ hst
  have hmem := interior_subset hu
  rw [(hderiv u hmem).deriv]
  have hseries := one_le_partialExp hmem.1 j
  have hterm : 0 ≤ R u * (u ^ j / j.factorial) :=
    mul_nonneg (hpos u hmem) (div_nonneg (pow_nonneg hmem.1 j) (Nat.cast_nonneg _))
  have hgrow : c ≤ -(R' u + R u) * partialExp j u := by
    calc c ≤ -(R' u + R u) := hrate u hmem
      _ ≤ -(R' u + R u) * partialExp j u :=
        le_mul_of_one_le_right (hc.trans (hrate u hmem)) hseries
  linarith

end Tail

end Topia.Lib.PoissonTail
