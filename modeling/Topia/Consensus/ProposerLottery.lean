import Mathlib.Analysis.Calculus.Deriv.Inv
import Mathlib.Analysis.Calculus.Deriv.Polynomial
import Topia.Common
import Topia.Lib.FixedPoint
import Topia.Lib.IntPoly
import Topia.Lib.PoissonTail

/-!
# The lottery for the proposer

`consensus/vrf/proposer_selector_poiss.go`: the hash of the random proof is compared with the tails
of a Poisson distribution, whose mean is five times the part of the node in the total weight. All
numbers are integers in units of `1 / 2 ^ 256`, and `exp (-x)` is a quotient of two polynomials.

All operations round. The exact tail, with the quotient as the exponential, grows by at least `2 ^
(-99)` times the difference of the means, as the quotient falls faster than the exponential; that is
more than the rounding loses.
-/

namespace Topia.Consensus.Vrf

open Lib

section Source

def precision : ℕ := 256

def blocksPerEpoch : ℤ := 5

def num : List ℤ := [-648770010757830093818553637600,
  67469480939593786226847644286976, -3197587544499098424029388939001856,
  89244641121992890118377641805348864, -1579656163641440567800982336819953664,
  17685496037279256458459817590917169152, -115682590513835356866803355398940131328,
  340282366920938463463374607431768211456]

def deno : List ℤ := [1225524182432722209606361,
  114095592300906098243859450, 5665570424063336070530214243,
  194450132448609991765137938448, 5068267641632683791026134915072,
  104716890604972796896895427629056, 1748338658439454459487681798864896,
  23704654329841312470660182937960448, 259380097567996910282699886670381056,
  2250336698853390384720606936038375424, 14978272436876548034486263159246028800,
  72144088983913131323343765784380833792, 224599776407103106596571252037123047424,
  340282366920938463463374607431768211456]

def parse (coefs : List ℤ) : List ℤ :=
  coefs.map (· * 2 ^ (precision - 128))

def expNumCoef : List ℤ :=
  parse num

def expDenoCoef : List ℤ :=
  parse deno

def div (x y : ℤ) : Option ℤ :=
  if y = 0 then none else some (x / y)

def polyval : List ℤ → ℤ → ℤ
  | [], _ => 0
  | c :: p, x => p.foldl (fun res c => res * x / 2 ^ precision + c) c

def expneg (x : ℤ) : Option ℤ :=
  div (polyval expNumCoef x * 2 ^ precision) (polyval expDenoCoef x)

def lambda (weight totalWeight : ℤ) : Option ℤ :=
  div (weight * blocksPerEpoch * 2 ^ precision) totalWeight

def MaxWinCount : ℕ := 26

structure Poiss where
  (lam pmf icdf : ℤ)
  k : ℕ
deriving DecidableEq, Repr

def newPoiss (lambda : ℤ) : Option Poiss := do
  let elam ← expneg lambda
  return { lam := lambda, pmf := elam, icdf := 2 ^ precision - elam, k := 0 }

/-- `next`, which returns the new `icdf`. The `uint64` is at most `MaxWinCount`. -/
def Poiss.next (p : Poiss) : Poiss :=
  let k := p.k + 1
  let pmf := p.pmf / k * p.lam / 2 ^ precision
  { p with k := k, pmf := pmf, icdf := p.icdf - pmf }

def winCount (lhs : ℤ) : (remaining : ℕ) → Poiss → ℕ
  | 0, _ => 0
  | remaining + 1, p => if lhs < p.icdf then winCount lhs remaining p.next + 1 else 0

def SelectProposer (blake2b : Bytes → Bytes) (VRFProof : Bytes) (weight totalWeight : ℤ) :
    Option ℕ := do
  let lam ← lambda weight totalWeight
  let p ← newPoiss lam
  return winCount (setBytes (blake2b VRFProof)) MaxWinCount p

theorem div_of_pos {x y : ℤ} (hy : 0 < y) : div x y = some (x / y) :=
  if_neg hy.ne'

end Source

open PoissonTail Polynomial

section Ratio

open IntPoly

noncomputable def numer (t : ℝ) : ℝ :=
  (toPoly num.reverse).eval t

noncomputable def denom (t : ℝ) : ℝ :=
  (toPoly deno.reverse).eval t

noncomputable def ratio (t : ℝ) : ℝ :=
  numer t / denom t

def rate : List ℤ :=
  add (mul num.reverse (derivative deno.reverse))
    (add (smul (-1) (mul (derivative num.reverse) deno.reverse))
      (smul (-1) (mul num.reverse deno.reverse)))

variable {t : ℝ}

theorem one_le_numer (ht : 0 ≤ t) (ht' : t ≤ 5) : 1 ≤ numer t := by
  have hcheck : forced (add num.reverse [-1]) (check 1 0 [2, 2, 2]) = true := by decide +kernel
  have hnonneg := nonneg_of_check (t := t) one_ne_zero hcheck (by simpa using ht)
    (by norm_num; linarith)
  rw [toPoly_add, eval_add] at hnonneg
  simp only [eval_toPoly_cons, eval_toPoly_nil] at hnonneg
  unfold numer
  push_cast at hnonneg
  linarith

theorem numer_le (ht : 0 ≤ t) (ht' : t ≤ 5) : numer t ≤ 2 ^ 128 := by
  have hcheck : forced (smul (-1) num.reverse.tail) (check 1 0 [6]) = true := by decide +kernel
  have hnonneg := nonneg_of_check (t := t) one_ne_zero hcheck (by simpa using ht)
    (by norm_num; linarith)
  rw [toPoly_smul, eval_mul, eval_C] at hnonneg
  have hcons : num.reverse = 2 ^ 128 :: num.reverse.tail := by decide +kernel
  have hprod := mul_nonneg ht hnonneg
  unfold numer
  rw [hcons, eval_toPoly_cons]
  push_cast at hprod ⊢
  linarith

theorem le_denom (ht : 0 ≤ t) : 2 ^ 128 ≤ denom t := by
  have hcoefs : ∀ c ∈ deno.reverse.tail, 0 ≤ c := by decide +kernel
  have hconst := const_le_eval (c := 2 ^ 128) ht hcoefs
  exact_mod_cast hconst

theorem denom_pos (ht : 0 ≤ t) : 0 < denom t :=
  lt_of_lt_of_le (by positivity) (le_denom ht)

noncomputable def ratio' (t : ℝ) : ℝ :=
  ((toPoly (derivative num.reverse)).eval t * denom t -
    numer t * (toPoly (derivative deno.reverse)).eval t) / denom t ^ 2

theorem hasDerivAt_ratio (ht : 0 ≤ t) : HasDerivAt ratio (ratio' t) t := by
  have hnumer : HasDerivAt numer ((toPoly (derivative num.reverse)).eval t) t := by
    rw [toPoly_derivative]
    exact (toPoly num.reverse).hasDerivAt t
  have hdenom : HasDerivAt denom ((toPoly (derivative deno.reverse)).eval t) t := by
    rw [toPoly_derivative]
    exact (toPoly deno.reverse).hasDerivAt t
  exact hnumer.div hdenom (denom_pos ht).ne'

theorem le_rate (ht : 0 ≤ t) (ht' : t ≤ 5) : (2 ^ 99 : ℝ)⁻¹ ≤ -(ratio' t + ratio t) := by
  have hcheck : forced
      (add (smul (2 ^ 99) rate) (smul (-1) (mul deno.reverse deno.reverse)))
      (check 256 0 [3, 8, 15, 24, 38, 50, 58, 60, 56, 51, 39, 26, 23, 830]) = true := by
    decide +kernel
  have hnonneg := nonneg_of_check (t := t) (by norm_num) hcheck (by simpa using ht)
    (by norm_num; linarith)
  simp only [rate, toPoly_add, toPoly_smul, toPoly_mul, eval_add, eval_mul, eval_C] at hnonneg
  have hpos := denom_pos ht
  have heq : -(ratio' t + ratio t) = (numer t * (toPoly (derivative deno.reverse)).eval t -
      (toPoly (derivative num.reverse)).eval t * denom t - numer t * denom t) / denom t ^ 2 := by
    unfold ratio' ratio
    field_simp
    ring
  rw [heq, le_div_iff₀ (pow_pos hpos 2), inv_mul_le_iff₀ (by positivity)]
  unfold numer denom
  push_cast at hnonneg
  linarith

theorem ratio_nonneg (ht : 0 ≤ t) (ht' : t ≤ 5) : 0 ≤ ratio t :=
  div_nonneg (zero_le_one.trans (one_le_numer ht ht')) (denom_pos ht).le

theorem le_tail_sub_tail_ratio (j : ℕ) {s : ℝ} (hs : 0 ≤ s) (hst : s ≤ t) (ht : t ≤ 5) :
    (2 ^ 99 : ℝ)⁻¹ * (t - s) ≤ tail ratio j t - tail ratio j s :=
  le_tail_sub_tail j (fun _ hu => hasDerivAt_ratio hu.1)
    (fun _ hu => ratio_nonneg hu.1 hu.2) (by positivity) (fun _ hu => le_rate hu.1 hu.2)
    hs hst ht

end Ratio

open FixedPoint

section Exp

open IntPoly

noncomputable def mean (x : ℤ) : ℝ :=
  (x : ℝ) / (2 ^ precision : ℤ)

variable {x : ℤ}

theorem scale_pos : (0 : ℤ) < 2 ^ precision := by
  positivity

theorem mean_nonneg (hx : 0 ≤ x) : 0 ≤ mean x :=
  div_nonneg (Int.cast_nonneg hx) (Int.cast_nonneg scale_pos.le)

theorem mean_le (hx : x ≤ 5 * 2 ^ precision) : mean x ≤ 5 := by
  unfold mean
  rw [div_le_iff₀ (Int.cast_pos.mpr scale_pos)]
  exact_mod_cast hx

variable (hx : 0 ≤ x)
include hx

theorem polyval_error (hx' : x ≤ 5 * 2 ^ precision) (c : ℤ) (coefs : List ℤ) :
    0 ≤ 2 ^ 128 * (toPoly (c :: coefs).reverse).eval (mean x) - polyval (parse (c :: coefs)) x ∧
      2 ^ 128 * (toPoly (c :: coefs).reverse).eval (mean x) - polyval (parse (c :: coefs)) x ≤
        (5 ^ coefs.length - 1) / 4 := by
  have hshift : (parse (c :: coefs)).reverse = smul (2 ^ 128) (c :: coefs).reverse := by
    unfold parse smul
    simp [precision, mul_comm]
  have hvalue : 2 ^ 128 * (toPoly (c :: coefs).reverse).eval (mean x) =
      (parse coefs).foldl (fun (value : ℝ) (c : ℤ) => value * mean x + c)
        ((c * 2 ^ (precision - 128) : ℤ) : ℝ) := by
    have hscheme := eval_toPoly_reverse (parse (c :: coefs)) (mean x)
    rw [hshift, toPoly_smul, eval_mul, eval_C] at hscheme
    simp only [parse, List.map_cons, List.foldl_cons, zero_mul, zero_add] at hscheme
    rw [← parse] at hscheme
    rw [← hscheme, Int.cast_pow, Int.cast_ofNat]
  have herror := horner_error (K := 5) scale_pos hx hx' (parse coefs)
    (sub_self ((c * 2 ^ (precision - 128) : ℤ) : ℝ)).ge (sub_self _).le
  have hlength : (parse coefs).length = coefs.length := List.length_map _
  have hsum := iterate_error ((5 : ℕ) : ℝ) coefs.length
  rw [hlength] at herror
  rw [hvalue]
  refine ⟨herror.1, herror.2.trans ?_⟩
  push_cast at hsum ⊢
  linarith

theorem le_polyval_expDenoCoef : 2 ^ precision ≤ polyval expDenoCoef x := by
  have hhead : 0 ≤ expDenoCoef.headI := by decide +kernel
  have hcoefs : ∀ c ∈ expDenoCoef.tail.dropLast, 0 ≤ c := by decide +kernel
  exact last_le_horner scale_pos hx _ hhead hcoefs

variable (hx' : x ≤ 5 * 2 ^ precision)
include hx'

theorem polyval_expNumCoef_bounds :
    0 ≤ polyval expNumCoef x ∧ polyval expNumCoef x ≤ 2 ^ precision ∧
      0 ≤ 2 ^ 128 * numer (mean x) - polyval expNumCoef x ∧
      2 ^ 128 * numer (mean x) - polyval expNumCoef x ≤ 19531 := by
  obtain ⟨hlow, hhigh⟩ := polyval_error hx hx' num.headI num.tail
  have hlost : ((5 : ℝ) ^ num.tail.length - 1) / 4 = 19531 := by norm_num [num]
  rw [hlost] at hhigh
  have hone := one_le_numer (mean_nonneg hx) (mean_le hx')
  have hle := numer_le (mean_nonneg hx) (mean_le hx')
  refine ⟨?_, ?_, hlow, hhigh⟩
  · have hreal : (0 : ℝ) ≤ polyval expNumCoef x := by
      have hhigh' : 2 ^ 128 * numer (mean x) - polyval expNumCoef x ≤ 19531 := hhigh
      linarith
    exact_mod_cast hreal
  · have hreal : (polyval expNumCoef x : ℝ) ≤ 2 ^ 256 := by
      have hlow' : 0 ≤ 2 ^ 128 * numer (mean x) - polyval expNumCoef x := hlow
      linarith
    exact_mod_cast hreal

theorem polyval_expDenoCoef_error :
    0 ≤ 2 ^ 128 * denom (mean x) - polyval expDenoCoef x ∧
      2 ^ 128 * denom (mean x) - polyval expDenoCoef x ≤ 305175781 := by
  obtain ⟨hlow, hhigh⟩ := polyval_error hx hx' deno.headI deno.tail
  have hlost : ((5 : ℝ) ^ deno.tail.length - 1) / 4 = 305175781 := by norm_num [deno]
  rw [hlost] at hhigh
  exact ⟨hlow, hhigh⟩

/-- **The fixed-point exponential** is between zero and one, near the exact quotient. -/
theorem expneg_spec :
    ∃ e, expneg x = some e ∧ 0 ≤ e ∧ e ≤ 2 ^ precision ∧
      |(e : ℝ) - (2 ^ precision : ℤ) * ratio (mean x)| ≤ 2 ^ 30 - 2 := by
  obtain ⟨hnonneg, hle, hnum, hnum'⟩ := polyval_expNumCoef_bounds hx hx'
  obtain ⟨hden, hden'⟩ := polyval_expDenoCoef_error hx hx'
  have hdeno := le_polyval_expDenoCoef hx
  have hpos : 0 < polyval expDenoCoef x := lt_of_lt_of_le scale_pos hdeno
  refine ⟨_, div_of_pos hpos, ?_, ?_, ?_⟩
  · exact Int.ediv_nonneg (mul_nonneg hnonneg scale_pos.le) hpos.le
  · refine Int.ediv_le_of_le_mul hpos ?_
    rw [mul_comm]
    exact mul_le_mul_of_nonneg_left (hle.trans hdeno) scale_pos.le
  have hnumer := one_le_numer (mean_nonneg hx) (mean_le hx')
  have hquot := quotient_error (n := 2 ^ 128 * numer (mean x))
    (d := 2 ^ 128 * denom (mean x)) scale_pos hdeno (by linarith)
    (by linarith [numer_le (mean_nonneg hx) (mean_le hx'), le_denom (mean_nonneg hx)])
    hnum hnum' hden hden'
  have hratio : 2 ^ 128 * numer (mean x) / (2 ^ 128 * denom (mean x)) = ratio (mean x) :=
    mul_div_mul_left _ _ (by positivity)
  rw [hratio] at hquot
  rw [abs_le]
  constructor <;> linarith [hquot.1, hquot.2]

end Exp

section Iteration

variable {x : ℤ} {k : ℕ} {p : Poiss}

structure Near (x : ℤ) (k : ℕ) (p : Poiss) : Prop where
  lam : p.lam = x
  count : p.k = k
  pmf_nonneg : 0 ≤ p.pmf
  pmf : |(p.pmf : ℝ) - (2 ^ precision : ℤ) * (ratio (mean x) * (mean x ^ k / k.factorial))| ≤
    2 ^ 30 * 5 ^ k - 2
  icdf : |(p.icdf : ℝ) - (2 ^ precision : ℤ) * tail ratio k (mean x)| ≤
    2 ^ 28 * 5 ^ (k + 1)

theorem next_pmf_nonneg (hlam : 0 ≤ p.lam) (hpmf : 0 ≤ p.pmf) : 0 ≤ p.next.pmf :=
  Int.ediv_nonneg
    (mul_nonneg (Int.ediv_nonneg hpmf (Int.natCast_nonneg _)) hlam) scale_pos.le

section Argument

variable (hx : 0 ≤ x) (hx' : x ≤ 5 * 2 ^ precision)
include hx hx'

theorem near_newPoiss : ∃ p, newPoiss x = some p ∧ Near x 0 p := by
  obtain ⟨e, he, hnonneg, _, herror⟩ := expneg_spec hx hx'
  refine ⟨_, by rw [newPoiss, he]; rfl, rfl, rfl, hnonneg, ?_, ?_⟩
  · simpa using herror
  rw [tail_zero]
  have hcompl : ((2 ^ precision - e : ℤ) : ℝ) - (2 ^ precision : ℤ) * (1 - ratio (mean x)) =
      -((e : ℝ) - (2 ^ precision : ℤ) * ratio (mean x)) := by
    rw [Int.cast_sub]
    ring
  rw [hcompl, abs_neg]
  refine herror.trans ?_
  norm_num

theorem Near.next (hp : Near x k p) : Near x (k + 1) p.next := by
  obtain ⟨hlam, hcount, hnonneg, hpmf, hicdf⟩ := hp
  have hmass : |(p.next.pmf : ℝ) -
      (2 ^ precision : ℤ) * (ratio (mean x) * (mean x ^ (k + 1) / (k + 1).factorial))| ≤
        2 ^ 30 * 5 ^ (k + 1) - 2 := by
    have hstep := step_error (K := 5) (a := p.pmf) (k := (p.k + 1 : ℕ))
      (v := (2 ^ precision : ℤ) * (ratio (mean x) * (mean x ^ k / k.factorial)))
      scale_pos hx hx' (by positivity)
    have hexact : (2 ^ precision : ℤ) * (ratio (mean x) * (mean x ^ k / k.factorial)) /
          ((p.k + 1 : ℕ) : ℤ) * ((x : ℝ) / (2 ^ precision : ℤ)) =
        (2 ^ precision : ℤ) * (ratio (mean x) * (mean x ^ (k + 1) / (k + 1).factorial)) := by
      rw [hcount, ← mean, Nat.factorial_succ, pow_succ]
      push_cast
      field_simp
    rw [hexact] at hstep
    have hsource : p.next.pmf = p.pmf / ((p.k + 1 : ℕ) : ℤ) * x / 2 ^ precision := by
      rw [← hlam]
      rfl
    rw [hsource]
    refine hstep.trans ?_
    rw [pow_succ 5 k]
    linarith
  refine ⟨hlam, by rw [← hcount]; rfl, ?_, hmass, ?_⟩
  · exact next_pmf_nonneg (hlam ▸ hx) hnonneg
  have hdiff : (p.next.icdf : ℝ) -
      (2 ^ precision : ℤ) * tail ratio (k + 1) (mean x) =
      ((p.icdf : ℝ) - (2 ^ precision : ℤ) * tail ratio k (mean x)) -
        ((p.next.pmf : ℝ) -
          (2 ^ precision : ℤ) * (ratio (mean x) * (mean x ^ (k + 1) / (k + 1).factorial))) := by
    have hsource : p.next.icdf = p.icdf - p.next.pmf := rfl
    rw [tail_succ, hsource, Int.cast_sub]
    ring
  rw [hdiff]
  have hsum := abs_sub ((p.icdf : ℝ) - (2 ^ precision : ℤ) * tail ratio k (mean x))
    ((p.next.pmf : ℝ) -
      (2 ^ precision : ℤ) * (ratio (mean x) * (mean x ^ (k + 1) / (k + 1).factorial)))
  rw [pow_succ 5 (k + 1)]
  linarith

theorem near_iterate (hp : Near x 0 p) (k : ℕ) : Near x k (Poiss.next^[k] p) := by
  induction k with
  | zero => exact hp
  | succ k ih =>
    rw [Function.iterate_succ_apply']
    exact ih.next hx hx'

theorem icdf_antitone (hp : Near x 0 p) : Antitone fun k => (Poiss.next^[k] p).icdf := by
  refine antitone_nat_of_succ_le fun k => ?_
  have hnext := near_iterate hx hx' hp (k + 1)
  rw [Function.iterate_succ_apply'] at hnext ⊢
  exact sub_le_self _ hnext.pmf_nonneg

end Argument

end Iteration

section Lottery

variable {x x' totalWeight w w' : ℤ} {k : ℕ} {p p' : Poiss}

/-- **Means that differ by `2 ^ (-62)` are told apart.** -/
theorem icdf_le_icdf (hx : 0 ≤ x) (hgap : x + 2 ^ 194 ≤ x') (hx' : x' ≤ 5 * 2 ^ precision)
    (hk : k < MaxWinCount) (hp : Near x k p) (hp' : Near x' k p') : p.icdf ≤ p'.icdf := by
  have hscale : (0 : ℝ) < (2 ^ precision : ℤ) := Int.cast_pos.mpr scale_pos
  have hgap' : (2 : ℝ) ^ 194 ≤ (2 ^ precision : ℤ) * (mean x' - mean x) := by
    have hmean : (2 ^ precision : ℤ) * (mean x' - mean x) = (x' : ℝ) - x := by
      unfold mean
      field_simp
    rw [hmean, le_sub_iff_add_le']
    exact_mod_cast hgap
  have hle : mean x ≤ mean x' := by
    have hpos := pos_of_mul_pos_right (lt_of_lt_of_le (by positivity) hgap') hscale.le
    linarith
  -- what the exact tails differ by
  have htail : (2 : ℝ) ^ 95 ≤ (2 ^ precision : ℤ) *
      (tail ratio k (mean x') - tail ratio k (mean x)) := by
    calc (2 : ℝ) ^ 95 = (2 ^ 99)⁻¹ * 2 ^ 194 := by norm_num
      _ ≤ (2 ^ 99)⁻¹ * ((2 ^ precision : ℤ) * (mean x' - mean x)) :=
        mul_le_mul_of_nonneg_left hgap' (by positivity)
      _ = (2 ^ precision : ℤ) * ((2 ^ 99)⁻¹ * (mean x' - mean x)) := by ring
      _ ≤ _ := mul_le_mul_of_nonneg_left
        (le_tail_sub_tail_ratio k (mean_nonneg hx) hle (mean_le hx')) hscale.le
  -- what is lost by rounding
  have hlost : (2 : ℝ) ^ 28 * 5 ^ (k + 1) ≤ 2 ^ 94 := by
    calc (2 : ℝ) ^ 28 * 5 ^ (k + 1) ≤ 2 ^ 28 * 5 ^ 26 := by
          gcongr
          · norm_num
          · exact hk
      _ ≤ 2 ^ 94 := by norm_num
  have hleft := (abs_le.mp hp.icdf).2
  have hright := (abs_le.mp hp'.icdf).1
  have hreal : (p.icdf : ℝ) ≤ p'.icdf := by linarith
  exact_mod_cast hreal

theorem winCount_le (lhs : ℤ) {n : ℕ}
    (hle : ∀ k < n, (Poiss.next^[k] p).icdf ≤ (Poiss.next^[k] p').icdf) :
    winCount lhs n p ≤ winCount lhs n p' := by
  induction n generalizing p p' with
  | zero => exact le_rfl
  | succ n ih =>
    have hfirst : p.icdf ≤ p'.icdf := hle 0 n.succ_pos
    have hrest : winCount lhs n p.next ≤ winCount lhs n p'.next :=
      ih fun k hk => hle (k + 1) (Nat.succ_lt_succ hk)
    simp only [winCount]
    by_cases hwin : lhs < p.icdf
    · rw [if_pos hwin, if_pos (hwin.trans_le hfirst)]
      exact Nat.succ_le_succ hrest
    · rw [if_neg hwin]
      exact Nat.zero_le _

theorem lambda_spec (htotal : 0 < totalWeight) (hw : 0 ≤ w) (hw' : w ≤ totalWeight) :
    ∃ lam, lambda w totalWeight = some lam ∧ 0 ≤ lam ∧ lam ≤ 5 * 2 ^ precision := by
  refine ⟨_, div_of_pos htotal, ?_, ?_⟩
  · exact Int.ediv_nonneg (by unfold blocksPerEpoch; positivity) htotal.le
  · refine Int.ediv_le_of_le_mul htotal ?_
    calc w * blocksPerEpoch * 2 ^ precision = 5 * 2 ^ precision * w := by
          unfold blocksPerEpoch
          ring
      _ ≤ 5 * 2 ^ precision * totalWeight := mul_le_mul_of_nonneg_left hw' (by positivity)

theorem lambda_gap (htotal : 0 < totalWeight) (hbound : totalWeight < 2 ^ 64) (hlt : w < w')
    (hlam : lambda w totalWeight = some x) (hlam' : lambda w' totalWeight = some x') :
    x + 2 ^ 194 ≤ x' := by
  unfold lambda at hlam hlam'
  rw [div_of_pos htotal] at hlam hlam'
  obtain rfl := Option.some.inj hlam
  obtain rfl := Option.some.inj hlam'
  rw [← Int.add_mul_ediv_left _ _ htotal.ne']
  refine Int.ediv_le_ediv htotal ?_
  have hunit : totalWeight * 2 ^ 194 ≤ 5 * 2 ^ precision := by
    unfold precision
    linarith
  calc w * blocksPerEpoch * 2 ^ precision + totalWeight * 2 ^ 194
      ≤ w * blocksPerEpoch * 2 ^ precision + 5 * 2 ^ precision := by linarith
    _ = (w + 1) * (blocksPerEpoch * 2 ^ precision) := by
        unfold blocksPerEpoch
        ring
    _ ≤ w' * (blocksPerEpoch * 2 ^ precision) :=
        mul_le_mul_of_nonneg_right hlt (by unfold blocksPerEpoch; positivity)
    _ = w' * blocksPerEpoch * 2 ^ precision := (mul_assoc _ _ _).symm

variable (blake2b : Bytes → Bytes) (VRFProof : Bytes)

theorem selectProposer_eq (hlam : lambda w totalWeight = some x) (hp : newPoiss x = some p) :
    SelectProposer blake2b VRFProof w totalWeight =
      some (winCount (setBytes (blake2b VRFProof)) MaxWinCount p) := by
  unfold SelectProposer
  rw [hlam, Option.bind_eq_bind, Option.bind_some, hp]
  rfl

theorem selectProposer_mono (htotal : 0 < totalWeight) (hbound : totalWeight < 2 ^ 64) (hw : 0 ≤ w)
    (hle : w ≤ w') (hw' : w' ≤ totalWeight) :
    ∃ j j', SelectProposer blake2b VRFProof w totalWeight = some j ∧
      SelectProposer blake2b VRFProof w' totalWeight = some j' ∧ j ≤ j' := by
  obtain ⟨x, hlam, hx, hx5⟩ := lambda_spec htotal hw (hle.trans hw')
  obtain ⟨x', hlam', hx', hx5'⟩ := lambda_spec htotal (hw.trans hle) hw'
  obtain ⟨p, hp, hnear⟩ := near_newPoiss hx hx5
  obtain ⟨p', hp', hnear'⟩ := near_newPoiss hx' hx5'
  refine ⟨_, _, selectProposer_eq blake2b VRFProof hlam hp,
    selectProposer_eq blake2b VRFProof hlam' hp', ?_⟩
  rcases hle.eq_or_lt with rfl | hlt
  · rw [hlam] at hlam'
    obtain rfl := Option.some.inj hlam'
    rw [hp] at hp'
    obtain rfl := Option.some.inj hp'
    exact le_rfl
  · have hgap := lambda_gap htotal hbound hlt hlam hlam'
    exact winCount_le _ fun k hk => icdf_le_icdf hx hgap hx5' hk
      (near_iterate hx hx5 hnear k) (near_iterate hx' hx5' hnear' k)

theorem selectProposer_zero (htotal : 0 < totalWeight) : SelectProposer blake2b VRFProof 0
    totalWeight = some 0 := by
  have hlam : lambda 0 totalWeight = some 0 := by
    unfold lambda
    rw [div_of_pos htotal, zero_mul, zero_mul, Int.zero_ediv]
  have hp : newPoiss 0 = some ⟨0, 2 ^ precision, 0, 0⟩ := by decide +kernel
  rw [selectProposer_eq blake2b VRFProof hlam hp]
  have hlhs : ¬((setBytes (blake2b VRFProof) : ℤ) < 0) := not_lt.mpr (Int.natCast_nonneg _)
  simp [MaxWinCount, winCount, if_neg hlhs]

/-- **The lottery is fair**: the wins do not fall when the weight grows, and are zero for no weight;
the exponential is between zero and one, and the tails do not grow. -/
theorem selectProposer_fair (htotal : 0 < totalWeight) (hbound : totalWeight < 2 ^ 64) :
    (∀ w w', 0 ≤ w → w ≤ w' → w' ≤ totalWeight → ∃ j j',
        SelectProposer blake2b VRFProof w totalWeight = some j ∧
          SelectProposer blake2b VRFProof w' totalWeight = some j' ∧ j ≤ j') ∧
      SelectProposer blake2b VRFProof 0 totalWeight = some 0 ∧
      (∀ x, 0 ≤ x → x ≤ 5 * 2 ^ precision → ∃ e, expneg x = some e ∧ 0 ≤ e ∧ e ≤ 2 ^ precision) ∧
      ∀ w, 0 ≤ w → w ≤ totalWeight → ∃ lam p, lambda w totalWeight = some lam ∧
        0 ≤ lam ∧ lam ≤ 5 * 2 ^ precision ∧ newPoiss lam = some p ∧
          Antitone fun k => (Poiss.next^[k] p).icdf := by
  refine ⟨fun w w' hw hle hw' => ?_, selectProposer_zero blake2b VRFProof htotal,
    fun x hx hx' => ?_, fun w hw hw' => ?_⟩
  · exact selectProposer_mono blake2b VRFProof htotal hbound hw hle hw'
  · obtain ⟨e, he, hnonneg, hle, _⟩ := expneg_spec hx hx'
    exact ⟨e, he, hnonneg, hle⟩
  · obtain ⟨lam, hlam, hx, hx'⟩ := lambda_spec htotal hw hw'
    obtain ⟨p, hp, hnear⟩ := near_newPoiss hx hx'
    exact ⟨lam, p, hlam, hx, hx', hp, icdf_antitone hx hx' hnear⟩

theorem wins_of_thirty_and_fifty :
    SelectProposer id (128 :: List.replicate 31 0) 30 100 = some 1 ∧
      SelectProposer id (128 :: List.replicate 31 0) 50 100 = some 2 ∧
      ∃ j j', SelectProposer id (128 :: List.replicate 31 0) 30 100 = some j ∧
        SelectProposer id (128 :: List.replicate 31 0) 50 100 = some j' ∧ j ≤ j' := by
  refine ⟨by decide +kernel, by decide +kernel, ?_⟩
  exact (selectProposer_fair id _ (by decide) (by decide)).1 30 50 (by decide) (by decide)
    (by decide)

end Lottery

end Topia.Consensus.Vrf
