import Mathlib.Algebra.Polynomial.Derivative
import Mathlib.Data.Real.Basic
import Mathlib.Tactic.FieldSimp

/-!
# Polynomials with integer coefficients that compute

A polynomial is the list of its coefficients, the constant first. The operations compute on the
lists; `toPoly` gives the polynomial over the reals that a list stands for.

That a polynomial is not negative on an interval is checked piece by piece: on a piece it is written
in a variable from 0 to 1, where the coefficients bound the value from below.
-/

namespace Topia.Lib.IntPoly

open Polynomial

section Operations

noncomputable def toPoly : List ℤ → ℝ[X]
  | [] => 0
  | c :: p => C (c : ℝ) + X * toPoly p

def add : List ℤ → List ℤ → List ℤ
  | [], q => q
  | c :: p, [] => c :: p
  | c :: p, d :: q => (c + d) :: add p q

def smul (k : ℤ) (p : List ℤ) : List ℤ :=
  p.map (k * ·)

def mul : List ℤ → List ℤ → List ℤ
  | [], _ => []
  | c :: p, q => add (smul c q) (0 :: mul p q)

def derivative : List ℤ → List ℤ
  | [] => []
  | _ :: p => add p (0 :: derivative p)

variable {p q : List ℤ} {t : ℝ}

@[simp] theorem eval_toPoly_nil : (toPoly []).eval t = 0 := by
  simp [toPoly]

@[simp] theorem eval_toPoly_cons (c : ℤ) (p : List ℤ) :
    (toPoly (c :: p)).eval t = c + t * (toPoly p).eval t := by
  simp [toPoly]

theorem toPoly_add (p q : List ℤ) : toPoly (add p q) = toPoly p + toPoly q := by
  induction p generalizing q with
  | nil => simp [add, toPoly]
  | cons c p ih =>
    cases q with
    | nil => simp [add, toPoly]
    | cons d q =>
      simp only [add, toPoly, ih, Int.cast_add, C_add]
      ring

theorem toPoly_smul (k : ℤ) (p : List ℤ) : toPoly (smul k p) = C (k : ℝ) * toPoly p := by
  unfold smul
  induction p with
  | nil => simp [toPoly]
  | cons c p ih =>
    simp only [List.map_cons, toPoly, ih, Int.cast_mul, C_mul]
    ring

theorem toPoly_mul (p q : List ℤ) : toPoly (mul p q) = toPoly p * toPoly q := by
  induction p with
  | nil => simp [mul, toPoly]
  | cons c p ih =>
    simp only [mul, toPoly_add, toPoly_smul, toPoly, ih, Int.cast_zero, C_0]
    ring

theorem toPoly_derivative (p : List ℤ) :
    toPoly (derivative p) = Polynomial.derivative (toPoly p) := by
  induction p with
  | nil => simp [derivative, toPoly]
  | cons c p ih =>
    simp only [derivative, toPoly_add, toPoly, ih, Int.cast_zero, C_0, derivative_add,
      derivative_C, derivative_mul, derivative_X]
    ring

end Operations

section Interval

variable {p : List ℤ} {m : ℕ} {i w : ℕ} {s t : ℝ}

/-- The polynomial `m ^ p.length * p ((i + w * s) / m)` in `s`. -/
def onInterval (m i w : ℕ) : List ℤ → List ℤ
  | [] => []
  | c :: p => add [(m : ℤ) ^ (p.length + 1) * c] (mul [(i : ℤ), (w : ℤ)] (onInterval m i w p))

theorem eval_onInterval (hm : m ≠ 0) (p : List ℤ) :
    (toPoly (onInterval m i w p)).eval s =
      (m : ℝ) ^ p.length * (toPoly p).eval ((i + w * s) / m) := by
  induction p with
  | nil => simp [onInterval]
  | cons c p ih =>
    simp only [onInterval, toPoly_add, toPoly_mul, eval_add, eval_mul, eval_toPoly_cons,
      eval_toPoly_nil, ih, List.length_cons, Int.cast_mul, Int.cast_pow, Int.cast_natCast]
    field_simp
    ring

def lower : List ℤ → ℤ
  | [] => 0
  | c :: p => c + min 0 (lower p)

theorem lower_le_eval (hs : 0 ≤ s) (hs' : s ≤ 1) (p : List ℤ) :
    (lower p : ℝ) ≤ (toPoly p).eval s := by
  induction p with
  | nil => simp [lower]
  | cons c p ih =>
    have htail : ((min 0 (lower p) : ℤ) : ℝ) ≤ s * (toPoly p).eval s := by
      rcases le_total 0 (lower p) with hpos | hneg
      · rw [min_eq_left hpos, Int.cast_zero]
        have hcast : (0 : ℝ) ≤ lower p := Int.cast_nonneg hpos
        exact mul_nonneg hs (hcast.trans ih)
      · rw [min_eq_right hneg]
        have hcast : (lower p : ℝ) ≤ 0 := Int.cast_nonpos.mpr hneg
        calc (lower p : ℝ) ≤ s * lower p := by nlinarith
          _ ≤ s * (toPoly p).eval s := mul_le_mul_of_nonneg_left ih hs
    rw [lower, Int.cast_add, eval_toPoly_cons]
    linarith

theorem const_le_eval {c : ℤ} (ht : 0 ≤ t) (hp : ∀ d ∈ p, 0 ≤ d) :
    (c : ℝ) ≤ (toPoly (c :: p)).eval t := by
  have hnonneg : 0 ≤ (toPoly p).eval t := by
    induction p with
    | nil => simp
    | cons d p ih =>
      obtain ⟨hd, hp⟩ := List.forall_mem_cons.mp hp
      rw [eval_toPoly_cons]
      exact add_nonneg (Int.cast_nonneg hd) (mul_nonneg ht (ih hp))
  rw [eval_toPoly_cons]
  exact le_add_of_nonneg_right (mul_nonneg ht hnonneg)

theorem eval_toPoly_reverse (p : List ℤ) (t : ℝ) :
    (toPoly p.reverse).eval t = p.foldl (fun (value : ℝ) (c : ℤ) => value * t + c) 0 := by
  have hfold : ∀ q : List ℤ,
      (toPoly q).eval t = q.foldr (fun (c : ℤ) (value : ℝ) => value * t + c) 0 := by
    intro q
    induction q with
    | nil => simp
    | cons c q ih => rw [eval_toPoly_cons, List.foldr_cons, ← ih, add_comm, mul_comm]
  rw [hfold, List.foldr_reverse]

/-- The check from `i / m` on, with pieces of these widths in units of `1 / m`. -/
def check (m : ℕ) : (i : ℕ) → (widths : List ℕ) → List ℤ → Bool
  | _, [], _ => true
  | i, w :: widths, p => decide (0 ≤ lower (onInterval m i w p)) && check m (i + w) widths p

/-- The coefficients are evaluated first, and once. -/
def forced {α : Type} : List ℤ → (List ℤ → α) → α
  | [], next => next []
  | .ofNat 0 :: p, next => forced p fun q => next (.ofNat 0 :: q)
  | .ofNat (n + 1) :: p, next => forced p fun q => next (.ofNat (n + 1) :: q)
  | .negSucc 0 :: p, next => forced p fun q => next (.negSucc 0 :: q)
  | .negSucc (n + 1) :: p, next => forced p fun q => next (.negSucc (n + 1) :: q)

theorem forced_eq {α : Type} (p : List ℤ) (next : List ℤ → α) : forced p next = next p := by
  induction p generalizing next with
  | nil => rfl
  | cons c p ih =>
    match c with
    | .ofNat 0 => exact ih _
    | .ofNat (n + 1) => exact ih _
    | .negSucc 0 => exact ih _
    | .negSucc (n + 1) => exact ih _

theorem nonneg_of_check {widths : List ℕ} (hm : m ≠ 0) (hcheck : forced p (check m i widths) = true)
    (hlow : (i : ℝ) ≤ m * t) (hhigh : m * t < i + widths.sum) : 0 ≤ (toPoly p).eval t := by
  have hpos : (0 : ℝ) < m := Nat.cast_pos.mpr (Nat.pos_of_ne_zero hm)
  rw [forced_eq] at hcheck
  induction widths generalizing i with
  | nil =>
    simp only [List.sum_nil, Nat.cast_zero, add_zero] at hhigh
    exact absurd hhigh (not_lt.mpr hlow)
  | cons w widths ih =>
    simp only [check, Bool.and_eq_true, decide_eq_true_eq] at hcheck
    rcases lt_or_ge ((m : ℝ) * t) (i + w) with hpiece | hrest
    · -- the argument is in the first piece
      have hw : (0 : ℝ) < w := by linarith
      have hbound : (0 : ℝ) ≤ (toPoly (onInterval m i w p)).eval ((m * t - i) / w) := by
        refine le_trans (Int.cast_nonneg hcheck.1) (lower_le_eval ?_ ?_ _)
        · exact div_nonneg (by linarith) hw.le
        · rw [div_le_one hw]
          linarith
      rw [eval_onInterval hm, show ((i : ℝ) + w * ((m * t - i) / w)) / m = t by
        field_simp
        ring] at hbound
      exact nonneg_of_mul_nonneg_right hbound (pow_pos hpos _)
    · refine ih hcheck.2 ?_ ?_
      · rw [Nat.cast_add]
        exact hrest
      · rw [Nat.cast_add]
        rw [List.sum_cons, Nat.cast_add] at hhigh
        linarith

end Interval

end Topia.Lib.IntPoly
