import Mathlib.Data.List.Basic

/-!
# Binary search for the first index of a property

The loop of `sort.Search` of the Go library over the half-open range `[i, j)`.
The property is not assumed to be monotone for the bound of the result.
-/

namespace Topia.Lib

def searchLoop (f : Nat → Bool) : Nat → Nat → Nat → Nat
  | 0, i, _ => i
  | fuel + 1, i, j =>
    if i < j then
      if f ((i + j) / 2) then searchLoop f fuel i ((i + j) / 2)
      else searchLoop f fuel ((i + j) / 2 + 1) j
    else i

def search (n : Nat) (f : Nat → Bool) : Nat :=
  searchLoop f n 0 n

variable {f : Nat → Bool} {fuel i j n : Nat}

theorem searchLoop_le (hij : i ≤ j) : searchLoop f fuel i j ≤ j := by
  induction fuel generalizing i j with
  | zero => exact hij
  | succ fuel ih =>
    unfold searchLoop
    split_ifs with hlt hmid
    · exact Nat.le_trans (ih (by omega)) (by omega)
    · exact ih (by omega)
    · exact hij

theorem search_le : search n f ≤ n :=
  searchLoop_le (Nat.zero_le n)

theorem searchLoop_spec (hmono : ∀ k l, k ≤ l → l < n → f k = true → f l = true)
    (hfuel : j ≤ i + fuel) (hij : i ≤ j) (hjn : j ≤ n) (hbelow : ∀ k < i, f k = false)
    (habove : ∀ k, j ≤ k → k < n → f k = true) :
    (∀ k < searchLoop f fuel i j, f k = false) ∧
      ∀ k, searchLoop f fuel i j ≤ k → k < n → f k = true := by
  induction fuel generalizing i j with
  | zero => exact ⟨hbelow, fun k hk => habove k (Nat.le_trans hfuel hk)⟩
  | succ fuel ih =>
    unfold searchLoop
    split_ifs with hlt hmid
    · refine ih (by omega) (by omega) (by omega) hbelow ?_
      intro k hk hkn
      exact hmono _ k hk hkn hmid
    · refine ih (by omega) (by omega) hjn ?_ habove
      intro k hk
      by_contra hfk
      have hhas : f ((i + j) / 2) = true :=
        hmono k _ (by omega) (by omega) (by simpa using hfk)
      exact hmid hhas
    · exact ⟨hbelow, fun k _ => habove k (by omega)⟩

theorem search_spec (hmono : ∀ k l, k ≤ l → l < n → f k = true → f l = true) :
    (∀ k < search n f, f k = false) ∧ ∀ k, search n f ≤ k → k < n → f k = true :=
  searchLoop_spec hmono (by omega) (Nat.zero_le n) (Nat.le_refl n)
    (fun _ hk => absurd hk (Nat.not_lt_zero _)) (fun _ hk hkn => absurd hk (Nat.not_le.mpr hkn))

end Topia.Lib
