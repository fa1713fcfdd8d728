import Mathlib.Data.List.Basic
import Mathlib.Data.Nat.ModEq
import Mathlib.Data.Set.Subsingleton

/-!
# Concatenation without sizes

Entries that are put one after the other, with nothing between them, can be told apart again
only when their sizes are known.  The entries here have sizes from a set.
-/

namespace Topia.Lib

universe u

section Framing

variable {α : Type u} {S : Set Nat} {xs ys xs' ys' : List (List α)}

def SizesIn (S : Set Nat) (xs : List (List α)) : Prop :=
  ∀ x ∈ xs, x.length ∈ S

open List

theorem eq_of_flatten_eq (hS : S.Subsingleton) (hzero : 0 ∉ S)
    (hxs : SizesIn S xs) (hys : SizesIn S ys) (heq : xs.flatten = ys.flatten) : xs = ys := by
  rcases hS.eq_empty_or_singleton with rfl | ⟨w, rfl⟩
  · rw [eq_nil_iff_forall_not_mem.mpr hxs, eq_nil_iff_forall_not_mem.mpr hys]
  have hpos : 0 < w := Nat.pos_of_ne_zero fun h => hzero h.symm
  have hsizes : ∀ {zs : List (List α)}, SizesIn {w} zs →
      zs.map length = replicate zs.length w := map_eq_replicate_iff.mpr
  -- both have as many entries, since both have as many elements
  have hlength := congrArg length heq
  rw [length_flatten, length_flatten, hsizes hxs, hsizes hys,
    sum_replicate_nat, sum_replicate_nat] at hlength
  have hcount := Nat.eq_of_mul_eq_mul_right hpos hlength
  refine eq_iff_flatten_eq.mpr ⟨heq, ?_⟩
  rw [hsizes hxs, hsizes hys, hcount]

theorem sizesIn_replicate (sizes : List Nat) (x : α) (hsizes : ∀ a ∈ sizes, a ∈ S) :
    SizesIn S (sizes.map fun a => replicate a x) := by
  intro y hy
  obtain ⟨a, ha, rfl⟩ := mem_map.mp hy
  rw [length_replicate]
  exact hsizes a ha

/-- Concatenation determines the entries exactly when they have one size, not zero. -/
theorem flatten_injOn_iff [Inhabited α] :
    (∀ xs ys : List (List α), SizesIn S xs → SizesIn S ys → xs.flatten = ys.flatten → xs = ys) ↔
      S.Subsingleton ∧ 0 ∉ S := by
  constructor
  · intro hinj
    refine ⟨?_, ?_⟩
    · intro a ha b hb
      have hswap := hinj _ _
        (sizesIn_replicate [a, b] (default : α) (by simp [ha, hb]))
        (sizesIn_replicate [b, a] default (by simp [ha, hb]))
        (by simp [Nat.add_comm a b])
      simpa using congrArg (length ∘ headI) hswap
    · intro hzero
      have hempty := hinj [] [[]] (by simp [SizesIn]) (by simpa [SizesIn] using hzero) rfl
      cases hempty
  · rintro ⟨hS, hzero⟩ xs ys hxs hys heq
    exact eq_of_flatten_eq hS hzero hxs hys heq

theorem flatten_pair_injOn_iff [Inhabited α] :
    (∀ xs xs' ys ys' : List (List α), xs.length = xs'.length → SizesIn S (xs ++ xs') →
      ys.length = ys'.length → SizesIn S (ys ++ ys') →
      xs.flatten ++ xs'.flatten = ys.flatten ++ ys'.flatten → xs = ys ∧ xs' = ys') ↔
      S.Subsingleton ∧ 0 ∉ S := by
  constructor
  · intro hinj
    refine ⟨?_, ?_⟩
    · intro a ha b hb
      let entries (sizes : List Nat) : List (List α) := sizes.map fun n => replicate n default
      have hsizes : ∀ sizes sizes' : List Nat, (∀ n ∈ sizes ++ sizes', n ∈ S) →
          SizesIn S (entries sizes ++ entries sizes') := by
        intro sizes sizes' hall
        rw [← map_append]
        exact sizesIn_replicate _ default hall
      have hswap := hinj (entries [a, b]) (entries [a, b]) (entries [b, a]) (entries [a, b])
        rfl (hsizes _ _ (by simp [ha, hb])) rfl (hsizes _ _ (by simp [ha, hb]))
        (by simp [entries, Nat.add_comm a b])
      simpa [entries] using congrArg (length ∘ headI) hswap.1
    · intro hzero
      have hempty := hinj [] [] [[]] [[]] rfl (by simp [SizesIn]) rfl
        (by simpa [SizesIn] using hzero) rfl
      cases hempty.1
  · rintro ⟨hS, hzero⟩ xs xs' ys ys' hxs hxsS hys hysS heq
    rw [← flatten_append, ← flatten_append] at heq
    have hall := eq_of_flatten_eq hS hzero hxsS hysS heq
    refine append_inj hall ?_
    have hlength := congrArg length hall
    rw [length_append, length_append] at hlength
    omega

end Framing

section Digits

theorem mod_pow_eq_of_digits {b n m : Nat} {k : Nat}
    (h : ∀ i < k, n / b ^ i % b = m / b ^ i % b) : n % b ^ k = m % b ^ k := by
  induction k with
  | zero => rw [Nat.pow_zero, Nat.mod_one, Nat.mod_one]
  | succ k ih =>
    rw [Nat.mod_pow_succ, Nat.mod_pow_succ, ih fun i hi => h i (Nat.lt_succ_of_lt hi),
      h k (Nat.lt_succ_self k)]

end Digits

end Topia.Lib
