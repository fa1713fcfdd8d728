import Mathlib.Data.List.Basic

/-!
# Two families of lists, concatenated and paired

Two values are kept in two lists for each part, one index for both.  The lists of all parts are
concatenated separately; the pairs are then those of the parts only if no part shifts the parts
after it.
-/

namespace Topia.Lib

universe u v w

section Pairing

variable {ι : Type u} {α : Type v} {β : Type w}
variable {l : List ι} {f : ι → List α} {g : ι → List β}

open List

theorem length_flatMap_zip_le :
    (l.flatMap fun x => (f x).zip (g x)).length ≤ (l.flatMap f).length := by
  induction l with
  | nil => simp
  | cons x l ih =>
    simp only [flatMap_cons, length_append, length_zip]
    omega

theorem le_of_length_flatMap_zip
    (h : (l.flatMap fun x => (f x).zip (g x)).length = (l.flatMap f).length) :
    ∀ x ∈ l, (f x).length ≤ (g x).length := by
  induction l with
  | nil => simp
  | cons x l ih =>
    have hle := length_flatMap_zip_le (l := l) (f := f) (g := g)
    simp only [flatMap_cons, length_append, length_zip] at h
    intro y hy
    rcases mem_cons.mp hy with rfl | hy
    · omega
    · exact ih (by omega) y hy

/-- Concatenated lists pair as the parts exactly when each pair is of one length. -/
theorem zip_flatMap_iff :
    (l.flatMap f).length = (l.flatMap g).length ∧
        (l.flatMap f).zip (l.flatMap g) = l.flatMap (fun x => (f x).zip (g x)) ↔
      ∀ x ∈ l, (f x).length = (g x).length := by
  constructor
  · rintro ⟨hlength, hzip⟩ x hx
    have hsum : (l.flatMap fun x => (f x).zip (g x)).length = (l.flatMap f).length := by
      rw [← hzip, length_zip, ← hlength, Nat.min_self]
    have hswap : (l.flatMap fun x => (g x).zip (f x)).length =
        (l.flatMap fun x => (f x).zip (g x)).length := by
      simp only [length_flatMap, length_zip, Nat.min_comm]
    have hf := le_of_length_flatMap_zip hsum x hx
    have hg := le_of_length_flatMap_zip (hswap.trans (hsum.trans hlength)) x hx
    exact Nat.le_antisymm hf hg
  · intro heach
    induction l with
    | nil => simp
    | cons x l ih =>
      obtain ⟨hlength, hzip⟩ := ih fun y hy => heach y (mem_cons_of_mem x hy)
      have hx := heach x mem_cons_self
      refine ⟨?_, ?_⟩
      · simp [hx, hlength]
      · simp only [flatMap_cons]
        rw [zip_append hx, hzip]

end Pairing

end Topia.Lib
