import Mathlib.Data.List.Chain

/-!
# Lists of consecutive numbers

Each number of the list is the one after the number before it.  Such a list grows by one
number at its end and loses numbers at its front.
-/

namespace Topia.Lib

def Consecutive (numbers : List Nat) : Prop :=
  numbers.IsChain fun a b => b = a + 1

section Consecutive

variable {numbers : List Nat} {a b n : Nat}

theorem consecutive_nil : Consecutive [] :=
  List.IsChain.nil

theorem consecutive_concat :
    Consecutive (numbers ++ [n]) ↔
      Consecutive numbers ∧ ∀ last, numbers.getLast? = some last → n = last + 1 := by
  unfold Consecutive
  rw [List.isChain_append]
  simp

variable (h : Consecutive numbers)
include h

theorem Consecutive.suffix {numbers' : List Nat}
    (hsuffix : numbers' <:+ numbers) : Consecutive numbers' :=
  List.IsChain.suffix h hsuffix

theorem Consecutive.increasing : numbers.Pairwise (· < ·) := by
  refine List.isChain_iff_pairwise.mp (h.imp ?_)
  intro a b hab
  omega

theorem Consecutive.mem_of_between (hfirst : numbers.head? = some a)
    (hlast : numbers.getLast? = some b) (ha : a ≤ n) (hb : n ≤ b) : n ∈ numbers := by
  induction numbers generalizing a with
  | nil => simp at hfirst
  | cons first rest ih =>
    obtain rfl : first = a := by simpa using hfirst
    rcases Nat.eq_or_lt_of_le ha with rfl | hlt
    · exact List.mem_cons_self
    cases rest with
    | nil =>
      obtain rfl : first = b := by simpa using hlast
      omega
    | cons second rest =>
      obtain ⟨hsecond, hrest⟩ := List.isChain_cons_cons.mp h
      have hlast' : (second :: rest).getLast? = some b := by
        rwa [List.getLast?_cons_cons] at hlast
      exact List.mem_cons_of_mem _ (ih hrest rfl hlast' (by omega))

end Consecutive

end Topia.Lib
