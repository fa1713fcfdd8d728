import Mathlib.Data.Fintype.Card

/-!
# Intersecting quorums

Two sets of participants that together outnumber all participants and the
faulty ones share a participant that is not faulty.  `two_thirds_quorums` is
the case of the usual two-thirds threshold.
-/

namespace Topia.Lib

universe u

variable {V : Type u} [Fintype V] [DecidableEq V]

theorem exists_mem_inter_outside {S T F : Finset V}
    (hlarge : Fintype.card V + F.card < S.card + T.card) : ∃ p, p ∈ S ∧ p ∈ T ∧ p ∉ F := by
  have hunion : (S ∪ T).card ≤ Fintype.card V := Finset.card_le_univ _
  have hsum : (S ∪ T).card + (S ∩ T).card = S.card + T.card :=
    Finset.card_union_add_card_inter S T
  have hmore : F.card < (S ∩ T).card := by omega
  obtain ⟨p, hp, hpF⟩ := Finset.exists_mem_notMem_of_card_lt_card hmore
  obtain ⟨hpS, hpT⟩ := Finset.mem_inter.mp hp
  exact ⟨p, hpS, hpT, hpF⟩

theorem two_thirds_quorums {n : Nat} {S T F : Finset V} (hn : Fintype.card V = n)
    (hS : 2 * n / 3 + 1 ≤ S.card) (hT : 2 * n / 3 + 1 ≤ T.card) (hF : F.card ≤ (n - 1) / 3) :
    ∃ p, p ∈ S ∧ p ∈ T ∧ p ∉ F := by
  apply exists_mem_inter_outside
  omega

end Topia.Lib
