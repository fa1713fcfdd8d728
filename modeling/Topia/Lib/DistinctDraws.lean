import Mathlib.Data.List.Nodup
import Mathlib.Data.List.Perm.Subperm
import Mathlib.Data.Nat.Init
import Topia.Lib.Loop

/-!
# Draws without repetition

A loop draws from a stream and keeps what it has not drawn before, until it has as many
entries as it wants.  It ends exactly when there are so many different entries in the stream.
-/

namespace Topia.Lib

universe u

section DistinctDraws

variable {α : Type u} [DecidableEq α] {draw : Nat → α} {count k m : Nat} {nums : List α}

def collected (draw : Nat → α) : Nat → List α
  | 0 => []
  | k + 1 =>
    if draw k ∈ collected draw k then collected draw k else collected draw k ++ [draw k]

def drawRound (draw : Nat → α) (count : Nat) (s : Nat × List α) : (Nat × List α) ⊕ List α :=
  if s.2.length < count then
    .inl (s.1 + 1, if draw s.1 ∈ s.2 then s.2 else s.2 ++ [draw s.1])
  else .inr s.2

theorem nodup_collected (draw : Nat → α) (k : Nat) : (collected draw k).Nodup := by
  induction k with
  | zero => exact List.nodup_nil
  | succ k ih =>
    rw [collected]
    split_ifs with hmem
    · exact ih
    · rw [← List.concat_eq_append]
      exact ih.concat hmem

theorem mem_collected {x : α} : x ∈ collected draw k ↔ ∃ i < k, draw i = x := by
  induction k with
  | zero => simp [collected]
  | succ k ih =>
    have hlast : (∃ i < k + 1, draw i = x) ↔ (∃ i < k, draw i = x) ∨ draw k = x := by
      constructor
      · rintro ⟨i, hi, rfl⟩
        rcases Nat.lt_succ_iff_lt_or_eq.mp hi with hi | rfl
        · exact .inl ⟨i, hi, rfl⟩
        · exact .inr rfl
      · rintro (⟨i, hi, rfl⟩ | rfl)
        · exact ⟨i, Nat.lt_succ_of_lt hi, rfl⟩
        · exact ⟨k, Nat.lt_succ_self k, rfl⟩
    rw [hlast, collected, ← ih]
    split_ifs with hmem
    · exact (or_iff_left_of_imp fun heq => heq ▸ hmem).symm
    · rw [List.mem_append, List.mem_singleton, eq_comm (a := x)]

theorem drawRound_collected :
    drawRound draw count (k, collected draw k) =
      if (collected draw k).length < count then .inl (k + 1, collected draw (k + 1))
      else .inr (collected draw k) :=
  rfl

theorem drawDistinct_collected (hends : Ends (drawRound draw count) (k, collected draw k) nums)
    (hle : (collected draw k).length ≤ count) :
    nums.length = count ∧ ∃ m, nums = collected draw m := by
  obtain ⟨n, hout⟩ := hends
  induction n generalizing k with
  | zero => cases hout
  | succ n ih =>
    have hround := @drawRound_collected α _ draw count k
    split_ifs at hround with hlt
    · rw [rounds_of_next hround] at hout
      refine ih ?_ hout
      rw [collected]
      split_ifs
      · exact hle
      · rw [List.length_append, List.length_singleton]
        exact hlt
    · rw [rounds_of_result hround] at hout
      cases hout
      exact ⟨Nat.le_antisymm hle (Nat.not_lt.mp hlt), k, rfl⟩

theorem drawDistinct_sound (hends : Ends (drawRound draw count) (0, []) nums) :
    nums.length = count ∧ nums.Nodup ∧ ∀ x ∈ nums, ∃ i, draw i = x := by
  obtain ⟨hlength, m, rfl⟩ := drawDistinct_collected (k := 0) hends (Nat.zero_le count)
  refine ⟨hlength, nodup_collected draw m, ?_⟩
  intro x hx
  obtain ⟨i, -, hi⟩ := mem_collected.mp hx
  exact ⟨i, hi⟩

theorem drawDistinct_ends (hm : count ≤ (collected draw m).length) (hk : k ≤ m) :
    ∃ nums, Ends (drawRound draw count) (k, collected draw k) nums := by
  induction hk using Nat.decreasingInduction with
  | self =>
    have hround := @drawRound_collected α _ draw count m
    rw [if_neg (Nat.not_lt.mpr hm)] at hround
    exact ⟨_, (ends_of_result hround).mpr rfl⟩
  | of_succ k _ ih =>
    have hround := @drawRound_collected α _ draw count k
    split_ifs at hround with hlt
    · obtain ⟨nums, hends⟩ := ih
      exact ⟨nums, (ends_of_next hround).mpr hends⟩
    · exact ⟨_, (ends_of_result hround).mpr rfl⟩

theorem drawDistinct_ends_iff :
    (∃ nums, Ends (drawRound draw count) (0, []) nums) ↔
      ∃ entries : List α, entries.Nodup ∧ entries.length = count ∧
        ∀ x ∈ entries, ∃ i, draw i = x := by
  constructor
  · rintro ⟨nums, hends⟩
    obtain ⟨hlength, hnodup, hdrawn⟩ := drawDistinct_sound hends
    exact ⟨nums, hnodup, hlength, hdrawn⟩
  rintro ⟨entries, hnodup, rfl, hdrawn⟩
  -- a time by which all the entries were drawn
  obtain ⟨m, hm⟩ : ∃ m, ∀ x ∈ entries, x ∈ collected draw m := by
    clear hnodup
    induction entries with
    | nil => exact ⟨0, by simp⟩
    | cons x entries ih =>
      obtain ⟨⟨i, rfl⟩, hrest⟩ := List.forall_mem_cons.mp hdrawn
      obtain ⟨m, hm⟩ := ih hrest
      refine ⟨max m (i + 1), List.forall_mem_cons.mpr ⟨?_, ?_⟩⟩
      · exact mem_collected.mpr ⟨i, by omega, rfl⟩
      · intro y hy
        obtain ⟨j, hj, rfl⟩ := mem_collected.mp (hm y hy)
        exact mem_collected.mpr ⟨j, by omega, rfl⟩
  exact drawDistinct_ends (List.subperm_of_subset hnodup hm).length_le (Nat.zero_le m)

end DistinctDraws

end Topia.Lib
