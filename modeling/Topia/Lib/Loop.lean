import Mathlib.Data.Option.Basic

/-!
# Loops that may not end

One round of a loop goes on with a state or ends with a result.  A round that goes on with
the state it began with is a loop that does not end.
-/

namespace Topia.Lib

universe u v

section Loop

variable {σ : Type u} {β : Type v}
variable {body : σ → σ ⊕ β} {s s' : σ} {out out' : β} {n : Nat}

/-- The result of a loop that ends in `n` rounds. -/
def rounds (body : σ → σ ⊕ β) : Nat → σ → Option β
  | 0, _ => none
  | n + 1, s =>
    match body s with
    | .inl s' => rounds body n s'
    | .inr out => some out

def Ends (body : σ → σ ⊕ β) (s : σ) (out : β) : Prop :=
  ∃ n, rounds body n s = some out

theorem rounds_of_next (hbody : body s = .inl s') : rounds body (n + 1) s = rounds body n s' := by
  simp [rounds, hbody]

theorem rounds_of_result (hbody : body s = .inr out) : rounds body (n + 1) s = some out := by
  simp [rounds, hbody]

theorem rounds_of_fixed (hbody : body s = .inl s) (n : Nat) : rounds body n s = none := by
  induction n with
  | zero => rfl
  | succ n ih => rw [rounds_of_next hbody, ih]

theorem ends_of_next (hbody : body s = .inl s') : Ends body s out ↔ Ends body s' out := by
  constructor
  · rintro ⟨n, hout⟩
    cases n with
    | zero => cases hout
    | succ n => exact ⟨n, by rwa [rounds_of_next hbody] at hout⟩
  · rintro ⟨n, hout⟩
    exact ⟨n + 1, by rwa [rounds_of_next hbody]⟩

theorem ends_of_result (hbody : body s = .inr out') : Ends body s out ↔ out = out' := by
  constructor
  · rintro ⟨n, hout⟩
    cases n with
    | zero => cases hout
    | succ n =>
      rw [rounds_of_result hbody] at hout
      exact (Option.some.inj hout).symm
  · rintro rfl
    exact ⟨1, rounds_of_result hbody⟩

theorem not_ends_of_fixed (hbody : body s = .inl s) : ¬ Ends body s out := by
  rintro ⟨n, hout⟩
  rw [rounds_of_fixed hbody n] at hout
  cases hout

theorem not_ends_of_invariant {P : σ → Prop} (hs : P s)
    (hround : ∀ s, P s → ∃ s', body s = .inl s' ∧ P s') : ¬ Ends body s out := by
  rintro ⟨n, hout⟩
  induction n generalizing s with
  | zero => cases hout
  | succ n ih =>
    obtain ⟨s', hbody, hs'⟩ := hround s hs
    rw [rounds_of_next hbody] at hout
    exact ih hs' hout

end Loop

end Topia.Lib
