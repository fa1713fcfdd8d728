import Mathlib.Data.List.Basic

/-!
# Pull iterators and sorted ranges

An iterator is a state with a function `next` that moves it and says whether it is still
valid, and a function `read` of the current item, `none` when the call panics.  A user
calls `next` until it is false and reads the item after every call that is true.
-/

namespace Topia.Lib

universe u v

section Collect

variable {σ : Type u} {α : Type v}
variable (next : σ → Bool × σ) (read : σ → Option α)

/-- The items until `next` is false, or `n` calls. -/
def collect : Nat → σ → Option (List α)
  | 0, _ => some []
  | n + 1, s =>
    match next s with
    | (false, _) => some []
    | (true, s') => (read s').bind fun a => (collect n s').map (a :: ·)

variable {next read}

theorem collect_eq {Yields : σ → List α → Prop}
    (hend : ∀ s, Yields s [] → (next s).1 = false)
    (hnext : ∀ s a as, Yields s (a :: as) →
      (next s).1 = true ∧ read (next s).2 = some a ∧ Yields (next s).2 as)
    {n : Nat} {s : σ} {as : List α} (hs : Yields s as) (hn : as.length < n) :
    collect next read n s = some as := by
  induction n generalizing s as with
  | zero => omega
  | succ n ih =>
    cases as with
    | nil =>
      have hfalse := hend s hs
      rw [collect]
      split
      · rfl
      · rename_i heq
        rw [heq] at hfalse
        cases hfalse
    | cons a as =>
      obtain ⟨htrue, hread, hs'⟩ := hnext s a as hs
      rw [List.length_cons] at hn
      have hrest := ih hs' (by omega)
      rw [collect]
      split
      · rename_i heq
        rw [heq] at htrue
        cases htrue
      · rename_i heq
        rw [heq] at hread hrest
        simp [hread, hrest]

end Collect

section Sorted

variable {α : Type u} {r : α → α → Prop} {p : α → Bool} {l : List α}

theorem takeWhile_eq_filter (hl : l.Pairwise r) (hp : ∀ a b, r a b → p b = true → p a = true) :
    l.takeWhile p = l.filter p := by
  induction l with
  | nil => rfl
  | cons a l ih =>
    obtain ⟨ha, hl⟩ := List.pairwise_cons.mp hl
    cases hpa : p a with
    | true => simp [hpa, ih hl]
    | false =>
      have hnone : l.filter p = [] := by
        rw [List.filter_eq_nil_iff]
        intro b hb hpb
        rw [hp a b (ha b hb) hpb] at hpa
        cases hpa
      simp [hpa, hnone]

theorem dropWhile_eq_filter (hl : l.Pairwise r) (hp : ∀ a b, r a b → p b = true → p a = true) :
    l.dropWhile p = l.filter fun a => !p a := by
  induction l with
  | nil => rfl
  | cons a l ih =>
    obtain ⟨ha, hl⟩ := List.pairwise_cons.mp hl
    cases hpa : p a with
    | true => simp [hpa, ih hl]
    | false =>
      have hall : (l.filter fun b => !p b) = l := by
        rw [List.filter_eq_self]
        intro b hb
        cases hpb : p b with
        | true =>
          rw [hp a b (ha b hb) hpb] at hpa
          cases hpa
        | false => rfl
      simp [hpa, hall]

end Sorted

end Topia.Lib
