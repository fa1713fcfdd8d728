import Mathlib.Data.List.Chain
import Mathlib.Data.List.Infix

/-!
# Linked lists that end alike

Two lists are cut where they begin to differ, seen from their ends: a part of each in front,
and behind it the longest part in which they have the same keys.  When every entry determines
the next one, and both lists end with the same entry, an entry of both lists is in that part.
-/

namespace Topia.Lib

universe u v

open List

section Cut

variable {α : Type u} {β : Type v} {key : α → β} {l₁ l₂ p₁ p₂ s : List α}

def EndApart (key : α → β) (p₁ p₂ : List α) : Prop :=
  ∀ a ∈ p₁.getLast?, ∀ b ∈ p₂.getLast?, key a ≠ key b

theorem exists_longest_suffix (l₁ l₂ : List α) (hinj : ∀ a ∈ l₁, ∀ b ∈ l₂, key a = key b → a = b) :
    ∃ p₁ p₂ s, l₁ = p₁ ++ s ∧ l₂ = p₂ ++ s ∧ EndApart key p₁ p₂ := by
  induction l₁ using reverseRecOn generalizing l₂ with
  | nil => exact ⟨[], l₂, [], rfl, by simp, by simp [EndApart]⟩
  | append_singleton l₁ a ih =>
    cases l₂ using reverseRecOn with
    | nil => exact ⟨l₁ ++ [a], [], [], by simp, rfl, by simp [EndApart]⟩
    | append_singleton l₂ b =>
      by_cases hkey : key a = key b
      · obtain rfl : a = b := hinj a (by simp) b (by simp) hkey
        obtain ⟨p₁, p₂, s, rfl, rfl, hapart⟩ :=
          ih l₂ fun x hx y hy => hinj x (by simp [hx]) y (by simp [hy])
        exact ⟨p₁, p₂, s ++ [a], by simp, by simp, hapart⟩
      · refine ⟨l₁ ++ [a], l₂ ++ [b], [], by simp, by simp, ?_⟩
        simpa [EndApart] using hkey

variable (hapart : EndApart key p₁ p₂)
include hapart

theorem eq_nil_of_suffix (hsuffix : p₁ <:+ p₂) : p₁ = [] := by
  obtain ⟨q, rfl⟩ := hsuffix
  cases p₁ using reverseRecOn with
  | nil => rfl
  | append_singleton p a =>
    refine absurd rfl (hapart a (by simp) a ?_)
    simp

theorem endApart_comm : EndApart key p₂ p₁ := by
  intro b hb a ha heq
  exact hapart a ha b hb heq.symm

/-- One list ends with the other exactly when nothing is in front of the cut. -/
theorem suffix_iff_of_apart : p₁ ++ s <:+ p₂ ++ s ↔ p₁ = [] := by
  constructor
  · intro hsuffix
    exact eq_nil_of_suffix hapart ((suffix_append_inj_of_length_eq rfl).mp hsuffix).1
  · rintro rfl
    exact suffix_append p₂ s

end Cut

section Linked

variable {α : Type u} {R : α → α → Prop} {a : α} {t₁ t₂ : List α}

theorem eq_nil_of_getLast (hnodup : (a :: t₁).Nodup) (hlast : (a :: t₁).getLast? = some a) :
    t₁ = [] := by
  cases t₁ using reverseRecOn with
  | nil => rfl
  | append_singleton t b =>
    rw [← cons_append, getLast?_concat] at hlast
    obtain rfl := Option.some.inj hlast
    simp at hnodup

/-- There is one way from an entry to an end, when every entry determines the next. -/
theorem tail_eq_of_linked (hnext : ∀ x, ∀ y ∈ t₁, ∀ z ∈ t₂, R x y → R x z → y = z)
    (h₁ : (a :: t₁).IsChain R) (h₂ : (a :: t₂).IsChain R) (hnodup₁ : (a :: t₁).Nodup)
    (hnodup₂ : (a :: t₂).Nodup) (hlast : (a :: t₁).getLast? = (a :: t₂).getLast?) : t₁ = t₂ := by
  induction t₁ generalizing a t₂ with
  | nil => exact (eq_nil_of_getLast hnodup₂ hlast.symm).symm
  | cons y t₁ ih =>
    cases t₂ with
    | nil => exact eq_nil_of_getLast hnodup₁ hlast
    | cons z t₂ =>
      rw [isChain_cons_cons] at h₁ h₂
      obtain rfl : y = z := hnext a y (by simp) z (by simp) h₁.1 h₂.1
      refine congrArg (y :: ·) (ih ?_ h₁.2 h₂.2 hnodup₁.of_cons hnodup₂.of_cons hlast)
      intro x y' hy' z' hz'
      exact hnext x y' (mem_cons_of_mem _ hy') z' (mem_cons_of_mem _ hz')

variable {β : Type v} {key : α → β} {p₁ p₂ s : List α}

theorem getLast?_append_cons (q t : List α) : (q ++ a :: t).getLast? = (a :: t).getLast? := by
  rw [getLast?_append, getLast?_cons, Option.some_or]

theorem not_mem_of_longest (hnext : ∀ x, ∀ y ∈ p₁ ++ s, ∀ z ∈ p₂ ++ s, R x y → R x z → y = z)
    (h₁ : (p₁ ++ s).IsChain R) (h₂ : (p₂ ++ s).IsChain R) (hnodup₁ : (p₁ ++ s).Nodup)
    (hnodup₂ : (p₂ ++ s).Nodup) (hlast : (p₁ ++ s).getLast? = (p₂ ++ s).getLast?)
    (hapart : EndApart key p₁ p₂) : ∀ x ∈ p₁, x ∉ p₂ ++ s := by
  intro x hx hx'
  obtain ⟨q₁, r₁, rfl⟩ := append_of_mem hx
  obtain ⟨q₂, t₂, hcut⟩ := append_of_mem hx'
  rw [hcut] at h₂ hnodup₂ hlast hnext
  rw [append_assoc, cons_append] at h₁ hnodup₁ hlast hnext
  rw [getLast?_append_cons, getLast?_append_cons] at hlast
  have hsuffix₁ := suffix_append q₁ (x :: (r₁ ++ s))
  have hsuffix₂ := suffix_append q₂ (x :: t₂)
  have hway : r₁ ++ s = t₂ := by
    refine tail_eq_of_linked ?_ (h₁.suffix hsuffix₁) (h₂.suffix hsuffix₂)
      (hnodup₁.sublist hsuffix₁.sublist) (hnodup₂.sublist hsuffix₂.sublist) hlast
    intro w y hy z hz
    exact hnext w y (hsuffix₁.mem (mem_cons_of_mem x hy)) z
      (hsuffix₂.mem (mem_cons_of_mem x hz))
  have hlonger : x :: r₁ ++ s <:+ p₂ ++ s := by
    rw [hcut, cons_append, hway]
    exact hsuffix₂
  have hapart' : EndApart key (x :: r₁) p₂ := by
    intro a ha b hb
    exact hapart a (by rwa [getLast?_append_cons]) b hb
  cases (suffix_iff_of_apart hapart').mp hlonger

end Linked

end Topia.Lib
