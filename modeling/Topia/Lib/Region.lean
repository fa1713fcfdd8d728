import Mathlib.Data.List.Nodup
import Mathlib.Data.List.Perm.Basic

/-!
# Regions of an ordered key-value store

Keys are words, ordered lexicographically, and a region is the set of the keys with one
prefix.  The second part is about programs that reach their stores through an interface
only: whatever they compute, they change what the interface can change.
-/

namespace Topia.Lib

universe u v w

section Prefix

variable {α : Type u} {p q a b : List α}

def Incomparable (p q : List α) : Prop :=
  ¬ p <+: q ∧ ¬ q <+: p

instance [DecidableEq α] : Decidable (Incomparable p q) :=
  inferInstanceAs (Decidable (_ ∧ _))

theorem incomparable_iff : Incomparable p q ↔ ∀ a b, p ++ a ≠ q ++ b := by
  constructor
  · rintro ⟨hpq, hqp⟩ a b heq
    rcases List.prefix_or_prefix_of_prefix (List.prefix_append p a)
      (heq ▸ List.prefix_append q b) with h | h
    · exact hpq h
    · exact hqp h
  · intro hne
    refine ⟨?_, ?_⟩
    · rintro ⟨c, rfl⟩
      exact hne c [] (by simp)
    · rintro ⟨c, rfl⟩
      exact hne [] c (by simp)

end Prefix

section Order

variable {α : Type u} [Ord α] {p a b : List α}

theorem compare_append_left [Std.ReflOrd α] (p a b : List α) :
    compare (p ++ a) (p ++ b) = compare a b := by
  induction p with
  | nil => rfl
  | cons x p ih => simpa [List.compare_eq_compareLex, List.compareLex_cons_cons] using ih

theorem prefix_of_between [Std.LawfulEqOrd α]
    (hb : p <+: b) (hpa : compare a p ≠ .lt) (hab : compare a b = .lt) : p <+: a := by
  induction p generalizing a b with
  | nil => exact List.nil_prefix
  | cons x p ih =>
    obtain ⟨c, rfl⟩ := hb
    cases a with
    | nil => simp at hpa
    | cons y a =>
      simp only [List.compare_eq_compareLex, List.cons_append, List.compareLex_cons_cons,
        ne_eq, Ordering.then_eq_lt] at hpa hab
      rcases hab with hlt | ⟨heq, hlt⟩
      · exact absurd (.inl hlt) hpa
      · obtain rfl : y = x := Std.LawfulEqCmp.eq_of_compare heq
        refine List.cons_prefix_cons.mpr ⟨rfl, ih (List.prefix_append p c) ?_ hlt⟩
        exact fun h => hpa (.inr ⟨heq, h⟩)

end Order

section Entries

variable {α : Type u} {β : Type v} [Ord α]

def Ascending (items : List (α × β)) : Prop :=
  items.Pairwise fun a b => compare a.1 b.1 = .lt

theorem Ascending.nodup [Std.ReflOrd α] {items : List (α × β)} (h : Ascending items) :
    items.Nodup := by
  refine List.Pairwise.imp ?_ h
  rintro a b hlt rfl
  simp at hlt

theorem eq_of_mem_iff [Std.OrientedOrd α] {items items' : List (α × β)} (h : Ascending items)
    (h' : Ascending items') (hmem : ∀ e, e ∈ items ↔ e ∈ items') : items = items' := by
  have hperm : items.Perm items' := (List.perm_ext_iff_of_nodup h.nodup h'.nodup).mpr hmem
  refine hperm.eq_of_pairwise ?_ h h'
  intro a b _ _ hab hba
  have hgt : compare a.1 b.1 = .gt := Std.OrientedCmp.gt_iff_lt.mpr hba
  rw [hgt] at hab
  cases hab

end Entries

section Programs

variable {σ : Type u} {ι κ β ε : Type v} {α : Type w}

/-- An interface to a store of a state. -/
structure StoreApi (σ : Type u) (κ β ε : Type v) where
  get : σ → κ → Except ε (Option β)
  set : σ → κ → Option β → σ × Option ε
  delete : σ → κ → σ × Option ε

/-- A program that reads and writes the stores `ι`. -/
inductive StoreProg (ι κ β ε : Type v) (α : Type w) where
  | ret (a : α)
  | get (i : ι) (key : κ) (next : Except ε (Option β) → StoreProg ι κ β ε α)
  | set (i : ι) (key : κ) (value : Option β) (next : Option ε → StoreProg ι κ β ε α)
  | delete (i : ι) (key : κ) (next : Option ε → StoreProg ι κ β ε α)

namespace StoreProg

def run (api : ι → StoreApi σ κ β ε) : StoreProg ι κ β ε α → σ → σ × α
  | .ret a, s => (s, a)
  | .get i key next, s => run api (next ((api i).get s key)) s
  | .set i key value next, s =>
    let (s', e) := (api i).set s key value
    run api (next e) s'
  | .delete i key next, s =>
    let (s', e) := (api i).delete s key
    run api (next e) s'

theorem run_invariant {api : ι → StoreApi σ κ β ε} {Inv : σ → Prop}
    (hset : ∀ i s key value, Inv s → Inv ((api i).set s key value).1)
    (hdelete : ∀ i s key, Inv s → Inv ((api i).delete s key).1) (prog : StoreProg ι κ β ε α) {s : σ}
    (hs : Inv s) : Inv (prog.run api s).1 := by
  induction prog generalizing s with
  | ret a => exact hs
  | get i key next ih => exact ih _ hs
  | set i key value next ih => exact ih _ (hset i s key value hs)
  | delete i key next ih => exact ih _ (hdelete i s key hs)

end StoreProg
end Programs

end Topia.Lib
