import Mathlib.Data.Finset.Card

/-!
# Least-recently-used key caches

`Lru K` is any implementation of a bounded cache of keys together with the
laws it is documented to obey.  The laws speak about `recent`, the keys held
by the cache with the most recently added one first: `Add` moves its key to
the front and drops what exceeds the size, `Contains` does not touch the order.
-/

namespace Topia.Lib

universe u

/-- A bounded cache of keys, as documented. -/
structure Lru (K : Type u) [DecidableEq K] where
  Cache : Type u
  new : Nat → Cache
  Contains : Cache → K → Bool
  Add : Cache → K → Cache
  ContainsOrAdd : Cache → K → Bool × Cache
  size : Cache → Nat
  recent : Cache → List K
  size_new : ∀ n, size (new n) = n
  recent_new : ∀ n, recent (new n) = []
  contains_iff : ∀ c k, Contains c k = true ↔ k ∈ recent c
  size_add : ∀ c k, size (Add c k) = size c
  recent_add : ∀ c k, recent (Add c k) = (k :: (recent c).erase k).take (size c)
  containsOrAdd_eq :
    ∀ c k, ContainsOrAdd c k = if Contains c k then (true, c) else (false, Add c k)

namespace Lru

variable {K : Type u} [DecidableEq K] (L : Lru K)

variable (c : L.Cache) (k : K) (ks : List K)

def adds : L.Cache :=
  ks.foldl L.Add c

@[simp] theorem adds_nil : L.adds c [] = c := by
  rfl

theorem adds_append_singleton (k : K) : L.adds c (ks ++ [k]) = L.Add (L.adds c ks) k := by
  simp [adds]

@[simp] theorem size_adds : L.size (L.adds c ks) = L.size c := by
  induction ks generalizing c with
  | nil => simp
  | cons k ks ih =>
    simpa [adds, L.size_add] using ih (L.Add c k)

open List

theorem mem_recent_add {c : L.Cache} {k x : K} (hx : x ∈ L.recent (L.Add c k)) :
    x = k ∨ x ∈ L.recent c := by
  rw [L.recent_add] at hx
  rcases mem_cons.mp (mem_of_mem_take hx) with rfl | hold
  · exact .inl rfl
  · exact .inr (mem_of_mem_erase hold)

def others : Finset K :=
  (ks.filter (fun x => decide (x ≠ k))).toFinset

theorem mem_others {k x : K} {ks : List K} : x ∈ others k ks ↔ x ∈ ks ∧ x ≠ k := by
  simp [others]

theorem others_mono {k : K} {ks ks' : List K} (hsub : ks ⊆ ks') : others k ks ⊆ others k ks' := by
  intro x hx
  rw [mem_others] at hx ⊢
  exact ⟨hsub hx.1, hx.2⟩

/-- In front of a key stand only distinct other keys added after it, fewer than the size. -/
theorem recent_adds_split (hfew : (others k ks).card < L.size c)
    :
    ∃ front back,
      L.recent (L.adds (L.Add c k) ks) = front ++ k :: back ∧
      front.Nodup ∧ ∀ x ∈ front, x ∈ others k ks := by
  induction ks using reverseRecOn with
  | nil =>
    obtain ⟨n, hn⟩ : ∃ n, L.size c = n + 1 := ⟨L.size c - 1, by omega⟩
    refine ⟨[], ((L.recent c).erase k).take n, ?_, by simp, by simp⟩
    simp [L.recent_add, hn]
  | append_singleton ks x ih =>
    have hmono : others k ks ⊆ others k (ks ++ [x]) :=
      others_mono (subset_append_left ks [x])
    have hle := Finset.card_le_card hmono
    obtain ⟨front, back, hrec, hnodup, hfront⟩ := ih (by omega)
    rw [adds_append_singleton, L.recent_add, size_adds, L.size_add, hrec]
    by_cases hx : x = k
    · -- the key itself is added again and is the most recent one
      subst hx
      obtain ⟨n, hn⟩ : ∃ n, L.size c = n + 1 := ⟨L.size c - 1, by omega⟩
      refine ⟨[], ((front ++ x :: back).erase x).take n, ?_, by simp, by simp⟩
      simp [hn]
    · -- `x` moves in front of `k`; the new front is still made of others
      have hnodup' : (x :: front.erase x).Nodup :=
        nodup_cons.mpr ⟨hnodup.not_mem_erase, hnodup.erase x⟩
      have hfront' : ∀ y ∈ x :: front.erase x, y ∈ others k (ks ++ [x]) := by
        intro y hy
        rcases mem_cons.mp hy with rfl | hy
        · exact mem_others.mpr ⟨by simp, hx⟩
        · exact hmono (hfront y (mem_of_mem_erase hy))
      have hcard : (x :: front.erase x).length ≤ (others k (ks ++ [x])).card := by
        rw [← toFinset_card_of_nodup hnodup']
        apply Finset.card_le_card
        intro y hy
        exact hfront' y (mem_toFinset.mp hy)
      obtain ⟨back', hback'⟩ :
          ∃ back', x :: (front ++ k :: back).erase x = (x :: front.erase x) ++ k :: back' := by
        by_cases hmem : x ∈ front
        · exact ⟨back, by simp [erase_append_left _ hmem]⟩
        · refine ⟨back.erase x, ?_⟩
          have hkx : (k == x) = false := by simpa using fun h => hx h.symm
          simp [erase_append_right _ hmem, hkx, erase_of_not_mem hmem]
      obtain ⟨m, hm⟩ : ∃ m, L.size c = (x :: front.erase x).length + (m + 1) :=
        ⟨L.size c - (x :: front.erase x).length - 1, by omega⟩
      refine ⟨x :: front.erase x, back'.take m, ?_, hnodup', hfront'⟩
      rw [hback', hm, take_length_add_append, take_succ_cons]

/-- A key stays while fewer distinct other keys than the size are added. -/
theorem mem_recent_adds (hfew : (others k ks).card < L.size c) :
    k ∈ L.recent (L.adds (L.Add c k) ks) := by
  obtain ⟨front, back, hrec, _⟩ := L.recent_adds_split c k ks hfew
  simp [hrec]

end Lru

def listLru (K : Type u) [DecidableEq K] : Lru K where
  Cache := Nat × List K
  new n := (n, [])
  Contains c k := decide (k ∈ c.2)
  Add c k := (c.1, (k :: c.2.erase k).take c.1)
  ContainsOrAdd c k :=
    if k ∈ c.2 then (true, c) else (false, (c.1, (k :: c.2.erase k).take c.1))
  size c := c.1
  recent c := c.2
  size_new _ := rfl
  recent_new _ := rfl
  contains_iff _ _ := by simp
  size_add _ _ := rfl
  recent_add _ _ := rfl
  containsOrAdd_eq c k := by by_cases hk : k ∈ c.2 <;> simp [hk]

end Topia.Lib
