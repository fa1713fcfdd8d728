import Mathlib.Data.FinEnum
import Mathlib.Data.Finsupp.Encodable

/-!
# Authenticated maps over a key-value store

A sparse Merkle tree keeps its nodes and its values in two key-value stores and is identified by a
root. `AuthMap` is any implementation together with its laws. `Rep stores root content` says that
the tree with this root holds `content`, in which the empty value stands for an absent key. The hash
is collision-free: a root is the root of one content.
-/

namespace Topia.Lib

/-- A key-value store as the list of its entries. -/
abbrev Kv := List (List UInt8 × List UInt8)

namespace Kv

variable (kv : Kv) (key value : List UInt8)

def get : Option (List UInt8) :=
  (kv.find? (fun e => decide (e.1 = key))).map Prod.snd

def set : Kv :=
  (key, value) :: kv.filter (fun e => decide (e.1 ≠ key))

@[simp] theorem get_set_self : get (set kv key value) key = some value := by
  simp [get, set]

end Kv

structure TreeStores where
  (nodes values : Kv)
deriving DecidableEq, Repr

/-- An authenticated map with keys of `digestLen` bytes. -/
structure AuthMap (digestLen : Nat) where
  Proof : Type
  emptyRoot : List UInt8
  update : TreeStores → List UInt8 → List UInt8 → List UInt8 → Option (TreeStores × List UInt8)
  prove : TreeStores → List UInt8 → List UInt8 → Option Proof
  verifyProof : Proof → List UInt8 → List UInt8 → List UInt8 → Bool
  Rep : TreeStores → List UInt8 → (List UInt8 → List UInt8) → Prop
  /-- The empty root is the root of the empty tree over any stores. -/
  rep_empty : ∀ stores, Rep stores emptyRoot (fun _ => [])
  update_rep :
    ∀ stores root content key value, Rep stores root content →
      ∃ stores' root', update stores root key value = some (stores', root') ∧
        Rep stores' root' (Function.update content key value)
  update_frame :
    ∀ stores root key value stores' root' other,
      update stores root key value = some (stores', root') →
      other.length ≠ digestLen → stores'.values.get other = stores.values.get other
  root_eq_iff :
    ∀ stores stores' root root' content content',
      Rep stores root content → Rep stores' root' content' →
      (root = root' ↔ content = content')
  prove_rep :
    ∀ stores root content key, Rep stores root content →
      ∃ proof, prove stores root key = some proof ∧
        ∀ value, verifyProof proof root key value = true ↔ content key = value

section KeyTree

variable {digestLen : Nat} (M : AuthMap digestLen)

variable (keys : List (List UInt8))

def keyTree : TreeStores × List UInt8 :=
  keys.foldl (fun tree key => (M.update tree.1 tree.2 key key).getD tree)
    ({ nodes := [], values := [] }, M.emptyRoot)

def keyRoot : List UInt8 :=
  (keyTree M keys).2

variable {M}

theorem keyTree_concat_rep
    {keys : List (List UInt8)} {key : List UInt8} {content : List UInt8 → List UInt8}
    (hrep : M.Rep (keyTree M keys).1 (keyTree M keys).2 content) :
    M.Rep (keyTree M (keys ++ [key])).1 (keyTree M (keys ++ [key])).2
      (Function.update content key key) := by
  obtain ⟨stores, root, hupdate, hrep'⟩ := M.update_rep _ _ _ key key hrep
  have htree : keyTree M (keys ++ [key]) = (stores, root) := by
    have hconcat :
        keyTree M (keys ++ [key]) =
          (M.update (keyTree M keys).1 (keyTree M keys).2 key key).getD (keyTree M keys) :=
      List.foldl_concat _ _ _ _
    rw [hconcat, hupdate]
    rfl
  rw [htree]
  exact hrep'

theorem keyTree_rep :
    M.Rep (keyTree M keys).1 (keyTree M keys).2 (fun key => if key ∈ keys then key else []) := by
  induction keys using List.reverseRecOn with
  | nil =>
    exact M.rep_empty _
  | append_singleton keys key ih =>
    have hcontent :
        (fun k => if k ∈ keys ++ [key] then k else []) =
          Function.update (fun k => if k ∈ keys then k else []) key key := by
      funext k
      by_cases hk : k = key
      · subst hk
        simp
      · simp [hk]
    rw [hcontent]
    exact keyTree_concat_rep ih

/-- Roots are equal exactly for the same keys; the empty key leaves no trace. -/
theorem keyRoot_eq_iff (keys' : List (List UInt8)) :
    keyRoot M keys = keyRoot M keys' ↔ ∀ key ≠ [], (key ∈ keys ↔ key ∈ keys') := by
  unfold keyRoot
  rw [M.root_eq_iff _ _ _ _ _ _ (keyTree_rep keys) (keyTree_rep keys'), funext_iff]
  refine forall_congr' ?_
  intro key
  by_cases hkey : key = []
  · subst hkey
    simp
  · by_cases hmem : key ∈ keys <;> by_cases hmem' : key ∈ keys' <;>
      simp [hmem, hmem', hkey, Ne.symm hkey]

end KeyTree

section Finsupp

local instance zeroWord : Zero (List UInt8) := ⟨[]⟩

noncomputable local instance encodableMap : Encodable (List UInt8 →₀ List UInt8) :=
  Encodable.ofCountable _

variable (f : List UInt8 →₀ List UInt8)

noncomputable def finsuppRoot : List UInt8 :=
  List.replicate (Encodable.encode f) 0

noncomputable def finsuppOfRoot (root : List UInt8) : Option (List UInt8 →₀ List UInt8) :=
  Encodable.decode root.length

@[simp] theorem finsuppOfRoot_root : finsuppOfRoot (finsuppRoot f) = some f := by
  simp [finsuppOfRoot, finsuppRoot]

noncomputable def finsuppAuthMap (digestLen : Nat) : AuthMap digestLen where
  Proof := Unit
  emptyRoot := finsuppRoot 0
  update stores root key value :=
    (finsuppOfRoot root).map (fun f => (stores, finsuppRoot (f.update key value)))
  prove _ _ _ := some ()
  verifyProof _ root key value :=
    match finsuppOfRoot root with
    | none => false
    | some f => decide (f key = value)
  Rep _ root content := ∃ f : List UInt8 →₀ List UInt8, root = finsuppRoot f ∧ ⇑f = content
  rep_empty _ := ⟨0, rfl, rfl⟩
  update_rep := by
    rintro stores _ _ key value ⟨f, rfl, rfl⟩
    refine ⟨stores, finsuppRoot (f.update key value), by simp, f.update key value, rfl, ?_⟩
    exact Finsupp.coe_update f key value
  update_frame := by
    intro stores root key value stores' root' other hupdate _
    obtain ⟨f, _, hf⟩ := Option.map_eq_some_iff.mp hupdate
    cases hf
    rfl
  root_eq_iff := by
    rintro _ _ _ _ _ _ ⟨f, rfl, rfl⟩ ⟨g, rfl, rfl⟩
    constructor
    · intro hroot
      have hfg := congrArg finsuppOfRoot hroot
      simp only [finsuppOfRoot_root, Option.some.injEq] at hfg
      rw [hfg]
    · intro hfg
      rw [DFunLike.coe_injective hfg]
  prove_rep := by
    rintro _ _ _ key ⟨f, rfl, rfl⟩
    exact ⟨(), rfl, by simp⟩

end Finsupp

end Topia.Lib
