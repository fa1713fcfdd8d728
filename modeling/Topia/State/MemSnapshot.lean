import Topia.State.StateRoot

/-!
# Composition states in memory

`CreateCompositionStateMem` of `state/composition.go` opens the stores of a composition state over
an empty backend in memory, and then copies all keys of the source underneath them with
`stateStore.Clone`.  A store keeps the root with which it was opened.
-/

namespace Topia

namespace Ledger
namespace StateStore

open Lib

def cloneContent (source other : NamedContent) : NamedContent where
  data := fun key => (source.data key).or (other.data key)
  tree :=
    { nodes := source.tree.nodes.foldl (fun kv e => kv.set e.1 e.2) other.tree.nodes
      values := source.tree.values.foldl (fun kv e => kv.set e.1 e.2) other.tree.values }

def contentOf (m : StateStore) (name : Bytes) : NamedContent :=
  ((m.storeMap name).map StateStoreComposition.content).getD (m.backend name)

def Clone (m other : StateStore) : StateStore :=
  { other with
    storeMap := fun name => (other.storeMap name).map fun store =>
      { store with content := cloneContent (m.contentOf name) store.content } }

def GetStateData (s : StateStore) (name key : Bytes) : Option Bytes :=
  (s.storeMap name).bind fun store => store.GetStateData key

end StateStore
end Ledger

namespace State

open Lib Ledger

section MemSnapshot

variable (M : AuthMap 32)

open NamedContent

def CreateCompositionStateMem (compState : StateStore) : Option StateStore :=
  (createCompositionState M fun _ => empty).map compState.Clone

def applyAll (s : StateStore) (updates : List (Bytes × Op)) : StateStore :=
  updates.foldl (fun s u => s.apply M u.1 u.2) s

def Alike (s s' : StateStore) : Prop :=
  (∀ name ∈ componentNames, ∀ key, s.GetStateData name key = s'.GetStateData name key) ∧
    SameComponents s s' ∧ StateRoot M s = StateRoot M s'

/-- The state in memory is like the source, also after the same updates. -/
def MemSnapshot (s : StateStore) : Prop :=
  ∃ mem, CreateCompositionStateMem M s = some mem ∧
    ∀ updates, Alike M (applyAll M mem updates) (applyAll M s updates)

variable {M} {s mem : StateStore}

def Paired (M : AuthMap 32) (mem s : StateStore) : Prop :=
  ∀ name ∈ componentNames, ∃ a b tree, mem.storeMap name = some a ∧ s.storeMap name = some b ∧
    a.content.data = b.content.data ∧ M.Rep a.content.tree a.root tree ∧
    M.Rep b.content.tree b.root tree

theorem apply_rep {store : StateStoreComposition} {tree : Bytes → Bytes}
    (hrep : M.Rep store.content.tree store.root tree) (op : Op) :
    (store.apply M op).content.data = op.setData store.content.data ∧
      M.Rep (store.apply M op).content.tree (store.apply M op).root
        (Function.update tree op.treeWrite.1 op.treeWrite.2) := by
  obtain ⟨tree', root', hupdate, hrep'⟩ :=
    M.update_rep _ _ _ op.treeWrite.1 op.treeWrite.2 hrep
  simp only [StateStoreComposition.apply, StateStoreComposition.setWithNewRoot, hupdate]
  exact ⟨trivial, hrep'⟩

open StateStore

theorem storeMap_apply (name other : Bytes) (op : Op) :
    (s.apply M name op).storeMap other =
      (s.storeMap other).map fun store => if other = name then store.apply M op else store := by
  unfold apply
  by_cases hother : other = name
  · subst hother
    cases hs : s.storeMap other <;> simp [hs]
  · cases hs : s.storeMap name <;> simp [hother]

open Option

theorem paired_apply (hpaired : Paired M mem s) (name : Bytes) (op : Op) :
    Paired M (mem.apply M name op) (s.apply M name op) := by
  intro other hother
  obtain ⟨a, b, tree, ha, hb, hdata, hrepa, hrepb⟩ := hpaired other hother
  simp only [storeMap_apply, ha, hb, map_some]
  by_cases hname : other = name
  · obtain ⟨hdata', hrepa'⟩ := apply_rep hrepa op
    obtain ⟨hdatab, hrepb'⟩ := apply_rep hrepb op
    simp only [if_pos hname]
    exact ⟨_, _, _, rfl, rfl, by rw [hdata', hdatab, hdata], hrepa', hrepb'⟩
  · simp only [if_neg hname]
    exact ⟨a, b, tree, rfl, rfl, hdata, hrepa, hrepb⟩

theorem paired_applyAll (hpaired : Paired M mem s) (updates : List (Bytes × Op)) :
    Paired M (applyAll M mem updates) (applyAll M s updates) := by
  induction updates generalizing mem s with
  | nil => exact hpaired
  | cons u updates ih => exact ih (paired_apply hpaired u.1 u.2)

theorem stateRoot_congr (hsame : SameComponents mem s) : StateRoot M mem = StateRoot M s := by
  have hmap : componentNames.map mem.Root = componentNames.map s.Root :=
    List.map_congr_left hsame
  refine ext fun root => ?_
  rw [stateRoot_eq_some_iff, stateRoot_eq_some_iff]
  simp only [AreRoots, hmap]

theorem alike_of_paired (hpaired : Paired M mem s) : Alike M mem s := by
  have hsame : SameComponents mem s := by
    intro name hname
    obtain ⟨a, b, tree, ha, hb, -, hrepa, hrepb⟩ := hpaired name hname
    have hroot : a.root = b.root := (M.root_eq_iff _ _ _ _ _ _ hrepa hrepb).mpr rfl
    simp [Root, ha, hb, StateStoreComposition.Root, hroot]
  refine ⟨fun name hname key => ?_, hsame, stateRoot_congr hsame⟩
  obtain ⟨a, b, tree, ha, hb, hdata, -, -⟩ := hpaired name hname
  simp [GetStateData, ha, hb, StateStoreComposition.GetStateData, hdata]

theorem createCompositionStateMem_spec (s : StateStore) :
    ∃ mem, CreateCompositionStateMem M s = some mem ∧
      ∀ name ∈ componentNames, ∃ a, mem.storeMap name = some a ∧ a.root = M.emptyRoot ∧
        a.content.data = (s.contentOf name).data := by
  obtain ⟨fresh, hfresh, hback, hholds, hsome⟩ :=
    addNamedStateStores_fresh (M := M) _ (s := NewStateStore fun _ => .empty)
      (fun _ => .inr rfl) (by intro name store hstore; cases hstore)
  refine ⟨s.Clone fresh, congrArg (Option.map s.Clone) hfresh, fun name hname => ?_⟩
  have hthere : (fresh.storeMap name).isSome := by
    refine (hsome name).mpr (.inl ?_)
    revert name
    decide
  obtain ⟨a, ha⟩ := Option.isSome_iff_exists.mp hthere
  have hroot := root_of_fresh hholds hthere
  have hdata := (hholds name a ha).data_eq
  rw [hback] at hdata
  simp only [Root, ha, Option.map_some, Option.some.injEq] at hroot
  refine ⟨{ a with content := cloneContent (s.contentOf name) a.content },
    by simp only [Clone, ha, Option.map_some], hroot, ?_⟩
  funext key
  simp [cloneContent, hdata, NewStateStore, empty]

/-- **When a state in memory is a snapshot**: exactly when every component has the empty root. -/
theorem memSnapshot_iff (M : AuthMap 32) (s : { s // Complete s }) :
    MemSnapshot M s ↔ ∀ name ∈ componentNames, s.1.Root name = some M.emptyRoot := by
  obtain ⟨s, hcomplete⟩ := s
  obtain ⟨mem, hmem, hspec⟩ := createCompositionStateMem_spec (M := M) s
  constructor
  · rintro ⟨mem', hmem', halike⟩ name hname
    rw [hmem] at hmem'
    cases hmem'
    obtain ⟨a, ha, hroot, -⟩ := hspec name hname
    have hsame := (halike []).2.1 name hname
    simp only [applyAll, List.foldl_nil] at hsame
    rw [← hsame, Root, ha, map_some, StateStoreComposition.Root, hroot]
  · intro hroots
    refine ⟨mem, hmem, fun updates => alike_of_paired (paired_applyAll ?_ updates)⟩
    intro name hname
    obtain ⟨a, ha, hroota, hdata⟩ := hspec name hname
    obtain ⟨b, hb⟩ := isSome_iff_exists.mp (hcomplete name hname)
    have hrootb := hroots name hname
    simp only [Root, hb, map_some, some.injEq] at hrootb
    refine ⟨a, b, fun _ => [], ha, hb, ?_, ?_, ?_⟩
    · simpa [contentOf, hb] using hdata
    · rw [hroota]
      exact M.rep_empty _
    · rw [show b.root = M.emptyRoot from hrootb]
      exact M.rep_empty _

/-- With one account in the source, the account root is another one. -/
theorem memSnapshot_loses_root :
    ∃ s mem, createCompositionState (finsuppAuthMap 32) (fun _ => empty) = some s ∧
      CreateCompositionStateMem (finsuppAuthMap 32)
        (s.apply (finsuppAuthMap 32) StateStore_Name_Account (.put [1] (some [2]))) = some mem ∧
      mem.Root StateStore_Name_Account ≠ (s.apply (finsuppAuthMap 32) StateStore_Name_Account
        (.put [1] (some [2]))).Root StateStore_Name_Account := by
  have hempty : ∀ name : Bytes,
      EmptyRootStored (finsuppAuthMap 32) ((fun _ : Bytes => empty) name) :=
    fun _ => .inr rfl
  obtain ⟨s, hs, hcomplete, hfresh⟩ := createCompositionState_fresh hempty
  obtain ⟨mem, hmem, hspec⟩ := createCompositionStateMem_spec (M := finsuppAuthMap 32)
    (s.apply (finsuppAuthMap 32) StateStore_Name_Account (.put [1] (some [2])))
  refine ⟨s, mem, hs, hmem, ?_⟩
  obtain ⟨a, ha, hroot, -⟩ := hspec StateStore_Name_Account (by decide)
  obtain ⟨b, hb⟩ := isSome_iff_exists.mp (hcomplete StateStore_Name_Account (by decide))
  have hholds := apply_holds (hfresh _ b hb) (.put [1] (some [2]))
  have hdiffer := (finsuppAuthMap 32).root_eq_iff _ _ _ _ _ _
    ((finsuppAuthMap 32).rep_empty a.content.tree) hholds.rep
  rw [Root_apply_self hb, Root, ha, map_some, StateStoreComposition.Root, hroot]
  intro hsame
  have hcontent := congrFun (hdiffer.mp (some.inj hsame)) [1]
  exact absurd hcontent (by decide)

end MemSnapshot

end State
end Topia
