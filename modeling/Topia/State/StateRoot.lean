import Topia.Ledger.NamedStores

/-!
# The root of a composition state

`StateRoot` of `state/composition.go` writes the roots of eleven named state stores to a new sparse
Merkle tree, each as its own key and value. `stateStore` of `ledger/state/store_state.go` is the map
of the named stores; a backend is kept apart by name here, as the names are separate.
-/

namespace Topia
open Function

namespace Ledger

open Lib

structure StateStore where
  backend : Bytes → NamedContent
  storeMap : Bytes → Option StateStoreComposition

namespace StateStore

variable (M : AuthMap 32)

def NewStateStore (backend : Bytes → NamedContent) : StateStore where
  backend := backend
  storeMap := fun _ => none

/-- `AddNamedStateStore`; `none` is the panic of the opened store. -/
def AddNamedStateStore (s : StateStore) (name : Bytes) : Option StateStore :=
  match s.storeMap name with
  | some _ => some s
  | none =>
    (newStateStoreComposition M (s.backend name)).map fun store =>
      { s with storeMap := update s.storeMap name (some store) }

def Root (s : StateStore) (name : Bytes) : Option Bytes :=
  (s.storeMap name).map StateStoreComposition.Root

def apply (s : StateStore) (name : Bytes) (op : Op) : StateStore :=
  match s.storeMap name with
  | none => s
  | some store =>
    { s with storeMap := update s.storeMap name (some (store.apply M op)) }

variable {M}

theorem Root_apply_self {s : StateStore} {name : Bytes} {store : StateStoreComposition}
    (hstore : s.storeMap name = some store) (op : Op) :
    (s.apply M name op).Root name = some (store.apply M op).Root := by
  simp [apply, hstore, Root]

theorem Root_apply_of_ne {s : StateStore} {name other : Bytes} (hne : other ≠ name) (op : Op) :
    (s.apply M name op).Root other = s.Root other := by
  unfold apply
  split
  · rfl
  · simp [Root, update_of_ne hne]

end StateStore
end Ledger

namespace State

open Lib Ledger

def StateStore_Name_Account : Bytes := ascii "account"
def StateStore_Name_Chain : Bytes := ascii "chain"
def StateStore_Name_NodeDomain : Bytes := ascii "nodedomain"
def StateStore_Name_NodeExecuteDomain : Bytes := ascii "nodeexecutedomain"
def StateStore_Name_NodeConsensusDomain : Bytes := ascii "nodeconsensusdomain"
def StateStore_Name_NodeInactive : Bytes := ascii "nodeinactive"
def StateStore_Name_Node : Bytes := ascii "node"
def StateStore_Name_Exe : Bytes := ascii "executor"
def StateStore_Name_Prop : Bytes := ascii "proposer"
def StateStore_Name_Val : Bytes := ascii "validator"
def StateStore_Name_Epoch : Bytes := ascii "epoch"

def componentNames : List Bytes :=
  [StateStore_Name_Account, StateStore_Name_Chain, StateStore_Name_NodeDomain,
    StateStore_Name_NodeExecuteDomain, StateStore_Name_NodeConsensusDomain,
    StateStore_Name_NodeInactive, StateStore_Name_Node, StateStore_Name_Exe,
    StateStore_Name_Prop, StateStore_Name_Val, StateStore_Name_Epoch]

variable (M : AuthMap 32)

open StateStore

def createCompositionState (backend : Bytes → NamedContent) : Option StateStore :=
  [StateStore_Name_NodeExecuteDomain, StateStore_Name_NodeConsensusDomain,
    StateStore_Name_NodeDomain, StateStore_Name_NodeInactive, StateStore_Name_Exe,
    StateStore_Name_Prop, StateStore_Name_Val, StateStore_Name_Node,
    StateStore_Name_Account, StateStore_Name_Chain, StateStore_Name_Epoch].foldlM
    (AddNamedStateStore M) (NewStateStore backend)

variable (s s' : StateStore)

def StateRoot : Option Bytes :=
  (componentNames.mapM s.Root).map (keyRoot M)

def SameComponents : Prop :=
  ∀ name ∈ componentNames, s.Root name = s'.Root name

def StateRootBinds : Prop :=
  ∀ root, StateRoot M s = some root → StateRoot M s' = some root → SameComponents s s'

def Complete : Prop :=
  ∀ name ∈ componentNames, (s.storeMap name).isSome

def Occurs (root : Bytes) : Prop :=
  ∃ name ∈ componentNames, s.Root name = some root

/-- The component roots are from one set, but not each at the same component. -/
structure Rearranged : Prop where
  complete : Complete s ∧ Complete s'
  occurs : ∀ root ≠ [], (Occurs s root ↔ Occurs s' root)
  differ : ∃ name ∈ componentNames, s.Root name ≠ s'.Root name

section Creation

variable {M}

def Fresh (M : AuthMap 32) (s : StateStore) : Prop :=
  ∀ name store, s.storeMap name = some store → Holds M store (fun _ => []) (s.backend name).data

theorem addNamedStateStore_fresh {s : StateStore}
    (hback : ∀ name, EmptyRootStored M (s.backend name)) (hfresh : Fresh M s) (name : Bytes) :
    ∃ s', s.AddNamedStateStore M name = some s' ∧ s'.backend = s.backend ∧ Fresh M s' ∧
      ∀ other, (s'.storeMap other).isSome ↔ other = name ∨ (s.storeMap other).isSome := by
  cases hname : s.storeMap name with
  | some store =>
    refine ⟨s, by simp [AddNamedStateStore, hname], rfl, hfresh, ?_⟩
    intro other
    constructor
    · exact .inr
    · rintro (rfl | hother)
      · simp [hname]
      · exact hother
  | none =>
    obtain ⟨store, hopen, _, hholds⟩ := openStore_emptyRoot (hback name)
    refine ⟨{ s with storeMap := update s.storeMap name (some store) },
      by simp [AddNamedStateStore, hname, hopen], rfl, ?_, ?_⟩
    · intro other store' hother
      dsimp only at hother ⊢
      by_cases hne : other = name
      · subst hne
        rw [update_self] at hother
        cases hother
        exact hholds
      · rw [update_of_ne hne] at hother
        exact hfresh other store' hother
    · intro other
      by_cases hne : other = name
      · subst hne
        simp
      · simp [hne]

theorem addNamedStateStores_fresh (names : List Bytes) {s : StateStore}
    (hback : ∀ name, EmptyRootStored M (s.backend name)) (hfresh : Fresh M s) :
    ∃ s', names.foldlM (AddNamedStateStore M) s = some s' ∧
      s'.backend = s.backend ∧ Fresh M s' ∧
      ∀ other, (s'.storeMap other).isSome ↔ other ∈ names ∨ (s.storeMap other).isSome := by
  induction names generalizing s with
  | nil => exact ⟨s, rfl, rfl, hfresh, by simp⟩
  | cons name names ih =>
    obtain ⟨next, hnext, hnextBack, hnextFresh, hnextSome⟩ :=
      addNamedStateStore_fresh hback hfresh name
    obtain ⟨last, hlast, hlastBack, hlastFresh, hlastSome⟩ :=
      ih (s := next) (by rw [hnextBack]; exact hback) hnextFresh
    refine ⟨last, by simp [hnext, hlast], hlastBack.trans hnextBack, hlastFresh, ?_⟩
    intro other
    rw [hlastSome, hnextSome, List.mem_cons]
    tauto

theorem createCompositionState_fresh
    {backend : Bytes → NamedContent} (hback : ∀ name, EmptyRootStored M (backend name)) :
    ∃ s, createCompositionState M backend = some s ∧ Complete s ∧ Fresh M s := by
  obtain ⟨s, hs, _, hfresh, hsome⟩ :=
    addNamedStateStores_fresh (M := M) _ (s := NewStateStore backend) hback
      (by intro name store hstore; cases hstore)
  refine ⟨s, hs, ?_, hfresh⟩
  intro name hname
  refine (hsome name).mpr (.inl ?_)
  revert name
  decide

end Creation

section Binding

variable {M} {s s' : StateStore} {roots : List Bytes}

def AreRoots (s : StateStore) (roots : List Bytes) : Prop :=
  componentNames.map s.Root = roots.map some

theorem stateRoot_eq_some_iff {root : Bytes} :
    StateRoot M s = some root ↔ ∃ roots, AreRoots s roots ∧ keyRoot M roots = root := by
  simp [StateRoot, mapM_eq_some_iff, AreRoots]

theorem complete_iff : Complete s ↔ ∃ roots, AreRoots s roots := by
  constructor
  · intro hcomplete
    refine ⟨componentNames.map fun name => (s.Root name).getD [], ?_⟩
    unfold AreRoots
    rw [List.map_map]
    refine List.map_congr_left ?_
    intro name hname
    obtain ⟨store, hstore⟩ := Option.isSome_iff_exists.mp (hcomplete name hname)
    simp [Root, hstore]
  · rintro ⟨roots, hroots⟩ name hname
    have hmem : s.Root name ∈ roots.map some := hroots ▸ List.mem_map_of_mem hname
    obtain ⟨root, _, hroot⟩ := List.mem_map.mp hmem
    have hsome : (s.Root name).isSome := by rw [← hroot]; rfl
    simpa [Root] using hsome

theorem mem_roots_iff (hroots : AreRoots s roots) (root : Bytes) :
    root ∈ roots ↔ Occurs s root := by
  have hmem : root ∈ roots ↔ some root ∈ componentNames.map s.Root := by
    rw [hroots]
    simp
  rw [hmem, List.mem_map]
  rfl

theorem stateRoot_eq_iff (hcomplete : Complete s) (hcomplete' : Complete s') :
    (∃ root, StateRoot M s = some root ∧ StateRoot M s' = some root) ↔
      ∀ root ≠ [], (Occurs s root ↔ Occurs s' root) := by
  obtain ⟨roots, hroots⟩ := complete_iff.mp hcomplete
  obtain ⟨roots', hroots'⟩ := complete_iff.mp hcomplete'
  have hroot : StateRoot M s = some (keyRoot M roots) :=
    stateRoot_eq_some_iff.mpr ⟨roots, hroots, rfl⟩
  have hroot' : StateRoot M s' = some (keyRoot M roots') :=
    stateRoot_eq_some_iff.mpr ⟨roots', hroots', rfl⟩
  simp only [hroot, hroot', Option.some.injEq, exists_eq_left', ← mem_roots_iff hroots,
    ← mem_roots_iff hroots']
  rw [eq_comm]
  exact keyRoot_eq_iff roots roots'

/-- **The state root binds two states unless their roots are rearranged**. -/
theorem stateRoot_binds_iff (M : AuthMap 32) (s s' : StateStore) :
    StateRootBinds M s s' ↔ ¬ Rearranged s s' := by
  constructor
  · rintro hbinds ⟨⟨hcomplete, hcomplete'⟩, hoccurs, name, hname, hne⟩
    obtain ⟨root, hroot, hroot'⟩ := (stateRoot_eq_iff hcomplete hcomplete').mpr hoccurs
    exact hne (hbinds root hroot hroot' name hname)
  intro hnot root hroot hroot' name hname
  by_contra hne
  obtain ⟨roots, hroots, _⟩ := stateRoot_eq_some_iff.mp hroot
  obtain ⟨roots', hroots', _⟩ := stateRoot_eq_some_iff.mp hroot'
  have hcomplete := complete_iff.mpr ⟨roots, hroots⟩
  have hcomplete' := complete_iff.mpr ⟨roots', hroots'⟩
  have hoccurs := (stateRoot_eq_iff hcomplete hcomplete').mp ⟨root, hroot, hroot'⟩
  exact hnot ⟨⟨hcomplete, hcomplete'⟩, hoccurs, name, hname, hne⟩

end Binding

section MovedEntry

variable {M} {s : StateStore} {name name' : Bytes}

theorem complete_apply (hcomplete : Complete s) (op : Op) : Complete (s.apply M name op) := by
  intro other hother
  unfold apply
  split
  · exact hcomplete other hother
  · by_cases hne : other = name
    · subst hne
      simp
    · simp [update_of_ne hne, hcomplete other hother]

theorem root_apply_of_fresh (hfresh : Fresh M s) (hname : (s.storeMap name).isSome)
    (hname' : (s.storeMap name').isSome) (op : Op) :
    (s.apply M name op).Root name = (s.apply M name' op).Root name' := by
  obtain ⟨store, hstore⟩ := Option.isSome_iff_exists.mp hname
  obtain ⟨store', hstore'⟩ := Option.isSome_iff_exists.mp hname'
  have hholds := apply_holds (hfresh name store hstore) op
  have hholds' := apply_holds (hfresh name' store' hstore') op
  rw [Root_apply_self hstore, Root_apply_self hstore']
  exact congrArg some ((M.root_eq_iff _ _ _ _ _ _ hholds.rep hholds'.rep).mpr rfl)

theorem root_of_fresh (hfresh : Fresh M s) (hname : (s.storeMap name).isSome) :
    s.Root name = some M.emptyRoot := by
  obtain ⟨store, hstore⟩ := Option.isSome_iff_exists.mp hname
  have hroot : store.root = M.emptyRoot :=
    (M.root_eq_iff _ _ _ _ _ _ (hfresh name store hstore).rep
      (M.rep_empty store.content.tree)).mpr rfl
  simp [Root, hstore, StateStoreComposition.Root, hroot]

theorem occurs_moved (hcomplete : Complete s) (hfresh : Fresh M s) (hname : name ∈ componentNames)
    (hname' : name' ∈ componentNames) (hne : name ≠ name') (op : Op) {root : Bytes}
    (hoccurs : Occurs (s.apply M name op) root) : Occurs (s.apply M name' op) root := by
  obtain ⟨other, hother, hroot⟩ := hoccurs
  have hmoved := root_apply_of_fresh hfresh (hcomplete name hname) (hcomplete name' hname') op
  by_cases hsame : other = name
  · subst hsame
    exact ⟨name', hname', hmoved ▸ hroot⟩
  -- the other stores are as they were opened: all of them have the root that is
  -- left at `name` when the change is made at `name'`
  refine ⟨name, hname, ?_⟩
  rw [Root_apply_of_ne hne, root_of_fresh hfresh (hcomplete name hname)]
  rw [Root_apply_of_ne hsame, root_of_fresh hfresh (hcomplete other hother)] at hroot
  exact hroot

/-- One `Put` to the account or the chain store: one state root, two account roots. -/
theorem stateRoot_fails_on_moved_entry :
    ∃ s, createCompositionState (finsuppAuthMap 32) (fun _ => NamedContent.empty) = some s ∧
      ¬ StateRootBinds (finsuppAuthMap 32)
        (s.apply (finsuppAuthMap 32) StateStore_Name_Account (.put [1] (some [2])))
        (s.apply (finsuppAuthMap 32) StateStore_Name_Chain (.put [1] (some [2]))) := by
  have hback : ∀ name : Bytes, EmptyRootStored (finsuppAuthMap 32) NamedContent.empty :=
    fun _ => .inr rfl
  obtain ⟨s, hs, hcomplete, hfresh⟩ := createCompositionState_fresh hback
  have haccount : StateStore_Name_Account ∈ componentNames := by decide
  have hchain : StateStore_Name_Chain ∈ componentNames := by decide
  have hne : StateStore_Name_Account ≠ StateStore_Name_Chain := by decide
  refine ⟨s, hs, ?_⟩
  intro hbinds
  obtain ⟨root, hroot, hroot'⟩ :=
    (stateRoot_eq_iff (M := finsuppAuthMap 32) (complete_apply hcomplete (.put [1] (some [2])))
      (complete_apply hcomplete (.put [1] (some [2])))).mpr fun root _ =>
        ⟨occurs_moved hcomplete hfresh haccount hchain hne _,
          occurs_moved hcomplete hfresh hchain haccount hne.symm _⟩
  have hsame := hbinds root hroot hroot' StateStore_Name_Account haccount
  obtain ⟨store, hstore⟩ := Option.isSome_iff_exists.mp (hcomplete _ haccount)
  have hholds := apply_holds (hfresh _ store hstore) (.put [1] (some [2]))
  rw [Root_apply_of_ne hne, root_of_fresh hfresh (hcomplete _ haccount),
    Root_apply_self hstore, Option.some.injEq] at hsame
  have hcontent := (AuthMap.root_eq_iff _ _ _ _ _ _ _ hholds.rep
    (AuthMap.rep_empty _ store.content.tree)).mp hsame
  exact absurd (congrFun hcontent [1]) (by decide)

end MovedEntry

end State
end Topia
