import Topia.Common
import Topia.Lib.AuthMap
import Topia.Lib.Run

/-!
# Named state stores and their roots

`ledger/state/store.go`, `data.go` and `proof.go`: a named store keeps its data and a sparse Merkle
tree over the same keys, under three prefixes of one backend. The root is held in memory; its copy
in the backend, under `rootKey`, is written only when a store is opened.

A session is one store, opened, changed, and committed or discarded.
-/

namespace Topia.Ledger

open Lib

def rootKey : Bytes := ascii "srk"

structure NamedContent where
  data : Bytes → Option Bytes
  tree : TreeStores

def NamedContent.empty : NamedContent where
  data := fun _ => none
  tree := { nodes := [], values := [] }

structure StateStoreComposition where
  content : NamedContent
  root : Bytes

variable (M : AuthMap 32)

def rebuild : Kv → TreeStores × Bytes → Option (TreeStores × Bytes)
  | [], t => some t
  | (key, value) :: rest, (stores, root) =>
    (M.update stores root key value).bind (rebuild rest)

variable (tree : TreeStores) (content : NamedContent)

def newStateProof : Option (TreeStores × Bytes) :=
  match tree.values.get rootKey with
  | some stateRoot =>
    some ({ tree with values := tree.values.set rootKey stateRoot }, stateRoot)
  | none =>
    (rebuild M tree.values (tree, M.emptyRoot)).map fun (tree', stateRoot) =>
      ({ tree' with values := tree'.values.set rootKey stateRoot }, stateRoot)

/-- No write succeeds, so a rebuilt tree stays empty. -/
def newStateProofReadonly : Bytes :=
  (tree.values.get rootKey).getD M.emptyRoot

def newStateStoreComposition : Option StateStoreComposition :=
  (newStateProof M content.tree).map fun (tree, root) =>
    { content := { content with tree := tree }, root := root }

def newStateStoreCompositionReadOnly : StateStoreComposition where
  content := content
  root := newStateProofReadonly M content.tree

inductive Op where
  | put (key : Bytes) (value : Option Bytes)
  | update (key : Bytes) (value : Option Bytes)
  | delete (key : Bytes)
deriving DecidableEq, Repr

/-- `dataS.Set` and `dataS.Delete`, which refuse an empty key and a nil value. -/
def Op.setData (data : Bytes → Option Bytes) : Op → Bytes → Option Bytes
  | .put key value | .update key value =>
    match value with
    | some v => if key = [] then data else Function.update data key (some v)
    | none => data
  | .delete key => if key = [] then data else Function.update data key none

def Op.treeWrite : Op → Bytes × Bytes
  | .put key value | .update key value => (key, value.getD [])
  | .delete key => (key, [])

namespace StateStoreComposition

variable (store : StateStoreComposition)

def Root : Bytes :=
  store.root

def GetStateData (key : Bytes) : Option Bytes :=
  if key = [] then none else store.content.data key

def Proof (store : StateStoreComposition) (key : Bytes) : Option M.Proof :=
  M.prove store.content.tree store.root key

def setWithNewRoot (key value : Bytes) : StateStoreComposition :=
  match M.update store.content.tree store.root key value with
  | none => store
  | some (tree, root) => { content := { store.content with tree := tree }, root := root }

/-- `Put`, `Update` and `Delete`: the data, then the tree in any case. -/
def apply (op : Op) : StateStoreComposition :=
  setWithNewRoot M
    { store with content := { store.content with data := op.setData store.content.data } }
    op.treeWrite.1 op.treeWrite.2

end StateStoreComposition

structure Session where
  ops : List Op
  committed : Bool
deriving DecidableEq, Repr

open StateStoreComposition

variable (history : List Session) (content : NamedContent) (ops : List Op)

def openAndApply : Option StateStoreComposition :=
  (newStateStoreComposition M content).map fun store =>
    ops.foldl (apply M) store

def runSession (session : Session) : Option NamedContent :=
  (openAndApply M content session.ops).map fun store =>
    if session.committed then store.content else content

/-- A store opened after a commit shows its root, and a verifying proof for every key. -/
def Agrees (committed opened : StateStoreComposition) : Prop :=
  opened.Root = committed.Root ∧
    ∀ key value, opened.GetStateData key = some value →
      ∃ proof, opened.Proof M key = some proof ∧ M.verifyProof proof committed.Root key value = true

open NamedContent

/-- After `history` and the committed `ops`, writable and read-only stores agree. -/
def RootDurable : Prop :=
  ∃ content committed opened,
    history.foldlM (runSession M) empty = some content ∧
    openAndApply M content ops = some committed ∧
    newStateStoreComposition M committed.content = some opened ∧
    Agrees M committed opened ∧
    Agrees M committed (newStateStoreCompositionReadOnly M committed.content)

open Function

def treeAfter : Bytes → Bytes :=
  ops.foldl
    (fun content op => update content op.treeWrite.1 op.treeWrite.2)
    (fun _ => [])

def dataAfter (data : Bytes → Option Bytes) (ops : List Op) : Bytes → Option Bytes :=
  ops.foldl (fun data op => op.setData data) data

def Session.dataAfter (data : Bytes → Option Bytes) (session : Session) : Bytes → Option Bytes :=
  if session.committed then Ledger.dataAfter data session.ops else data

def committedData : Bytes → Option Bytes :=
  history.foldl Session.dataAfter (fun _ => none)

def EmptyRootStored : Prop :=
  content.tree.values.get rootKey = some M.emptyRoot ∨ content.tree.values = []

structure Holds (store : StateStoreComposition) (tree : Bytes → Bytes)
    (data : Bytes → Option Bytes) : Prop where
  rep : M.Rep store.content.tree store.root tree
  data_eq : store.content.data = data
  stored : store.content.tree.values.get rootKey = some M.emptyRoot

variable {M} {content : NamedContent}

theorem openStore_emptyRoot (hcontent : EmptyRootStored M content) :
    ∃ store, newStateStoreComposition M content = some store ∧
      store.root = M.emptyRoot ∧ Holds M store (fun _ => []) content.data := by
  rcases hcontent with hroot | hnil
  · refine ⟨_, by simp only [newStateStoreComposition, newStateProof, hroot]; rfl, rfl, ?_⟩
    exact ⟨M.rep_empty _, rfl, by simp⟩
  · refine ⟨_, by simp only [newStateStoreComposition, newStateProof, hnil]; rfl, rfl, ?_⟩
    exact ⟨M.rep_empty _, rfl, by simp⟩

variable {store committed opened : StateStoreComposition} {tree : Bytes → Bytes}

theorem apply_holds {data : Bytes → Option Bytes} (hstore : Holds M store tree data) (op : Op) :
    Holds M (store.apply M op)
      (update tree op.treeWrite.1 op.treeWrite.2) (op.setData data) := by
  obtain ⟨tree', root', hupdate, hrep⟩ :=
    M.update_rep _ _ _ op.treeWrite.1 op.treeWrite.2 hstore.rep
  have hframe := M.update_frame _ _ _ _ _ _ rootKey hupdate (by decide)
  simp only [apply, setWithNewRoot, hupdate]
  refine ⟨hrep, ?_, ?_⟩
  · simp [hstore.data_eq]
  · rw [hframe]
    exact hstore.stored

theorem foldl_apply_holds {data : Bytes → Option Bytes} (hstore : Holds M store tree data)
    (ops : List Op) :
    Holds M (ops.foldl (apply M) store)
      (ops.foldl (fun content op => update content op.treeWrite.1 op.treeWrite.2) tree)
      (dataAfter data ops) := by
  induction ops generalizing store tree data with
  | nil => exact hstore
  | cons op ops ih => exact ih (apply_holds hstore op)

open Option

theorem openAndApply_holds (hcontent : EmptyRootStored M content) (ops : List Op) :
    ∃ store, openAndApply M content ops = some store ∧
      Holds M store (treeAfter ops) (dataAfter content.data ops) := by
  obtain ⟨store, hopen, _, hstore⟩ := openStore_emptyRoot hcontent
  exact ⟨_, by simp only [openAndApply, hopen, map_some], foldl_apply_holds hstore ops⟩

theorem runSession_emptyRootStored (hcontent : EmptyRootStored M content) (session : Session) :
    ∃ content', runSession M content session = some content' ∧
      EmptyRootStored M content' ∧ content'.data = session.dataAfter content.data := by
  obtain ⟨store, hopen, hstore⟩ := openAndApply_holds hcontent session.ops
  cases hc : session.committed with
  | true =>
    refine ⟨store.content, by simp [runSession, hopen, hc], .inl hstore.stored, ?_⟩
    simp [Session.dataAfter, hc, hstore.data_eq]
  | false =>
    refine ⟨content, by simp [runSession, hopen, hc], hcontent, ?_⟩
    simp [Session.dataAfter, hc]

theorem runSessions_emptyRootStored
    (hcontent : EmptyRootStored M content) (history : List Session) :
    ∃ content', history.foldlM (runSession M) content = some content' ∧
      EmptyRootStored M content' ∧
      content'.data = history.foldl Session.dataAfter content.data := by
  induction history generalizing content with
  | nil => exact ⟨content, rfl, hcontent, rfl⟩
  | cons session history ih =>
    obtain ⟨next, hnext, hstored, hdata⟩ := runSession_emptyRootStored hcontent session
    obtain ⟨last, hlast, hstored', hdata'⟩ := ih hstored
    refine ⟨last, ?_, hstored', ?_⟩
    · simp [hnext, hlast]
    · rw [hdata', hdata]
      rfl

theorem agrees_iff (hcommitted : M.Rep committed.content.tree committed.root tree)
    (hroot : opened.root = M.emptyRoot) :
    Agrees M committed opened ↔
      (∀ key, tree key = []) ∧
      ∀ key value, key ≠ [] → opened.content.data key = some value → value = [] := by
  have hempty := M.rep_empty opened.content.tree
  have hroots : opened.Root = committed.Root ↔ ∀ key, tree key = [] := by
    unfold Root
    rw [hroot, M.root_eq_iff _ _ _ _ _ _ hempty hcommitted]
    constructor
    · intro h key
      rw [← h]
    · intro h
      funext key
      exact (h key).symm
  unfold Agrees
  rw [hroots]
  refine and_congr_right ?_
  intro htree
  have hsame : committed.Root = M.emptyRoot := (hroots.mpr htree).symm.trans hroot
  have hproof :
      ∀ key value,
        (∃ proof, opened.Proof M key = some proof ∧
          M.verifyProof proof committed.Root key value = true) ↔ value = [] := by
    intro key value
    obtain ⟨proof, hprove, hverify⟩ := M.prove_rep _ _ _ key hempty
    rw [hsame]
    simp only [Proof, hroot, hprove, some.injEq, exists_eq_left', hverify]
    exact eq_comm
  constructor
  · intro h key value hkey hdata
    exact (hproof key value).mp
      (h key value (by simp [GetStateData, hkey, hdata]))
  · intro h key value hdata
    unfold GetStateData at hdata
    split_ifs at hdata with hkey
    exact (hproof key value).mpr (h key value hkey hdata)

theorem readonly_root (hstored : content.tree.values.get rootKey = some M.emptyRoot) :
    (newStateStoreCompositionReadOnly M content).root = M.emptyRoot := by
  simp [newStateStoreCompositionReadOnly, newStateProofReadonly, hstored]

/-- **The committed root is found again exactly when nothing is stored**: the changes, and all
committed ones together, leave no value that is not empty. -/
theorem rootDurable_iff (history : List Session) (ops : List Op) :
    RootDurable M history ops ↔
      (∀ key, treeAfter ops key = []) ∧
      ∀ key value, key ≠ [] →
        dataAfter (committedData history) ops key = some value → value = [] := by
  have hnew : EmptyRootStored M empty := .inr rfl
  obtain ⟨content, hhistory, hstored, hdata⟩ := runSessions_emptyRootStored hnew history
  obtain ⟨committed, hopen, hcommitted⟩ := openAndApply_holds hstored ops
  have hstored' : EmptyRootStored M committed.content := .inl hcommitted.stored
  obtain ⟨opened, hreopen, hroot, hopened⟩ := openStore_emptyRoot hstored'
  have hcontent : committed.content.data = dataAfter (committedData history) ops := by
    rw [hcommitted.data_eq, hdata]
    rfl
  have hwritable := agrees_iff hcommitted.rep hroot
  have hreadonly := agrees_iff hcommitted.rep (readonly_root hcommitted.stored)
  rw [hopened.data_eq, hcontent] at hwritable
  have hdata' :
      (newStateStoreCompositionReadOnly M committed.content).content.data =
        dataAfter (committedData history) ops := hcontent
  rw [hdata'] at hreadonly
  constructor
  · rintro ⟨content', committed', opened', hhistory', hopen', hreopen', hagrees, _⟩
    rw [hhistory] at hhistory'
    cases hhistory'
    rw [hopen] at hopen'
    cases hopen'
    rw [hreopen] at hreopen'
    cases hreopen'
    exact hwritable.mp hagrees
  · intro hcond
    exact ⟨content, committed, opened, hhistory, hopen, hreopen,
      hwritable.mpr hcond, hreadonly.mpr hcond⟩

theorem rootDurable_fails_after_put :
    ¬ RootDurable (finsuppAuthMap 32) [] [.put [1] (some [2])] := by
  rintro ⟨content, committed, opened, hhistory, hopen, hreopen, hagrees, _⟩
  cases hhistory
  have hnew : EmptyRootStored (finsuppAuthMap 32) empty := .inr rfl
  obtain ⟨store, hstore, hholds⟩ := openAndApply_holds hnew [.put [1] (some [2])]
  rw [hstore] at hopen
  cases hopen
  have hstored : EmptyRootStored (finsuppAuthMap 32) committed.content := .inl hholds.stored
  obtain ⟨opened', hreopen', hroot, _⟩ := openStore_emptyRoot hstored
  rw [hreopen'] at hreopen
  cases hreopen
  have hone := ((agrees_iff hholds.rep hroot).mp hagrees).1 [1]
  exact absurd hone (by decide)

section InStep

def Op.refused : Op → Prop
  | .put key value | .update key value => key = [] ∨ value = none
  | .delete key => key = []

def TreeHas (M : AuthMap 32) (store : StateStoreComposition) (key value : Bytes) : Prop :=
  value ≠ [] ∧ ∃ proof, store.Proof M key = some proof ∧
    M.verifyProof proof store.Root key value = true

/-- After the call data and tree say the same, and an error changes neither. -/
def InStep (M : AuthMap 32) (store : StateStoreComposition) (op : Op) : Prop :=
  (∀ key value, (store.apply M op).GetStateData key = some value ↔
      TreeHas M (store.apply M op) key value) ∧
    (op.refused → ∀ key value,
      ((store.apply M op).GetStateData key = some value ↔ store.GetStateData key = some value) ∧
        (TreeHas M (store.apply M op) key value ↔ TreeHas M store key value))

/-- Key and value both not empty, both empty, or a nil value where there is nothing. -/
def Op.Proper (data : Bytes → Option Bytes) : Op → Prop
  | .put key (some v) | .update key (some v) => key = [] ↔ v = []
  | .put key none | .update key none => key = [] ∨ data key = none
  | .delete _ => True

def Coupled (tree : Bytes → Bytes) (data : Bytes → Option Bytes) : Prop :=
  ∀ key value, key ≠ [] ∧ data key = some value ↔ value ≠ [] ∧ tree key = value

variable {data : Bytes → Option Bytes}

theorem getStateData_iff (hstore : Holds M store tree data) (key value : Bytes) :
    store.GetStateData key = some value ↔ key ≠ [] ∧ data key = some value := by
  rw [GetStateData, hstore.data_eq]
  split_ifs with hkey <;> simp [hkey]

theorem treeHas_iff (hstore : Holds M store tree data) (key value : Bytes) :
    TreeHas M store key value ↔ value ≠ [] ∧ tree key = value := by
  obtain ⟨proof, hprove, hverify⟩ := M.prove_rep _ _ _ key hstore.rep
  simp [TreeHas, Proof, Root, hprove, exists_eq_left', hverify]

section Coupled

variable (hcoupled : Coupled tree data)
include hcoupled

theorem Coupled.tree_nil_iff (key : Bytes) : tree key = [] ↔ key = [] ∨ data key = none := by
  constructor
  · intro htree
    by_contra! hkey
    obtain ⟨value, hvalue⟩ := ne_none_iff_exists'.mp hkey.2
    obtain ⟨hne, heq⟩ := (hcoupled key value).mp ⟨hkey.1, hvalue⟩
    exact hne (heq.symm.trans htree)
  · intro hkey
    by_contra htree
    obtain ⟨hne, heq⟩ := (hcoupled key _).mpr ⟨htree, rfl⟩
    simp [hne, heq] at hkey

theorem Coupled.update_iff {key : Bytes} (hkey : key ≠ []) (value : Option Bytes) :
    Coupled (update tree key (value.getD [])) (update data key value) ↔
      value ≠ some [] := by
  constructor
  · rintro hcoupled' rfl
    have hboth := hcoupled' key []
    simp [hkey] at hboth
  intro hvalue k v
  by_cases hk : k = key
  · subst hk
    cases value with
    | none => simp [eq_comm]
    | some w =>
      simp only [update_self, getD_some, some.injEq]
      exact and_congr_left fun hw => iff_of_true hkey fun hv => hvalue (by rw [hw, hv])
  · rw [update_of_ne hk, update_of_ne hk]
    exact hcoupled k v

theorem coupled_put_iff (key : Bytes) (value : Option Bytes) :
    (Coupled (Function.update tree key (value.getD [])) ((Op.put key value).setData data) ∧
        ((Op.put key value).refused → Function.update tree key (value.getD []) = tree)) ↔
      (Op.put key value).Proper data := by
  have hsame : ∀ w, Function.update tree key w = tree ↔ w = tree key :=
    fun w => Function.update_eq_self_iff
  cases value with
  | none =>
    have hnil := hcoupled.tree_nil_iff key
    simp only [Op.refused, Op.Proper, Op.setData, or_true, forall_const, getD_none, hsame]
    rw [eq_comm (a := []), hnil]
    refine and_iff_right_of_imp fun hkey => ?_
    rw [(hsame _).mpr (hnil.mpr hkey).symm]
    exact hcoupled
  | some v =>
    by_cases hkey : key = []
    · have hnil := (hcoupled.tree_nil_iff key).mpr (.inl hkey)
      subst hkey
      simp only [Op.refused, Op.Proper, Op.setData, true_or, forall_const, if_true, true_iff,
        getD_some]
      rw [hsame, hnil]
      refine and_iff_right_of_imp fun hv => ?_
      rw [(hsame _).mpr (hv.trans hnil.symm)]
      exact hcoupled
    · have hupdate := hcoupled.update_iff hkey (some v)
      simp only [Op.refused, Op.Proper, Op.setData, hkey, if_false, false_iff, false_or,
        reduceCtorEq, false_implies, and_true]
      simpa using hupdate

theorem coupled_step_iff (op : Op) :
    (Coupled (Function.update tree op.treeWrite.1 op.treeWrite.2) (op.setData data) ∧
        (op.refused → Function.update tree op.treeWrite.1 op.treeWrite.2 = tree)) ↔
      op.Proper data := by
  cases op with
  | put key value => exact coupled_put_iff hcoupled key value
  | update key value =>
    cases value with
    | none => exact coupled_put_iff hcoupled key none
    | some v => exact coupled_put_iff hcoupled key (some v)
  | delete key =>
    simp only [Op.treeWrite, Op.refused, Op.setData, Op.Proper, iff_true]
    by_cases hkey : key = []
    · have hnil := (hcoupled.tree_nil_iff key).mpr (.inl hkey)
      have hsame : Function.update tree key [] = tree := Function.update_eq_self_iff.mpr hnil.symm
      rw [if_pos hkey, hsame]
      exact ⟨hcoupled, fun _ => rfl⟩
    · rw [if_neg hkey]
      have hcoupled' := (hcoupled.update_iff hkey none).mpr (some_ne_none _).symm
      exact ⟨hcoupled', fun hnil => absurd hnil hkey⟩

end Coupled

theorem setData_of_refused {op : Op} (hrefused : op.refused) : op.setData data = data := by
  cases op with
  | delete key => exact if_pos hrefused
  | put key value | update key value =>
    cases value with
    | none => rfl
    | some v => exact if_pos (hrefused.resolve_right (some_ne_none v))

theorem inStep_iff (hstore : Holds M store tree data) (hcoupled : Coupled tree data) (op : Op) :
    InStep M store op ↔ op.Proper data := by
  have hafter := apply_holds hstore op
  rw [← coupled_step_iff hcoupled op]
  unfold InStep
  simp only [getStateData_iff hafter, treeHas_iff hafter, getStateData_iff hstore,
    treeHas_iff hstore]
  refine and_congr_right fun _ => imp_congr_right fun hrefused => ?_
  constructor
  · intro hall
    funext k
    by_cases hk : tree k = []
    · by_contra hne
      have hwritten := ((hall k _).2.mp ⟨fun h => hne (h.trans hk.symm), rfl⟩).2
      exact hne hwritten.symm
    · exact ((hall k _).2.mpr ⟨hk, rfl⟩).2
  · intro hsame k v
    rw [setData_of_refused hrefused, hsame]
    exact ⟨Iff.rfl, Iff.rfl⟩

theorem along_inStep_iff (hstore : Holds M store tree data) (hcoupled : Coupled tree data)
    (ops : List Op) :
    Along (fun store op => some (store.apply M op)) (InStep M) store ops ↔
      Along (fun data op => some (op.setData data)) Op.Proper data ops := by
  induction ops generalizing store tree data with
  | nil => exact Iff.rfl
  | cons op ops ih =>
    simp only [Along, some.injEq, forall_eq']
    rw [inStep_iff hstore hcoupled]
    refine and_congr_right fun hproper => ?_
    exact ih (apply_holds hstore op) ((coupled_step_iff hcoupled op).mpr hproper).1

variable (M) in
def InStepAlong (ops : List Op) : Prop :=
  ∃ store, newStateStoreComposition M empty = some store ∧
    Along (fun store op => some (store.apply M op)) (InStep M) store ops

theorem openStore_new :
    ∃ store, newStateStoreComposition M empty = some store ∧
      Holds M store (fun _ => []) (fun _ => none) := by
  have hnew : EmptyRootStored M empty := .inr rfl
  obtain ⟨store, hopen, -, hstore⟩ := openStore_emptyRoot hnew
  exact ⟨store, hopen, hstore⟩

theorem coupled_new : Coupled (fun _ => []) (fun _ => none) :=
  fun key value => by simp [eq_comm]

theorem proper_of_inStepAlong {ops : List Op} (hops : InStepAlong M ops) :
    Along (fun data op => some (op.setData data)) Op.Proper (fun _ => none) ops := by
  obtain ⟨store, hopen, hstore⟩ := openStore_new (M := M)
  obtain ⟨store', hopen', hops⟩ := hops
  rw [hopen] at hopen'
  cases hopen'
  exact (along_inStep_iff hstore coupled_new ops).mp hops

/-- **When the data and the tree stay in step**: exactly when every change is proper for the data it
finds. -/
theorem inStepAlong_iff (M : AuthMap 32) (ops : List Op) : InStepAlong M ops ↔
    Along (fun data op => some (op.setData data)) Op.Proper (fun _ => none) ops := by
  refine ⟨proper_of_inStepAlong, fun hproper => ?_⟩
  obtain ⟨store, hopen, hstore⟩ := openStore_new (M := M)
  exact ⟨store, hopen, (along_inStep_iff hstore coupled_new ops).mpr hproper⟩

/-- An empty value is in the data only; an empty key in the tree only; a nil value is refused by the
data and removed from the tree. -/
theorem not_inStep_at_edges :
    ¬ InStepAlong (finsuppAuthMap 32) [.put [1] (some [])] ∧
      ¬ InStepAlong (finsuppAuthMap 32) [.put [] (some [2])] ∧
      ¬ InStepAlong (finsuppAuthMap 32) [.put [1] (some [2]), .put [1] none] := by
  refine ⟨fun hops => ?_, fun hops => ?_, fun hops => ?_⟩ <;>
    simpa [Along, Op.Proper, Op.setData] using proper_of_inStepAlong hops

end InStep

end Topia.Ledger
