import Topia.Ledger.Prefixed
import Topia.Ledger.StateStore

/-!
# Named stores in one backend

A named state store of `ledger/state/store.go` keeps its data, the nodes and the values of its tree
under its name and three tag bytes; a named meta store of `ledger/meta/store.go` keeps its data
under its name alone. The sparse Merkle tree is any program that reaches its two stores through
their interface; `Prove` only reads.
-/

namespace Topia.Ledger

open Lib

def stateDataPrefix : UInt8 := 0x01
def merkleNodePrefix : UInt8 := 0x03
def merkleValuePrefix : UInt8 := 0x04

inductive TreeStore where
  | nodes
  | values
deriving DecidableEq, Repr

def TreeStore.tag : TreeStore → UInt8
  | .nodes => merkleNodePrefix
  | .values => merkleValuePrefix

structure SparseMerkle where
  Proof : Type
  emptyRoot : Bytes
  Update : Bytes → Bytes → Option Bytes → StoreProg TreeStore Bytes Bytes MemDBError (Option Bytes)
  Delete : Bytes → Bytes → StoreProg TreeStore Bytes Bytes MemDBError (Option Bytes)
  Prove : (TreeStore → Bytes → Except MemDBError (Option Bytes)) → Bytes → Bytes → Option Proof

inductive Store where
  | stateStore (name : Bytes)
  | metaStore (name : Bytes)
deriving DecidableEq, Repr

namespace Store

def name : Store → Bytes
  | .stateStore name | .metaStore name => name

def prefixes : Store → List Bytes
  | .stateStore name =>
    [name ++ [stateDataPrefix], name ++ [merkleNodePrefix], name ++ [merkleValuePrefix]]
  | .metaStore name => [name]

end Store

def backendDBNamed (name : Bytes) : DBReadWriter :=
  NewBackendRWPrefixed name txn

def stateDataBackend (name : Bytes) : DBReadWriter :=
  NewBackendRWPrefixed [stateDataPrefix] (backendDBNamed name)

def smtBackend (name : Bytes) (i : TreeStore) : DBReadWriter :=
  NewBackendRWPrefixed [i.tag] (backendDBNamed name)

def stateProofDB (db : DBReadWriter) : StoreApi BTree Bytes Bytes MemDBError where
  get := db.Get
  set := db.Set
  delete := db.Delete

structure NamedStores where
  content : BTree
  roots : Bytes → Option Bytes
  metas : Bytes → Bool

inductive StoreOp where
  | add (store : Store)
  | put (store : Store) (key : Bytes) (value : Option Bytes)
  | delete (store : Store) (key : Bytes)
deriving DecidableEq, Repr

def StoreOp.store : StoreOp → Store
  | .add store | .put store _ _ | .delete store _ => store

variable (S : SparseMerkle)

open Function

namespace NamedStores

variable (s : NamedStores) (name : Bytes) (content : BTree)
  (prog : StoreProg TreeStore Bytes Bytes MemDBError (Option Bytes))

def runTree : BTree × Option Bytes :=
  prog.run (fun i => stateProofDB (smtBackend name i)) content

def rebuildTree (name : Bytes) : List Item → BTree × Bytes → Option (BTree × Bytes)
  | [], tree => some tree
  | (key, value) :: items, (content, root) =>
    match runTree name content (S.Update root key (some value)) with
    | (_, none) => none
    | (content', some root') => rebuildTree name items (content', root')

def openTree : Option (BTree × Bytes) :=
  match (smtBackend name .values).Get content rootKey with
  | .error _ => none
  | .ok (some stateRoot) =>
    some (((smtBackend name .values).Set content rootKey (some stateRoot)).1, stateRoot)
  | .ok none =>
    match (smtBackend name .values).Iterator content none none with
    | none | some (.error _) => none
    | some (.ok items) =>
      (rebuildTree S name items (content, S.emptyRoot)).map fun (content', stateRoot) =>
        (((smtBackend name .values).Set content' rootKey (some stateRoot)).1, stateRoot)

def AddNamedStateStore : Store → Option NamedStores
  | .stateStore name =>
    match s.roots name with
    | some _ => some s
    | none =>
      (openTree S name s.content).map fun (content, root) =>
        { s with content := content, roots := update s.roots name (some root) }
  | .metaStore name => some { s with metas := update s.metas name true }

def withTree : NamedStores :=
  match runTree name content prog with
  | (content', none) => { s with content := content' }
  | (content', some root') =>
    { s with content := content', roots := update s.roots name (some root') }

def Put (key : Bytes) (value : Option Bytes) : Store → NamedStores
  | .stateStore name =>
    match s.roots name with
    | none => s
    | some root =>
      s.withTree name ((stateDataBackend name).Set s.content key value).1
        (S.Update root key value)
  | .metaStore name =>
    if s.metas name then
      { s with content := ((backendDBNamed name).Set s.content key value).1 }
    else s

def Delete (s : NamedStores) (key : Bytes) : Store → NamedStores
  | .stateStore name =>
    match s.roots name with
    | none => s
    | some root =>
      s.withTree name ((stateDataBackend name).Delete s.content key).1 (S.Delete root key)
  | .metaStore name =>
    if s.metas name then
      { s with content := ((backendDBNamed name).Delete s.content key).1 }
    else s

def step : StoreOp → Option NamedStores
  | .add store => s.AddNamedStateStore S store
  | .put store key value => some (s.Put S key value store)
  | .delete store key => some (s.Delete S key store)

end NamedStores

/-- What can be read through a store; a meta store has no root. -/
structure Observation where
  get : Bytes → Except MemDBError (Option Bytes)
  has : Bytes → Except MemDBError Bool
  items : Option (Except MemDBError (List Item))
  root : Option Bytes
  proof : Bytes → Option S.Proof

def NamedStores.observe (s : NamedStores) : Store → Option (Observation S)
  | .stateStore name =>
    (s.roots name).map fun root =>
      { get := (stateDataBackend name).Get s.content
        has := (stateDataBackend name).Has s.content
        items := (stateDataBackend name).Iterator s.content none none
        root := some root
        proof := fun key => S.Prove (fun i => (smtBackend name i).Get s.content) root key }
  | .metaStore name =>
    if s.metas name then
      some
        { get := (backendDBNamed name).Get s.content
          has := (backendDBNamed name).Has s.content
          items := (backendDBNamed name).Iterator s.content none none
          root := none
          proof := fun _ => none }
    else none

def Separate (a b : Store) : Prop :=
  ∀ p ∈ a.prefixes, ∀ q ∈ b.prefixes, Incomparable p q

instance (a b : Store) : Decidable (Separate a b) :=
  inferInstanceAs (Decidable (∀ p ∈ a.prefixes, ∀ q ∈ b.prefixes, Incomparable p q))

open Store List

section Names

variable {n m : Bytes}

end Names

section Regions

variable {name : Bytes} (hname : name ≠ [])
include hname

theorem isRegion_named : IsRegion name (backendDBNamed name) := by
  have hregion := isRegion_prefixed isRegion_txn hname
  rwa [nil_append] at hregion

theorem isRegion_data : IsRegion (name ++ [stateDataPrefix]) (stateDataBackend name) :=
  isRegion_prefixed (isRegion_named hname) (cons_ne_nil _ _)

theorem isRegion_smt (i : TreeStore) : IsRegion (name ++ [i.tag]) (smtBackend name i) :=
  isRegion_prefixed (isRegion_named hname) (cons_ne_nil _ _)

end Regions

theorem data_mem_prefixes (name : Bytes) :
    name ++ [stateDataPrefix] ∈ (stateStore name).prefixes := by
  simp [prefixes]

theorem smt_mem_prefixes (name : Bytes) (i : TreeStore) :
    name ++ [i.tag] ∈ (stateStore name).prefixes := by
  cases i <;> simp [prefixes, TreeStore.tag]

namespace NamedStores

def entry (s : NamedStores) : Store → Option Bytes
  | .stateStore name => s.roots name
  | .metaStore name => if s.metas name then some [] else none

structure Keeps (b : Store) (s s' : NamedStores) : Prop where
  entry_eq : s'.entry b = s.entry b
  content : ∀ q ∈ b.prefixes, SameUnder q s.content s'.content

section Keeps

variable {S} {b : Store} {s s' : NamedStores}

theorem observe_eq_of_keeps (hb : b.name ≠ []) (hkeeps : Keeps b s s') :
    s'.observe S b = s.observe S b := by
  obtain ⟨hentry, hcontent⟩ := hkeeps
  cases b with
  | stateStore name =>
    have hname : name ≠ [] := hb
    have hroot : s'.roots name = s.roots name := hentry
    obtain ⟨hget, hhas, hiter⟩ :=
      (isRegion_data hname).reads_eq (hcontent _ (data_mem_prefixes name))
    have htree : ∀ i, (smtBackend name i).Get s'.content = (smtBackend name i).Get s.content :=
      fun i => ((isRegion_smt hname i).reads_eq (hcontent _ (smt_mem_prefixes name i))).1
    simp [observe, hroot, hget, hhas, htree,
      hiter none none (Option.some_ne_none _).symm (Option.some_ne_none _).symm]
  | metaStore name =>
    have hname : name ≠ [] := hb
    obtain ⟨hget, hhas, hiter⟩ :=
      (isRegion_named hname).reads_eq (hcontent name mem_cons_self)
    have hmeta : s'.metas name = s.metas name := by
      simp only [entry] at hentry
      cases h : s.metas name <;> cases h' : s'.metas name <;> simp [h, h'] at hentry ⊢
    simp [observe, hmeta, hget, hhas,
      hiter none none (Option.some_ne_none _).symm (Option.some_ne_none _).symm]

end Keeps

open SameUnder

section Tree

variable {S} {name q : Bytes} {content : BTree}

section Incomparable

variable (hname : name ≠ []) (hq : ∀ p ∈ (stateStore name).prefixes, Incomparable p q)
include hname hq

theorem runTree_sameUnder (prog : StoreProg TreeStore Bytes Bytes MemDBError (Option Bytes)) :
    SameUnder q content (runTree name content prog).1 := by
  have hset : ∀ (i : TreeStore) t key value, SameUnder q content t →
      SameUnder q content ((stateProofDB (smtBackend name i)).set t key value).1 :=
    fun i t key value ht =>
      ht.trans ((isRegion_smt hname i).sameUnder_set (hq _ (smt_mem_prefixes name i)) key value)
  have hdelete : ∀ (i : TreeStore) t key, SameUnder q content t →
      SameUnder q content ((stateProofDB (smtBackend name i)).delete t key).1 :=
    fun i t key ht =>
      ht.trans ((isRegion_smt hname i).sameUnder_delete (hq _ (smt_mem_prefixes name i)) key)
  exact StoreProg.run_invariant hset hdelete prog (refl q content)

theorem rebuildTree_sameUnder {items : List Item} {root : Bytes} {tree : BTree × Bytes}
    (hrebuild : rebuildTree S name items (content, root) = some tree) :
    SameUnder q content tree.1 := by
  induction items generalizing content root with
  | nil =>
    cases hrebuild
    exact refl q content
  | cons item items ih =>
    obtain ⟨key, value⟩ := item
    have hfirst : SameUnder q content (runTree name content (S.Update root key (some value))).1 :=
      runTree_sameUnder hname hq _
    unfold rebuildTree at hrebuild
    split at hrebuild
    · cases hrebuild
    · rename_i content' root' hrun
      rw [hrun] at hfirst
      exact hfirst.trans (ih hrebuild)

theorem openTree_sameUnder {tree : BTree × Bytes} (hopen : openTree S name content = some tree) :
    SameUnder q content tree.1 := by
  have hset : ∀ t value, SameUnder q t ((smtBackend name .values).Set t rootKey value).1 :=
    fun t value =>
      (isRegion_smt hname .values).sameUnder_set (hq _ (smt_mem_prefixes name .values)) _ value
  unfold openTree at hopen
  split at hopen
  · cases hopen
  · cases hopen
    exact hset _ _
  split at hopen
  · cases hopen
  · cases hopen
  · obtain ⟨⟨content', root'⟩, hrebuild, hfinal⟩ := Option.map_eq_some_iff.mp hopen
    cases hfinal
    exact (rebuildTree_sameUnder hname hq hrebuild).trans (hset _ _)

end Incomparable

end Tree

section Step

variable {S} {a b : Store} {s s' : NamedStores} {op : StoreOp}

theorem ne_of_separate (hsep : Separate a b) : b ≠ a := by
  rintro rfl
  cases b with
  | stateStore name =>
    exact (hsep _ (data_mem_prefixes name) _ (data_mem_prefixes name)).1 prefix_rfl
  | metaStore name =>
    exact (hsep name mem_cons_self name mem_cons_self).1 prefix_rfl

theorem entry_update_root {name : Bytes} (hne : b ≠ .stateStore name) (root : Bytes)
    (content : BTree) :
    entry { s with content := content, roots := update s.roots name (some root) } b =
      s.entry b := by
  cases b with
  | stateStore other =>
    have hother : other ≠ name := fun h => hne (congrArg stateStore h)
    exact update_of_ne hother _ _
  | metaStore other => rfl

theorem keeps_content {content : BTree}
    (hcontent : ∀ q ∈ b.prefixes, SameUnder q s.content content) :
    Keeps b s { s with content := content } :=
  ⟨by cases b <;> rfl, hcontent⟩

theorem keeps_withTree {name : Bytes} (hname : name ≠ []) (hsep : Separate (.stateStore name) b)
    {content : BTree} (hcontent : ∀ q ∈ b.prefixes, SameUnder q s.content content)
    (prog : StoreProg TreeStore Bytes Bytes MemDBError (Option Bytes)) :
    Keeps b s (s.withTree name content prog) := by
  have hrun : ∀ q ∈ b.prefixes, SameUnder q s.content (runTree name content prog).1 :=
    fun q hq => (hcontent q hq).trans
      (runTree_sameUnder hname (fun p hp => hsep p hp q hq) prog)
  unfold withTree
  split
  · rename_i content' hcall
    rw [hcall] at hrun
    exact keeps_content hrun
  · rename_i content' root' hcall
    rw [hcall] at hrun
    exact ⟨entry_update_root (ne_of_separate hsep) root' content', hrun⟩

theorem keeps_add (ha : a.name ≠ []) (hsep : Separate a b)
    (hstep : s.AddNamedStateStore S a = some s') : Keeps b s s' := by
  cases a with
  | stateStore name =>
    simp only [AddNamedStateStore] at hstep
    split at hstep
    · cases hstep
      exact ⟨rfl, fun q _ => refl q _⟩
    · obtain ⟨⟨content', root'⟩, hopen, hfinal⟩ := Option.map_eq_some_iff.mp hstep
      cases hfinal
      refine ⟨entry_update_root (ne_of_separate hsep) root' content', ?_⟩
      intro q hq
      exact openTree_sameUnder ha (fun p hp => hsep p hp q hq) hopen
  | metaStore name =>
    cases hstep
    refine ⟨?_, fun q _ => refl q _⟩
    cases b with
    | stateStore other => rfl
    | metaStore other =>
      have hother : other ≠ name :=
        fun h => ne_of_separate hsep (congrArg metaStore h)
      simp [entry, update_of_ne hother]

theorem keeps_put (ha : a.name ≠ []) (hsep : Separate a b) (key : Bytes)
    (value : Option Bytes) : Keeps b s (s.Put S key value a) := by
  cases a with
  | stateStore name =>
    simp only [Put]
    split
    · exact ⟨rfl, fun q _ => refl q _⟩
    · refine keeps_withTree ha hsep ?_ _
      intro q hq
      exact (isRegion_data ha).sameUnder_set (hsep _ (data_mem_prefixes name) q hq) key value
  | metaStore name =>
    simp only [Put]
    split_ifs
    · refine keeps_content ?_
      intro q hq
      exact (isRegion_named ha).sameUnder_set (hsep name mem_cons_self q hq) key value
    · exact ⟨rfl, fun q _ => refl q _⟩

theorem keeps_delete (ha : a.name ≠ []) (hsep : Separate a b) (key : Bytes) :
    Keeps b s (s.Delete S key a) := by
  cases a with
  | stateStore name =>
    simp only [Delete]
    split
    · exact ⟨rfl, fun q _ => refl q _⟩
    · refine keeps_withTree ha hsep ?_ _
      intro q hq
      exact (isRegion_data ha).sameUnder_delete (hsep _ (data_mem_prefixes name) q hq) key
  | metaStore name =>
    simp only [Delete]
    split_ifs
    · refine keeps_content ?_
      intro q hq
      exact (isRegion_named ha).sameUnder_delete (hsep name mem_cons_self q hq) key
    · exact ⟨rfl, fun q _ => refl q _⟩

theorem keeps_step (ha : op.store.name ≠ []) (hsep : Separate op.store b)
    (hstep : s.step S op = some s') : Keeps b s s' := by
  cases op with
  | add store => exact keeps_add ha hsep hstep
  | put store key value =>
    cases hstep
    exact keeps_put ha hsep key value
  | delete store key =>
    cases hstep
    exact keeps_delete ha hsep key

theorem observe_run {ops : List StoreOp} (hb : b.name ≠ [])
    (hops : ∀ op ∈ ops, op.store.name ≠ [] ∧ Separate op.store b)
    (hrun : ops.foldlM (step S) s = some s') : s'.observe S b = s.observe S b := by
  induction ops generalizing s with
  | nil =>
    cases hrun
    rfl
  | cons op ops ih =>
    obtain ⟨next, hstep, hrest⟩ := run_cons_success hrun
    obtain ⟨⟨ha, hsep⟩, hops⟩ := forall_mem_cons.mp hops
    rw [ih hops hrest]
    exact observe_eq_of_keeps hb (keeps_step ha hsep hstep)

end Step

/-- A store through which no call is made reads the same. -/
def IsolatedIn (ops : List StoreOp) (stores : List Store) (s : NamedStores) : Prop :=
  ∀ before between, before ++ between <+: ops →
    ∀ s₁ s₂, before.foldlM (step S) s = some s₁ → between.foldlM (step S) s₁ = some s₂ →
      ∀ b ∈ stores, (∀ op ∈ between, op.store ≠ b) → s₂.observe S b = s₁.observe S b

/-- **Separate stores are isolated**: reads of one are only changed by calls through it. -/
theorem isolated_of_separate {stores : List Store} {ops : List StoreOp}
    (hnames : ∀ a ∈ stores, a.name ≠ [])
    (hsep : ∀ a ∈ stores, ∀ b ∈ stores, a ≠ b → Separate a b)
    (hops : ∀ op ∈ ops, op.store ∈ stores) (s : NamedStores) :
    IsolatedIn S ops stores s := by
  intro before between hpre s₁ s₂ _ hbetween b hb hothers
  refine observe_run (hnames b hb) ?_ hbetween
  intro op hop
  have hstore := hops op (hpre.subset (mem_append_right before hop))
  exact ⟨hnames _ hstore, hsep _ hstore b hb (hothers op hop)⟩

def empty : NamedStores where
  content := ∅
  roots := fun _ => none
  metas := fun _ => false

/-- The root is the list of what was written, a proof is what is found. -/
def plainTree : SparseMerkle where
  Proof := Except MemDBError (Option Bytes)
  emptyRoot := []
  Update root key value := .set .values (0 :: key) value fun _ => .ret (some (root ++ key))
  Delete root key := .delete .values (0 :: key) fun _ => .ret (some (root ++ key))
  Prove read _ key := some (read .values (0 :: key))

def nodeCalls : List StoreOp :=
  [.add (.stateStore (ascii "node")), .add (.stateStore (ascii "nodeinactive")),
    .put (.stateStore (ascii "node")) [1] (some [2]),
    .put (.stateStore (ascii "nodeinactive")) [1] (some [3]),
    .delete (.stateStore (ascii "node")) [1]]

theorem isolated_of_node_and_nodeinactive :
    IsolatedIn plainTree nodeCalls
        [.stateStore (ascii "node"), .stateStore (ascii "nodeinactive")] empty ∧
      (foldlM (step plainTree) empty nodeCalls).isSome = true :=
  ⟨isolated_of_separate plainTree (by decide) (by decide) (by decide) empty, by decide +kernel⟩

/-- A meta store is changed through a longer name, a state store through one that goes on with a tag
byte. -/
theorem isolation_fails_on_overlapping_names :
    ¬ IsolatedIn plainTree
        [.add (.metaStore (ascii "a")), .add (.metaStore (ascii "ab")),
          .put (.metaStore (ascii "ab")) (ascii "c") (some [1])]
        [.metaStore (ascii "a"), .metaStore (ascii "ab")] empty ∧
      ¬ IsolatedIn plainTree
        [.add (.stateStore (ascii "a")), .add (.stateStore (ascii "a\x01b")),
          .put (.stateStore (ascii "a\x01b")) (ascii "c") (some [1])]
        [.stateStore (ascii "a"), .stateStore (ascii "a\x01b")] empty := by
  refine ⟨?_, ?_⟩
  · intro hisolated
    have hsame := hisolated [.add (.metaStore (ascii "a")), .add (.metaStore (ascii "ab"))]
      [.put (.metaStore (ascii "ab")) (ascii "c") (some [1])] prefix_rfl _ _ rfl rfl
      (.metaStore (ascii "a")) (by decide) (by decide)
    have hget := congrArg (Option.map fun o => (o.get (ascii "bc")).toOption) hsame
    revert hget
    decide +kernel
  · intro hisolated
    have hsame := hisolated [.add (.stateStore (ascii "a")), .add (.stateStore (ascii "a\x01b"))]
      [.put (.stateStore (ascii "a\x01b")) (ascii "c") (some [1])] prefix_rfl _ _ rfl rfl
      (.stateStore (ascii "a")) (by decide) (by decide)
    have hget := congrArg (Option.map fun o => (o.get (ascii "b\x01c")).toOption) hsame
    revert hget
    decide +kernel

end NamedStores
end Topia.Ledger
