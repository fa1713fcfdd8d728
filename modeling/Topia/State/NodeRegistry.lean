import Topia.Chain.Types
import Topia.Lib.Run

/-!
# The registry of the nodes

`state/node`: the nodes are kept in four named stores, one for each active role and one for the
nodes that are not active, next to a store with the role and the state of every node. A named store
has the record of a node under its id, and the list of the ids and the total weight under two
reserved keys of the same namespace. The values are JSON texts and eight-byte numbers.
-/

namespace Topia.Node

open Lib

inductive NodeRole where
  | unknown
  | executor
  | proposer
  | validator
  | archiver
deriving DecidableEq, Repr

inductive NodeState where
  | unknown
  | standby
  | active
  | frozen
deriving DecidableEq, Repr

structure NodeInfo where
  (NodeID Address : Bytes)
  Weight : UInt64
  (DKGPartPubKey DKGPriShare : Bytes)
  Role : NodeRole
  State : NodeState
deriving DecidableEq, Repr

def NodeInfo.zero : NodeInfo := ⟨[], [], 0, [], [], .unknown, .unknown⟩

inductive RoleStore where
  | executor
  | proposer
  | validator
  | inactive
deriving DecidableEq, Repr

namespace RoleStore

def totalNodeIDsKey : RoleStore → Bytes
  | .executor => ascii "totalaenodeids"
  | .proposer => ascii "totalapnodeids"
  | .validator => ascii "totalavnodeids"
  | .inactive => ascii "totalinnodeids"

def totalWeightKey : RoleStore → Bytes
  | .executor => ascii "totalaeweight"
  | .proposer => ascii "totalapweight"
  | .validator => ascii "totalavweight"
  | .inactive => ascii "totalinweight"

def of : NodeRole → NodeState → Option RoleStore
  | .executor, .active => some .executor
  | .proposer, .active => some .proposer
  | .validator, .active => some .validator
  | _, .standby => some .inactive
  | _, .frozen => some .inactive
  | _, _ => none

end RoleStore

/-- JSON of the bytes of a string: those that are not UTF-8 are replaced. -/
structure JsonText where
  coerce : Bytes → Bytes
  coerce_coerce : ∀ text, coerce (coerce text) = coerce text

inductive RegistryValue where
  | node (info : NodeInfo)
  | ids (nodeIDs : List Bytes)
  | weight (total : UInt64)
deriving DecidableEq, Repr

def NodeInfo.marshal (J : JsonText) (info : NodeInfo) : NodeInfo :=
  { info with
    NodeID := J.coerce info.NodeID
    Address := J.coerce info.Address
    DKGPartPubKey := J.coerce info.DKGPartPubKey }

namespace RegistryValue

def marshal (J : JsonText) : RegistryValue → RegistryValue
  | .node info => .node (info.marshal J)
  | .ids nodeIDs => .ids (nodeIDs.map J.coerce)
  | .weight total => .weight total

/-- The eight bytes are the text `null` with blanks around it. -/
def isNull (total : UInt64) : Bool :=
  let blank (b : UInt8) : Bool := b ∈ ascii " \t\n\r"
  ((Chain.bigEndian64 total.toNat).dropWhile blank).reverse.dropWhile blank ==
    (ascii "null").reverse

/-- `json.Unmarshal` to a node; an empty list is written as `null`. -/
def asNode : RegistryValue → Option NodeInfo
  | .node info => some info
  | .ids nodeIDs => if nodeIDs = [] then some NodeInfo.zero else none
  | .weight total => if isNull total then some NodeInfo.zero else none

def asIDs : RegistryValue → Option (List Bytes)
  | .node _ => none
  | .ids nodeIDs => some nodeIDs
  | .weight total => if isNull total then some [] else none

/-- `binary.BigEndian.Uint64`: a node's text starts with its field `NodeID`. -/
def asWeight : RegistryValue → Option UInt64
  | .node _ => some 0x7B224E6F64654944
  | .ids _ => none
  | .weight total => some total

end RegistryValue

inductive RegistryError where
  | keyEmpty
  | json
  | invalidNodeRole (nodeID : Bytes)
  | invalidNodeState (nodeID : Bytes)
deriving DecidableEq, Repr

abbrev NamedStore := Bytes → Option RegistryValue

abbrev StoreResult := Option (Option RegistryError × NamedStore)

def StoreResult.andThen (result : StoreResult) (next : NamedStore → StoreResult) : StoreResult :=
  match result with
  | some (none, store) => next store
  | other => other

open Function StoreResult

section Common

variable (J : JsonText)

variable (r : RoleStore) (store : NamedStore) (nodeID : Bytes) (weight : UInt64)

def put (key : Bytes) (value : RegistryValue) : StoreResult :=
  if key = [] then some (some .keyEmpty, store)
  else some (none, update store key (some (value.marshal J)))

def int64 (n : Int) : Int := n.bmod (2 ^ 64)

def newTotal (curTotalWeight : UInt64) (deltaWeight : Int) : UInt64 :=
  if int64 (int64 curTotalWeight.toNat + deltaWeight) < 0 then 0
  else UInt64.ofNat (int64 (int64 curTotalWeight.toNat + deltaWeight)).toNat

def updateTotalIDs (totalIDsKey nodeID : Bytes) (isRemove : Bool) : StoreResult :=
  match store totalIDsKey with
  | none => some (some .json, store)
  | some value =>
    match value.asIDs with
    | none => some (some .json, store)
    | some nodeIDs =>
      put J store totalIDsKey
        (.ids (if isRemove then nodeIDs.filter (fun id => id != nodeID) else nodeIDs ++ [nodeID]))

def updateTotalWeight (totalWeightKey : Bytes) (deltaWeight : Int) : StoreResult :=
  match (store totalWeightKey).bind RegistryValue.asWeight with
  | none => none
  | some curTotalWeight =>
    put J store totalWeightKey (.weight (newTotal curTotalWeight deltaWeight))

def addTotalID : StoreResult :=
  if (store r.totalNodeIDsKey).isSome then
    updateTotalIDs J store r.totalNodeIDsKey nodeID false
  else put J store r.totalNodeIDsKey (.ids [nodeID])

def addTotalWeight : StoreResult :=
  if (store r.totalWeightKey).isSome then
    updateTotalWeight J store r.totalWeightKey (int64 weight.toNat)
  else put J store r.totalWeightKey (.weight weight)

def addNode (nodeInfo : NodeInfo) : StoreResult :=
  andThen (put J store nodeInfo.NodeID (.node nodeInfo)) fun store =>
    andThen (addTotalID J r store nodeInfo.NodeID) fun store =>
      addTotalWeight J r store nodeInfo.Weight

def getNode : Except RegistryError (Option NodeInfo) :=
  if nodeID = [] then .error .keyEmpty
  else
    match store nodeID with
    | none => .ok none
    | some value =>
      match value.asNode with
      | none => .error .json
      | some info => .ok (some info)

/-- A node is read, changed and written under the id in its record; a missing one is a nil
pointer. -/
def updateNode (change : NodeInfo → NodeInfo) (next : NodeInfo → NamedStore → StoreResult) :
    StoreResult :=
  match getNode store nodeID with
  | .error e => some (some e, store)
  | .ok none => none
  | .ok (some nodeInfo) =>
    andThen (put J store nodeInfo.NodeID (.node (change nodeInfo))) (next nodeInfo)

def updateWeight : StoreResult :=
  updateNode J store nodeID (fun nodeInfo => { nodeInfo with Weight := weight })
    fun nodeInfo store =>
      updateTotalWeight J store r.totalWeightKey
        (int64 (int64 weight.toNat - int64 nodeInfo.Weight.toNat))

def updateDKGPartPubKey (pubKey : Bytes) : StoreResult :=
  updateNode J store nodeID (fun nodeInfo => { nodeInfo with DKGPartPubKey := pubKey })
    fun _ store => some (none, store)

def updateDKGPriShare (priShare : Bytes) : StoreResult :=
  updateNode J store nodeID (fun nodeInfo => { nodeInfo with DKGPriShare := priShare })
    fun _ store => some (none, store)

end Common

/-- The stores of the registry; `node` has the role and the state. -/
structure NodeRegistry where
  roles : RoleStore → NamedStore
  metaInfos : Bytes → Option (NodeRole × NodeState)

inductive RegistryOp where
  | addNode (nodeInfo : NodeInfo)
  | updateWeight (nodeID : Bytes) (weight : UInt64)
  | updateDKGPartPubKey (nodeID pubKey : Bytes)
  | updateDKGPriShare (nodeID priShare : Bytes)
deriving DecidableEq, Repr

open RoleStore

namespace NodeRegistry

variable (J : JsonText)

def empty : NodeRegistry := ⟨fun _ _ => none, fun _ => none⟩

def routeError (state : NodeState) (nodeID : Bytes) : RegistryError :=
  if state = .active then .invalidNodeRole nodeID else .invalidNodeState nodeID

variable (s : NodeRegistry) (nodeID : Bytes)

def onRole (r : RoleStore) (call : NamedStore → StoreResult) :
    Option (Option RegistryError × NodeRegistry) :=
  (call (s.roles r)).map (fun result =>
    (result.1, { s with roles := update s.roles r result.2 }))

def AddNode (nodeInfo : NodeInfo) : Option (Option RegistryError × NodeRegistry) :=
  match of nodeInfo.Role nodeInfo.State with
  | none => some (some (routeError nodeInfo.State nodeInfo.NodeID), s)
  | some r =>
    (s.onRole r (fun store => addNode J r store nodeInfo)).map (fun result =>
      match result with
      | (some e, s') => (some e, s')
      | (none, s') => (none, { s' with
          metaInfos := update s'.metaInfos nodeInfo.NodeID
            (some (nodeInfo.Role, nodeInfo.State)) }))

/-- The calls that find the store of a node by its role and state; an unknown node is no
error. -/
def onNode (call : RoleStore → NamedStore → StoreResult) :
    Option (Option RegistryError × NodeRegistry) :=
  if nodeID = [] then some (some .keyEmpty, s)
  else
    match s.metaInfos nodeID with
    | none => some (none, s)
    | some (role, state) =>
      match of role state with
      | none => some (some (routeError state nodeID), s)
      | some r => s.onRole r (call r)

def UpdateWeight (weight : UInt64) : Option (Option RegistryError × NodeRegistry) :=
  s.onNode nodeID (fun r store => updateWeight J r store nodeID weight)

def UpdateDKGPartPubKey (pubKey : Bytes) : Option (Option RegistryError × NodeRegistry) :=
  s.onNode nodeID (fun _ store => updateDKGPartPubKey J store nodeID pubKey)

def UpdateDKGPriShare (priShare : Bytes) : Option (Option RegistryError × NodeRegistry) :=
  s.onNode nodeID (fun _ store => updateDKGPriShare J store nodeID priShare)

def step : RegistryOp → Option NodeRegistry
  | .addNode nodeInfo => (s.AddNode J nodeInfo).map Prod.snd
  | .updateWeight nodeID weight => (s.UpdateWeight J nodeID weight).map Prod.snd
  | .updateDKGPartPubKey nodeID pubKey => (s.UpdateDKGPartPubKey J nodeID pubKey).map Prod.snd
  | .updateDKGPriShare nodeID priShare => (s.UpdateDKGPriShare J nodeID priShare).map Prod.snd

end NodeRegistry

section Arithmetic

theorem newTotal_toNat_lt (cur : UInt64) (delta : Int) : (newTotal cur delta).toNat < 2 ^ 63 := by
  have hlt := Int.bmod_lt (x := int64 cur.toNat + delta) (m := 2 ^ 64) (Nat.two_pow_pos 64)
  unfold newTotal
  split_ifs with hneg
  · decide
  · rw [UInt64.toNat_ofNat']
    unfold int64 at *
    omega

theorem newTotal_eq_iff {cur : UInt64} {delta : Int} {target : Nat}
    (htarget : int64 (cur.toNat + delta) = int64 target) :
    (newTotal cur delta).toNat = target ↔ target < 2 ^ 63 := by
  have hfinal : int64 (int64 cur.toNat + delta) = int64 target := by
    rw [← htarget]
    exact Int.bmod_add_bmod
  constructor
  · intro heq
    rw [← heq]
    exact newTotal_toNat_lt cur delta
  intro hlt
  have hsmall : int64 target = target :=
    Int.bmod_eq_of_le (by omega) (by omega)
  unfold newTotal
  rw [hfinal, hsmall, if_neg (by omega), Int.toNat_natCast, UInt64.toNat_ofNat',
    Nat.mod_eq_of_lt (by omega)]

theorem newTotal_add_iff (cur weight : UInt64) :
    (newTotal cur (int64 weight.toNat)).toNat = cur.toNat + weight.toNat ↔
      cur.toNat + weight.toNat < 2 ^ 63 := by
  refine newTotal_eq_iff ?_
  exact Int.add_bmod_bmod

theorem newTotal_update_iff {cur old : UInt64} (weight : UInt64) (hle : old.toNat ≤ cur.toNat) :
    (newTotal cur (int64 (int64 weight.toNat - int64 old.toNat))).toNat =
        cur.toNat - old.toNat + weight.toNat ↔
      cur.toNat - old.toNat + weight.toNat < 2 ^ 63 := by
  refine newTotal_eq_iff ?_
  have hdelta : int64 (int64 weight.toNat - int64 old.toNat) =
      int64 ((weight.toNat : Int) - old.toNat) := by
    unfold int64
    rw [Int.bmod_sub_bmod, Int.sub_bmod_bmod]
  have hsum : (cur.toNat : Int) + ((weight.toNat : Int) - old.toNat) =
      ((cur.toNat - old.toNat + weight.toNat : Nat) : Int) := by
    omega
  rw [hdelta, ← hsum]
  exact Int.add_bmod_bmod

end Arithmetic

section Roles

variable (r : RoleStore) (store : NamedStore) (nodeID : Bytes) (nodeIDs : List Bytes)

def Reserved (key : Bytes) : Prop :=
  key = r.totalNodeIDsKey ∨ key = r.totalWeightKey

def StoredNode : Prop :=
  (store nodeID).isSome ∧ ¬ Reserved r nodeID

def weightOf : Nat :=
  match store nodeID with
  | some (.node info) => info.Weight.toNat
  | _ => 0

/-- The list has each stored node once, each with a record of its role. -/
structure Listed : Prop where
  nodup : nodeIDs.Nodup
  mem_iff : ∀ nodeID, nodeID ∈ nodeIDs ↔ StoredNode r store nodeID
  record : ∀ nodeID, StoredNode r store nodeID → ∃ info, store nodeID = some (.node info) ∧
    info.NodeID = nodeID ∧ of info.Role info.State = some r
  ids : store r.totalNodeIDsKey = some (.ids nodeIDs) ∨
    store r.totalNodeIDsKey = none ∧ nodeIDs = []

/-- The stored total is the sum of the weights, if there is a node. -/
def Totalled : Prop :=
  (∃ total, store r.totalWeightKey = some (.weight total) ∧
    total.toNat = (nodeIDs.map (weightOf store)).sum) ∨
  store r.totalWeightKey = none ∧ nodeIDs = []

variable {J : JsonText} {r : RoleStore} {store : NamedStore} {nodeIDs : List Bytes}
  {nodeID key : Bytes} {info : NodeInfo}

theorem ids_ne_weight (r : RoleStore) : r.totalNodeIDsKey ≠ r.totalWeightKey := by
  cases r <;> decide

theorem reserved_ne_nil : ¬ Reserved r [] := by
  unfold Reserved
  cases r <;> decide

variable {nodeIDs' l : List Bytes}

theorem nodeIDs_unique (h : Listed r store nodeIDs)
    (h' : Listed r store nodeIDs') : nodeIDs = nodeIDs' := by
  rcases h.ids with hids | ⟨hids, rfl⟩ <;> rcases h'.ids with hids' | ⟨hids', rfl⟩ <;>
    rw [hids] at hids' <;> simp at hids'
  exact hids'

open List

theorem sum_map_filter_ne {f : Bytes → Nat} (hnodup : l.Nodup) (hmem : nodeID ∈ l) :
    (l.map f).sum = f nodeID + ((l.filter (fun x => x != nodeID)).map f).sum := by
  have hperm := ((perm_cons_erase hmem).map f).sum_nat
  rwa [hnodup.erase_eq_filter, map_cons, sum_cons] at hperm

theorem sum_map_of_changed {f g : Bytes → Nat} (hnodup : l.Nodup)
    (hmem : nodeID ∈ l) (hother : ∀ x ∈ l, x ≠ nodeID → g x = f x) :
    (l.map g).sum + f nodeID = (l.map f).sum + g nodeID := by
  have hrest : (l.filter (fun x => x != nodeID)).map g =
      (l.filter (fun x => x != nodeID)).map f := by
    refine map_congr_left (fun x hx => ?_)
    obtain ⟨hx, hne⟩ := mem_filter.mp hx
    exact hother x hx (bne_iff_ne.mp hne)
  rw [sum_map_filter_ne hnodup hmem, sum_map_filter_ne (f := f) hnodup hmem, hrest]
  omega

theorem Listed.setRecord (h : Listed r store nodeIDs) (hstored : StoredNode r store nodeID)
    (info' : NodeInfo) (hid : info'.NodeID = nodeID)
    (hrole : of info'.Role info'.State = some r) :
    Listed r (update store nodeID (some (.node info'))) nodeIDs ∧
    (nodeIDs.map (weightOf (update store nodeID (some (.node info'))))).sum +
        weightOf store nodeID =
      (nodeIDs.map (weightOf store)).sum + info'.Weight.toNat := by
  have hids : r.totalNodeIDsKey ≠ nodeID := fun heq => hstored.2 (.inl heq.symm)
  have hsame : ∀ x, StoredNode r (update store nodeID (some (.node info'))) x ↔
      StoredNode r store x := by
    intro x
    unfold StoredNode
    by_cases hx : x = nodeID
    · rw [hx, update_self]
      simp [hstored.1]
    · rw [update_of_ne hx]
  refine ⟨⟨h.nodup, ?_, ?_, ?_⟩, ?_⟩
  · intro x
    rw [hsame]
    exact h.mem_iff x
  · intro x hx
    by_cases heq : x = nodeID
    · exact ⟨info', by rw [heq, update_self], by rw [hid, heq], hrole⟩
    · rw [update_of_ne heq]
      exact h.record x ((hsame x).mp hx)
  · rw [update_of_ne hids]
    exact h.ids
  · have hself : weightOf (update store nodeID (some (.node info'))) nodeID =
        info'.Weight.toNat := by
      rw [weightOf, update_self]
    rw [← hself]
    refine sum_map_of_changed h.nodup ((h.mem_iff nodeID).mpr hstored) (fun x _ hx => ?_)
    rw [weightOf, weightOf, update_of_ne hx]

theorem weightOf_of_reserved (hkey : Reserved r key) {value : Option RegistryValue}
    (hnode : ¬ Reserved r nodeID) :
    weightOf (update store key value) nodeID = weightOf store nodeID := by
  have hne : nodeID ≠ key := by
    rintro rfl
    exact hnode hkey
  rw [weightOf, weightOf, update_of_ne hne]

theorem Listed.sum_of_reserved (h : Listed r store nodeIDs) (hkey : Reserved r key)
    (value : Option RegistryValue) :
    (nodeIDs.map (weightOf (update store key value))).sum =
      (nodeIDs.map (weightOf store)).sum := by
  have hmap : nodeIDs.map (weightOf (update store key value)) =
      nodeIDs.map (weightOf store) :=
    map_congr_left (fun x hx => weightOf_of_reserved hkey ((h.mem_iff x).mp hx).2)
  rw [hmap]

theorem Listed.setTotal (h : Listed r store nodeIDs) (value : Option RegistryValue) :
    Listed r (update store r.totalWeightKey value) nodeIDs := by
  have hother : ∀ x, ¬ Reserved r x → update store r.totalWeightKey value x = store x := by
    intro x hx
    exact update_of_ne (fun heq => hx (.inr heq)) _ _
  have hsame : ∀ x, StoredNode r (update store r.totalWeightKey value) x ↔
      StoredNode r store x := by
    intro x
    refine and_congr_left (fun hx => ?_)
    rw [hother x hx]
  refine ⟨h.nodup, fun x => (h.mem_iff x).trans (hsame x).symm, ?_, ?_⟩
  · intro x hx
    rw [hother x hx.2]
    exact h.record x ((hsame x).mp hx)
  · rw [update_of_ne (ids_ne_weight r)]
    exact h.ids

section Add

def totalAfterAdd (found : Option RegistryValue) (weight : UInt64) : UInt64 :=
  match found with
  | some value => newTotal (value.asWeight.getD 0) (int64 weight.toNat)
  | none => weight

def withRecord (J : JsonText) (store : NamedStore) (nodeInfo : NodeInfo) : NamedStore :=
  update store nodeInfo.NodeID (some ((RegistryValue.node nodeInfo).marshal J))

def addedStore (J : JsonText) (r : RoleStore) (store : NamedStore) (nodeInfo : NodeInfo)
    (nodeIDs : List Bytes) : NamedStore :=
  update
    (update (withRecord J store nodeInfo) r.totalNodeIDsKey
      (some (.ids (nodeIDs ++ [J.coerce nodeInfo.NodeID]))))
    r.totalWeightKey
    (some (.weight (totalAfterAdd (withRecord J store nodeInfo r.totalWeightKey) nodeInfo.Weight)))

theorem addTotalID_eq
    (hids : store r.totalNodeIDsKey = some (.ids nodeIDs) ∨
      store r.totalNodeIDsKey = none ∧ nodeIDs = [])
    (hcoerced : nodeIDs.map J.coerce = nodeIDs) :
    addTotalID J r store nodeID = some (none, update store r.totalNodeIDsKey
      (some (.ids (nodeIDs ++ [J.coerce nodeID])))) := by
  have hnil : r.totalNodeIDsKey ≠ [] := fun heq => reserved_ne_nil (.inl heq.symm)
  unfold addTotalID
  rcases hids with hfound | ⟨hfound, rfl⟩
  · simp [hfound, updateTotalIDs, RegistryValue.asIDs, put, hnil, RegistryValue.marshal, hcoerced]
  · simp [hfound, put, hnil, RegistryValue.marshal]

theorem addTotalWeight_eq {weight : UInt64}
    (hreadable : ∀ value, store r.totalWeightKey = some value → value.asWeight.isSome) :
    addTotalWeight J r store weight = some (none, update store r.totalWeightKey
      (some (.weight (totalAfterAdd (store r.totalWeightKey) weight)))) := by
  have hnil : r.totalWeightKey ≠ [] := fun heq => reserved_ne_nil (.inr heq.symm)
  unfold addTotalWeight
  cases hfound : store r.totalWeightKey with
  | none => simp [put, hnil, RegistryValue.marshal, totalAfterAdd]
  | some value =>
    obtain ⟨cur, hcur⟩ := Option.isSome_iff_exists.mp (hreadable value hfound)
    simp [hfound, hcur, updateTotalWeight, put, hnil, RegistryValue.marshal, totalAfterAdd]

theorem addNode_eq (h : Listed r store nodeIDs) (htotal : Totalled r store nodeIDs)
    (hcoerced : nodeIDs.map J.coerce = nodeIDs) (hid : info.NodeID ≠ [])
    (hids : info.NodeID ≠ r.totalNodeIDsKey) :
    addNode J r store info = some (none, addedStore J r store info nodeIDs) := by
  have hput : put J store info.NodeID (.node info) = some (none, withRecord J store info) := by
    rw [put, if_neg hid]
    rfl
  have hlist : withRecord J store info r.totalNodeIDsKey = store r.totalNodeIDsKey :=
    update_of_ne hids.symm _ _
  have hreadable : ∀ value, withRecord J store info r.totalWeightKey = some value →
      value.asWeight.isSome := by
    intro value hvalue
    unfold withRecord at hvalue
    by_cases hkey : r.totalWeightKey = info.NodeID
    · rw [hkey, update_self] at hvalue
      cases hvalue
      rfl
    rw [update_of_ne hkey] at hvalue
    rcases htotal with ⟨total, hstored, _⟩ | ⟨hnone, _⟩
    · rw [hstored] at hvalue
      cases hvalue
      rfl
    · rw [hnone] at hvalue
      cases hvalue
  have hweight : update (withRecord J store info) r.totalNodeIDsKey
      (some (.ids (nodeIDs ++ [J.coerce info.NodeID]))) r.totalWeightKey =
      withRecord J store info r.totalWeightKey :=
    update_of_ne (ids_ne_weight r).symm _ _
  unfold addNode
  rw [hput]
  simp only [andThen]
  rw [addTotalID_eq (by rw [hlist]; exact h.ids) hcoerced]
  simp only
  rw [addTotalWeight_eq (by rw [hweight]; exact hreadable), hweight]
  rfl

theorem addedStore_apply (key : Bytes) :
    addedStore J r store info nodeIDs key =
      if key = r.totalWeightKey then
        some (.weight (totalAfterAdd (withRecord J store info r.totalWeightKey) info.Weight))
      else if key = r.totalNodeIDsKey then
        some (.ids (nodeIDs ++ [J.coerce info.NodeID]))
      else if key = info.NodeID then some ((RegistryValue.node info).marshal J)
      else store key := by
  simp [addedStore, withRecord, update_apply]

theorem addedStore_of_not_reserved {x : Bytes} (hx : ¬ Reserved r x) :
    addedStore J r store info nodeIDs x =
      if x = info.NodeID then some ((RegistryValue.node info).marshal J) else store x := by
  rw [addedStore_apply, if_neg (fun heq => hx (.inr heq)), if_neg (fun heq => hx (.inl heq))]

variable (h : Listed r store nodeIDs)
include h

theorem new_of_listed {nodeIDs' : List Bytes}
    (h' : Listed r (addedStore J r store info nodeIDs) nodeIDs') :
    J.coerce info.NodeID = info.NodeID ∧ ¬ Reserved r info.NodeID ∧
    ¬ StoredNode r store info.NodeID := by
  have hlist : nodeIDs' = nodeIDs ++ [J.coerce info.NodeID] := by
    have hfound : addedStore J r store info nodeIDs r.totalNodeIDsKey =
        some (.ids (nodeIDs ++ [J.coerce info.NodeID])) := by
      rw [addedStore_apply, if_neg (ids_ne_weight r), if_pos rfl]
    rcases h'.ids with hids | ⟨hids, _⟩
    · rw [hfound] at hids
      cases hids
      rfl
    · rw [hfound] at hids
      cases hids
  subst hlist
  have hnew : J.coerce info.NodeID ∉ nodeIDs := by
    intro hmem
    exact (nodup_append.mp h'.nodup).2.2 _ hmem _ mem_cons_self rfl
  obtain ⟨hsome, hfree⟩ :=
    (h'.mem_iff (J.coerce info.NodeID)).mp (mem_append_right _ mem_cons_self)
  have hid : J.coerce info.NodeID = info.NodeID := by
    by_contra hne
    rw [addedStore_of_not_reserved hfree, if_neg hne] at hsome
    exact hnew ((h.mem_iff _).mpr ⟨hsome, hfree⟩)
  rw [hid] at hnew hfree
  exact ⟨hid, hfree, fun hstored => hnew ((h.mem_iff _).mpr hstored)⟩

theorem listed_addedStore (hid : J.coerce info.NodeID = info.NodeID)
    (hfree : ¬ Reserved r info.NodeID) (hnew : ¬ StoredNode r store info.NodeID)
    (hrole : of info.Role info.State = some r) :
    Listed r (addedStore J r store info nodeIDs) (nodeIDs ++ [info.NodeID]) := by
  have hnotMem : info.NodeID ∉ nodeIDs := fun hmem => hnew ((h.mem_iff _).mp hmem)
  refine ⟨?_, ?_, ?_, ?_⟩
  · rw [nodup_append]
    refine ⟨h.nodup, pairwise_singleton _ _, ?_⟩
    intro x hx y hy
    rw [mem_singleton.mp hy]
    rintro rfl
    exact hnotMem hx
  · intro x
    rw [mem_append, mem_singleton, h.mem_iff]
    unfold StoredNode
    by_cases hx : Reserved r x
    · have hne : x ≠ info.NodeID := by
        rintro rfl
        exact hfree hx
      simp [hx, hne]
    · rw [addedStore_of_not_reserved hx]
      by_cases heq : x = info.NodeID
      · simp [heq, hfree]
      · simp [heq]
  · intro x hx
    rw [addedStore_of_not_reserved hx.2]
    by_cases heq : x = info.NodeID
    · rw [if_pos heq, heq]
      exact ⟨_, rfl, hid, hrole⟩
    · rw [if_neg heq]
      refine h.record x ⟨?_, hx.2⟩
      have hsome := hx.1
      rwa [addedStore_of_not_reserved hx.2, if_neg heq] at hsome
  · left
    rw [addedStore_apply, if_neg (ids_ne_weight r), if_pos rfl, hid]

theorem sum_addedStore (hfree : ¬ Reserved r info.NodeID)
    (hnew : ¬ StoredNode r store info.NodeID) :
    ((nodeIDs ++ [info.NodeID]).map (weightOf (addedStore J r store info nodeIDs))).sum =
      (nodeIDs.map (weightOf store)).sum + info.Weight.toNat := by
  have hold : nodeIDs.map (weightOf (addedStore J r store info nodeIDs)) =
      nodeIDs.map (weightOf store) := by
    refine map_congr_left (fun x hx => ?_)
    have hstored := (h.mem_iff x).mp hx
    have hne : x ≠ info.NodeID := by
      rintro rfl
      exact hnew hstored
    rw [weightOf, weightOf, addedStore_of_not_reserved hstored.2, if_neg hne]
  have hown : weightOf (addedStore J r store info nodeIDs) info.NodeID = info.Weight.toNat := by
    rw [weightOf, addedStore_of_not_reserved hfree, if_pos rfl]
    rfl
  rw [map_append, sum_append, hold, map_singleton, sum_singleton, hown]

theorem totalled_addedStore_iff (htotal : Totalled r store nodeIDs)
    (hfree : ¬ Reserved r info.NodeID) (hnew : ¬ StoredNode r store info.NodeID) :
    Totalled r (addedStore J r store info nodeIDs) (nodeIDs ++ [info.NodeID]) ↔
      ∀ total, store r.totalWeightKey = some (.weight total) →
        total.toNat + info.Weight.toNat < 2 ^ 63 := by
  have hsum := sum_addedStore (J := J) h hfree hnew
  have hne : r.totalWeightKey ≠ info.NodeID := fun heq => hfree (.inr heq.symm)
  have hfound : addedStore J r store info nodeIDs r.totalWeightKey =
      some (.weight (totalAfterAdd (store r.totalWeightKey) info.Weight)) := by
    rw [addedStore_apply, if_pos rfl, withRecord, update_of_ne hne]
  have hiff : Totalled r (addedStore J r store info nodeIDs) (nodeIDs ++ [info.NodeID]) ↔
      (totalAfterAdd (store r.totalWeightKey) info.Weight).toNat =
        (nodeIDs.map (weightOf store)).sum + info.Weight.toNat := by
    unfold Totalled
    rw [hsum, hfound]
    simp
  rw [hiff]
  rcases htotal with ⟨total, hstored, heq⟩ | ⟨hnone, rfl⟩
  · rw [hstored, ← heq]
    have hadd := newTotal_add_iff total info.Weight
    simpa [totalAfterAdd, RegistryValue.asWeight] using hadd
  · simp [hnone, totalAfterAdd]

end Add

end Roles

section Marshaled

variable {J : JsonText} {r : RoleStore} {store store' : NamedStore} {nodeID key : Bytes}
  {value : RegistryValue} {info : NodeInfo}

theorem marshal_marshal (J : JsonText) (value : RegistryValue) :
    (value.marshal J).marshal J = value.marshal J := by
  cases value with
  | node info => simp [RegistryValue.marshal, NodeInfo.marshal, J.coerce_coerce]
  | ids nodeIDs => simp [RegistryValue.marshal, J.coerce_coerce]
  | weight total => rfl

/-- The values are as JSON leaves them; nothing is under the empty key. -/
structure Marshaled (J : JsonText) (store : NamedStore) : Prop where
  value : ∀ key value, store key = some value → value.marshal J = value
  nil : store [] = none

def LeavesMarshaled (J : JsonText) (result : StoreResult) : Prop :=
  ∀ e store', result = some (e, store') → Marshaled J store'

theorem leaves_put (h : Marshaled J store) (key : Bytes) (value : RegistryValue) :
    LeavesMarshaled J (put J store key value) := by
  intro e store' heq
  unfold put at heq
  split_ifs at heq with hkey
  · cases heq
    exact h
  cases heq
  refine ⟨?_, ?_⟩
  · intro key' value' hvalue
    by_cases hsame : key' = key
    · rw [hsame, update_self] at hvalue
      cases hvalue
      exact marshal_marshal J value
    · rw [update_of_ne hsame] at hvalue
      exact h.value key' value' hvalue
  · rw [update_of_ne (fun heq => hkey heq.symm)]
    exact h.nil

theorem leaves_same (h : Marshaled J store) (e : Option RegistryError) :
    LeavesMarshaled J (some (e, store)) := by
  intro e' store' heq
  cases heq
  exact h

theorem leaves_andThen {result : StoreResult} {next : NamedStore → StoreResult}
    (hresult : LeavesMarshaled J result)
    (hnext : ∀ store, Marshaled J store → LeavesMarshaled J (next store)) :
    LeavesMarshaled J (result.andThen next) := by
  intro e store' heq
  unfold andThen at heq
  split at heq
  · next store => exact hnext store (hresult none store rfl) e store' heq
  · exact hresult e store' heq

section Marshaled

variable (h : Marshaled J store)
include h

theorem leaves_updateTotalIDs (key nodeID : Bytes) (isRemove : Bool) :
    LeavesMarshaled J (updateTotalIDs J store key nodeID isRemove) := by
  unfold updateTotalIDs
  split
  · exact leaves_same h _
  · split
    · exact leaves_same h _
    · exact leaves_put h _ _

theorem leaves_updateTotalWeight (key : Bytes) (delta : Int) :
    LeavesMarshaled J (updateTotalWeight J store key delta) := by
  unfold updateTotalWeight
  split
  · intro e store' heq
    cases heq
  · exact leaves_put h _ _

theorem leaves_addNode : LeavesMarshaled J (addNode J r store info) := by
  refine leaves_andThen (leaves_put h _ _) (fun store h => leaves_andThen ?_ (fun store h => ?_))
  · unfold addTotalID
    split_ifs
    · exact leaves_updateTotalIDs h _ _ _
    · exact leaves_put h _ _
  · unfold addTotalWeight
    split_ifs
    · exact leaves_updateTotalWeight h _ _
    · exact leaves_put h _ _

theorem leaves_updateNode {change : NodeInfo → NodeInfo}
    {next : NodeInfo → NamedStore → StoreResult}
    (hnext : ∀ info store, Marshaled J store → LeavesMarshaled J (next info store)) :
    LeavesMarshaled J (updateNode J store nodeID change next) := by
  unfold updateNode
  split
  · exact leaves_same h _
  · intro e store' heq
    cases heq
  · exact leaves_andThen (leaves_put h _ _) (hnext _)

theorem updateNode_eq {change : NodeInfo → NodeInfo} {next : NodeInfo → NamedStore → StoreResult}
    (hfound : store nodeID = some (.node info)) (hid : info.NodeID = nodeID) :
    updateNode J store nodeID change next =
      next info (update store nodeID (some (.node ((change info).marshal J)))) := by
  have hnil : nodeID ≠ [] := by
    rintro rfl
    rw [h.nil] at hfound
    cases hfound
  simp [updateNode, getNode, hnil, hfound, RegistryValue.asNode, put, hid, andThen,
    RegistryValue.marshal]

theorem coerce_of_marshaled (hfound : store nodeID = some (.node info)) :
    J.coerce info.NodeID = info.NodeID := by
  have hsame := h.value _ _ hfound
  simp only [RegistryValue.marshal, RegistryValue.node.injEq] at hsame
  exact congrArg NodeInfo.NodeID hsame

theorem map_coerce_of_listed {nodeIDs : List Bytes}
    (hlisted : Listed r store nodeIDs) : nodeIDs.map J.coerce = nodeIDs := by
  rcases hlisted.ids with hids | ⟨_, rfl⟩
  · have hsame := h.value _ _ hids
    simpa [RegistryValue.marshal] using hsame
  · rfl

end Marshaled

def reweighedStore (J : JsonText) (r : RoleStore) (store : NamedStore) (nodeInfo : NodeInfo)
    (weight total : UInt64) : NamedStore :=
  update (withRecord J store { nodeInfo with Weight := weight }) r.totalWeightKey
    (some (.weight (newTotal total (int64 (int64 weight.toNat - int64 nodeInfo.Weight.toNat)))))

theorem updateWeight_eq {weight total : UInt64} (h : Marshaled J store)
    (hstored : StoredNode r store nodeID) (hfound : store nodeID = some (.node info))
    (hid : info.NodeID = nodeID) (htotal : store r.totalWeightKey = some (.weight total)) :
    updateWeight J r store nodeID weight =
      some (none, reweighedStore J r store info weight total) := by
  have hkey : r.totalWeightKey ≠ nodeID := fun heq => hstored.2 (.inr heq.symm)
  have hnil : r.totalWeightKey ≠ [] := fun heq => reserved_ne_nil (.inr heq.symm)
  rw [updateWeight, updateNode_eq h hfound hid]
  subst hid
  simp only [updateTotalWeight, update_of_ne hkey, htotal, Option.bind_some,
    RegistryValue.asWeight, put, if_neg hnil, RegistryValue.marshal, reweighedStore, withRecord]

theorem reweighed_iff {nodeIDs : List Bytes} {total : UInt64} (weight : UInt64)
    (h : Marshaled J store)
    (hlisted : Listed r store nodeIDs) (htotal : total.toNat = (nodeIDs.map (weightOf store)).sum)
    (hstored : StoredNode r store nodeID) (hfound : store nodeID = some (.node info))
    (hid : info.NodeID = nodeID) (hrole : of info.Role info.State = some r) :
    Listed r (reweighedStore J r store info weight total) nodeIDs ∧
    (Totalled r (reweighedStore J r store info weight total) nodeIDs ↔
      total.toNat - weightOf store nodeID + weight.toNat < 2 ^ 63) := by
  subst hid
  have hold : weightOf store info.NodeID = info.Weight.toNat := by simp [weightOf, hfound]
  have hcoerce := coerce_of_marshaled h hfound
  obtain ⟨hlisted', hsum⟩ := hlisted.setRecord hstored
    (({ info with Weight := weight } : NodeInfo).marshal J) hcoerce hrole
  have hle : info.Weight.toNat ≤ total.toNat := by
    have hsum := sum_map_filter_ne (f := weightOf store) hlisted.nodup
      ((hlisted.mem_iff _).mpr hstored)
    omega
  have hsum' : (nodeIDs.map (weightOf (withRecord J store { info with Weight := weight }))).sum =
      total.toNat - info.Weight.toNat + weight.toNat := by
    have hweight : (({ info with Weight := weight } : NodeInfo).marshal J).Weight = weight := rfl
    rw [hweight, hold] at hsum
    simp only [withRecord, RegistryValue.marshal]
    omega
  have hrecorded : Listed r (withRecord J store { info with Weight := weight }) nodeIDs := hlisted'
  refine ⟨hrecorded.setTotal _, ?_⟩
  unfold Totalled reweighedStore
  rw [update_self, hrecorded.sum_of_reserved (.inr rfl), hsum', hold,
    ← newTotal_update_iff weight hle]
  simp

end Marshaled

end Topia.Node
