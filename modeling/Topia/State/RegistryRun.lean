import Topia.State.NodeRegistry

/-!
# The nodes of the registry over a run

Every sequence of `AddNode` and the updates of weight and keys, from an empty registry; the methods
that add to the store of one role are not called alone. No call removes a node or changes its role:
a node that is added again is not looked for in any store.
-/

namespace Topia.Node

open Lib

namespace NodeRegistry

section Exact

open RoleStore

/-- In each store the list and the total are those of the records of its role, and a node is there
exactly when its role and state say so. -/
structure RegistryOk (s : NodeRegistry) : Prop where
  listed : ∀ r, ∃ nodeIDs, Listed r (s.roles r) nodeIDs ∧ Totalled r (s.roles r) nodeIDs
  own : ∀ r nodeID, StoredNode r (s.roles r) nodeID ↔
    ∃ role state, s.metaInfos nodeID = some (role, state) ∧ of role state = some r

variable (J : JsonText)

def Proper (s : NodeRegistry) : RegistryOp → Prop
  | .addNode nodeInfo => ∀ r, of nodeInfo.Role nodeInfo.State = some r →
      nodeInfo.NodeID ≠ [] →
      J.coerce nodeInfo.NodeID = nodeInfo.NodeID ∧ ¬ Reserved r nodeInfo.NodeID ∧
      (∀ r', ¬ StoredNode r' (s.roles r') nodeInfo.NodeID) ∧
      ∀ total, s.roles r r.totalWeightKey = some (.weight total) →
        total.toNat + nodeInfo.Weight.toNat < 2 ^ 63
  | .updateWeight nodeID weight => ∀ role state r total, nodeID ≠ [] →
      s.metaInfos nodeID = some (role, state) → of role state = some r →
      s.roles r r.totalWeightKey = some (.weight total) →
      total.toNat - weightOf (s.roles r) nodeID + weight.toNat < 2 ^ 63
  | _ => True

variable {J} {s s' : NodeRegistry} {op : RegistryOp} {r : RoleStore} {nodeID : Bytes}
  {info : NodeInfo}

open Option

theorem RegistryOk.stored_once (hs : s.RegistryOk) {r' : RoleStore}
    (h : StoredNode r (s.roles r) nodeID) (h' : StoredNode r' (s.roles r') nodeID) : r = r' := by
  obtain ⟨role, state, hmeta, hof⟩ := (hs.own r nodeID).mp h
  obtain ⟨role', state', hmeta', hof'⟩ := (hs.own r' nodeID).mp h'
  rw [hmeta] at hmeta'
  cases hmeta'
  rw [hof] at hof'
  exact some.inj hof'

open Function

theorem registryOk_onRole_iff (hs : s.RegistryOk) {store : NamedStore}
    (hsame : ∀ x, StoredNode r store x ↔ StoredNode r (s.roles r) x) :
    ({ s with roles := update s.roles r store } : NodeRegistry).RegistryOk ↔
      ∃ nodeIDs, Listed r store nodeIDs ∧ Totalled r store nodeIDs := by
  constructor
  · intro hs'
    have hlisted := hs'.listed r
    simpa using hlisted
  intro hstore
  refine ⟨fun r' => ?_, fun r' x => ?_⟩
  · by_cases hr : r' = r
    · subst hr
      simpa using hstore
    · simpa [update_of_ne hr] using hs.listed r'
  · by_cases hr : r' = r
    · subst hr
      simpa [hsame] using hs.own r' x
    · simpa [update_of_ne hr] using hs.own r' x

def added (J : JsonText) (s : NodeRegistry) (r : RoleStore) (nodeInfo : NodeInfo)
    (nodeIDs : List Bytes) : NodeRegistry where
  roles := update s.roles r (addedStore J r (s.roles r) nodeInfo nodeIDs)
  metaInfos := update s.metaInfos nodeInfo.NodeID (some (nodeInfo.Role, nodeInfo.State))

theorem added_roles_self (nodeIDs : List Bytes) : (added J s r info nodeIDs).roles r =
    addedStore J r (s.roles r) info nodeIDs :=
  update_self _ _ _

theorem added_roles_of_ne {r' : RoleStore} (hr : r' ≠ r) (nodeIDs : List Bytes) :
    (added J s r info nodeIDs).roles r' = s.roles r' :=
  update_of_ne hr _ _

theorem proper_of_added {nodeIDs : List Bytes} (hlisted : Listed r (s.roles r) nodeIDs)
    (htotal : Totalled r (s.roles r) nodeIDs) (hrole : of info.Role info.State = some r)
    (hs' : (added J s r info nodeIDs).RegistryOk) : s.Proper J (.addNode info) := by
  intro r' hrole' _
  rw [hrole] at hrole'
  obtain rfl := some.inj hrole'
  obtain ⟨nodeIDs', hlisted', htotal'⟩ := hs'.listed r
  rw [added_roles_self] at hlisted' htotal'
  obtain ⟨hcoerce, hfree, hnew⟩ := new_of_listed hlisted hlisted'
  have hadded := listed_addedStore hlisted hcoerce hfree hnew hrole
  rw [nodeIDs_unique hlisted' hadded] at htotal'
  refine ⟨hcoerce, hfree, ?_, (totalled_addedStore_iff hlisted htotal hfree hnew).mp htotal'⟩
  intro r' hstored
  by_cases hr : r' = r
  · rw [hr] at hstored
    exact hnew hstored
  · -- the node would be in two stores
    rw [← added_roles_of_ne hr nodeIDs] at hstored
    refine hr (hs'.stored_once hstored ?_)
    rw [added_roles_self]
    exact (hadded.mem_iff _).mp (List.mem_append_right _ List.mem_cons_self)

theorem added_ok {nodeIDs : List Bytes} (hs : s.RegistryOk)
    (hlisted : Listed r (s.roles r) nodeIDs) (htotal : Totalled r (s.roles r) nodeIDs)
    (hrole : of info.Role info.State = some r) (hid : info.NodeID ≠ [])
    (hproper : s.Proper J (.addNode info)) : (added J s r info nodeIDs).RegistryOk := by
  obtain ⟨hcoerce, hfree, hnew, hlimit⟩ := hproper r hrole hid
  have hlisted' := listed_addedStore hlisted hcoerce hfree (hnew r) hrole
  refine ⟨fun r' => ?_, fun r' x => ?_⟩
  · by_cases hr : r' = r
    · subst hr
      rw [added_roles_self]
      exact ⟨_, hlisted', (totalled_addedStore_iff hlisted htotal hfree (hnew r')).mpr hlimit⟩
    · rw [added_roles_of_ne hr]
      exact hs.listed r'
  · by_cases hx : x = info.NodeID
    · subst hx
      simp only [added, update_self, some.injEq, Prod.mk.injEq]
      constructor
      · intro hstored
        by_cases hr : r' = r
        · exact ⟨_, _, ⟨rfl, rfl⟩, hr ▸ hrole⟩
        · rw [update_of_ne hr] at hstored
          exact absurd hstored (hnew r')
      · rintro ⟨role, state, ⟨rfl, rfl⟩, hof⟩
        rw [hrole] at hof
        obtain rfl := some.inj hof
        rw [update_self]
        exact (hlisted'.mem_iff _).mp (List.mem_append_right _ List.mem_cons_self)
    · simp only [added, update_of_ne hx]
      rw [← hs.own r' x]
      by_cases hr : r' = r
      · subst hr
        rw [update_self, ← hlisted'.mem_iff, ← hlisted.mem_iff, List.mem_append]
        simp [hx]
      · rw [update_of_ne hr]

theorem onRole_same (s : NodeRegistry) (r : RoleStore) :
    ({ s with roles := update s.roles r (s.roles r) } : NodeRegistry) = s := by
  rw [update_eq_self]

theorem addNode_ok_iff (hinv : ∀ r, Marshaled J (s.roles r)) (hs : s.RegistryOk)
    (nodeInfo : NodeInfo) :
    ∃ s', s.step J (.addNode nodeInfo) = some s' ∧
      (s'.RegistryOk ↔ s.Proper J (.addNode nodeInfo)) := by
  simp only [step, AddNode]
  cases hrole : of nodeInfo.Role nodeInfo.State with
  | none =>
    refine ⟨s, rfl, iff_of_true hs ?_⟩
    intro r hrole'
    rw [hrole] at hrole'
    cases hrole'
  | some r =>
    by_cases hid : nodeInfo.NodeID = []
    · have hcall : addNode J r (s.roles r) nodeInfo = some (some .keyEmpty, s.roles r) := by
        simp [addNode, put, hid, StoreResult.andThen]
      refine ⟨s, ?_, iff_of_true hs (fun _ _ hne => absurd hid hne)⟩
      simp only [onRole, hcall, map_some]
      rw [onRole_same]
    · obtain ⟨nodeIDs, hlisted, htotal⟩ := hs.listed r
      by_cases hids : nodeInfo.NodeID = r.totalNodeIDsKey
      · -- the list is overwritten by the record, and cannot be read any more
        have hcall : addNode J r (s.roles r) nodeInfo =
            some (some .json, withRecord J (s.roles r) nodeInfo) := by
          simp [addNode, put, hid, StoreResult.andThen, addTotalID, ← hids, updateTotalIDs,
            RegistryValue.marshal, RegistryValue.asIDs, withRecord]
        refine ⟨{ s with roles :=
          Function.update s.roles r (withRecord J (s.roles r) nodeInfo) }, ?_, iff_of_false ?_ ?_⟩
        · simp [onRole, hcall]
        · intro hs'
          obtain ⟨nodeIDs', hlisted', _⟩ := hs'.listed r
          have hfound := hlisted'.ids
          simp [withRecord, ← hids, RegistryValue.marshal] at hfound
        · intro hproper
          exact (hproper r hrole hid).2.1 (.inl hids)
      · refine ⟨added J s r nodeInfo nodeIDs, ?_,
          proper_of_added hlisted htotal hrole, added_ok hs hlisted htotal hrole hid⟩
        have hcall := addNode_eq hlisted htotal (map_coerce_of_listed (hinv r) hlisted) hid hids
        simp only [onRole, hcall, map_some]
        rfl

theorem onNode_cases (hs : s.RegistryOk) (nodeID : Bytes)
    (call : RoleStore → NamedStore → StoreResult) :
    (∃ e, s.onNode nodeID call = some (e, s) ∧ ∀ role state r, nodeID ≠ [] →
      s.metaInfos nodeID = some (role, state) → of role state ≠ some r) ∨
    ∃ role state r nodeInfo, nodeID ≠ [] ∧ s.metaInfos nodeID = some (role, state) ∧
      of role state = some r ∧
      StoredNode r (s.roles r) nodeID ∧ s.roles r nodeID = some (.node nodeInfo) ∧
      nodeInfo.NodeID = nodeID ∧ of nodeInfo.Role nodeInfo.State = some r ∧
      s.onNode nodeID call = s.onRole r (call r) := by
  unfold onNode
  split_ifs with hnil
  · exact .inl ⟨_, rfl, fun _ _ _ hne => absurd hnil hne⟩
  cases hmeta : s.metaInfos nodeID with
  | none => exact .inl ⟨_, rfl, fun _ _ _ _ h => by cases h⟩
  | some pair =>
    obtain ⟨role, state⟩ := pair
    cases hof : of role state with
    | none =>
      refine .inl ⟨_, by simp only [hof]; rfl, ?_⟩
      rintro _ _ _ _ h
      cases h
      rw [hof]
      exact fun h => by cases h
    | some r =>
      right
      have hstored := (hs.own r nodeID).mpr ⟨role, state, hmeta, hof⟩
      obtain ⟨nodeIDs, hlisted, _⟩ := hs.listed r
      obtain ⟨nodeInfo, hfound, hid, hrole⟩ := hlisted.record nodeID hstored
      exact ⟨role, state, r, nodeInfo, hnil, rfl, hof, hstored, hfound, hid, hrole, by simp [hof]⟩

section Marshaled

variable (hinv : ∀ r, Marshaled J (s.roles r))
include hinv

theorem updateNode_ok (hs : s.RegistryOk)
    (nodeID : Bytes) (change : NodeInfo → NodeInfo)
    (hchange : ∀ info, (change info).NodeID = info.NodeID ∧ (change info).Role = info.Role ∧
      (change info).State = info.State ∧ (change info).Weight = info.Weight) :
    ∃ e s', s.onNode nodeID (fun _ store => updateNode J store nodeID change
      (fun _ store => some (none, store))) = some (e, s') ∧ s'.RegistryOk := by
  rcases onNode_cases hs nodeID (fun _ store => updateNode J store nodeID change
      (fun _ store => some (none, store))) with
    ⟨e, heq, _⟩ | ⟨role, state, r, nodeInfo, _, _, _, hstored, hfound, hid, hrole, heq⟩
  · exact ⟨e, s, heq, hs⟩
  obtain ⟨hid', hrole', hstate', hweight'⟩ := hchange nodeInfo
  have hcoerce := coerce_of_marshaled (hinv r) hfound
  obtain ⟨nodeIDs, hlisted, htotal⟩ := hs.listed r
  have hsetID : ((change nodeInfo).marshal J).NodeID = nodeID := by
    simp only [NodeInfo.marshal, hid', hcoerce]
    exact hid
  have hsetRole : of ((change nodeInfo).marshal J).Role
      ((change nodeInfo).marshal J).State = some r := by
    simp only [NodeInfo.marshal, hrole', hstate', hrole]
  obtain ⟨hlisted', hsum⟩ := hlisted.setRecord hstored _ hsetID hsetRole
  have hsame : weightOf (s.roles r) nodeID = ((change nodeInfo).marshal J).Weight.toNat := by
    simp only [weightOf, hfound, NodeInfo.marshal, hweight']
  have hkey : r.totalWeightKey ≠ nodeID := fun h => hstored.2 (.inr h.symm)
  refine ⟨none, _, ?_, (registryOk_onRole_iff (r := r) hs ?_).mpr ⟨nodeIDs, hlisted', ?_⟩⟩
  · rw [heq, onRole, updateNode_eq (hinv r) hfound hid]
    rfl
  · intro x
    rw [← hlisted.mem_iff, ← hlisted'.mem_iff]
  · unfold Totalled
    rw [update_of_ne hkey]
    rcases htotal with ⟨total, htotal, heq⟩ | hnone
    · exact .inl ⟨total, htotal, by omega⟩
    · exact .inr hnone

theorem updateWeight_ok_iff (hs : s.RegistryOk) (nodeID : Bytes) (weight : UInt64) :
    ∃ s', s.step J (.updateWeight nodeID weight) = some s' ∧
      (s'.RegistryOk ↔ s.Proper J (.updateWeight nodeID weight)) := by
  simp only [step, UpdateWeight]
  rcases onNode_cases hs nodeID (fun r store => updateWeight J r store nodeID weight) with
    ⟨e, heq, hnone⟩ | ⟨role, state, r, nodeInfo, hnil, hmeta, hof, hstored, hfound, hid, hrole, heq⟩
  · refine ⟨s, by rw [heq]; rfl, iff_of_true hs ?_⟩
    intro role state r total hne hmeta hof
    exact absurd hof (hnone role state r hne hmeta)
  · obtain ⟨nodeIDs, hlisted, htotal⟩ := hs.listed r
    obtain ⟨total, hfoundTotal, hsum⟩ : ∃ total,
        s.roles r r.totalWeightKey = some (.weight total) ∧
        total.toNat = (nodeIDs.map (weightOf (s.roles r))).sum := by
      rcases htotal with htotal | ⟨_, rfl⟩
      · exact htotal
      · cases (hlisted.mem_iff nodeID).mpr hstored
    obtain ⟨hlisted', htotal'⟩ :=
      reweighed_iff weight (hinv r) hlisted hsum hstored hfound hid hrole
    refine ⟨{ s with
      roles := update s.roles r (reweighedStore J r (s.roles r) nodeInfo weight total) }, ?_, ?_⟩
    · rw [heq, onRole, updateWeight_eq (hinv r) hstored hfound hid hfoundTotal]
      rfl
    · have hsame : ∀ x, StoredNode r (reweighedStore J r (s.roles r) nodeInfo weight total) x ↔
          StoredNode r (s.roles r) x := by
        intro x
        rw [← hlisted.mem_iff, ← hlisted'.mem_iff]
      rw [registryOk_onRole_iff hs hsame]
      constructor
      · rintro ⟨nodeIDs', hlisted'', htotal''⟩ role' state' r' total' _ hmeta' hof' hfound'
        rw [hmeta] at hmeta'
        cases hmeta'
        rw [hof] at hof'
        obtain rfl := some.inj hof'
        rw [hfoundTotal] at hfound'
        cases hfound'
        rw [nodeIDs_unique hlisted'' hlisted'] at htotal''
        exact htotal'.mp htotal''
      · intro hproper
        exact ⟨nodeIDs, hlisted',
          htotal'.mpr (hproper role state r total hnil hmeta hof hfoundTotal)⟩

theorem onRole_marshaled {call : NamedStore → StoreResult} {e : Option RegistryError}
    (hcall : LeavesMarshaled J (call (s.roles r)))
    (hstep : s.onRole r call = some (e, s')) : ∀ r, Marshaled J (s'.roles r) := by
  obtain ⟨⟨e', store⟩, hresult, heq⟩ := map_eq_some_iff.mp hstep
  cases heq
  intro r'
  by_cases hr : r' = r
  · subst hr
    simpa using hcall e' store hresult
  · simpa [update_of_ne hr] using hinv r'

theorem onNode_marshaled {call : RoleStore → NamedStore → StoreResult} {e : Option RegistryError}
    (hcall : ∀ r, LeavesMarshaled J (call r (s.roles r)))
    (hstep : s.onNode nodeID call = some (e, s')) : ∀ r, Marshaled J (s'.roles r) := by
  unfold onNode at hstep
  split_ifs at hstep
  · cases hstep
    exact hinv
  · split at hstep
    · cases hstep
      exact hinv
    · split at hstep
      · cases hstep
        exact hinv
      · exact onRole_marshaled hinv (hcall _) hstep

theorem step_marshaled (hstep : s.step J op = some s') : ∀ r, Marshaled J (s'.roles r) := by
  have hsame : ∀ store, Marshaled J store →
      LeavesMarshaled J (some (none, store)) := fun store h => leaves_same h none
  cases op with
  | addNode nodeInfo =>
    obtain ⟨⟨e, t⟩, hadd, rfl⟩ := map_eq_some_iff.mp hstep
    simp only [AddNode] at hadd
    split at hadd
    · cases hadd
      exact hinv
    obtain ⟨⟨e', t'⟩, hrole, heq⟩ := map_eq_some_iff.mp hadd
    have ht := onRole_marshaled hinv (leaves_addNode (hinv _)) hrole
    cases e' with
    | none | some err =>
      cases heq
      exact ht
  | updateWeight nodeID weight =>
    obtain ⟨⟨e, t⟩, hcall, rfl⟩ := map_eq_some_iff.mp hstep
    exact onNode_marshaled hinv (fun r => leaves_updateNode (hinv r)
      (fun _ store h => leaves_updateTotalWeight h _ _)) hcall
  | _ =>
    obtain ⟨⟨e, t⟩, hcall, rfl⟩ := map_eq_some_iff.mp hstep
    exact onNode_marshaled hinv (fun r => leaves_updateNode (hinv r) (fun _ => hsame)) hcall

theorem step_ok_iff (hs : s.RegistryOk)
    (hstep : s.step J op = some s') : s'.RegistryOk ↔ s.Proper J op := by
  cases op with
  | addNode nodeInfo =>
    obtain ⟨t, ht, hiff⟩ := addNode_ok_iff hinv hs nodeInfo
    rw [hstep] at ht
    cases ht
    exact hiff
  | updateWeight nodeID weight =>
    obtain ⟨t, ht, hiff⟩ := updateWeight_ok_iff hinv hs nodeID weight
    rw [hstep] at ht
    cases ht
    exact hiff
  | updateDKGPartPubKey nodeID pubKey =>
    obtain ⟨e, t, ht, hok⟩ := updateNode_ok hinv hs nodeID
      (fun info => { info with DKGPartPubKey := pubKey })
      (fun _ => ⟨rfl, rfl, rfl, rfl⟩)
    simp only [step, UpdateDKGPartPubKey, updateDKGPartPubKey, ht, map_some, some.injEq] at hstep
    rw [← hstep]
    exact iff_of_true hok trivial
  | updateDKGPriShare nodeID priShare =>
    obtain ⟨e, t, ht, hok⟩ := updateNode_ok hinv hs nodeID
      (fun info => { info with DKGPriShare := priShare })
      (fun _ => ⟨rfl, rfl, rfl, rfl⟩)
    simp only [step, UpdateDKGPriShare, updateDKGPriShare, ht, map_some, some.injEq] at hstep
    rw [← hstep]
    exact iff_of_true hok trivial

theorem proper_of_panic (hs : s.RegistryOk) (hstep : s.step J op = none) : s.Proper J op := by
  cases op with
  | addNode nodeInfo =>
    obtain ⟨t, ht, _⟩ := addNode_ok_iff hinv hs nodeInfo
    rw [hstep] at ht
    cases ht
  | updateWeight nodeID weight =>
    obtain ⟨t, ht, _⟩ := updateWeight_ok_iff hinv hs nodeID weight
    rw [hstep] at ht
    cases ht
  | _ => exact trivial

end Marshaled

theorem empty_ok : empty.RegistryOk := by
  refine ⟨fun r => ⟨[], ⟨List.nodup_nil, ?_, ?_, .inr ⟨rfl, rfl⟩⟩, .inr ⟨rfl, rfl⟩⟩, ?_⟩
  · simp [empty, StoredNode]
  · simp [empty, StoredNode]
  · simp [empty, StoredNode]

/-- **When the registry is right** all along: exactly when every added node has an id that JSON
leaves alone, that is no key of the store and new, and every new total but a first one is below `2 ^
63`. -/
theorem registry_iff (J : JsonText) (ops : List RegistryOp) :
    Throughout (step J) RegistryOk empty ops ↔ Along (step J) (Proper J) empty ops := by
  have hinv : ∀ (s : NodeRegistry) (op : RegistryOp) (s' : NodeRegistry),
      (∀ r, Marshaled J (s.roles r)) → s.step J op = some s' → ∀ r, Marshaled J (s'.roles r) :=
    fun _ _ _ => step_marshaled
  have hempty : ∀ r, Marshaled J (empty.roles r) := fun r => ⟨by simp [empty], rfl⟩
  exact throughout_iff_along hinv (fun _ _ _ => step_ok_iff)
    (fun _ _ => proper_of_panic) hempty empty_ok

end Exact

section Failures

def utf8Text : JsonText := ⟨id, fun _ => rfl⟩

def activeNode (nodeID : Bytes) (role : NodeRole) (weight : UInt64) : NodeInfo :=
  ⟨nodeID, [], weight, [], [], role, .active⟩

/-- A node added twice counts twice; with another role it is in two stores; the record of
`totalaeweight` is overwritten; a total of `2 ^ 63` is stored as zero. -/
theorem registry_fails_on_second_add :
    (∃ s, [.addNode (activeNode [1] .executor 3), .addNode (activeNode [1] .executor 3)].foldlM
        (step utf8Text) empty = some s ∧
      s.roles .executor (ascii "totalaenodeids") = some (.ids [[1], [1]]) ∧
      s.roles .executor (ascii "totalaeweight") = some (.weight 6) ∧
      s.roles .executor [1] = some (.node (activeNode [1] .executor 3))) ∧
    (∃ s, [.addNode (activeNode [1] .executor 3), .addNode (activeNode [1] .proposer 3)].foldlM
        (step utf8Text) empty = some s ∧
      s.roles .executor [1] = some (.node (activeNode [1] .executor 3)) ∧
      s.roles .proposer [1] = some (.node (activeNode [1] .proposer 3))) ∧
    (∃ s, [.addNode (activeNode (ascii "totalaeweight") .executor 3)].foldlM
        (step utf8Text) empty = some s ∧
      s.roles .executor (ascii "totalaenodeids") = some (.ids [ascii "totalaeweight"]) ∧
      s.roles .executor (ascii "totalaeweight") = some (.weight (0x7B224E6F64654944 + 3))) ∧
    ∃ s, [.addNode (activeNode [1] .executor 0x7FFFFFFFFFFFFFFF),
        .addNode (activeNode [2] .executor 1)].foldlM (step utf8Text) empty = some s ∧
      s.roles .executor (ascii "totalaeweight") = some (.weight 0) :=
  ⟨⟨_, rfl, by decide, by decide +kernel, by decide⟩, ⟨_, rfl, by decide, by decide⟩,
    ⟨_, rfl, by decide, by decide +kernel⟩, ⟨_, rfl, by decide⟩⟩

end Failures

end NodeRegistry

end Topia.Node
