import Topia.Consensus.DomainProduction

/-!
# The consensus domains of a chain

A produced domain is saved, and read again for the heights at which it is valid
(`state/domain/domain_consensus.go`). The candidates of the next domain are the active nodes that
are not in too many domains (`consensus/domain_consensus.go`).

The start of the validity is set only by the first trigger of a chain. A node is left out when it is
in more domains than `ConsensusDomain_MaxDomainOfEachNode`.
-/

namespace Topia.Consensus.DomainConsensusService

open Lib Node State List
open Chain (Block BLOCK_VER)

open List

section Store

variable (height : UInt64) (store : List NodeDomainInfo) (domainInfo : NodeDomainInfo)

def activeAt : Bool :=
  height ≥ domainInfo.ValidHeightStart && height < domainInfo.ValidHeightEnd &&
    domainInfo.ValidHeightEnd - EpochSpan ≥ 0

def GetAllActiveNodeConsensusDomains : List NodeDomainInfo :=
  store.filter (activeAt height)

def addNodeConsensusDomain : List NodeDomainInfo :=
  store.filter (·.ID ≠ domainInfo.ID) ++ [domainInfo]

variable {env : DomainEnv} {nodeID systemBytes : Bytes} {BlocksPerEpoch : UInt64}
  {events : List BlockAdded} {ds : DomainConsensusService} {block : Block} {dkg : DkgResult}
  {iteration : List NodeDomainMember} {ndInfo : NodeDomainInfo}

theorem activeAt_iff {height : UInt64} :
    activeAt height ndInfo = true ↔
      ndInfo.ValidHeightStart.toNat ≤ height.toNat ∧
        height.toNat < ndInfo.ValidHeightEnd.toNat := by
  simp [activeAt, UInt64.le_iff_toNat_le, UInt64.lt_iff_toNat_lt]

theorem mem_getAll_of_add {height : UInt64} (store : List NodeDomainInfo) :
    ndInfo ∈ GetAllActiveNodeConsensusDomains height (addNodeConsensusDomain store ndInfo) ↔
      ndInfo.ValidHeightStart.toNat ≤ height.toNat ∧
        height.toNat < ndInfo.ValidHeightEnd.toNat := by
  rw [GetAllActiveNodeConsensusDomains, mem_filter, activeAt_iff]
  refine and_iff_right ?_
  exact mem_append_right _ (mem_singleton.mpr rfl)

structure Spanned (BlocksPerEpoch : UInt64) (ds : DomainConsensusService) : Prop where
  triggered : Triggered BlocksPerEpoch ds
  span : ds.triggerBlock ≠ none → BlocksPerEpoch / ConsensusDomain_TriggerTimesOfEachEpoch ≠ 0

theorem spanned_collect {ds' : DomainConsensusService} {added : BlockAdded}
    (h : Spanned BlocksPerEpoch ds) (hcollect : ds.collect env added = some ds') :
    Spanned BlocksPerEpoch ds' := by
  refine ⟨triggered_collect h.triggered hcollect, ?_⟩
  unfold collect at hcollect
  split_ifs at hcollect with hidle hzero hsame
  · cases hcollect
    exact h.span
  · cases hcollect
    rw [h.triggered.config] at hzero
    exact fun _ => hzero
  · cases hcollect
    exact h.span

theorem spanned_of_run
    (hrun : events.foldlM (collect env) (NewDomainConsensusService nodeID BlocksPerEpoch) =
      some ds) : Spanned BlocksPerEpoch ds := by
  have hnew : Spanned BlocksPerEpoch (NewDomainConsensusService nodeID BlocksPerEpoch) :=
    ⟨⟨rfl, by rintro _ ⟨⟩, nodup_nil⟩, fun h => absurd rfl h⟩
  exact run_invariant (fun _ _ _ => spanned_collect) hnew hrun

theorem tNumber_eq_one_iff (hheight : block.Head.Height < 2 ^ 64)
    (hspan : BlocksPerEpoch / ConsensusDomain_TriggerTimesOfEachEpoch ≠ 0) :
    tNumber BlocksPerEpoch block = 1 ↔
      block.Head.Height < (BlocksPerEpoch / ConsensusDomain_TriggerTimesOfEachEpoch).toNat := by
  generalize hs : BlocksPerEpoch / ConsensusDomain_TriggerTimesOfEachEpoch = tSpan at hspan
  have hpos : 0 < tSpan.toNat :=
    Nat.pos_of_ne_zero fun h => hspan (UInt64.toNat_inj.mp h)
  have hle := Nat.div_mul_le_self block.Head.Height tSpan.toNat
  have hvalue : (UInt64.ofNat block.Head.Height / tSpan * tSpan).toNat =
      block.Head.Height / tSpan.toNat * tSpan.toNat := by
    rw [UInt64.toNat_mul, UInt64.toNat_div, UInt64.toNat_ofNat_of_lt' hheight]
    exact Nat.mod_eq_of_lt (by omega)
  have hzero : tNumber BlocksPerEpoch block = 1 ↔
      block.Head.Height / tSpan.toNat * tSpan.toNat = 0 := by
    rw [tNumber, hs, ← hvalue, UInt64.add_eq_right, ← UInt64.toNat_inj]
    rfl
  rw [hzero, Nat.mul_eq_zero, Nat.div_eq_zero_iff]
  omega

theorem heights_of_produced (hblock : ds.triggerBlock = some block)
    (hproduce : ProduceNodeDomain env systemBytes ds dkg iteration = some ndInfo) :
    ndInfo.ValidHeightStart =
        (if ds.triggerNumber = 1 then UInt64.ofNat block.Head.Height + 1 else 0) ∧
      ndInfo.ValidHeightEnd = ndInfo.ValidHeightStart + 50 * EpochSpan := by
  rw [ProduceNodeDomain, hblock, Option.map_some] at hproduce
  cases hproduce
  exact ⟨rfl, rfl⟩

/-- **When a domain is reported** for the fifty epochs after its trigger block: exactly when the
block is in the first span and the end of the window is a height. -/
theorem validityWindow_iff
    (hrun : events.foldlM (collect env) (NewDomainConsensusService nodeID BlocksPerEpoch) = some ds)
    (hblock : ds.triggerBlock = some block) (hheight : block.Head.Height < 2 ^ 64)
    (hproduce : ProduceNodeDomain env systemBytes ds dkg iteration = some ndInfo)
    (store : List NodeDomainInfo) :
    (∀ height,
      ndInfo ∈ GetAllActiveNodeConsensusDomains height (addNodeConsensusDomain store ndInfo) ↔
        block.Head.Height + 1 ≤ height.toNat ∧
          height.toNat < block.Head.Height + 1 + (50 * EpochSpan).toNat) ↔
      block.Head.Height < (BlocksPerEpoch / ConsensusDomain_TriggerTimesOfEachEpoch).toNat ∧
        block.Head.Height + 1 + (50 * EpochSpan).toNat < 2 ^ 64 := by
  obtain ⟨htriggered, hspanned⟩ := spanned_of_run hrun
  have hnumber := htriggered.number block hblock
  have hfirst := tNumber_eq_one_iff hheight
    (hspanned (by rw [hblock]; exact Option.some_ne_none block))
  obtain ⟨hstart, hend⟩ := heights_of_produced hblock hproduce
  have hspan : (50 * EpochSpan).toNat = 15000 := by decide
  have hendNat : ndInfo.ValidHeightEnd.toNat =
      (ndInfo.ValidHeightStart.toNat + 15000) % 2 ^ 64 := by
    rw [hend, UInt64.toNat_add, hspan]
  simp only [mem_getAll_of_add, hendNat, hspan, ← hfirst, ← hnumber]
  by_cases hone : ds.triggerNumber = 1
  · have hstartNat : ndInfo.ValidHeightStart.toNat = (block.Head.Height + 1) % 2 ^ 64 := by
      rw [hstart, if_pos hone, UInt64.toNat_add, UInt64.toNat_ofNat_of_lt' hheight]
      rfl
    rw [hstartNat, and_iff_right hone]
    constructor
    · intro hwindow
      by_contra hwrap
      -- the first height of the window is not reported
      have hnext := hwindow (UInt64.ofNat (block.Head.Height + 1))
      rw [UInt64.toNat_ofNat'] at hnext
      omega
    · intro hfits height
      omega
  · have hstartNat : ndInfo.ValidHeightStart.toNat = 0 := by
      rw [hstart, if_neg hone]
      rfl
    refine iff_of_false ?_ fun h => hone h.1
    intro hwindow
    have hzero := hwindow 0
    simp only [UInt64.toNat_zero] at hzero
    omega

def firstDomain : NodeDomainInfo where
  ID := hexText (plainEnv.seededBytes (plainEnv.BlockHash sevenActive.newBlock))
  domainType := .consensus
  ValidHeightStart := 2
  ValidHeightEnd := 15002
  CSDomainData := ⟨5, 7, [3], [[1]], sevenMembers⟩

theorem firstDomain_reported :
    firstDomain ∈ GetAllActiveNodeConsensusDomains 2 (addNodeConsensusDomain [] firstDomain) := by
  have hrun : [sevenActive].foldlM (collect plainEnv) (NewDomainConsensusService [1] 50000) =
      some (sevenService [1] true) := by
    decide
  have hproduce : ProduceNodeDomain plainEnv [] (sevenService [1] true) ⟨5, [3], [1], [[1]]⟩
      sevenMembers = some firstDomain := by
    decide
  have hwindow := (validityWindow_iff hrun rfl (by decide) hproduce []).mpr (by decide)
  exact (hwindow 2).mpr (by decide)

def laterActive : BlockAdded :=
  { sevenActive with
    newBlock := { sevenActive.newBlock with
      Head := { sevenActive.newBlock.Head with Height := 50001 } } }

/-- Its domain is reported at height 0, and not after the block. -/
theorem laterDomain_reported_before :
    ∃ ds ndInfo,
      [sevenActive, laterActive].foldlM (collect plainEnv) (NewDomainConsensusService [1] 50000) =
        some ds ∧
      ProduceNodeDomain plainEnv [] ds ⟨5, [3], [1], [[1]]⟩ ds.candidateNodes = some ndInfo ∧
      ndInfo ∈ GetAllActiveNodeConsensusDomains 0 (addNodeConsensusDomain [] ndInfo) ∧
      ndInfo ∉ GetAllActiveNodeConsensusDomains 50002 (addNodeConsensusDomain [] ndInfo) := by
  refine ⟨{ sevenService [1] true with
      lastBlock := some laterActive.newBlock
      triggerNumber := 50001
      triggerBlock := some laterActive.newBlock },
    { firstDomain with ValidHeightStart := 0, ValidHeightEnd := 15000 }, ?_, ?_, ?_, ?_⟩
  all_goals decide

end Store

section Cap

def joinedDomains (nodeID : Bytes) (nodeDomains : List NodeDomainInfo) : Nat :=
  nodeDomains.countP fun ndInfo =>
    ∃ member ∈ ndInfo.CSDomainData.Members, member.NodeID = nodeID

def Capped (cap : Nat) (nodeDomains : List NodeDomainInfo) : Prop :=
  ∀ nodeID, joinedDomains nodeID nodeDomains ≤ cap

structure Production where
  nodeID : Bytes
  block : Block
  epochInfo : EpochInfo
  (activeProposers activeValidators : List NodeInfo)
  systemBytes : Bytes
  dkg : DkgResult
  iteration : List NodeDomainMember

inductive DomainEvent where
  | produced (p : Production)
  | expired (height : UInt64)

def Production.added (p : Production) (nodeDomains : List NodeDomainInfo) : BlockAdded where
  newBlock := p.block
  idle := true
  state :=
    { GetLatestEpoch := some p.epochInfo
      GetAllActiveProposers := some p.activeProposers
      GetAllActiveValidators := some p.activeValidators
      GetAllActiveNodeConsensusDomains := fun _ => some nodeDomains }

def domainStep (env : DomainEnv) (BlocksPerEpoch : UInt64) (nodeDomains : List NodeDomainInfo) :
    DomainEvent → Option (List NodeDomainInfo)
  | .produced p =>
    match getJoinableConsensusCandidateNodes env.blake2b (p.added nodeDomains).state p.block with
    | .error _ => none
    | .ok (props, vals) =>
      if p.iteration ~ candidateMap props vals then
        (ProduceNodeDomain env p.systemBytes
          (trigger env (NewDomainConsensusService p.nodeID BlocksPerEpoch)
            (p.added nodeDomains)) p.dkg p.iteration).map (addNodeConsensusDomain nodeDomains)
      else none
  | .expired height => some (GetAllActiveNodeConsensusDomains height nodeDomains)

/-- No active node is in exactly as many domains as is allowed. -/
def NoneAtCap (nodeDomains : List NodeDomainInfo) : DomainEvent → Prop
  | .produced p => ∀ node ∈ p.activeProposers ++ p.activeValidators,
      joinedDomains node.NodeID nodeDomains ≠ ConsensusDomain_MaxDomainOfEachNode
  | .expired _ => True

/-- The members are among the nodes that are left. -/
def MembersFrom (nodes : List NodeInfo) (ndInfo : NodeDomainInfo) : Prop :=
  ∀ member ∈ ndInfo.CSDomainData.Members, ∃ node ∈ nodes, node.NodeID = member.NodeID

variable {env : DomainEnv} {BlocksPerEpoch : UInt64} {ndInfo : NodeDomainInfo}
  {nodeDomains nodeDomains' : List NodeDomainInfo} {event : DomainEvent} {cap : Nat}
  {blake2b : Bytes → Bytes} {epochInfo : EpochInfo} {blk : Block} {nodes : List NodeInfo}

variable {activeNodes props vals : List NodeInfo}

theorem mem_removeInvalidActiveNodes {nodeInfo : NodeInfo} :
    nodeInfo ∈ removeInvalidActiveNodes activeNodes nodeDomains ↔
      nodeInfo ∈ activeNodes ∧
        joinedDomains nodeInfo.NodeID nodeDomains ≤ ConsensusDomain_MaxDomainOfEachNode := by
  rw [removeInvalidActiveNodes, mem_filter, isValid_eq _ (Nat.zero_le _), decide_eq_true_iff,
    Nat.zero_add]
  simp [joinedDomains]

section OnOk

variable {α β : Type} {P P' : α → Prop} {Q : β → Prop} {x : Except JoinableError α}
  {f : α → Except JoinableError β}

def OnOk (P : α → Prop) : Except JoinableError α → Prop
  | .ok a => P a
  | .error _ => True

theorem OnOk.bind (h : OnOk P x) (hnext : ∀ a, P a → OnOk Q (f a)) : OnOk Q (x >>= f) := by
  cases x with
  | error err => trivial
  | ok a => exact hnext a h

theorem OnOk.imp (h : OnOk P x) (himp : ∀ a, P a → P' a) : OnOk P' x := by
  cases x with
  | error err => trivial
  | ok a => exact himp a h

end OnOk

theorem selectNodes_subset (count : Nat) :
    OnOk (· ⊆ nodes) (selectNodes blake2b epochInfo blk nodes count) := by
  unfold selectNodes
  split
  · next out hdraw =>
      have hsublist := RoleSelectorVRF.drawLoop_sublist hdraw
      intro node hnode
      exact (sortBy_perm _ nodes).mem_iff.mp (hsublist.subset hnode)
  · trivial

theorem goodNodes_subset (notEnough : JoinableError) (min max limit : Nat) :
    OnOk (fun good => good.1 ⊆ nodes)
      (goodNodes blake2b epochInfo blk nodes notEnough min max limit) := by
  unfold goodNodes
  split_ifs
  · trivial
  · exact (selectNodes_subset limit).bind fun _ hselected => hselected
  · exact Subset.refl nodes

theorem balance_subset (props vals : List NodeInfo × Nat) :
    OnOk (fun candidates => candidates.1 ⊆ props.1 ∧ candidates.2 ⊆ vals.1)
      (balance blake2b epochInfo blk props vals) := by
  unfold balance
  split_ifs
  · exact (selectNodes_subset _).bind fun _ hselected => ⟨hselected, Subset.refl _⟩
  · exact (selectNodes_subset _).bind fun _ hselected => ⟨Subset.refl _, hselected⟩
  · exact ⟨Subset.refl _, Subset.refl _⟩

theorem joinableOf_subset (activeProposers activeValidators : List NodeInfo) :
    OnOk (fun candidates =>
        candidates.1 ⊆ removeInvalidActiveNodes activeProposers nodeDomains ∧
          candidates.2 ⊆ removeInvalidActiveNodes activeValidators nodeDomains)
      (joinableOf blake2b blk epochInfo activeProposers activeValidators nodeDomains) := by
  refine (goodNodes_subset _ _ _ _).bind fun props hprops => ?_
  refine (goodNodes_subset _ _ _ _).bind fun vals hvals => ?_
  exact (balance_subset props vals).imp fun candidates h =>
    ⟨Subset.trans h.1 hprops, Subset.trans h.2 hvals⟩

theorem mem_of_mem_candidateMap {member : NodeDomainMember}
    (hmember : member ∈ candidateMap props vals) :
    ∃ node ∈ props ++ vals, node.NodeID = member.NodeID := by
  have hput : ∀ (members acc : List NodeDomainMember), member ∈ members.foldl putMember acc →
      member ∈ members ∨ member ∈ acc := by
    intro members
    induction members with
    | nil => exact fun acc h => .inr h
    | cons first members ih =>
      intro acc h
      rcases ih _ h with h | h
      · exact .inl (mem_cons_of_mem _ h)
      · rcases mem_putMember.mp h with rfl | ⟨h, -⟩
        · exact .inl mem_cons_self
        · exact .inr h
  rcases hput _ _ hmember with hmem | hmem
  · rcases mem_append.mp hmem with hprop | hval
    · obtain ⟨node, hnode, rfl⟩ := mem_map.mp hprop
      exact ⟨node, mem_append_left _ hnode, rfl⟩
    · obtain ⟨node, hnode, rfl⟩ := mem_map.mp hval
      exact ⟨node, mem_append_right _ hnode, rfl⟩
  · cases hmem

theorem joinable_subset (p : Production) :
    OnOk (fun candidates =>
        candidates.1 ⊆ removeInvalidActiveNodes p.activeProposers nodeDomains ∧
          candidates.2 ⊆ removeInvalidActiveNodes p.activeValidators nodeDomains)
      (getJoinableConsensusCandidateNodes blake2b (p.added nodeDomains).state p.block) := by
  unfold getJoinableConsensusCandidateNodes Production.added
  dsimp only
  split_ifs
  · trivial
  · trivial
  · exact joinableOf_subset p.activeProposers p.activeValidators

theorem remaining_of_joinable {p : Production}
    (hjoinable : getJoinableConsensusCandidateNodes blake2b (p.added nodeDomains).state
      p.block = .ok (props, vals)) {member : NodeDomainMember}
    (hmember : member ∈ candidateMap props vals) :
    ∃ node ∈ removeInvalidActiveNodes (p.activeProposers ++ p.activeValidators) nodeDomains,
      node.NodeID = member.NodeID := by
  have hsubset := @joinable_subset nodeDomains blake2b p
  rw [hjoinable] at hsubset
  obtain ⟨node, hnode, hid⟩ := mem_of_mem_candidateMap hmember
  refine ⟨node, ?_, hid⟩
  rw [removeInvalidActiveNodes, filter_append]
  exact mem_append.mpr ((mem_append.mp hnode).imp (@hsubset.1 node) (@hsubset.2 node))

theorem triggerBlock_trigger (ds : DomainConsensusService) (added : BlockAdded) :
    (trigger env ds added).triggerBlock = some added.newBlock := by
  unfold trigger
  cases getJoinableConsensusCandidateNodes env.blake2b added.state added.newBlock <;> rfl

theorem domainStep_cases
    (hstep : domainStep env BlocksPerEpoch nodeDomains event = some nodeDomains') :
    (∃ height, event = .expired height ∧
      nodeDomains' = GetAllActiveNodeConsensusDomains height nodeDomains) ∨
    ∃ p ndInfo, event = .produced p ∧ nodeDomains' = addNodeConsensusDomain nodeDomains ndInfo ∧
      MembersFrom (removeInvalidActiveNodes (p.activeProposers ++ p.activeValidators) nodeDomains)
        ndInfo := by
  cases event with
  | expired height =>
    simp only [domainStep, Option.some.injEq] at hstep
    exact .inl ⟨height, rfl, hstep.symm⟩
  | produced p =>
    simp only [domainStep] at hstep
    split at hstep
    · cases hstep
    next props vals hjoinable =>
      split_ifs at hstep with hperm
      obtain ⟨ndInfo, hproduce, rfl⟩ := Option.map_eq_some_iff.mp hstep
      rw [ProduceNodeDomain, triggerBlock_trigger, Option.map_some] at hproduce
      cases hproduce
      exact .inr ⟨p, _, rfl, rfl, fun member hmember =>
        remaining_of_joinable hjoinable (hperm.mem_iff.mp hmember)⟩

section Capped

variable (hcapped : Capped cap nodeDomains)
include hcapped

theorem Capped.sublist (hsub : nodeDomains' <+ nodeDomains) : Capped cap nodeDomains' :=
  fun nodeID => hsub.countP_le.trans (hcapped nodeID)

theorem capped_append_iff :
    Capped cap (nodeDomains ++ [ndInfo]) ↔ ∀ member ∈ ndInfo.CSDomainData.Members,
      joinedDomains member.NodeID nodeDomains < cap := by
  have hjoined : ∀ nodeID, joinedDomains nodeID (nodeDomains ++ [ndInfo]) =
      joinedDomains nodeID nodeDomains +
        if ∃ member ∈ ndInfo.CSDomainData.Members, member.NodeID = nodeID then 1 else 0 := by
    intro nodeID
    simp [joinedDomains, countP_append, countP_singleton]
  constructor
  · intro h member hmember
    have hnode := h member.NodeID
    rw [hjoined, if_pos ⟨member, hmember, rfl⟩] at hnode
    exact hnode
  intro h nodeID
  rw [hjoined]
  split_ifs with hmember
  · obtain ⟨member, hmem, rfl⟩ := hmember
    exact h member hmem
  · exact hcapped nodeID

/-- What every selection from the remaining nodes keeps. -/
theorem capped_selection_iff :
    (∀ ndInfo, MembersFrom (removeInvalidActiveNodes activeNodes nodeDomains) ndInfo →
        Capped cap (nodeDomains ++ [ndInfo])) ↔
      ∀ node ∈ activeNodes, joinedDomains node.NodeID nodeDomains ≤
        ConsensusDomain_MaxDomainOfEachNode → joinedDomains node.NodeID nodeDomains < cap := by
  constructor
  · intro h node hnode hjoined
    let alone : NodeDomainInfo := ⟨[], .consensus, 0, 0, ⟨0, 0, [], [], [⟨node.NodeID, 0, 0⟩]⟩⟩
    have hadd := h alone fun member hmember =>
      ⟨node, mem_removeInvalidActiveNodes.mpr ⟨hnode, hjoined⟩, by rw [mem_singleton.mp hmember]⟩
    exact (capped_append_iff hcapped).mp hadd _ mem_cons_self
  · intro h ndInfo hmembers
    refine (capped_append_iff hcapped).mpr fun member hmember => ?_
    obtain ⟨node, hnode, hid⟩ := hmembers member hmember
    obtain ⟨hactive, hjoined⟩ := mem_removeInvalidActiveNodes.mp hnode
    exact hid ▸ h node hactive hjoined

theorem capped_step
    (hbelow : ∀ p, event = .produced p → ∀ node ∈ p.activeProposers ++ p.activeValidators,
      joinedDomains node.NodeID nodeDomains ≤ ConsensusDomain_MaxDomainOfEachNode →
        joinedDomains node.NodeID nodeDomains < cap)
    (hstep : domainStep env BlocksPerEpoch nodeDomains event = some nodeDomains') :
    Capped cap nodeDomains' := by
  rcases domainStep_cases hstep with ⟨height, rfl, rfl⟩ | ⟨p, ndInfo, rfl, rfl, hmembers⟩
  · exact hcapped.sublist filter_sublist
  · have hadd := (capped_selection_iff hcapped).mpr (hbelow p rfl) ndInfo hmembers
    exact hadd.sublist (filter_sublist.append_right [ndInfo])

end Capped

/-- **In how many domains a node can be.** A selection from the remaining nodes keeps the cap
exactly when no active node is at the cap; the runs without one keep it, and all runs one more. -/
theorem membershipCap_iff (env : DomainEnv) (BlocksPerEpoch : UInt64) :
    (∀ activeNodes nodeDomains nodeInfo,
      nodeInfo ∈ removeInvalidActiveNodes activeNodes nodeDomains ↔ nodeInfo ∈ activeNodes ∧
          joinedDomains nodeInfo.NodeID nodeDomains ≤ ConsensusDomain_MaxDomainOfEachNode) ∧
    (∀ activeNodes nodeDomains, Capped ConsensusDomain_MaxDomainOfEachNode nodeDomains →
      ((∀ ndInfo, MembersFrom (removeInvalidActiveNodes activeNodes nodeDomains) ndInfo →
          Capped ConsensusDomain_MaxDomainOfEachNode (nodeDomains ++ [ndInfo])) ↔
        ∀ node ∈ activeNodes, joinedDomains node.NodeID nodeDomains ≠
          ConsensusDomain_MaxDomainOfEachNode)) ∧
    (∀ nodeDomains events, Capped ConsensusDomain_MaxDomainOfEachNode nodeDomains →
      Along (domainStep env BlocksPerEpoch) NoneAtCap nodeDomains events →
      Throughout (domainStep env BlocksPerEpoch) (Capped ConsensusDomain_MaxDomainOfEachNode)
        nodeDomains events) ∧
    ∀ (nodeDomains nodeDomains' : List NodeDomainInfo) (events : List DomainEvent),
      Capped (ConsensusDomain_MaxDomainOfEachNode + 1) nodeDomains →
      events.foldlM (domainStep env BlocksPerEpoch) nodeDomains = some nodeDomains' →
        Capped (ConsensusDomain_MaxDomainOfEachNode + 1) nodeDomains' := by
  refine ⟨fun _ _ _ => mem_removeInvalidActiveNodes, ?_, ?_, ?_⟩
  · intro activeNodes nodeDomains hcapped
    rw [capped_selection_iff hcapped]
    refine forall₂_congr fun node _ => ?_
    have hle := hcapped node.NodeID
    omega
  · intro nodeDomains events hcapped hnone
    refine throughout_of_along (fun nodeDomains event _ h hnone hstep => ?_) (fun _ => id) hcapped
      hnone
    refine capped_step h (fun p hp node hnode hjoined => ?_) hstep
    subst hp
    exact lt_of_le_of_ne hjoined (hnone node hnode)
  · intro nodeDomains nodeDomains' events hcapped hrun
    exact run_invariant (fun _ _ _ h hstep => capped_step h
      (fun _ _ _ _ => Nat.lt_succ_of_le) hstep) hcapped hrun

def sevenProduction (i : UInt8) : DomainEvent :=
  .produced
    { nodeID := [1]
      block := { sevenActive.newBlock with Data := [i] }
      epochInfo := ⟨0, 0, 0⟩
      activeProposers := [1, 2, 3].map fun i => ⟨[i], [], 1, [], [], .proposer, .active⟩
      activeValidators := [4, 5, 6, 7].map fun i => ⟨[i], [], 1, [], [], .validator, .active⟩
      systemBytes := []
      dkg := ⟨5, [3], [1], [[1]]⟩
      iteration := sevenMembers }

theorem six_domains_of_each_node :
    ∃ nodeDomains,
      ([1, 2, 3, 4, 5, 6].map sevenProduction).foldlM (domainStep plainEnv 50000) [] =
        some nodeDomains ∧
      ∀ member ∈ sevenMembers,
        joinedDomains member.NodeID nodeDomains = ConsensusDomain_MaxDomainOfEachNode + 1 := by
  refine ⟨[1, 2, 3, 4, 5, 6].map fun i => { firstDomain with ID := hexText [0, i] }, ?_, ?_⟩
  · decide
  · decide

end Cap

end Topia.Consensus.DomainConsensusService
