import Topia.Consensus.RoleSelector

/-!
# The production of a consensus domain

`consensus/domain_consensus.go`: a block in a new span of blocks triggers the choice of the
candidates for the next consensus domain. When their distributed key is ready, every node makes a
`NodeDomainInfo` of the trigger block, the key and the candidates, and saves it in its state.

The candidates are in a map: an iteration is a permutation of the entries. The floating point
comparisons of the numbers of nodes are those of the integers.
-/

namespace Topia.Consensus

open Lib Node State List
open Chain (Block BLOCK_VER)

def ConsensusDomain_MinProposer : Nat := 3
def ConsensusDomain_MaxProposer : Nat := 30
def ConsensusDomain_MinValidator : Nat := 4
def ConsensusDomain_MaxValidator : Nat := 70
def ConsensusDomain_MaxDomainOfEachNode : Nat := 5
def ConsensusDomain_TriggerTimesOfEachEpoch : UInt64 := 1
def EpochSpan : UInt64 := 300

def NodeRole_Proposer : UInt64 := 2
def NodeRole_Validator : UInt64 := 4

inductive DomainType where
  | unknown
  | execute
  | consensus
deriving DecidableEq, Repr

structure NodeConsensusDomain where
  (Threshold NParticipant : Nat)
  PublicKey : Bytes
  PubShares : List Bytes
  Members : List NodeDomainMember
deriving DecidableEq, Repr

structure NodeDomainInfo where
  ID : Bytes
  domainType : DomainType
  (ValidHeightStart ValidHeightEnd : UInt64)
  CSDomainData : NodeConsensusDomain
deriving DecidableEq, Repr

structure ActiveState where
  GetLatestEpoch : Option EpochInfo
  (GetAllActiveProposers GetAllActiveValidators : Option (List NodeInfo))
  GetAllActiveNodeConsensusDomains : UInt64 → Option (List NodeDomainInfo)

inductive JoinableError where
  | state
  | notEnoughProposer (activePropCnt minCount : Nat)
  | notEnoughValidator (activeValCnt minCount : Nat)
  | invalidParameters
deriving DecidableEq, Repr

structure DomainEnv where
  blake2b : Bytes → Bytes
  BlockHash : Block → Bytes
  seededBytes : Bytes → Bytes
  blockHash_ne : ∀ block, BlockHash block ≠ []

/-- What the key of the candidates gives; errors leave nothing. -/
structure DkgResult where
  Threshold : Nat
  (PubKey PriShare : Bytes)
  PubShares : List Bytes
deriving DecidableEq, Repr

structure DomainConsensusService where
  nodeID : Bytes
  BlocksPerEpoch : UInt64
  lastBlock : Option Block
  triggerNumber : UInt64
  triggerBlock : Option Block
  selfSelected : Bool
  candidateNodes : List NodeDomainMember
deriving DecidableEq, Repr

structure BlockAdded where
  newBlock : Block
  idle : Bool
  state : ActiveState

namespace DomainConsensusService

local instance lawfulBEqBytes : LawfulBEq Bytes :=
  inferInstance

open NodeDomainMember List

section Candidates

def isValid (nodeID : Bytes) : (joinedDomainCnt : Nat) → List NodeDomainInfo → Bool
  | _, [] => true
  | joinedDomainCnt, ndInfo :: nodeDomains =>
    let joinedDomainCnt :=
      if nodeID ∈ ndInfo.CSDomainData.Members.map NodeID then
        joinedDomainCnt + 1
      else joinedDomainCnt
    if joinedDomainCnt > ConsensusDomain_MaxDomainOfEachNode then false
    else isValid nodeID joinedDomainCnt nodeDomains

def removeInvalidActiveNodes (activeNodes : List NodeInfo) (nodeDomains : List NodeDomainInfo) :
    List NodeInfo :=
  activeNodes.filter fun nodeInfo => isValid nodeInfo.NodeID 0 nodeDomains

variable (blake2b : Bytes → Bytes) (epochInfo : EpochInfo) (blk : Block) (nodes : List NodeInfo)

def selectNodes (count : Nat) : Except JoinableError (List NodeInfo) :=
  match RoleSelectorVRF.SelectExpectedNodes blake2b epochInfo blk nodes count with
  | .all nodes => .ok nodes
  | _ => .error .invalidParameters

/-- The nodes of a role that are left, if enough; `limit` of them if more than `max`. -/
def goodNodes (notEnough : JoinableError) (min max limit : Nat) :
    Except JoinableError (List NodeInfo × Nat) :=
  if nodes.length < min then .error notEnough
  else if nodes.length > max then do
    let selected ← selectNodes blake2b epochInfo blk nodes limit
    .ok (selected, limit)
  else .ok (nodes, nodes.length)

def balance (props vals : List NodeInfo × Nat) : Except JoinableError
    (List NodeInfo × List NodeInfo) :=
  if 10 * props.2 > 3 * vals.2 ∧ props.2 > ConsensusDomain_MinProposer then do
    let selected ← selectNodes blake2b epochInfo blk props.1
      (max ((3 * vals.2 + 9) / 10) ConsensusDomain_MinProposer)
    .ok (selected, vals.1)
  else if 10 * props.2 < 3 * vals.2 ∧ vals.2 > ConsensusDomain_MinValidator then do
    let selected ← selectNodes blake2b epochInfo blk vals.1
      (max ((7 * vals.2 + 9) / 10) ConsensusDomain_MinValidator)
    .ok (props.1, selected)
  else .ok (props.1, vals.1)

/-- `getJoinableConsensusCandidateNodes` on what it has read. Too many validators are cut to the
limit of the proposers. -/
def joinableOf (epochInfo : EpochInfo) (activeProposers activeValidators : List NodeInfo)
    (nodeDomains : List NodeDomainInfo) :
    Except JoinableError (List NodeInfo × List NodeInfo) := do
  let notEnoughProposer := JoinableError.notEnoughProposer activeProposers.length
    ConsensusDomain_MinProposer
  let notEnoughValidator := JoinableError.notEnoughValidator activeValidators.length
    ConsensusDomain_MinValidator
  let props ← goodNodes blake2b epochInfo blk
    (removeInvalidActiveNodes activeProposers nodeDomains) notEnoughProposer
    ConsensusDomain_MinProposer ConsensusDomain_MaxProposer ConsensusDomain_MaxProposer
  let vals ← goodNodes blake2b epochInfo blk
    (removeInvalidActiveNodes activeValidators nodeDomains) notEnoughValidator
    ConsensusDomain_MinValidator ConsensusDomain_MaxValidator ConsensusDomain_MaxProposer
  balance blake2b epochInfo blk props vals

def getJoinableConsensusCandidateNodes (state : ActiveState) (blk : Block) : Except JoinableError
    (List NodeInfo × List NodeInfo) :=
  match state.GetLatestEpoch, state.GetAllActiveProposers with
  | some epochInfo, some activeProposers =>
    if activeProposers.length < ConsensusDomain_MinProposer then
      .error (.notEnoughProposer activeProposers.length ConsensusDomain_MinProposer)
    else
      match state.GetAllActiveValidators with
      | none => .error .state
      | some activeValidators =>
        if activeValidators.length < ConsensusDomain_MinValidator then
          .error (.notEnoughValidator activeValidators.length ConsensusDomain_MinValidator)
        else
          match state.GetAllActiveNodeConsensusDomains
              (UInt64.ofNat blk.Head.Height) with
          | none => .error .state
          | some nodeDomains =>
            joinableOf blake2b blk epochInfo activeProposers activeValidators nodeDomains
  | _, _ => .error .state

def putMember (candidateNodes : List NodeDomainMember) (member : NodeDomainMember) :
    List NodeDomainMember :=
  if member.NodeID ∈ candidateNodes.map NodeID then
    candidateNodes.map fun old => if old.NodeID = member.NodeID then member else old
  else candidateNodes ++ [member]

def memberOf (role : UInt64) (candidate : NodeInfo) : NodeDomainMember where
  NodeID := candidate.NodeID
  NodeRole := role
  Weight := candidate.Weight

def candidateMap (propCandidateNodes valCandidateNodes : List NodeInfo) : List NodeDomainMember :=
  (propCandidateNodes.map (memberOf NodeRole_Proposer) ++
    valCandidateNodes.map (memberOf NodeRole_Validator)).foldl putMember []

variable {members members₁ members₂ candidateNodes : List NodeDomainMember}
  {member x : NodeDomainMember} {props props₁ props₂ vals vals₁ vals₂ : List NodeInfo}

theorem mem_putMember :
    x ∈ putMember candidateNodes member ↔
      x = member ∨ x ∈ candidateNodes ∧ x.NodeID ≠ member.NodeID := by
  unfold putMember
  split_ifs with hkey
  · rw [mem_map]
    constructor
    · rintro ⟨old, hold, rfl⟩
      split_ifs with heq
      · exact .inl rfl
      · exact .inr ⟨hold, heq⟩
    · rintro (rfl | ⟨hx, hne⟩)
      · obtain ⟨old, hold, heq⟩ := mem_map.mp hkey
        exact ⟨old, hold, if_pos heq⟩
      · exact ⟨x, hx, if_neg hne⟩
  · rw [mem_append, mem_singleton, or_comm]
    refine or_congr_right (and_iff_left_of_imp ?_).symm
    intro hx heq
    exact hkey (heq ▸ mem_map_of_mem hx)

theorem nodup_putMember (h : (candidateNodes.map NodeID).Nodup) :
    ((putMember candidateNodes member).map NodeID).Nodup := by
  unfold putMember
  split_ifs with hkey
  · have hkeys : (candidateNodes.map fun old =>
        if old.NodeID = member.NodeID then member else old).map NodeID =
          candidateNodes.map NodeID := by
      rw [map_map]
      refine map_congr_left fun old _ => ?_
      rw [Function.comp_apply]
      split_ifs with heq
      · exact heq.symm
      · rfl
    rwa [hkeys]
  · rw [map_append, map_singleton, ← concat_eq_append]
    exact h.concat hkey

theorem nodup_putMembers (h : (candidateNodes.map NodeID).Nodup) :
    ((members.foldl putMember candidateNodes).map NodeID).Nodup := by
  induction members generalizing candidateNodes with
  | nil => exact h
  | cons member members ih => exact ih (nodup_putMember h)

theorem nodup_candidateMap : ((candidateMap props vals).map NodeID).Nodup :=
  nodup_putMembers nodup_nil

end Candidates

section Joinable

variable {α β : Type} {R : α → α → Prop} {S : β → β → Prop} {x y : Except JoinableError α}
  {f g : α → Except JoinableError β} {blake2b : Bytes → Bytes} {epochInfo : EpochInfo}
  {blk : Block} {nodes nodes₁ nodes₂ : List NodeInfo}
  {nodeDomains₁ nodeDomains₂ : List NodeDomainInfo}

theorem isValid_eq (nodeID : Bytes) {joinedDomainCnt : Nat}
    (hle : joinedDomainCnt ≤ ConsensusDomain_MaxDomainOfEachNode)
    (nodeDomains : List NodeDomainInfo) :
    isValid nodeID joinedDomainCnt nodeDomains =
      decide (joinedDomainCnt + nodeDomains.countP (fun ndInfo =>
        nodeID ∈ ndInfo.CSDomainData.Members.map NodeID) ≤
          ConsensusDomain_MaxDomainOfEachNode) := by
  induction nodeDomains generalizing joinedDomainCnt with
  | nil => simp [isValid, hle]
  | cons ndInfo nodeDomains ih =>
    by_cases hjoined : nodeID ∈ ndInfo.CSDomainData.Members.map NodeID
    · rw [isValid, if_pos hjoined, countP_cons_of_pos (by simpa using hjoined)]
      split_ifs with hmany
      · rw [eq_comm, decide_eq_false_iff_not]
        omega
      · rw [ih (by omega)]
        congr 2
        omega
    · rw [isValid, if_neg hjoined, countP_cons_of_neg (by simpa using hjoined),
        if_neg (Nat.not_lt_of_le hle), ih hle]

end Joinable

section Service

def NewDomainConsensusService (nodeID : Bytes) (BlocksPerEpoch : UInt64) :
    DomainConsensusService where
  nodeID := nodeID
  BlocksPerEpoch := BlocksPerEpoch
  lastBlock := none
  triggerNumber := 0
  triggerBlock := none
  selfSelected := false
  candidateNodes := []

def tNumber (BlocksPerEpoch : UInt64) (block : Block) : UInt64 :=
  let tSpan := BlocksPerEpoch / ConsensusDomain_TriggerTimesOfEachEpoch
  UInt64.ofNat block.Head.Height / tSpan * tSpan + 1

variable (env : DomainEnv) (systemBytes : Bytes) (ds : DomainConsensusService) (added : BlockAdded)

/-- A block triggers the choice of the candidates. Without any, the last ones stay. -/
def trigger : DomainConsensusService :=
  match getJoinableConsensusCandidateNodes env.blake2b added.state added.newBlock with
  | .error _ =>
    { ds with
      triggerNumber := tNumber ds.BlocksPerEpoch added.newBlock
      triggerBlock := some added.newBlock }
  | .ok (props, vals) =>
    { ds with
      triggerNumber := tNumber ds.BlocksPerEpoch added.newBlock
      triggerBlock := some added.newBlock
      candidateNodes := candidateMap props vals
      selfSelected := ds.selfSelected || (props ++ vals).any fun node => node.NodeID == ds.nodeID }

/-- One block in `collectConsensusCandidateNodeStart`; `none` is a division by zero. -/
def collect : Option DomainConsensusService :=
  if ¬ added.idle then some { ds with lastBlock := some added.newBlock }
  else if ds.BlocksPerEpoch / ConsensusDomain_TriggerTimesOfEachEpoch = 0 then none
  else if tNumber ds.BlocksPerEpoch added.newBlock = ds.triggerNumber then
    some { ds with lastBlock := some added.newBlock }
  else some (trigger env { ds with lastBlock := some added.newBlock } added)

def hexText (bytes : Bytes) : Bytes :=
  let digit := fun n : Nat => UInt8.ofNat (if n < 10 then 48 + n else 87 + n)
  bytes.flatMap fun b => [digit (b.toNat / 16), digit (b.toNat % 16)]

def CreateDomainID (seed : Bytes) : Bytes :=
  hexText (if seed = [] then systemBytes else env.seededBytes seed)

/-- `ProduceAndSaveNodeDomain` up to the saving; `none` is the panic without a trigger block. -/
def ProduceNodeDomain (dkg : DkgResult) (iteration : List NodeDomainMember) : Option
    NodeDomainInfo :=
  ds.triggerBlock.map fun triggerBlock =>
    let ValidHeightStart : UInt64 :=
      if ds.triggerNumber = 1 then UInt64.ofNat triggerBlock.Head.Height + 1 else 0
    { ID := CreateDomainID env systemBytes (env.BlockHash triggerBlock)
      domainType := .consensus
      ValidHeightStart := ValidHeightStart
      ValidHeightEnd := ValidHeightStart + 50 * EpochSpan
      CSDomainData :=
        { Threshold := dkg.Threshold
          NParticipant := ds.candidateNodes.length
          PublicKey := dkg.PubKey
          PubShares := dkg.PubShares
          Members := iteration } }

variable {env : DomainEnv} {ds ds' ds₁ ds₂ : DomainConsensusService}
  {nodeID nodeID₁ nodeID₂ systemBytes₁ systemBytes₂ : Bytes} {BlocksPerEpoch : UInt64}
  {events events₁ events₂ : List BlockAdded} {block : Block} {dkg₁ dkg₂ : DkgResult}
  {iteration₁ iteration₂ : List NodeDomainMember}

/-- The trigger number is that of the block, and the keys are distinct. -/
structure Triggered (BlocksPerEpoch : UInt64) (ds : DomainConsensusService) : Prop where
  config : ds.BlocksPerEpoch = BlocksPerEpoch
  number : ∀ block ∈ ds.triggerBlock, ds.triggerNumber = tNumber BlocksPerEpoch block
  keys : (ds.candidateNodes.map NodeID).Nodup

theorem triggered_trigger (h : Triggered BlocksPerEpoch ds) :
    Triggered BlocksPerEpoch (trigger env ds added) := by
  have htriggered : ∀ block ∈ some added.newBlock,
      tNumber ds.BlocksPerEpoch added.newBlock = tNumber BlocksPerEpoch block := by
    rintro _ ⟨⟩
    rw [h.config]
  unfold trigger
  cases getJoinableConsensusCandidateNodes env.blake2b added.state added.newBlock with
  | error err => exact ⟨h.config, htriggered, h.keys⟩
  | ok nodes => exact ⟨h.config, htriggered, nodup_candidateMap⟩

theorem triggered_collect {added : BlockAdded} (h : Triggered BlocksPerEpoch ds)
    (hcollect : ds.collect env added = some ds') : Triggered BlocksPerEpoch ds' := by
  have hlast : Triggered BlocksPerEpoch { ds with lastBlock := some added.newBlock } :=
    { h with }
  unfold collect at hcollect
  split_ifs at hcollect
  · cases hcollect
    exact hlast
  · cases hcollect
    exact triggered_trigger added hlast
  · cases hcollect
    exact hlast

theorem triggered_of_run
    (hrun : events.foldlM (collect env) (NewDomainConsensusService nodeID BlocksPerEpoch) =
      some ds) : Triggered BlocksPerEpoch ds := by
  have hnew : Triggered BlocksPerEpoch (NewDomainConsensusService nodeID BlocksPerEpoch) :=
    ⟨rfl, by rintro _ ⟨⟩, nodup_nil⟩
  exact run_invariant (fun _ _ _ => triggered_collect) hnew hrun

structure SameTranscript (dkg₁ dkg₂ : DkgResult) : Prop where
  threshold : dkg₁.Threshold = dkg₂.Threshold
  pubKey : dkg₁.PubKey = dkg₂.PubKey
  pubShares : dkg₁.PubShares = dkg₂.PubShares

theorem CreateDomainID_blockHash (env : DomainEnv) (systemBytes : Bytes) (block : Block) :
    CreateDomainID env systemBytes (env.BlockHash block) =
      hexText (env.seededBytes (env.BlockHash block)) := by
  rw [CreateDomainID, if_neg (env.blockHash_ne block)]

/-- **When the domains of two nodes agree.** With the same trigger block, candidates and key:
exactly when both loops go through the map in the same order. -/
theorem domains_agree_iff
    (hrun₁ : events₁.foldlM (collect env) (NewDomainConsensusService nodeID₁ BlocksPerEpoch) =
      some ds₁)
    (hrun₂ : events₂.foldlM (collect env) (NewDomainConsensusService nodeID₂ BlocksPerEpoch) =
      some ds₂)
    (hblock₁ : ds₁.triggerBlock = some block) (hblock₂ : ds₂.triggerBlock = some block)
    (hcandidates : ds₁.candidateNodes ~ ds₂.candidateNodes)
    (hdkg : SameTranscript dkg₁ dkg₂) :
    ProduceNodeDomain env systemBytes₁ ds₁ dkg₁ iteration₁ =
        ProduceNodeDomain env systemBytes₂ ds₂ dkg₂ iteration₂ ↔
      iteration₁ = iteration₂ := by
  have hnumber : ds₁.triggerNumber = ds₂.triggerNumber := by
    rw [(triggered_of_run hrun₁).number block hblock₁,
      (triggered_of_run hrun₂).number block hblock₂]
  unfold ProduceNodeDomain
  rw [hblock₁, hblock₂, hnumber, hcandidates.length_eq, hdkg.threshold, hdkg.pubKey, hdkg.pubShares]
  simp only [Option.map_some, CreateDomainID_blockHash]
  constructor
  · intro heq
    injection heq with heq
    injection heq with _ _ _ _ hdata
    injection hdata
  · rintro rfl
    rfl

def plainEnv : DomainEnv where
  blake2b := id
  BlockHash block := 0 :: block.Data
  seededBytes := id
  blockHash_ne _ := cons_ne_nil _ _

def sevenActive : BlockAdded where
  newBlock := Chain.emptyBlock 1
  idle := true
  state :=
    { GetLatestEpoch := some ⟨0, 0, 0⟩
      GetAllActiveProposers :=
        some ([1, 2, 3].map fun i => ⟨[i], [], 1, [], [], .proposer, .active⟩)
      GetAllActiveValidators :=
        some ([4, 5, 6, 7].map fun i => ⟨[i], [], 1, [], [], .validator, .active⟩)
      GetAllActiveNodeConsensusDomains := fun _ => some [] }

def sevenMembers : List NodeDomainMember :=
  [1, 2, 3].map (fun i => ⟨[i], NodeRole_Proposer, 1⟩) ++
    [4, 5, 6, 7].map (fun i => ⟨[i], NodeRole_Validator, 1⟩)

def sevenService (nodeID : Bytes) (selfSelected : Bool) : DomainConsensusService where
  nodeID := nodeID
  BlocksPerEpoch := 50000
  lastBlock := some sevenActive.newBlock
  triggerNumber := 1
  triggerBlock := some sevenActive.newBlock
  selfSelected := selfSelected
  candidateNodes := sevenMembers

theorem domains_agree_on_seven_candidates :
    ProduceNodeDomain plainEnv [8] (sevenService [1] true) ⟨5, [3], [1], [[1]]⟩ sevenMembers =
      ProduceNodeDomain plainEnv [9] (sevenService [2] true) ⟨5, [3], [2], [[1]]⟩ sevenMembers := by
  have hrun₁ : [sevenActive].foldlM (collect plainEnv) (NewDomainConsensusService [1] 50000) =
      some (sevenService [1] true) := by
    decide
  have hrun₂ : [sevenActive].foldlM (collect plainEnv) (NewDomainConsensusService [2] 50000) =
      some (sevenService [2] true) := by
    decide
  exact (domains_agree_iff hrun₁ hrun₂ rfl rfl (Perm.refl _) ⟨rfl, rfl, rfl⟩).mpr rfl

/-- Two nodes go through the map in opposite orders. -/
theorem domains_differ_on_seven_candidates :
    [sevenActive].foldlM (collect plainEnv) (NewDomainConsensusService [1] 50000) =
        some (sevenService [1] true) ∧
      [sevenActive].foldlM (collect plainEnv) (NewDomainConsensusService [2] 50000) =
        some (sevenService [2] true) ∧
      sevenMembers.reverse ~ (sevenService [2] true).candidateNodes ∧
      ProduceNodeDomain plainEnv [] (sevenService [1] true) ⟨5, [3], [1], [[1]]⟩ sevenMembers ≠
        ProduceNodeDomain plainEnv [] (sevenService [2] true) ⟨5, [3], [2], [[1]]⟩
          sevenMembers.reverse := by
  refine ⟨by decide, by decide, reverse_perm sevenMembers, ?_⟩
  decide

end Service

end DomainConsensusService

end Topia.Consensus
