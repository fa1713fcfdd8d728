import Mathlib.Data.List.Induction
import Topia.Consensus.RoleSelector

/-!
# The table of the active nodes

`activeNodeInfos.update` of `consensus/epoch.go` lists the active executors, the executors of every
execution domain, and the proposers and validators of the consensus domain, with weights and totals.

The weights of a domain are added up before those of the members of the consensus domain are written
into the same map. A member that is a proposer is not looked at as a validator.
-/

namespace Topia.Consensus

open Lib Node State
open Chain (Block)

structure ExecuteDomain where
  ID : Bytes
  Members : List Bytes
deriving DecidableEq, Repr

/-- `activeNodeInfos`; a missing entry of a map reads as nothing. -/
structure ActiveNodes where
  activeExecutorIDs : List Bytes
  activeExecutorWeights : UInt64
  activeProposerIDs : List Bytes
  activeProposerWeights : UInt64
  activeValidatorIDs : List Bytes
  activeValidatorWeights : UInt64
  activeExecutorIDsOfDomain : Bytes → List Bytes
  activeExecutorWeightsOfDomain : Bytes → UInt64
  nodeWeights : Bytes → Option UInt64

structure ExecutorState where
  GetAllActiveExecutors : Option (List NodeInfo)
  GetLatestBlock : Option Block
  GetAllActiveNodeExecuteDomains : Nat → Option (List ExecuteDomain)

def ExecutorState.Gives (state : ExecutorState) (executorInfos : List NodeInfo)
    (domains : List ExecuteDomain) : Prop :=
  state.GetAllActiveExecutors = some executorInfos ∧
    ∃ block, state.GetLatestBlock = some block ∧
      state.GetAllActiveNodeExecuteDomains block.Head.Height = some domains

variable (member : NodeDomainMember)

def NodeDomainMember.IsProposer : Prop :=
  member.NodeRole &&& 2 = 2

def NodeDomainMember.IsValidator : Prop :=
  member.NodeRole &&& 4 = 4

instance : Decidable member.IsProposer :=
  inferInstanceAs (Decidable (_ = _))

instance : Decidable member.IsValidator :=
  inferInstanceAs (Decidable (_ = _))

namespace ActiveNodes

def empty : ActiveNodes where
  activeExecutorIDs := []
  activeExecutorWeights := 0
  activeProposerIDs := []
  activeProposerWeights := 0
  activeValidatorIDs := []
  activeValidatorWeights := 0
  activeExecutorIDsOfDomain _ := []
  activeExecutorWeightsOfDomain _ := 0
  nodeWeights _ := none

variable (an : ActiveNodes)

def addExecutor (executorInfo : NodeInfo) : ActiveNodes :=
  { an with
    activeExecutorIDs := an.activeExecutorIDs ++ [executorInfo.NodeID]
    activeExecutorWeights := an.activeExecutorWeights + executorInfo.Weight
    nodeWeights := Function.update an.nodeWeights executorInfo.NodeID (some executorInfo.Weight) }

def totalWeight (nodeWeights : Bytes → Option UInt64) (total : UInt64) (members : List Bytes) :
    UInt64 :=
  members.foldl (fun total exeID => total + (nodeWeights exeID).getD 0) total

def addExecuteDomain (domain : ExecuteDomain) : ActiveNodes :=
  { an with
    activeExecutorIDsOfDomain := Function.update an.activeExecutorIDsOfDomain domain.ID
      (an.activeExecutorIDsOfDomain domain.ID ++ domain.Members)
    activeExecutorWeightsOfDomain := Function.update an.activeExecutorWeightsOfDomain domain.ID
      (totalWeight an.nodeWeights (an.activeExecutorWeightsOfDomain domain.ID) domain.Members) }

/-- The loop over the members; a proposer is not looked at as a validator. -/
def addMember (member : NodeDomainMember) : ActiveNodes :=
  let nodeWeights := Function.update an.nodeWeights member.NodeID (some member.Weight)
  if member.IsProposer then
    { an with
      activeProposerIDs := an.activeProposerIDs ++ [member.NodeID]
      activeProposerWeights := an.activeProposerWeights + member.Weight
      nodeWeights := nodeWeights }
  else if member.IsValidator then
    { an with
      activeValidatorIDs := an.activeValidatorIDs ++ [member.NodeID]
      activeValidatorWeights := an.activeValidatorWeights + member.Weight
      nodeWeights := nodeWeights }
  else { an with nodeWeights := nodeWeights }

def table (executorInfos : List NodeInfo) (domains : List ExecuteDomain)
    (csDomainMember : List NodeDomainMember) : ActiveNodes :=
  csDomainMember.foldl addMember
    (domains.foldl addExecuteDomain (executorInfos.foldl addExecutor empty))

/-- `update`; `none` is the panic without a latest block. -/
def update (state : ExecutorState) (csDomainMember : List NodeDomainMember) : Option ActiveNodes :=
  match state.GetAllActiveExecutors with
  | none => some empty
  | some executorInfos =>
    match state.GetLatestBlock with
    | none => none
    | some latestBlock =>
      match state.GetAllActiveNodeExecuteDomains latestBlock.Head.Height with
      | none => some (executorInfos.foldl addExecutor empty)
      | some domains => some (table executorInfos domains csDomainMember)

theorem update_eq_table {state : ExecutorState} {executorInfos : List NodeInfo}
    {domains : List ExecuteDomain} (hstate : state.Gives executorInfos domains)
    (csDomainMember : List NodeDomainMember) :
    update state csDomainMember = some (table executorInfos domains csDomainMember) := by
  obtain ⟨hexecutors, block, hblock, hdomains⟩ := hstate
  simp [update, hexecutors, hblock, hdomains]

def getNodeWeight (nodeID : Bytes) : Option UInt64 :=
  an.nodeWeights nodeID

def sumOf (nodeIDs : List Bytes) : UInt64 :=
  totalWeight an.getNodeWeight 0 nodeIDs

def Known : Prop :=
  ∀ domainID, ∀ nodeID ∈ an.activeExecutorIDsOfDomain domainID, (an.getNodeWeight nodeID).isSome

def BothRoles (csDomainMember : List NodeDomainMember) : Prop :=
  ∀ member ∈ csDomainMember, member.IsProposer → member.IsValidator →
    member.NodeID ∈ an.activeProposerIDs ∧ member.NodeID ∈ an.activeValidatorIDs

structure Right (csDomainMember : List NodeDomainMember) : Prop where
  domains : ∀ domainID, an.activeExecutorWeightsOfDomain domainID =
    an.sumOf (an.activeExecutorIDsOfDomain domainID)
  known : an.Known
  proposers : an.activeProposerWeights = an.sumOf an.activeProposerIDs
  validators : an.activeValidatorWeights = an.sumOf an.activeValidatorIDs
  bothRoles : an.BothRoles csDomainMember

variable {an : ActiveNodes} {executorInfos : List NodeInfo} {domains : List ExecuteDomain}
  {csDomainMember : List NodeDomainMember} {nodeID : Bytes}

open NodeDomainMember List

section Lists

def validatorsOf (csDomainMember : List NodeDomainMember) : List NodeDomainMember :=
  csDomainMember.filter fun member => ¬member.IsProposer ∧ member.IsValidator

def proposersOf (csDomainMember : List NodeDomainMember) : List NodeDomainMember :=
  csDomainMember.filter fun member => member.IsProposer

def weightSum (members : List NodeDomainMember) : UInt64 :=
  members.foldl (fun total member => total + member.Weight) 0

theorem foldl_weight (total : UInt64) (members : List NodeDomainMember) :
    members.foldl (fun total member => total + member.Weight) total =
      total + weightSum members := by
  unfold weightSum
  induction members generalizing total with
  | nil => simp
  | cons member members ih =>
    rw [foldl_cons, ih, foldl_cons, ih (0 + member.Weight), UInt64.zero_add, UInt64.add_assoc]

theorem weightSum_cons (member : NodeDomainMember) (members : List NodeDomainMember) :
    weightSum (member :: members) = member.Weight + weightSum members := by
  rw [weightSum, foldl_cons, foldl_weight, UInt64.zero_add]

variable (nodeWeights : Bytes → Option UInt64)

def writeWeights (csDomainMember : List NodeDomainMember) : Bytes → Option UInt64 :=
  csDomainMember.foldl (fun nodeWeights member =>
    Function.update nodeWeights member.NodeID (some member.Weight)) nodeWeights

theorem addMembers_lists (csDomainMember : List NodeDomainMember) (an : ActiveNodes) :
    csDomainMember.foldl addMember an =
      { an with
        activeProposerIDs := an.activeProposerIDs ++ (proposersOf csDomainMember).map NodeID
        activeProposerWeights := an.activeProposerWeights + weightSum (proposersOf csDomainMember)
        activeValidatorIDs := an.activeValidatorIDs ++ (validatorsOf csDomainMember).map NodeID
        activeValidatorWeights :=
          an.activeValidatorWeights + weightSum (validatorsOf csDomainMember)
        nodeWeights := writeWeights an.nodeWeights csDomainMember } := by
  induction csDomainMember generalizing an with
  | nil => simp [proposersOf, validatorsOf, weightSum, writeWeights]
  | cons member members ih =>
    rw [foldl_cons, ih]
    unfold addMember
    by_cases hprop : member.IsProposer
    · simp [proposersOf, validatorsOf, hprop, weightSum_cons, writeWeights, UInt64.add_assoc]
    · by_cases hval : member.IsValidator
      · simp [proposersOf, validatorsOf, hprop, hval, weightSum_cons, writeWeights,
          UInt64.add_assoc]
      · simp [proposersOf, validatorsOf, hprop, hval, writeWeights]

theorem weight_cases (csDomainMember : List NodeDomainMember) (nodeID : Bytes) :
    writeWeights nodeWeights csDomainMember nodeID = nodeWeights nodeID ∨
      ∃ member ∈ csDomainMember, member.NodeID = nodeID ∧
        writeWeights nodeWeights csDomainMember nodeID = some member.Weight := by
  induction csDomainMember generalizing nodeWeights with
  | nil => exact .inl rfl
  | cons first members ih =>
    rcases ih (Function.update nodeWeights first.NodeID (some first.Weight)) with
      hsame | ⟨member, hmem, hid, hweight⟩
    · by_cases hid : nodeID = first.NodeID
      · subst hid
        rw [Function.update_self] at hsame
        exact .inr ⟨first, mem_cons_self, rfl, hsame⟩
      · rw [Function.update_of_ne hid] at hsame
        exact .inl hsame
    · exact .inr ⟨member, mem_cons_of_mem _ hmem, hid, hweight⟩

theorem weight_isSome :
    (writeWeights nodeWeights csDomainMember nodeID).isSome ↔
      (nodeWeights nodeID).isSome ∨ nodeID ∈ csDomainMember.map NodeID := by
  induction csDomainMember generalizing nodeWeights with
  | nil => simp [writeWeights]
  | cons first members ih =>
    rw [writeWeights, foldl_cons, ← writeWeights, ih, map_cons, mem_cons]
    by_cases hid : nodeID = first.NodeID
    · simp [hid]
    · simp [hid]

end Lists

section Table

def executorWeights (executorInfos : List NodeInfo) : Bytes → Option UInt64 :=
  (executorInfos.foldl addExecutor empty).nodeWeights

theorem executorWeights_isSome :
    (executorWeights executorInfos nodeID).isSome ↔ nodeID ∈ executorInfos.map NodeInfo.NodeID := by
  have hfold : ∀ an,
      ((executorInfos.foldl addExecutor an).nodeWeights nodeID).isSome ↔
        (an.nodeWeights nodeID).isSome ∨ nodeID ∈ executorInfos.map NodeInfo.NodeID := by
    induction executorInfos with
    | nil => simp
    | cons executorInfo executorInfos ih =>
      intro an
      rw [foldl_cons, ih, map_cons, mem_cons]
      by_cases hid : nodeID = executorInfo.NodeID
      · simp [addExecutor, hid]
      · simp [addExecutor, hid]
  exact (hfold empty).trans (or_iff_right (by simp [empty]))

structure Listed (executorInfos : List NodeInfo) (domains : List ExecuteDomain)
    (an : ActiveNodes) : Prop where
  weights : an.nodeWeights = executorWeights executorInfos
  proposers : an.activeProposerIDs = [] ∧ an.activeProposerWeights = 0
  validators : an.activeValidatorIDs = [] ∧ an.activeValidatorWeights = 0
  totals : ∀ domainID, an.activeExecutorWeightsOfDomain domainID =
    totalWeight an.nodeWeights 0 (an.activeExecutorIDsOfDomain domainID)
  members : ∀ domainID, an.activeExecutorIDsOfDomain domainID =
    (domains.filter (·.ID = domainID)).flatMap ExecuteDomain.Members

theorem listed_addExecutors (executorInfos : List NodeInfo) :
    Listed executorInfos [] (executorInfos.foldl addExecutor empty) := by
  have hfold : ∀ an,
      (executorInfos.foldl addExecutor an).activeProposerIDs = an.activeProposerIDs ∧
      (executorInfos.foldl addExecutor an).activeProposerWeights = an.activeProposerWeights ∧
      (executorInfos.foldl addExecutor an).activeValidatorIDs = an.activeValidatorIDs ∧
      (executorInfos.foldl addExecutor an).activeValidatorWeights = an.activeValidatorWeights ∧
      (executorInfos.foldl addExecutor an).activeExecutorIDsOfDomain =
        an.activeExecutorIDsOfDomain ∧
      (executorInfos.foldl addExecutor an).activeExecutorWeightsOfDomain =
        an.activeExecutorWeightsOfDomain := by
    induction executorInfos with
    | nil => exact fun an => ⟨rfl, rfl, rfl, rfl, rfl, rfl⟩
    | cons executorInfo executorInfos ih => exact fun an => ih (an.addExecutor executorInfo)
  obtain ⟨hpIDs, hpWeights, hvIDs, hvWeights, hids, hweights⟩ := hfold empty
  refine ⟨rfl, ⟨hpIDs, hpWeights⟩, ⟨hvIDs, hvWeights⟩, ?_, ?_⟩
  · intro domainID
    rw [hids, hweights]
    rfl
  · intro domainID
    rw [hids]
    rfl

theorem listed_addExecuteDomain (domain : ExecuteDomain) (h : Listed executorInfos domains an) :
    Listed executorInfos (domains ++ [domain]) (an.addExecuteDomain domain) := by
  refine ⟨h.weights, h.proposers, h.validators, ?_, ?_⟩
  · intro domainID
    by_cases hid : domainID = domain.ID
    · subst hid
      simp only [addExecuteDomain, Function.update_self]
      rw [h.totals domain.ID, totalWeight, totalWeight, totalWeight, foldl_append]
    · simp only [addExecuteDomain, Function.update_of_ne hid]
      exact h.totals domainID
  · intro domainID
    simp only [addExecuteDomain, filter_append, flatMap_append]
    by_cases hid : domainID = domain.ID
    · subst hid
      simp [h.members]
    · rw [Function.update_of_ne hid, h.members]
      simp [Ne.symm hid]

theorem listed_addExecuteDomains (executorInfos : List NodeInfo) (domains : List ExecuteDomain) :
    Listed executorInfos domains
      (domains.foldl addExecuteDomain (executorInfos.foldl addExecutor empty)) := by
  -- the domains are taken from the end of the list, as the loop adds them
  induction domains using reverseRecOn with
  | nil => exact listed_addExecutors executorInfos
  | append_singleton domains domain ih =>
    rw [foldl_append, foldl_cons, foldl_nil]
    exact listed_addExecuteDomain domain ih

structure TableSpec (executorInfos : List NodeInfo) (domains : List ExecuteDomain)
    (csDomainMember : List NodeDomainMember) (an : ActiveNodes) : Prop where
  weights : an.getNodeWeight = writeWeights (executorWeights executorInfos) csDomainMember
  proposerIDs : an.activeProposerIDs = (proposersOf csDomainMember).map NodeID
  proposerWeights : an.activeProposerWeights = weightSum (proposersOf csDomainMember)
  validatorIDs : an.activeValidatorIDs = (validatorsOf csDomainMember).map NodeID
  validatorWeights : an.activeValidatorWeights = weightSum (validatorsOf csDomainMember)
  totals : ∀ domainID, an.activeExecutorWeightsOfDomain domainID =
    totalWeight (executorWeights executorInfos) 0 (an.activeExecutorIDsOfDomain domainID)
  members : ∀ domainID, an.activeExecutorIDsOfDomain domainID =
    (domains.filter (·.ID = domainID)).flatMap ExecuteDomain.Members

theorem TableSpec.mem_members (h : TableSpec executorInfos domains csDomainMember an)
    {domainID : Bytes} :
    nodeID ∈ an.activeExecutorIDsOfDomain domainID ↔
      ∃ domain ∈ domains, domain.ID = domainID ∧ nodeID ∈ domain.Members := by
  simp [h.members, and_assoc]

theorem table_spec (executorInfos : List NodeInfo) (domains : List ExecuteDomain)
    (csDomainMember : List NodeDomainMember) :
    TableSpec executorInfos domains csDomainMember
      (table executorInfos domains csDomainMember) := by
  obtain ⟨hweights, ⟨hpIDs, hpWeights⟩, ⟨hvIDs, hvWeights⟩, htotals, hmembers⟩ :=
    listed_addExecuteDomains executorInfos domains
  rw [table, addMembers_lists]
  refine ⟨?_, ?_, ?_, ?_, ?_, ?_, hmembers⟩
  · exact congrArg (writeWeights · csDomainMember) hweights
  · simp [hpIDs]
  · simp [hpWeights]
  · simp [hvIDs]
  · simp [hvWeights]
  · intro domainID
    rw [← hweights]
    exact htotals domainID

abbrev MembersKnown (executorInfos : List NodeInfo) (domains : List ExecuteDomain)
    (csDomainMember : List NodeDomainMember) : Prop :=
  ∀ domain ∈ domains, ∀ nodeID ∈ domain.Members,
    nodeID ∈ executorInfos.map NodeInfo.NodeID ∨ nodeID ∈ csDomainMember.map NodeID

abbrev ValidatorEntries (csDomainMember : List NodeDomainMember) : Prop :=
  ∀ member ∈ csDomainMember, member.IsProposer → member.IsValidator →
    ∃ other ∈ csDomainMember, other.NodeID = member.NodeID ∧ ¬ other.IsProposer ∧ other.IsValidator

abbrev OneWeight (csDomainMember : List NodeDomainMember) : Prop :=
  csDomainMember.Pairwise fun first second => first.NodeID = second.NodeID →
    first.IsProposer ∨ first.IsValidator → first.Weight = second.Weight

theorem known_iff (executorInfos : List NodeInfo) (domains : List ExecuteDomain)
    (csDomainMember : List NodeDomainMember) :
    (table executorInfos domains csDomainMember).Known ↔
      MembersKnown executorInfos domains csDomainMember := by
  unfold Known
  have hspec := table_spec executorInfos domains csDomainMember
  simp only [hspec.weights, weight_isSome, executorWeights_isSome, hspec.mem_members]
  constructor
  · intro h domain hdomain nodeID hmember
    exact h domain.ID nodeID ⟨domain, hdomain, rfl, hmember⟩
  · rintro h domainID nodeID ⟨domain, hdomain, rfl, hmember⟩
    exact h domain hdomain nodeID hmember

theorem bothRoles_iff (executorInfos : List NodeInfo) (domains : List ExecuteDomain)
    (csDomainMember : List NodeDomainMember) :
    (table executorInfos domains csDomainMember).BothRoles csDomainMember ↔
      ValidatorEntries csDomainMember := by
  have hspec := table_spec executorInfos domains csDomainMember
  rw [BothRoles, hspec.proposerIDs, hspec.validatorIDs]
  refine forall₄_congr fun member hmem hprop hval => ?_
  have hlisted : member.NodeID ∈ (proposersOf csDomainMember).map NodeID :=
    mem_map_of_mem (mem_filter.mpr ⟨hmem, decide_eq_true hprop⟩)
  rw [and_iff_right hlisted]
  simp only [validatorsOf, mem_map, mem_filter, decide_eq_true_eq]
  exact exists_congr fun other => by tauto

/-- What the weights must agree on: a member that is listed in an execution domain has the weight
that it has as an active executor, and the entries of one proposer or validator have one weight. -/
structure Consistent (executorInfos : List NodeInfo) (domains : List ExecuteDomain)
    (csDomainMember : List NodeDomainMember) : Prop where
  executors : ∀ member ∈ csDomainMember, ∀ domain ∈ domains, member.NodeID ∈ domain.Members →
    (executorWeights executorInfos member.NodeID).getD 0 = member.Weight
  members : OneWeight csDomainMember
  listed : MembersKnown executorInfos domains csDomainMember
  roles : ValidatorEntries csDomainMember

variable {members : List NodeDomainMember} {member : NodeDomainMember}

theorem weight_of_listed (nodeWeights : Bytes → Option UInt64)
    (hmembers : OneWeight csDomainMember) (hmem : member ∈ csDomainMember)
    (hlisted : member.IsProposer ∨ member.IsValidator) :
    writeWeights nodeWeights csDomainMember member.NodeID = some member.Weight := by
  induction csDomainMember generalizing nodeWeights with
  | nil => cases hmem
  | cons first members ih =>
    rw [OneWeight, pairwise_cons] at hmembers
    rw [writeWeights, foldl_cons, ← writeWeights]
    rcases mem_cons.mp hmem with rfl | hmem
    · rcases weight_cases (Function.update nodeWeights member.NodeID (some member.Weight))
        members member.NodeID with hsame | ⟨later, hlater, hid, hweight⟩
      · rw [hsame, Function.update_self]
      · rw [hweight, hmembers.1 later hlater hid.symm hlisted]
    · exact ih _ hmembers.2 hmem

theorem weightSum_eq_totalWeight {nodeWeights : Bytes → Option UInt64}
    (h : ∀ member ∈ members, nodeWeights member.NodeID = some member.Weight) :
    weightSum members = totalWeight nodeWeights 0 (members.map NodeID) := by
  rw [weightSum, totalWeight, foldl_map]
  refine foldl_ext _ _ _ fun total member hmem => ?_
  rw [h member hmem, Option.getD_some]

theorem right_of_consistent (h : Consistent executorInfos domains csDomainMember) :
    Right (table executorInfos domains csDomainMember) csDomainMember := by
  have hspec := table_spec executorInfos domains csDomainMember
  refine ⟨?_, (known_iff _ _ _).mpr h.listed, ?_, ?_, (bothRoles_iff _ _ _).mpr h.roles⟩
  · intro domainID
    rw [hspec.totals, sumOf, hspec.weights]
    refine foldl_ext _ _ _ fun total nodeID hlisted => ?_
    obtain ⟨domain, hdomain, -, hmember⟩ := hspec.mem_members.mp hlisted
    rcases weight_cases (executorWeights executorInfos) csDomainMember nodeID with
      hsame | ⟨member, hmem, rfl, hweight⟩
    · rw [hsame]
    · rw [hweight, h.executors member hmem domain hdomain hmember, Option.getD_some]
  · rw [hspec.proposerWeights, sumOf, hspec.weights, hspec.proposerIDs]
    refine weightSum_eq_totalWeight fun member hmem => ?_
    obtain ⟨hmem, hrole⟩ := mem_filter.mp hmem
    exact weight_of_listed _ h.members hmem (.inl (of_decide_eq_true hrole))
  · rw [hspec.validatorWeights, sumOf, hspec.weights, hspec.validatorIDs]
    refine weightSum_eq_totalWeight fun member hmem => ?_
    obtain ⟨hmem, hrole⟩ := mem_filter.mp hmem
    exact weight_of_listed _ h.members hmem (.inr (of_decide_eq_true hrole).2)

/-- **When the table is right**: when the weights agree, every executor of a domain is active or in
the consensus domain, and a member with both roles has an entry as a validator. The last two
conditions are exact. -/
theorem weightTable_of_consistent (executorInfos : List NodeInfo) (domains : List ExecuteDomain)
    (csDomainMember : List NodeDomainMember) (state : ExecutorState)
    (hstate : state.Gives executorInfos domains) :
    ∃ an, update state csDomainMember = some an ∧
      (Consistent executorInfos domains csDomainMember → Right an csDomainMember) ∧
      (an.Known ↔ MembersKnown executorInfos domains csDomainMember) ∧
      (an.BothRoles csDomainMember ↔ ValidatorEntries csDomainMember) :=
  ⟨_, update_eq_table hstate csDomainMember, right_of_consistent,
    known_iff executorInfos domains csDomainMember,
    bothRoles_iff executorInfos domains csDomainMember⟩

def stateOf (executorInfos : List NodeInfo) (domains : List ExecuteDomain) : ExecutorState where
  GetAllActiveExecutors := some executorInfos
  GetLatestBlock := some (Chain.emptyBlock 5)
  GetAllActiveNodeExecuteDomains := fun _ => some domains

/-- An executor that is also a validator, with one weight, and a proposer. -/
theorem weightTable_of_two_members :
    ∃ an, update (stateOf [⟨[1], [], 10, [], [], .executor, .active⟩] [⟨[7], [[1]]⟩])
        [⟨[1], 4, 10⟩, ⟨[2], 2, 3⟩] = some an ∧
      Right an [⟨[1], 4, 10⟩, ⟨[2], 2, 3⟩] := by
  obtain ⟨an, han, hright, -⟩ := weightTable_of_consistent
    [⟨[1], [], 10, [], [], .executor, .active⟩] [⟨[7], [[1]]⟩] [⟨[1], 4, 10⟩, ⟨[2], 2, 3⟩]
    (stateOf _ _) ⟨rfl, Chain.emptyBlock 5, rfl, rfl⟩
  exact ⟨an, han, hright ⟨by decide, by decide, by decide, by decide⟩⟩

/-- The first executor has both roles, with another weight; the second one is not active. The total
is 10, the weights that are read are 3 and none. -/
theorem weights_of_overwritten :
    ∃ an, update (stateOf [⟨[1], [], 10, [], [], .executor, .active⟩] [⟨[7], [[1], [2]]⟩])
        [⟨[1], 6, 3⟩] = some an ∧
      an.activeExecutorWeightsOfDomain [7] = 10 ∧
      (an.activeExecutorIDsOfDomain [7]).map an.getNodeWeight = [some 3, none] ∧
      an.activeProposerIDs = [[1]] ∧ an.activeValidatorIDs = [] := by
  refine ⟨_, rfl, ?_, ?_, ?_, ?_⟩
  all_goals decide

end Table

end ActiveNodes

end Topia.Consensus
