import Topia.Lib.WeightedDraw
import Topia.Consensus.Epoch
import Topia.State.NodeRegistry
import Mathlib.Order.Interval.Finset.Nat

/-!
# The selection of a launcher

`consensus/vrf/role_selector_vrf.go`: the executors of a domain select one of them to launch the
next batch. A hash of the epoch and the state version is the seed of a random number, scaled to the
total weight; the ordered candidates have intervals as long as their weights. `SelectExpectedNodes`
draws in the same way, from nodes ordered by id.
-/

namespace Topia.Consensus

open Lib Node State List
open Chain (Block BLOCK_VER ConsensusProof bigEndian64)

inductive RoleSelector where
  | unknown
  | executionLauncher
  | voteCollector
  | nodes
deriving DecidableEq, Repr

namespace RoleSelector

def value : RoleSelector → UInt8
  | .unknown => 0
  | .executionLauncher => 1
  | .voteCollector => 2
  | .nodes => 3

def String : RoleSelector → Bytes
  | .executionLauncher => ascii "ExecutionLauncher"
  | .voteCollector => ascii "VoteCollector"
  | _ => ascii "Unknown"

end RoleSelector

structure CandidateInfo where
  nodeID : Bytes
  weight : UInt64
deriving DecidableEq, Repr

structure VrfServant where
  GetActiveExecutorIDsOfDomain : Bytes → List Bytes
  GetActiveExecutorsTotalWeightOfDomain : Bytes → UInt64
  GetActiveValidatorIDs : List Bytes
  GetActiveValidatorsTotalWeight : UInt64
  GetNodeWeight : Bytes → Option UInt64
  GetLatestEpoch : EpochInfo

inductive SelectError where
  | invalidRole (role : Bytes)
  | cantGetNodeWeight (nodeID : Bytes)
  | sign
  | invalidParameters (cansResult : List Bytes) (vrfProof : Bytes)
  | indexOutOfRange
deriving DecidableEq, Repr

/-- A drawing loop ends with all the draws, too few, or a panic for an empty list. -/
inductive Drawn (α : Type) where
  | all (drawn : List α)
  | short (drawn : List α)
  | indexOutOfRange
deriving DecidableEq, Repr

structure SelectingNode where
  Sign : Bytes → Bytes → Option Bytes
  priKey : Bytes
  latestBlock : Block
  servant : VrfServant

namespace RoleSelectorVRF

open List

section Random

def uint64Mask : UInt64 := 0x7FFFFFFFFFFFFFFF

def nextRandom (rand : UInt64) : UInt64 × UInt64 :=
  let rand := rand + 0x9e3779b97f4a7c15
  let z := (rand ^^^ (rand >>> 30)) * 0xbf58476d1ce4e5b9
  let z := (z ^^^ (z >>> 27)) * 0x94d049bb133111eb
  (z ^^^ (z >>> 31), rand)

def thresholdValue (seed totalWeight : UInt64) : UInt64 × UInt64 :=
  let random := nextRandom seed
  (UInt64.ofNat ((random.1 &&& uint64Mask).toNat * totalWeight.toNat / 2 ^ 63), random.2)

def thresholdVals (totalWeight : UInt64) : Nat → UInt64 → List UInt64
  | 0, _ => []
  | count + 1, seed =>
    let threshold := thresholdValue seed totalWeight
    threshold.1 :: thresholdVals totalWeight count threshold.2

def hashToSeed (hash : Bytes) : UInt64 :=
  UInt64.ofNat (setBytes ((hash ++ replicate (8 - hash.length) 0).take 8))

variable (blake2b : Bytes → Bytes) (role : RoleSelector)

def makeVRFHash (epoch round : UInt64) (vrfProof : Bytes) : Bytes :=
  blake2b (vrfProof ++ bigEndian64 role.value.toNat ++ bigEndian64 epoch.toNat ++
    (bigEndian64 epoch.toNat ++ bigEndian64 round.toNat))

def getVrfInputData (epoch _height : UInt64) (_csProofBytes : Bytes) (stateVersion : UInt64) :
    Bytes :=
  blake2b ([role.value] ++ bigEndian64 epoch.toNat ++ bigEndian64 stateVersion.toNat)

theorem threshold_lt (seed : UInt64) {totalWeight : UInt64} (hpos : 1 ≤ totalWeight.toNat) :
    (thresholdValue seed totalWeight).1.toNat < totalWeight.toNat := by
  have hrandom : ((nextRandom seed).1 &&& uint64Mask).toNat < 2 ^ 63 := by
    exact Nat.lt_of_le_of_lt Nat.and_le_right (by decide)
  have hscaled : ((nextRandom seed).1 &&& uint64Mask).toNat * totalWeight.toNat / 2 ^ 63 <
      totalWeight.toNat :=
    Nat.div_lt_of_lt_mul (Nat.mul_lt_mul_of_pos_right hrandom hpos)
  have hfits := totalWeight.toNat_lt
  show (UInt64.ofNat _).toNat < totalWeight.toNat
  rwa [UInt64.toNat_ofNat_of_lt' (Nat.lt_trans hscaled hfits)]

end Random

section Draw

variable {α : Type} {weight : α → UInt64} {threshold cumulativeWeight : UInt64}
  {drawn cans : List α}

def drawLoop (weight : α → UInt64) :
    (undrawn : List UInt64) → (cumulativeWeight : UInt64) → (drawn : List α) → List α → Drawn α
  | _, _, drawn, [] => .short drawn
  | [], _, _, _ :: _ => .indexOutOfRange
  | threshold :: undrawn, cumulativeWeight, drawn, can :: cans =>
    if threshold < cumulativeWeight + weight can then
      if undrawn = [] then .all (drawn ++ [can])
      else drawLoop weight undrawn (cumulativeWeight + weight can) (drawn ++ [can]) cans
    else drawLoop weight (threshold :: undrawn) (cumulativeWeight + weight can) drawn cans

theorem drawLoop_single
    (hfits : cumulativeWeight.toNat + (cans.map fun can => (weight can).toNat).sum < 2 ^ 64) :
    drawLoop weight [threshold] cumulativeWeight drawn cans =
      match draw (fun can => (weight can).toNat) threshold.toNat cumulativeWeight.toNat cans with
      | none => .short drawn
      | some can => .all (drawn ++ [can]) := by
  induction cans generalizing cumulativeWeight with
  | nil => rfl
  | cons can cans ih =>
    rw [map_cons, sum_cons] at hfits
    have hsum : (cumulativeWeight + weight can).toNat =
        cumulativeWeight.toNat + (weight can).toNat := by
      rw [UInt64.toNat_add, Nat.mod_eq_of_lt (by omega)]
    by_cases hlt : threshold.toNat < cumulativeWeight.toNat + (weight can).toNat
    · have hlt' : threshold < cumulativeWeight + weight can :=
        UInt64.lt_iff_toNat_lt.mpr (by rwa [hsum])
      rw [drawLoop, if_pos hlt', if_pos rfl, draw, if_pos hlt]
    · have hlt' : ¬ threshold < cumulativeWeight + weight can :=
        fun h => hlt (by rwa [UInt64.lt_iff_toNat_lt, hsum] at h)
      rw [drawLoop, if_neg hlt', draw, if_neg hlt, ih (by omega), hsum]

theorem drawLoop_sublist {undrawn : List UInt64} {out : List α}
    (hdraw : drawLoop weight undrawn cumulativeWeight drawn cans = .all out) :
    out <+ drawn ++ cans := by
  induction cans generalizing undrawn cumulativeWeight drawn with
  | nil => cases undrawn <;> cases hdraw
  | cons can cans ih =>
    cases undrawn with
    | nil => cases hdraw
    | cons threshold undrawn =>
      rw [drawLoop] at hdraw
      split_ifs at hdraw with hlt hlast
      · cases hdraw
        exact (Sublist.refl drawn).append ((nil_sublist cans).cons_cons can)
      · have hrest := ih hdraw
        rwa [append_assoc, singleton_append] at hrest
      · exact (ih hdraw).trans ((Sublist.refl drawn).append (sublist_cons_self can cans))

end Draw

section Candidates

variable {servant₁ servant₂ : VrfServant} {ids ids₁ ids₂ : List Bytes}

def compareCandidates (a b : CandidateInfo) : Ordering :=
  if a.weight ≠ b.weight then compare b.weight a.weight else compare a.nodeID b.nodeID

def sort (canInfos : List CandidateInfo) : List CandidateInfo :=
  sortBy compareCandidates canInfos

def getCandidateInfos (activeNodeID : List Bytes) (servant : VrfServant) :
    Except SelectError (List CandidateInfo) :=
  activeNodeID.mapM fun nodeId =>
    match servant.GetNodeWeight nodeId with
    | none => .error (.cantGetNodeWeight nodeId)
    | some nodeWeight => .ok { nodeID := nodeId, weight := nodeWeight }

def activeNodes (role : RoleSelector) (domainID : Bytes) (servant : VrfServant) :
    Option (UInt64 × List Bytes) :=
  match role with
  | .executionLauncher =>
    some (servant.GetActiveExecutorsTotalWeightOfDomain domainID,
      servant.GetActiveExecutorIDsOfDomain domainID)
  | .voteCollector =>
    some (servant.GetActiveValidatorsTotalWeight, servant.GetActiveValidatorIDs)
  | _ => none

theorem getCandidateInfos_congr
    (hweights : ∀ id ∈ ids, servant₁.GetNodeWeight id = servant₂.GetNodeWeight id) :
    getCandidateInfos ids servant₁ = getCandidateInfos ids servant₂ := by
  induction ids with
  | nil => rfl
  | cons id ids ih =>
    obtain ⟨hid, hids⟩ := forall_mem_cons.mp hweights
    unfold getCandidateInfos at ih ⊢
    rw [mapM_cons, mapM_cons, hid, ih hids]

end Candidates

section Select

def csProof (latestBlock : Block) : ConsensusProof where
  ParentBlockHash := latestBlock.Head.ParentBlockHash.getD []
  Height := latestBlock.Head.Height
  AggSign := latestBlock.Head.VoteAggSignature.getD []

open CandidateInfo

def drawCandidates (count : Nat) (thresholds : List UInt64) (canInfos : List CandidateInfo)
    (vrfProof : Bytes) : Except SelectError (List Bytes × Bytes) :=
  match drawLoop weight (sortBy compare thresholds) 0 [] (sort canInfos) with
  | .all cans => .ok (cans.map nodeID, vrfProof)
  | .short cans =>
    .error (.invalidParameters (cans.map nodeID ++ replicate (count - cans.length) []) vrfProof)
  | .indexOutOfRange => .error .indexOutOfRange

variable (blake2b : Bytes → Bytes)

def Select (node : SelectingNode) (role : RoleSelector) (domainID : Bytes) (stateVersion : UInt64)
    (count : Nat) : Except SelectError (List Bytes × Bytes) :=
  match activeNodes role domainID node.servant with
  | none => .error (.invalidRole role.String)
  | some (totalActiveWeight, activeNodeID) => do
      let canInfos ← getCandidateInfos (sortBy compare activeNodeID) node.servant
      let epochInfo := node.servant.GetLatestEpoch
      let vrfInputData := getVrfInputData blake2b role epochInfo.Epoch
        (UInt64.ofNat node.latestBlock.Head.Height) (csProof node.latestBlock).Marshal stateVersion
      match node.Sign node.priKey vrfInputData with
      | none => .error .sign
      | some vrfProof =>
        -- what is hashed is the input, not the signature
        let vrfHash := makeVRFHash blake2b role epochInfo.Epoch stateVersion vrfInputData
        let seed := hashToSeed vrfHash
        drawCandidates count (thresholdVals totalActiveWeight count seed) canInfos vrfProof

def launchers (result : Except SelectError (List Bytes × Bytes)) : Option (List Bytes) :=
  result.toOption.map Prod.fst

def roleSeed (role : RoleSelector) (epoch stateVersion : UInt64) : UInt64 :=
  hashToSeed (makeVRFHash blake2b role epoch stateVersion
    (getVrfInputData blake2b role epoch 0 [] stateVersion))

def drawLaunchers (thresholds : List UInt64) (canInfos : List CandidateInfo) :
    Option (List Bytes) :=
  match drawLoop weight (sortBy compare thresholds) 0 [] (sort canInfos) with
  | .all cans => some (cans.map nodeID)
  | _ => none

structure SameDomain (domainID : Bytes) (servant₁ servant₂ : VrfServant) : Prop where
  epoch : servant₁.GetLatestEpoch.Epoch = servant₂.GetLatestEpoch.Epoch
  ids : servant₁.GetActiveExecutorIDsOfDomain domainID ~
    servant₂.GetActiveExecutorIDsOfDomain domainID
  weights : ∀ id ∈ servant₁.GetActiveExecutorIDsOfDomain domainID,
    servant₁.GetNodeWeight id = servant₂.GetNodeWeight id
  total : servant₁.GetActiveExecutorsTotalWeightOfDomain domainID =
    servant₂.GetActiveExecutorsTotalWeightOfDomain domainID

/-- The node's service signs the input of this selection. -/
def Signs (stateVersion : UInt64) (node : SelectingNode) : Prop :=
  (node.Sign node.priKey (getVrfInputData blake2b .executionLauncher
    node.servant.GetLatestEpoch.Epoch (UInt64.ofNat node.latestBlock.Head.Height)
    (csProof node.latestBlock).Marshal stateVersion)).isSome

variable {blake2b : Bytes → Bytes} {node node₁ node₂ : SelectingNode} {domainID : Bytes}
  {stateVersion : UInt64} {canInfos : List CandidateInfo}

theorem launchers_drawCandidates {count : Nat} {thresholds : List UInt64} {vrfProof : Bytes} :
    launchers (drawCandidates count thresholds canInfos vrfProof) =
      drawLaunchers thresholds canInfos := by
  unfold drawCandidates drawLaunchers
  cases drawLoop weight (sortBy compare thresholds) 0 [] (sort canInfos) <;> rfl

theorem launchers_select (hsigns : Signs blake2b stateVersion node) (count : Nat) :
    launchers (Select blake2b node .executionLauncher domainID stateVersion count) =
      (getCandidateInfos (sortBy compare (node.servant.GetActiveExecutorIDsOfDomain domainID))
        node.servant).toOption.bind (drawLaunchers (thresholdVals
          (node.servant.GetActiveExecutorsTotalWeightOfDomain domainID) count
          (roleSeed blake2b .executionLauncher node.servant.GetLatestEpoch.Epoch
            stateVersion))) := by
  obtain ⟨vrfProof, hvrf⟩ := Option.isSome_iff_exists.mp hsigns
  unfold Select
  simp only [activeNodes]
  cases getCandidateInfos (sortBy compare (node.servant.GetActiveExecutorIDsOfDomain domainID))
      node.servant with
  | error err => rfl
  | ok canInfos =>
    simp only [bind, Except.bind, hvrf]
    exact launchers_drawCandidates

theorem drawLaunchers_single {threshold : UInt64}
    (hlt : threshold.toNat < (canInfos.map fun can => can.weight.toNat).sum)
    (hfits : (canInfos.map fun can => can.weight.toNat).sum < 2 ^ 64) :
    ∃ i can, (sort canInfos)[i]? = some can ∧
      drawLaunchers [threshold] canInfos = some [can.nodeID] ∧
      ∀ j, InInterval (fun can => can.weight.toNat) (sort canInfos) threshold.toNat j ↔ j = i := by
  have hsum : ((sort canInfos).map fun can => can.weight.toNat).sum =
      (canInfos.map fun can => can.weight.toNat).sum :=
    ((sortBy_perm compareCandidates canInfos).map _).sum_eq
  rw [← hsum] at hlt hfits
  obtain ⟨i, can, hitem, hdraw, hinterval⟩ := exists_draw hlt
  refine ⟨i, can, hitem, ?_, hinterval⟩
  have hloop : drawLoop weight [threshold] 0 [] (sort canInfos) = .all [can] := by
    rw [drawLoop_single (by simpa using hfits)]
    simp [hdraw]
  show (match drawLoop weight [threshold] 0 [] (sort canInfos) with
    | .all cans => some (cans.map nodeID)
    | _ => none) = some [can.nodeID]
  rw [hloop]
  rfl

/-- **The nodes agree on the launcher.** With the same epoch, executors and weights, two nodes that
sign the input select the same one, whatever their keys and latest blocks; when the total is the sum
of the weights and not zero, its interval has the threshold. -/
theorem launcher_agreement (blake2b : Bytes → Bytes) (node₁ node₂ : SelectingNode)
    (domainID : Bytes) (stateVersion : UInt64)
    (hsame : SameDomain domainID node₁.servant node₂.servant)
    (hsigns₁ : Signs blake2b stateVersion node₁) (hsigns₂ : Signs blake2b stateVersion node₂) :
    launchers (Select blake2b node₁ .executionLauncher domainID stateVersion 1) =
        launchers (Select blake2b node₂ .executionLauncher domainID stateVersion 1) ∧
      ∀ canInfos,
        getCandidateInfos
          (sortBy compare (node₁.servant.GetActiveExecutorIDsOfDomain domainID))
          node₁.servant = .ok canInfos →
        (node₁.servant.GetActiveExecutorsTotalWeightOfDomain domainID).toNat =
          (canInfos.map fun can => can.weight.toNat).sum →
        1 ≤ (node₁.servant.GetActiveExecutorsTotalWeightOfDomain domainID).toNat →
        ∃ i can, (sort canInfos)[i]? = some can ∧
          launchers (Select blake2b node₁ .executionLauncher domainID stateVersion 1) =
            some [can.nodeID] ∧
          ∀ j, InInterval (fun can => can.weight.toNat) (sort canInfos)
            (thresholdValue
              (roleSeed blake2b .executionLauncher node₁.servant.GetLatestEpoch.Epoch stateVersion)
              (node₁.servant.GetActiveExecutorsTotalWeightOfDomain domainID)).1.toNat j ↔
            j = i := by
  constructor
  · have hids : sortBy compare (node₁.servant.GetActiveExecutorIDsOfDomain domainID) =
        sortBy compare (node₂.servant.GetActiveExecutorIDsOfDomain domainID) :=
      sortBy_eq_of_perm (fun _ _ _ _ => Std.LawfulEqCmp.eq_of_compare) hsame.ids
    rw [launchers_select hsigns₁, launchers_select hsigns₂, ← hids, hsame.total, hsame.epoch]
    rw [getCandidateInfos_congr fun id hid =>
      hsame.weights id ((sortBy_perm compare _).mem_iff.mp hid)]
  · intro canInfos hcanInfos htotal hpos
    have hlt := threshold_lt
      (roleSeed blake2b .executionLauncher node₁.servant.GetLatestEpoch.Epoch stateVersion) hpos
    rw [htotal] at hlt
    obtain ⟨i, can, hitem, hdraw, hinterval⟩ :=
      drawLaunchers_single hlt (htotal ▸ UInt64.toNat_lt _)
    refine ⟨i, can, hitem, ?_, hinterval⟩
    rw [launchers_select hsigns₁, hcanInfos]
    exact hdraw

def twoExecutors (priKey : Bytes) (height : Nat) (ids : List Bytes) : SelectingNode where
  Sign key data := some (key ++ data)
  priKey := priKey
  latestBlock := Chain.emptyBlock height
  servant :=
    { GetActiveExecutorIDsOfDomain := fun _ => ids
      GetActiveExecutorsTotalWeightOfDomain := fun _ => 8
      GetActiveValidatorIDs := []
      GetActiveValidatorsTotalWeight := 0
      GetNodeWeight := fun id => if id = [1] then some 3 else if id = [2] then some 5 else none
      GetLatestEpoch := ⟨4, 0, 0⟩ }

theorem launcher_agreement_of_two :
    launchers (Select id (twoExecutors [7] 20 [[1], [2]]) .executionLauncher [] 21 1) =
        launchers (Select id (twoExecutors [9] 19 [[2], [1]]) .executionLauncher [] 21 1) ∧
      ∃ (i : Nat) (can : CandidateInfo), (sort [⟨[1], 3⟩, ⟨[2], 5⟩])[i]? = some can ∧
        launchers (Select id (twoExecutors [7] 20 [[1], [2]]) .executionLauncher [] 21 1) =
          some [can.nodeID] := by
  have hsame : SameDomain [] (twoExecutors [7] 20 [[1], [2]]).servant
      (twoExecutors [9] 19 [[2], [1]]).servant :=
    ⟨rfl, by decide, fun _ _ => rfl, rfl⟩
  obtain ⟨hagree, hchosen⟩ := launcher_agreement id (twoExecutors [7] 20 [[1], [2]])
    (twoExecutors [9] 19 [[2], [1]]) [] 21 hsame rfl rfl
  obtain ⟨i, can, hitem, hlauncher, _⟩ := hchosen [⟨[1], 3⟩, ⟨[2], 5⟩] (by rfl) (by rfl) (by decide)
  exact ⟨hagree, i, can, hitem, hlauncher⟩

/-- **Launchers are drawn in proportion to their weights**: of the thresholds below the total
weight, a candidate is selected for as many as its weight. -/
theorem launcher_share (canInfos : List CandidateInfo) (can : CandidateInfo)
    (hids : (canInfos.map nodeID).Nodup)
    (hfits : (canInfos.map fun can => can.weight.toNat).sum < 2 ^ 64) (hcan : can ∈ canInfos) :
    ((Finset.range (canInfos.map fun can => can.weight.toNat).sum).filter fun threshold =>
      drawLaunchers [UInt64.ofNat threshold] canInfos = some [can.nodeID]).card =
        can.weight.toNat := by
  have hperm : sort canInfos ~ canInfos := sortBy_perm compareCandidates canInfos
  have hsorted : ((sort canInfos).map nodeID).Nodup := (hperm.map nodeID).nodup_iff.mpr hids
  obtain ⟨i, hi⟩ := mem_iff_getElem?.mp (hperm.mem_iff.mpr hcan)
  have hlength : i < (sort canInfos).length := (List.getElem?_eq_some_iff.mp hi).1
  -- the interval of the candidate ends before the total weight
  have hend := weightBefore_mono (fun can : CandidateInfo => can.weight.toNat) (sort canInfos)
    (Nat.succ_le_of_lt hlength)
  rw [weightBefore_succ hi, weightBefore, weightBefore, take_length, (hperm.map _).sum_eq] at hend
  have hdrawn : ∀ t < (canInfos.map fun can => can.weight.toNat).sum,
      drawLaunchers [UInt64.ofNat t] canInfos = some [can.nodeID] ↔
        InInterval (fun can => can.weight.toNat) (sort canInfos) t i := by
    intro t ht
    have hnat : (UInt64.ofNat t).toNat = t := UInt64.toNat_ofNat_of_lt' (ht.trans hfits)
    obtain ⟨j, drawn, hj, hdraw, hint⟩ := drawLaunchers_single (hnat.symm ▸ ht) hfits
    rw [hdraw, ← hnat, hint i]
    constructor
    · intro hid
      refine (getElem?_inj (by simpa using hlength) hsorted).mp ?_
      simpa [hi, hj] using hid.symm
    · rintro rfl
      rw [Option.some.inj (hi.symm.trans hj)]
  have hfilter : ((Finset.range (canInfos.map fun can => can.weight.toNat).sum).filter fun t =>
      drawLaunchers [UInt64.ofNat t] canInfos = some [can.nodeID]) =
      Finset.Ico (((sort canInfos).take i).map fun can => can.weight.toNat).sum
        ((((sort canInfos).take i).map fun can => can.weight.toNat).sum + can.weight.toNat) := by
    ext t
    simp only [Finset.mem_filter, Finset.mem_range, Finset.mem_Ico]
    constructor
    · rintro ⟨ht, hdraw⟩
      obtain ⟨drawn, hj, hle, hlt⟩ := (hdrawn t ht).mp hdraw
      rw [Option.some.inj (hi.symm.trans hj)]
      exact ⟨hle, hlt⟩
    · rintro ⟨hle, hlt⟩
      exact ⟨hlt.trans_le hend, (hdrawn t (hlt.trans_le hend)).mpr ⟨can, hi, hle, hlt⟩⟩
  rw [hfilter, Nat.card_Ico, Nat.add_sub_cancel_left]

/-- Of eight thresholds the second executor is selected for five. -/
theorem launcher_share_of_two :
    ((Finset.range 8).filter fun threshold =>
      drawLaunchers [UInt64.ofNat threshold] [⟨[1], 3⟩, ⟨[2], 5⟩] = some [[2]]).card = 5 :=
  launcher_share [⟨[1], 3⟩, ⟨[2], 5⟩] ⟨[2], 5⟩ (by decide) (by decide) (by decide)

open NodeInfo

/-- `SelectExpectedNodes`, ordered by the ids alone; `short` is its error. -/
def SelectExpectedNodes (blake2b : Bytes → Bytes) (epochInfo : EpochInfo) (latestBlock : Block)
    (nodes : List NodeInfo) (count : Nat) : Drawn NodeInfo :=
  let totalWeight := nodes.foldl (fun total node => total + node.Weight) 0
  let vrfInputData := blake2b (csProof latestBlock).Marshal
  let vrfHash := makeVRFHash blake2b .nodes epochInfo.Epoch
    (UInt64.ofNat latestBlock.Head.Height) vrfInputData
  let thresholds := thresholdVals totalWeight count (hashToSeed vrfHash)
  drawLoop Weight (sortBy compare thresholds) 0 []
    (sortBy (compareOn NodeID) nodes)

theorem SelectExpectedNodes_nodup {epochInfo : EpochInfo} {latestBlock : Block}
    {nodes out : List NodeInfo} {count : Nat} (hids : (nodes.map NodeID).Nodup)
    (hdraw : SelectExpectedNodes blake2b epochInfo latestBlock nodes count = .all out) :
    (out.map NodeID).Nodup := by
  have hsublist := drawLoop_sublist hdraw
  have hsorted := ((sortBy_perm (compareOn NodeID) nodes).map NodeID).nodup_iff
  exact (hsorted.mpr hids).sublist (hsublist.map _)

end Select

end RoleSelectorVRF

end Topia.Consensus
