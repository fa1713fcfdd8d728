import Topia.Consensus.RoleSelector

/-!
# The selection of a committee

`getJoinableConsensusCandidateNodes` of `consensus/domain_consensus.go` lets `SelectExpectedNodes`
of `consensus/vrf/role_selector_vrf.go` select some of the active nodes. The thresholds are drawn
with repetition, and one walk through the nodes, in the order of their ids, has to find another node
for each. Thresholds that lie together near the end find too few nodes behind.
-/

namespace Topia.Consensus

open Lib Node State List
open Chain (Block BLOCK_VER bigEndian64)

namespace RoleSelectorVRF

open List

section Walk

variable {α : Type} {weight : α → UInt64} {undrawn : List UInt64} {cumulativeWeight : UInt64}
  {drawn cans out : List α}

theorem drawLoop_all_iff (hundrawn : undrawn ≠ [])
    (hfits : cumulativeWeight.toNat + (cans.map fun can => (weight can).toNat).sum < 2 ^ 64) :
    drawLoop weight undrawn cumulativeWeight drawn cans = .all out ↔
      ∃ rest, drawAll (fun can => (weight can).toNat) (undrawn.map UInt64.toNat)
        cumulativeWeight.toNat cans = some rest ∧ out = drawn ++ rest := by
  induction cans generalizing undrawn cumulativeWeight drawn with
  | nil =>
    cases undrawn with
    | nil => exact absurd rfl hundrawn
    | cons threshold undrawn => simp [drawLoop, drawAll]
  | cons can cans ih =>
    cases undrawn with
    | nil => exact absurd rfl hundrawn
    | cons threshold undrawn =>
      rw [map_cons, sum_cons] at hfits
      have hsum : (cumulativeWeight + weight can).toNat =
          cumulativeWeight.toNat + (weight can).toNat := by
        rw [UInt64.toNat_add, Nat.mod_eq_of_lt (by omega)]
      rw [drawLoop, map_cons, drawAll, ← hsum]
      by_cases hlt : threshold < cumulativeWeight + weight can
      · have hlt' : threshold.toNat < (cumulativeWeight + weight can).toNat := hlt
        rw [if_pos hlt, if_pos hlt']
        by_cases hlast : undrawn = []
        · subst hlast
          simp [drawAll, eq_comm]
        · rw [if_neg hlast, ih hlast (by omega)]
          simp
      · have hlt' : ¬ threshold.toNat < (cumulativeWeight + weight can).toNat := hlt
        rw [if_neg hlt, if_neg hlt', ih (cons_ne_nil _ _) (by omega), map_cons]

end Walk

section Committee

variable {blake2b : Bytes → Bytes} {epochInfo : EpochInfo} {latestBlock : Block}
  {nodes : List NodeInfo} {count : Nat}

def nodesSeed (blake2b : Bytes → Bytes) (epochInfo : EpochInfo) (latestBlock : Block) : UInt64 :=
  hashToSeed (makeVRFHash blake2b .nodes epochInfo.Epoch (UInt64.ofNat latestBlock.Head.Height)
    (blake2b (csProof latestBlock).Marshal))

def nodeThresholds (seed : UInt64) (nodes : List NodeInfo) (count : Nat) : List UInt64 :=
  sortBy compare
    (thresholdVals (nodes.foldl (fun total node => total + node.Weight) 0) count seed)

open NodeInfo

def drawOrder (nodes : List NodeInfo) : List NodeInfo :=
  sortBy (compareOn NodeID) nodes

def IsCommittee (nodes : List NodeInfo) (count : Nat) (result : Drawn NodeInfo) : Prop :=
  ∃ out, result = .all out ∧ out.length = count ∧ (out.map NodeID).Nodup ∧ out ⊆ nodes

def LeavesEnough (thresholds : List UInt64) (nodes : List NodeInfo) : Prop :=
  ∀ j threshold, thresholds[j]? = some threshold →
    threshold.toNat < weightBefore (fun node => node.Weight.toNat) nodes
      (nodes.length - thresholds.length + j + 1)

theorem SelectExpectedNodes_eq :
    SelectExpectedNodes blake2b epochInfo latestBlock nodes count =
      drawLoop Weight
        (nodeThresholds (nodesSeed blake2b epochInfo latestBlock) nodes count)
        0 [] (drawOrder nodes) :=
  rfl

theorem length_thresholdVals (totalWeight : UInt64) (count : Nat) (seed : UInt64) :
    (thresholdVals totalWeight count seed).length = count := by
  induction count generalizing seed with
  | zero => rfl
  | succ count ih => rw [thresholdVals, length_cons, ih]

theorem length_nodeThresholds (seed : UInt64) (nodes : List NodeInfo) (count : Nat) :
    (nodeThresholds seed nodes count).length = count := by
  rw [nodeThresholds, (sortBy_perm _ _).length_eq, length_thresholdVals]

theorem drawOrder_perm (nodes : List NodeInfo) : drawOrder nodes ~ nodes :=
  sortBy_perm _ _

/-- **When a committee is selected** from enough different nodes with a weight: exactly when the
thresholds of the seed leave enough nodes for one another. -/
theorem committee_iff (blake2b : Bytes → Bytes) (epochInfo : EpochInfo) (latestBlock : Block)
    (hids : (nodes.map NodeID).Nodup) (hcount : 1 ≤ count)
    (hweighted : count ≤ nodes.countP fun node => 0 < node.Weight)
    (hfits : (nodes.map fun node => node.Weight.toNat).sum < 2 ^ 64) :
    IsCommittee nodes count (SelectExpectedNodes blake2b epochInfo latestBlock nodes count) ↔
      LeavesEnough (nodeThresholds (nodesSeed blake2b epochInfo latestBlock) nodes count)
        (drawOrder nodes) := by
  have hlength := length_nodeThresholds (nodesSeed blake2b epochInfo latestBlock) nodes count
  have horder := drawOrder_perm nodes
  have hne : nodeThresholds (nodesSeed blake2b epochInfo latestBlock) nodes count ≠ [] := by
    rw [← length_pos_iff, hlength]
    exact hcount
  have henough : count ≤ (drawOrder nodes).length := by
    rw [horder.length_eq]
    exact hweighted.trans countP_le_length
  have hloop : ∀ out, SelectExpectedNodes blake2b epochInfo latestBlock nodes count = .all out ↔
      drawAll (fun node => node.Weight.toNat)
        ((nodeThresholds (nodesSeed blake2b epochInfo latestBlock) nodes count).map UInt64.toNat)
        0 (drawOrder nodes) = some out := by
    intro out
    have hsum : ((drawOrder nodes).map fun node => node.Weight.toNat).sum < 2 ^ 64 := by
      rwa [(horder.map _).sum_eq]
    rw [SelectExpectedNodes_eq, drawLoop_all_iff hne (by simpa using hsum)]
    simp
  have hdrawn : (drawAll (fun node => node.Weight.toNat)
      ((nodeThresholds (nodesSeed blake2b epochInfo latestBlock) nodes count).map UInt64.toNat)
      0 (drawOrder nodes)).isSome ↔
      LeavesEnough (nodeThresholds (nodesSeed blake2b epochInfo latestBlock) nodes count)
        (drawOrder nodes) := by
    rw [drawAll_isSome_iff, length_map, hlength]
    simp [LeavesEnough, hlength, henough]
  rw [← hdrawn, Option.isSome_iff_exists]
  constructor
  · rintro ⟨out, hall, _⟩
    exact ⟨out, (hloop out).mp hall⟩
  rintro ⟨out, hout⟩
  have hall := (hloop out).mpr hout
  refine ⟨out, hall, ?_, SelectExpectedNodes_nodup hids hall, ?_⟩
  · rw [drawAll_length hout, length_map, hlength]
  · intro node hnode
    have hsublist := drawLoop_sublist hall
    exact horder.mem_iff.mp (hsublist.subset hnode)

def twoNodes : List NodeInfo :=
  [⟨[1], [], 1, [], [], .proposer, .active⟩, ⟨[2], [], 1, [], [], .proposer, .active⟩]

theorem committee_of_two :
    IsCommittee twoNodes 2 (SelectExpectedNodes (fun _ => bigEndian64 1) ⟨4, 0, 0⟩
      (Chain.emptyBlock 20) twoNodes 2) := by
  refine (committee_iff _ _ _ (by decide) (by decide) (by decide) (by decide)).mpr ?_
  intro j threshold hthreshold
  match j with
  | 0 => cases hthreshold; decide
  | 1 => cases hthreshold; decide

/-- With the seed `0` both thresholds are in the interval of the second node. -/
theorem committee_fails_at_the_end :
    (twoNodes.map NodeID).Nodup ∧ (twoNodes.countP fun node => 0 < node.Weight) = 2 ∧
      nodeThresholds (nodesSeed (fun _ => []) ⟨4, 0, 0⟩ (Chain.emptyBlock 20)) twoNodes 2 = [1, 1] ∧
      SelectExpectedNodes (fun _ => []) ⟨4, 0, 0⟩ (Chain.emptyBlock 20) twoNodes 2 =
        .short [⟨[2], [], 1, [], [], .proposer, .active⟩] := by
  decide +kernel

end Committee

end RoleSelectorVRF

end Topia.Consensus
