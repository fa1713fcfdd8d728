import Topia.Chain.BlockValidator
import Topia.Consensus.Messages

/-!
# Proposing a block

`consensus/proposer.go`: the input of the random function (`getVrfInputData`), the decision to
propose (`canProposeBlock`) and the proposal (`produceProposeBlock`), against the proof check of the
block validator. The proposer puts the hash of the *grandparent* into the consensus proof and hands
the codec a pointer; the validator the hash of the parent, and a value.
-/

namespace Topia.Consensus

open Chain

structure Proposer where
  (nodeID priKey : Bytes)
  marshaler : Marshaler
  crypto : CryptoEnv
  /-- `ComputeVRF`: `none` is an error. -/
  computeVRF : Bytes → Bytes → Option Bytes
  GetActiveProposersTotalWeight : Nat
  GetNodeWeight : Bytes → Option Nat
  /-- The validator's cached proposal and its reader of heads. -/
  propMsgCached : Option ProposeMessage
  blockHeadInfo : Bytes → Option BlockHead

namespace Proposer

def proposerProof (block : Block) : ConsensusProof where
  ParentBlockHash := block.Head.ParentBlockHash.getD []
  Height := block.Head.Height
  AggSign := block.Head.VoteAggSignature.getD []

variable (p : Proposer)

def getVrfInputData (block : Block) (proposeHeight : Nat) : Bytes :=
  vrfInput p.crypto.blake2b block.Head.Epoch proposeHeight (proposerProof block).Marshal

def judgeLocalMaxPriBestForProposer (maxPri : Bytes) (latestBlock : Block) : Bool :=
  match p.propMsgCached with
  | none => true
  | some propMsg =>
    match p.blockHeadInfo propMsg.BlockHead with
    | none => false
    | some bhCached =>
      if latestBlock.Head.ChainID = propMsg.ChainID ∧
          bhCached.Height = wrap64 (latestBlock.Head.Height + 1) then
        setBytes bhCached.MaxPri < setBytes maxPri
      else true

variable (chainID : Bytes) (latestEpoch : Nat) (latestBlock : Block)
  (prop : Bytes × PreparePackedMessageProp)

def canProposeBlock (proposeHeight : Nat) : Option (Bytes × Bytes) :=
  match p.computeVRF p.priKey (p.getVrfInputData latestBlock proposeHeight) with
  | none => none
  | some vrfProof =>
    match p.GetNodeWeight p.nodeID with
    | none => none
    | some localNodeWeight =>
      let winCount :=
        p.crypto.selectProposer vrfProof localNodeWeight p.GetActiveProposersTotalWeight
      if 1 ≤ winCount then
        let maxPri := p.crypto.maxPriority vrfProof winCount
        if p.judgeLocalMaxPriBestForProposer maxPri latestBlock then some (vrfProof, maxPri)
        else none
      else none

def headChunk : BlockHeadChunk where
  Version := BLOCK_VER
  DomainID := prop.1
  Launcher := prop.2.Launcher
  TxCount := prop.2.TxHashs.length % 2 ^ 32
  TxRoot := prop.2.TxRoot
  TxResultRoot := prop.2.TxResultRoot

def propData : PropData where
  Version := BLOCK_VER
  DomainID := prop.1
  TxHashs := prop.2.TxHashs
  TxResultHashs := prop.2.TxResultHashs

def produceBlockHead (ppmPropMap : PreparePackedMessagePropMap) (vrfProof maxPri stateRoot : Bytes)
    (proposeHeight now : Nat) : Option BlockHead :=
  match p.marshaler.marshalProof .pointer (proposerProof latestBlock) with
  | none => none
  | some csProofBytes =>
    let bhChunksBytes := ppmPropMap.PPMProps.map (fun prop => (headChunk prop).Marshal)
    if bhChunksBytes.length = 0 then none
    else
      some
        { ChainID := chainID
          Version := BLOCK_VER
          Height := wrap64 (latestBlock.Head.Height + 1)
          Epoch := latestEpoch
          Round := latestBlock.Head.Height
          ParentBlockHash := some (p.crypto.blockHash latestBlock)
          Proposer := some p.nodeID
          Proof := some csProofBytes
          VRFProof := some vrfProof
          VRFProofHeight := proposeHeight
          MaxPri := maxPri
          VoteAggSignature := none
          ChunkCount := bhChunksBytes.length % 2 ^ 32
          HeadChunks := bhChunksBytes
          StateRoot := stateRoot
          TimeStamp := now }

def produceProposeBlock (ppmPropMap : PreparePackedMessagePropMap)
    (vrfProof maxPri stateRoot : Bytes) (proposeHeight now : Nat) : Option ProposeMessage :=
  match p.produceBlockHead chainID latestEpoch latestBlock ppmPropMap vrfProof maxPri stateRoot
      proposeHeight now with
  | none => none
  | some bh =>
    match p.marshaler.marshalHead .pointer bh with
    | none => none
    | some newBlockHeadBytes =>
      some
        { ChainID := chainID
          Version := CONSENSUS_VER
          Epoch := latestEpoch
          Round := latestBlock.Head.Height
          StateVersion := ppmPropMap.StateVersion
          MaxPri := bh.MaxPri
          Proposer := bh.Proposer.getD []
          PropDatas := ppmPropMap.PPMProps.map (fun prop => (propData prop).Marshal)
          BlockHead := newBlockHeadBytes }

/-- The proofs of both sides are the same bytes exactly for a block that is its own parent. -/
theorem proposerProof_Marshal_eq_iff (v : BlockValidator) (block : Block) :
    (proposerProof block).Marshal = (v.parentProof block).Marshal ↔
      block.Head.ParentBlockHash.getD [] = v.crypto.blockHash block := by
  constructor
  · intro hbytes
    have hproof := ConsensusProof.Marshal_inj hbytes
    exact congrArg ConsensusProof.ParentBlockHash hproof
  · intro hhash
    simp [proposerProof, BlockValidator.parentProof, hhash]

section Produced

variable {p : Proposer} {chainID : Bytes} {latestEpoch : Nat} {latestBlock : Block}
  {ppmPropMap : PreparePackedMessagePropMap} {vrfProof maxPri stateRoot : Bytes}
  {proposeHeight now : Nat}

theorem produceProposeBlock_some {msg : ProposeMessage}
    (hmsg : p.produceProposeBlock chainID latestEpoch latestBlock ppmPropMap vrfProof maxPri
      stateRoot proposeHeight now = some msg) :
    ∃ bh, p.produceBlockHead chainID latestEpoch latestBlock ppmPropMap vrfProof maxPri
        stateRoot proposeHeight now = some bh ∧
      p.marshaler.marshalHead .pointer bh = some msg.BlockHead := by
  unfold produceProposeBlock at hmsg
  cases hbh : p.produceBlockHead chainID latestEpoch latestBlock ppmPropMap vrfProof maxPri
      stateRoot proposeHeight now with
  | none => simp [hbh] at hmsg
  | some bh =>
    cases hbytes : p.marshaler.marshalHead .pointer bh with
    | none => simp [hbh, hbytes] at hmsg
    | some newBlockHeadBytes =>
      simp only [hbh, hbytes, Option.some.injEq] at hmsg
      subst hmsg
      exact ⟨bh, rfl, hbytes⟩

theorem Height_of_produceBlockHead {bh : BlockHead}
    (hbh : p.produceBlockHead chainID latestEpoch latestBlock ppmPropMap vrfProof maxPri
      stateRoot proposeHeight now = some bh) :
    bh.Height = wrap64 (latestBlock.Head.Height + 1) := by
  unfold produceBlockHead at hbh
  cases hproof : p.marshaler.marshalProof .pointer (proposerProof latestBlock) with
  | none => simp [hproof] at hbh
  | some csProofBytes =>
    simp only [hproof] at hbh
    split_ifs at hbh
    rw [← Option.some.inj hbh]

theorem proofVerify_pass_iff_of_proto {v : BlockValidator} {st : ParentState} {bh : BlockHead}
    (hproto : v.marshaler = marshalProto) : v.proofVerify st bh = .pass ↔ bh.Height = 1 := by
  rw [BlockValidator.proofVerify_pass_iff]
  constructor
  · intro hpass
    by_contra hone
    obtain ⟨parentBlock, _, _, hmarshal, _⟩ := hpass hone
    simp [hproto, marshalProto] at hmarshal
  · intro hone hne
    exact absurd hone hne

/-- **Which produced heads pass the proof check**: those of the first block after height 0. -/
theorem proofVerify_produced_iff (v : BlockValidator) (st : ParentState) (msg : ProposeMessage)
    (hproto : v.marshaler = marshalProto)
    (hmsg : p.produceProposeBlock chainID latestEpoch latestBlock ppmPropMap vrfProof maxPri
      stateRoot proposeHeight now = some msg) :
    ∃ bh, p.produceBlockHead chainID latestEpoch latestBlock ppmPropMap vrfProof maxPri
        stateRoot proposeHeight now = some bh ∧
      p.marshaler.marshalHead .pointer bh = some msg.BlockHead ∧
      (v.proofVerify st bh = .pass ↔ wrap64 (latestBlock.Head.Height + 1) = 1) := by
  obtain ⟨bh, hbh, hbytes⟩ := produceProposeBlock_some hmsg
  refine ⟨bh, hbh, hbytes, ?_⟩
  rw [proofVerify_pass_iff_of_proto hproto, Height_of_produceBlockHead hbh]

end Produced

section Refused

def plainCrypto : CryptoEnv where
  blake2b := fun b => b
  blockHash := fun b => [9, UInt8.ofNat b.Head.Height]
  verifyVRF := fun address data proof => some (proof = address ++ data)
  selectProposer := fun _ _ _ => 1
  maxPriority := fun _ _ => [1]
  parseSignInfo := fun _ => none
  parsePublicKey := fun _ => none
  blsVerify := fun _ _ _ => false

def nodeFive : Proposer where
  nodeID := [5]
  priKey := [5]
  marshaler := marshalProto
  crypto := plainCrypto
  computeVRF := fun key data => some (key ++ data)
  GetActiveProposersTotalWeight := 10
  GetNodeWeight := fun _ => some 10
  propMsgCached := none
  blockHeadInfo := fun _ => none

def blockOf (height : Nat) : Block where
  Head :=
    { emptyHead height with
      ChainID := [7], ParentBlockHash := some [9, 0], Proposer := some [5], Proof := some [],
      VRFProof := some [], VRFProofHeight := height, MaxPri := [1], VoteAggSignature := some [0] }
  Data := []

def oneDomain : PreparePackedMessagePropMap where
  StateVersion := 2
  PPMProps := [([1], ⟨[5], [2], [3], [[4]], [[6]]⟩)]

def fiveState : ParentState where
  ChainID := [7]
  GetNode := fun _ => some ⟨[5], 10⟩
  GetActiveProposersTotalWeight := some 10
  StateRoot := some []

def validatorOfFive : BlockValidator where
  marshaler := marshalProto
  crypto := plainCrypto
  stateAt := fun _ => some fiveState
  getBlockByNumber := fun n => some (blockOf n)

def fiveProof (latestBlock : Block) : Bytes :=
  [5] ++ nodeFive.getVrfInputData latestBlock 2

theorem proofVerify_produced_heights_one_two :
    (∃ bh, nodeFive.produceBlockHead [7] 0 (blockOf 0) oneDomain (fiveProof (blockOf 0)) [1] []
        2 0 = some bh ∧ validatorOfFive.proofVerify fiveState bh = .pass) ∧
      ∃ bh, nodeFive.produceBlockHead [7] 0 (blockOf 1) oneDomain (fiveProof (blockOf 1)) [1] []
        2 0 = some bh ∧ validatorOfFive.proofVerify fiveState bh ≠ .pass := by
  constructor
  · obtain ⟨bh, hbh, _, hiff⟩ := proofVerify_produced_iff validatorOfFive fiveState _ rfl
      (show nodeFive.produceProposeBlock [7] 0 (blockOf 0) oneDomain (fiveProof (blockOf 0)) [1] []
        2 0 = some _ from rfl)
    exact ⟨bh, hbh, hiff.mpr (by decide)⟩
  · obtain ⟨bh, hbh, _, hiff⟩ := proofVerify_produced_iff validatorOfFive fiveState _ rfl
      (show nodeFive.produceProposeBlock [7] 0 (blockOf 1) oneDomain (fiveProof (blockOf 1)) [1] []
        2 0 = some _ from rfl)
    exact ⟨bh, hbh, fun hpass => absurd (hiff.mp hpass) (by decide)⟩

/-- Node 5 may propose on height 1, and its head is refused. -/
theorem proofVerify_fails_on_produced :
    ¬ ∀ latestBlock vrfProof maxPri bh,
      validatorOfFive.getBlockByNumber latestBlock.Head.Height = some latestBlock →
      nodeFive.canProposeBlock latestBlock 2 = some (vrfProof, maxPri) →
      validatorOfFive.crypto.verifyVRF [5] (nodeFive.getVrfInputData latestBlock 2) vrfProof =
        some true →
      nodeFive.produceBlockHead [7] 0 latestBlock oneDomain vrfProof maxPri [] 2 0 = some bh →
      validatorOfFive.proofVerify fiveState bh = .pass := by
  intro haccept
  have hpass := haccept (blockOf 1) (fiveProof (blockOf 1)) [1] _ rfl rfl (by decide) rfl
  exact absurd hpass (by decide)

end Refused

end Proposer

end Topia.Consensus
