import Topia.Chain.Types

/-!
# The block validator

`chain/block_validator.go`. A head is checked against the state of its parent: first `validateBase`,
then the proof, the state root and the aggregated signature, each on its own.

The proof of a head of height 1 is not looked at, the error of a wrong priority is dropped, a vote
signature that is not JSON passes, and one that is JSON is verified under the key that it carries
itself.
-/

namespace Topia.Chain

structure NodeInfo where
  Address : Bytes
  Weight : Nat
deriving DecidableEq, Repr

/-- The state of the parent height; `none` is an error. -/
structure ParentState where
  ChainID : Bytes
  GetNode : Bytes → Option NodeInfo
  GetActiveProposersTotalWeight : Option Nat
  StateRoot : Option Bytes

structure CryptoEnv where
  blake2b : Bytes → Bytes
  blockHash : Block → Bytes
  /-- `VerifyVRF`: `none` is an error. -/
  verifyVRF : Bytes → Bytes → Bytes → Option Bool
  /-- `SelectProposer`: how often the proof wins for a weight among a total. -/
  selectProposer : Bytes → Nat → Nat → Int
  maxPriority : Bytes → Int → Bytes
  /-- The public key and the signature in the JSON text of a `SignatureInfo`. -/
  parseSignInfo : Bytes → Option (Bytes × Bytes)
  parsePublicKey : Bytes → Option Bytes
  blsVerify : Bytes → Bytes → Bytes → Bool

inductive HeaderError where
  | invalidChainID (expected actual : Bytes)
  | nilParentBlockHash
  | nilProposer
  | nilProof
  | nilVRFProof
  | invalidVRFHeight
  | nilVoteAggSignature
  | noParentBlock (height : Nat)
  | invalidParentReference
  | marshalProof
  | invalidConsensusProof
  | vrfError
  | invalidVRFProof (height : Nat)
  | noTotalWeight
  | notWinner (address : Bytes)
  | noStateRoot
  | invalidStateRoot (height : Nat)
  | invalidPublicKey
  | invalidSignature
deriving DecidableEq, Repr

inductive Check where
  | pass
  | fail (e : HeaderError)
  | panic
deriving DecidableEq, Repr

structure BlockValidator where
  marshaler : Marshaler
  crypto : CryptoEnv
  stateAt : Nat → Option ParentState
  getBlockByNumber : Nat → Option Block

namespace BlockValidator

variable (v : BlockValidator)

variable (curChainID : Bytes) (st : ParentState) (bh : BlockHead) (csProofBytes : Bytes)

def validateBase : Check :=
  if bh.ChainID ≠ curChainID then .fail (.invalidChainID curChainID bh.ChainID)
  else if bh.Height > 1 ∧ bh.ParentBlockHash = none then .fail .nilParentBlockHash
  else if bh.Proposer = none then .fail .nilProposer
  else if bh.Height > 1 ∧ bh.Proof = none then .fail .nilProof
  else if bh.VRFProof = none then .fail .nilVRFProof
  else if bh.VRFProofHeight < bh.Height then .fail .invalidVRFHeight
  else if bh.VoteAggSignature = none then .fail .nilVoteAggSignature
  else .pass

def parentProof (parentBlock : Block) : ConsensusProof where
  ParentBlockHash := v.crypto.blockHash parentBlock
  Height := parentBlock.Head.Height
  AggSign := parentBlock.Head.VoteAggSignature.getD []

def winnerVerify : Check :=
  match st.GetNode (bh.Proposer.getD []) with
  | none => .panic
  | some proposerNode =>
    let seed := vrfInput v.crypto.blake2b bh.Epoch bh.VRFProofHeight csProofBytes
    let vrfProof := bh.VRFProof.getD []
    match v.crypto.verifyVRF proposerNode.Address seed vrfProof with
    | none => .fail .vrfError
    | some false => .fail (.invalidVRFProof bh.Height)
    | some true =>
      match st.GetActiveProposersTotalWeight with
      | none => .fail .noTotalWeight
      | some totalWeight =>
        let winCount := v.crypto.selectProposer vrfProof proposerNode.Weight totalWeight
        if 1 ≤ winCount then
          -- the error of a priority that is not the recomputed one is dropped
          if bh.MaxPri ≠ v.crypto.maxPriority vrfProof winCount then .pass else .pass
        else .fail (.notWinner proposerNode.Address)

def proofVerify : Check :=
  if bh.Height = 1 then .pass
  else
    match v.getBlockByNumber (wrap64 (bh.Height + 2 ^ 64 - 1)) with
    | none => .fail (.noParentBlock bh.Height)
    | some parentBlock =>
      if bh.ParentBlockHash.getD [] ≠ v.crypto.blockHash parentBlock then
        .fail .invalidParentReference
      else
        match v.marshaler.marshalProof .value (v.parentProof parentBlock) with
        | none => .fail .marshalProof
        | some csProofBytes =>
          if bh.Proof.getD [] ≠ csProofBytes then .fail .invalidConsensusProof
          else v.winnerVerify st bh csProofBytes

/-- The bytes under a signature; the error of the marshaler is dropped and leaves none. -/
def signedHeadBytes : Bytes :=
  (v.marshaler.marshalHead .pointerToPointer { bh with VoteAggSignature := none }).getD []

def signVerify : Check :=
  match v.crypto.parseSignInfo (bh.VoteAggSignature.getD []) with
  | none => .pass
  | some (publicKey, signData) =>
    match v.crypto.parsePublicKey publicKey with
    | none => .fail .invalidPublicKey
    | some pubPolicy =>
      if v.crypto.blsVerify pubPolicy (v.signedHeadBytes bh) signData then .pass
      else .fail .invalidSignature

def stateRootVerify : Check :=
  match st.StateRoot with
  | none => .fail .noStateRoot
  | some stateRoot =>
    if stateRoot ≠ bh.StateRoot then .fail (.invalidStateRoot bh.Height) else .pass

/-- Every error is collected; `none` is a panic. -/
def processAwaitListResult : List Check → Option (List HeaderError)
  | [] => some []
  | .panic :: _ => none
  | .pass :: rest => processAwaitListResult rest
  | .fail e :: rest => (processAwaitListResult rest).map (fun es => e :: es)

def ValidateHeader : Option (List HeaderError) :=
  match v.stateAt (wrap64 (bh.Height + 2 ^ 64 - 1)) with
  -- `NewStateStoreAt` panics when the version is not stored
  | none => none
  | some st =>
    match validateBase st.ChainID bh with
    | .panic => none
    | .fail e => some [e]
    | .pass =>
      processAwaitListResult
        [v.proofVerify st bh, stateRootVerify st bh, v.signVerify bh]

structure BaseValid : Prop where
  chainID : bh.ChainID = curChainID
  parentBlockHash : bh.Height > 1 → bh.ParentBlockHash ≠ none
  proposer : bh.Proposer ≠ none
  proof : bh.Height > 1 → bh.Proof ≠ none
  vrfProof : bh.VRFProof ≠ none
  vrfProofHeight : bh.Height ≤ bh.VRFProofHeight
  voteAggSignature : bh.VoteAggSignature ≠ none

def WinnerValid : Prop :=
  ∃ proposerNode totalWeight,
    st.GetNode (bh.Proposer.getD []) = some proposerNode ∧
    v.crypto.verifyVRF proposerNode.Address
      (vrfInput v.crypto.blake2b bh.Epoch bh.VRFProofHeight csProofBytes)
      (bh.VRFProof.getD []) = some true ∧
    st.GetActiveProposersTotalWeight = some totalWeight ∧
    1 ≤ v.crypto.selectProposer (bh.VRFProof.getD []) proposerNode.Weight totalWeight

def ProofValid : Prop :=
  bh.Height ≠ 1 → ∃ parentBlock,
    v.getBlockByNumber (wrap64 (bh.Height + 2 ^ 64 - 1)) = some parentBlock ∧
    bh.ParentBlockHash.getD [] = v.crypto.blockHash parentBlock ∧
    v.marshaler.marshalProof .value (v.parentProof parentBlock) = some (bh.Proof.getD []) ∧
    v.WinnerValid st bh (bh.Proof.getD [])

def SignatureValid : Prop :=
  ∀ publicKey signData,
    v.crypto.parseSignInfo (bh.VoteAggSignature.getD []) = some (publicKey, signData) →
    ∃ pubPolicy, v.crypto.parsePublicKey publicKey = some pubPolicy ∧
      v.crypto.blsVerify pubPolicy (v.signedHeadBytes bh) signData = true

structure HeaderPassed : Prop where
  base : BaseValid st.ChainID bh
  stateRoot : st.StateRoot = some bh.StateRoot
  proof : v.ProofValid st bh
  signature : v.SignatureValid bh

variable {v} {bh : BlockHead}

theorem validateBase_pass_iff {curChainID : Bytes} :
    validateBase curChainID bh = .pass ↔ BaseValid curChainID bh := by
  unfold validateBase
  constructor
  · intro hpass
    split_ifs at hpass with h1 h2 h3 h4 h5 h6 h7
    exact ⟨by simpa using h1, by tauto, h3, by tauto, h5, by omega, h7⟩
  · rintro ⟨h1, h2, h3, h4, h5, h6, h7⟩
    have h6' : ¬ bh.VRFProofHeight < bh.Height := by omega
    rw [if_neg (by simpa using h1), if_neg (by tauto), if_neg h3, if_neg (by tauto), if_neg h5,
      if_neg h6', if_neg h7]

variable {st : ParentState}

theorem winnerVerify_pass_iff {csProofBytes : Bytes} :
    v.winnerVerify st bh csProofBytes = .pass ↔ v.WinnerValid st bh csProofBytes := by
  unfold winnerVerify WinnerValid
  cases st.GetNode (bh.Proposer.getD []) with
  | none => simp
  | some proposerNode =>
    cases hvrf : v.crypto.verifyVRF proposerNode.Address
        (vrfInput v.crypto.blake2b bh.Epoch bh.VRFProofHeight csProofBytes)
        (bh.VRFProof.getD []) with
    | none => simp [hvrf]
    | some ok =>
      cases ok with
      | false => simp [hvrf]
      | true =>
        cases st.GetActiveProposersTotalWeight with
        | none => simp [hvrf]
        | some totalWeight => simp [hvrf]

theorem proofVerify_pass_iff : v.proofVerify st bh = .pass ↔ v.ProofValid st bh := by
  unfold proofVerify ProofValid
  by_cases hone : bh.Height = 1
  · simp [hone]
  cases v.getBlockByNumber (wrap64 (bh.Height + 2 ^ 64 - 1)) with
  | none => simp [hone]
  | some parentBlock =>
    by_cases hhash : bh.ParentBlockHash.getD [] = v.crypto.blockHash parentBlock
    · cases hmarshal : v.marshaler.marshalProof .value (v.parentProof parentBlock) with
      | none => simp [hone, hhash, hmarshal]
      | some csProofBytes =>
        by_cases hproof : bh.Proof.getD [] = csProofBytes
        · simp [hone, hhash, hmarshal, hproof, winnerVerify_pass_iff]
        · simp [hone, hhash, hmarshal, hproof, Ne.symm hproof]
    · simp [hone, hhash]

theorem stateRootVerify_pass_iff :
    stateRootVerify st bh = .pass ↔ st.StateRoot = some bh.StateRoot := by
  unfold stateRootVerify
  cases st.StateRoot with
  | none => simp
  | some stateRoot =>
    by_cases hroot : stateRoot = bh.StateRoot <;> simp [hroot]

theorem signVerify_pass_iff : v.signVerify bh = .pass ↔ v.SignatureValid bh := by
  unfold signVerify SignatureValid
  cases v.crypto.parseSignInfo (bh.VoteAggSignature.getD []) with
  | none => simp
  | some info =>
    obtain ⟨publicKey, signData⟩ := info
    cases hkey : v.crypto.parsePublicKey publicKey with
    | none => simp [hkey]
    | some pubPolicy =>
      by_cases hbls : v.crypto.blsVerify pubPolicy (v.signedHeadBytes bh) signData = true
      · simp [hkey, hbls]
      · simp [hkey, hbls]

theorem processAwaitListResult_nil_iff {checks : List Check} :
    processAwaitListResult checks = some [] ↔ ∀ c ∈ checks, c = .pass := by
  induction checks with
  | nil => simp [processAwaitListResult]
  | cons c rest ih =>
    cases c with
    | pass => simp [processAwaitListResult, ih]
    | _ => simp [processAwaitListResult]

/-- **What the validator accepts**: heads that pass the base and state root checks, the proof check
unless the height is 1, and the check of a readable vote signature under its own key. -/
theorem ValidateHeader_accepts_iff (v : BlockValidator) (bh : BlockHead) :
    v.ValidateHeader bh = some [] ↔
      ∃ st, v.stateAt (wrap64 (bh.Height + 2 ^ 64 - 1)) = some st ∧ v.HeaderPassed st bh := by
  unfold ValidateHeader
  cases v.stateAt (wrap64 (bh.Height + 2 ^ 64 - 1)) with
  | none => simp
  | some st =>
    constructor
    · intro haccept
      have hbase : validateBase st.ChainID bh = .pass := by
        cases hb : validateBase st.ChainID bh with
        | pass => rfl
        | _ => simp [hb] at haccept
      simp only [hbase, processAwaitListResult_nil_iff, List.forall_mem_cons] at haccept
      obtain ⟨hproof, hroot, hsign, _⟩ := haccept
      exact ⟨st, rfl, validateBase_pass_iff.mp hbase, stateRootVerify_pass_iff.mp hroot,
        proofVerify_pass_iff.mp hproof, signVerify_pass_iff.mp hsign⟩
    · rintro ⟨st', hst, hbase, hroot, hproof, hsign⟩
      cases hst
      simp only [validateBase_pass_iff.mpr hbase, processAwaitListResult_nil_iff,
        List.forall_mem_cons]
      exact ⟨proofVerify_pass_iff.mpr hproof, stateRootVerify_pass_iff.mpr hroot,
        signVerify_pass_iff.mpr hsign, by simp⟩

def HasPriority (v : BlockValidator) (st : ParentState) (bh : BlockHead) : Prop :=
  ∀ proposerNode totalWeight, st.GetNode (bh.Proposer.getD []) = some proposerNode →
    st.GetActiveProposersTotalWeight = some totalWeight →
    bh.MaxPri = v.crypto.maxPriority (bh.VRFProof.getD [])
      (v.crypto.selectProposer (bh.VRFProof.getD []) proposerNode.Weight totalWeight)

/-- The random function verifies, wins and has the claimed priority, and the vote signature verifies
under the key of the domain. -/
def HeaderSound (v : BlockValidator) (st : ParentState) (domainKey : Bytes) (bh : BlockHead) :
    Prop :=
  v.WinnerValid st bh (bh.Proof.getD []) ∧ v.HasPriority st bh ∧
  ∃ publicKey signData,
    v.crypto.parseSignInfo (bh.VoteAggSignature.getD []) = some (publicKey, signData) ∧
    v.crypto.blsVerify domainKey { bh with VoteAggSignature := none }.Marshal signData = true

/-- What the validator leaves out: a height above the first, the recomputed priority, a readable
signature that carries the key of the domain, and the signed bytes. -/
structure KeyedHead (v : BlockValidator) (st : ParentState) (domainKey : Bytes) (bh : BlockHead) :
    Prop where
  height : bh.Height ≠ 1
  maxPri : v.HasPriority st bh
  signature : ∃ publicKey signData,
    v.crypto.parseSignInfo (bh.VoteAggSignature.getD []) = some (publicKey, signData) ∧
    v.crypto.parsePublicKey publicKey = some domainKey
  signed : v.signedHeadBytes bh = { bh with VoteAggSignature := none }.Marshal

/-- A validator whose codec also marshals values and whose keys verify every signature. -/
def valueValidator (parseSignInfo : Bytes → Option (Bytes × Bytes)) : BlockValidator where
  marshaler := ⟨fun _ p => some p.Marshal, fun _ h => some h.Marshal⟩
  crypto :=
    { blake2b := fun b => b
      blockHash := fun _ => []
      verifyVRF := fun _ _ _ => some true
      selectProposer := fun _ _ _ => 1
      maxPriority := fun _ _ => []
      parseSignInfo
      parsePublicKey := some
      blsVerify := fun _ _ _ => true }
  stateAt := fun _ => some ⟨[7], fun _ => some ⟨[1], 1⟩, some 1, some []⟩
  getBlockByNumber := fun _ => some (emptyBlock 1)

def headAtTwo (maxPri : Bytes) : BlockHead :=
  { emptyHead 2 with
    ChainID := [7], ParentBlockHash := some [], Proposer := some [1],
    Proof := some (ConsensusProof.Marshal ⟨[], 1, []⟩), VRFProof := some [0], VRFProofHeight := 2,
    MaxPri := maxPri, VoteAggSignature := some [0] }

end BlockValidator

end Topia.Chain
