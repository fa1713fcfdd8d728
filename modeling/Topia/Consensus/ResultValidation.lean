import Topia.Lib.LoopVariable
import Topia.Consensus.Messages

/-!
# Validation of the execution results of a proposal

`Validate` of `consensus/exers_validate.go` asks, for every domain of a proposal, some executor for
proofs of a few transactions and results, and checks them against the roots of the entry. The
goroutines of the entries close over the variable of the loop: `propMsg.PropDatas[i]`, `oks[i]` and
`errs[i]` are those of the entry at which the loop stands when they are used.
-/

namespace Topia.Consensus

open Lib

def ValidateTxMinCount : Nat := 3

structure ExeResultValidateRespMessage where
  Executor : Bytes
  (TxProofs TxResultProofs : List Bytes)
deriving DecidableEq, Repr

structure ProofService where
  unmarshalPropData : Bytes → Except Bytes PropData
  Tree : Type
  NewSparseMerkleTree : Tree
  Update : Tree → Bytes → Bytes → Tree
  Root : Tree → Bytes
  Proof : Type
  unmarshalProof : Bytes → Except Bytes Proof
  SubTree : Type
  NewDeepSparseMerkleSubTree : Bytes → SubTree
  AddBranch : SubTree → Proof → Bytes → Bytes → Except Bytes SubTree
  SubTreeRoot : SubTree → Bytes

structure Answer where
  randInt : Nat → Except Bytes Nat
  resp : Except Bytes ExeResultValidateRespMessage

inductive ValidateError where
  | unmarshal (err : Bytes)
  | counts (txs results : Nat)
  | randInt (err : Bytes)
  | deliver (err : Bytes)
  | proofCounts (txs results txProofs txResultProofs : Nat)
  | proof (err : Bytes)
  | txProof (executor : Bytes)
  | txResultProof (executor : Bytes)
deriving DecidableEq, Repr

variable (S : ProofService) (entry : Bytes) (answer : Answer) (p : PropData)

def hashsRoot (hashs : List Bytes) : Bytes :=
  S.Root (hashs.foldl (fun tree hash => S.Update tree hash hash) S.NewSparseMerkleTree)

def PropData.TxRoot : Bytes :=
  hashsRoot S p.TxHashs

def PropData.TxResultRoot : Bytes :=
  hashsRoot S p.TxResultHashs

def sample (p : PropData) (randInt : Nat → Except Bytes Nat) :
    Nat → Except ValidateError (List Bytes × List Bytes)
  | 0 => .ok ([], [])
  | i + 1 =>
    match sample p randInt i with
    | .error err => .error err
    | .ok (randTxHashs, randTxRSHashs) =>
      match randInt i with
      | .error err => .error (.randInt err)
      | .ok number =>
        let randTxHashIndex := number % p.TxHashs.length
        .ok (randTxHashs ++ [p.TxHashs.getD randTxHashIndex []],
          randTxRSHashs ++ [p.TxResultHashs.getD randTxHashIndex []])

def validateTxCount : Nat :=
  if p.TxHashs.length < ValidateTxMinCount then p.TxHashs.length else ValidateTxMinCount

def addBranches (S : ProofService) : S.SubTree → List (Bytes × Bytes) → Except Bytes S.SubTree
  | tree, [] => .ok tree
  | tree, (proofBytes, hash) :: rest =>
    match S.unmarshalProof proofBytes with
    | .error err => .error err
    | .ok proof =>
      match S.AddBranch tree proof hash hash with
      | .error err => .error err
      | .ok tree' => addBranches S tree' rest

def addProofs (S : ProofService) : S.SubTree → S.SubTree → List ((Bytes × Bytes) × Bytes × Bytes) →
    Except Bytes (S.SubTree × S.SubTree)
  | deepSMSTTx, deepSMSTTxRS, [] => .ok (deepSMSTTx, deepSMSTTxRS)
  | deepSMSTTx, deepSMSTTxRS, (tx, txRS) :: rest =>
    match addBranches S deepSMSTTx [tx] with
    | .error err => .error err
    | .ok deepSMSTTx' =>
      match addBranches S deepSMSTTxRS [txRS] with
      | .error err => .error err
      | .ok deepSMSTTxRS' => addProofs S deepSMSTTx' deepSMSTTxRS' rest

/-- `validateExeResultResp`; `none` stands for `true`. -/
def validateExeResultResp (origTxRoot origTxRSRoot : Bytes) (txHashs txResultHashs : List Bytes)
    (validateResp : ExeResultValidateRespMessage) :
    Option ValidateError :=
  match addProofs S (S.NewDeepSparseMerkleSubTree origTxRoot)
      (S.NewDeepSparseMerkleSubTree origTxRSRoot)
      ((validateResp.TxProofs.zip txHashs).zip (validateResp.TxResultProofs.zip txResultHashs)) with
  | .error err => some (.proof err)
  | .ok (deepSMSTTx, deepSMSTTxRS) =>
    if origTxRoot ≠ S.SubTreeRoot deepSMSTTx then some (.txProof validateResp.Executor)
    else if origTxRSRoot ≠ S.SubTreeRoot deepSMSTTxRS then
      some (.txResultProof validateResp.Executor)
    else none

/-- A goroutine of `Validate` on the entry it reads; `none` is no error. -/
def checkPropData : Option ValidateError :=
  match S.unmarshalPropData entry with
  | .error err => some (.unmarshal err)
  | .ok propData =>
    if propData.TxHashs.length ≠ propData.TxResultHashs.length then
      some (.counts propData.TxHashs.length propData.TxResultHashs.length)
    else
      match sample propData answer.randInt (validateTxCount propData) with
      | .error err => some err
      | .ok (txHashs, txResultHashs) =>
        match answer.resp with
        | .error err => some (.deliver err)
        | .ok validateResp =>
          if validateResp.TxProofs.length ≠ validateTxCount propData ∨
              validateResp.TxResultProofs.length ≠ validateTxCount propData then
            some (.proofCounts propData.TxHashs.length propData.TxResultHashs.length
              validateResp.TxProofs.length validateResp.TxResultProofs.length)
          else
            validateExeResultResp S (propData.TxRoot S) (propData.TxResultRoot S)
              txHashs txResultHashs validateResp

def ProofsVerify (root : Bytes) (proofs hashs : List Bytes) : Prop :=
  proofs.length = hashs.length ∧ ∃ tree,
    addBranches S (S.NewDeepSparseMerkleSubTree root) (proofs.zip hashs) = .ok tree ∧
      S.SubTreeRoot tree = root

/-- The entry is well formed, and the proofs verify against its two roots. -/
def EntryVerified : Prop :=
  ∃ propData txHashs txResultHashs validateResp,
    S.unmarshalPropData entry = .ok propData ∧
    propData.TxHashs.length = propData.TxResultHashs.length ∧
    sample propData answer.randInt (validateTxCount propData) = .ok (txHashs, txResultHashs) ∧
    answer.resp = .ok validateResp ∧
    ProofsVerify S (propData.TxRoot S) validateResp.TxProofs txHashs ∧
    ProofsVerify S (propData.TxResultRoot S) validateResp.TxResultProofs txResultHashs

section Check

variable {S : ProofService}

theorem length_sample {p : PropData} {randInt : Nat → Except Bytes Nat} {count : Nat}
    {txHashs txResultHashs : List Bytes}
    (h : sample p randInt count = .ok (txHashs, txResultHashs)) :
    txHashs.length = count ∧ txResultHashs.length = count := by
  induction count generalizing txHashs txResultHashs with
  | zero =>
    cases h
    exact ⟨rfl, rfl⟩
  | succ count ih =>
    simp only [sample] at h
    split at h
    · cases h
    rename_i hashs rsHashs hbefore
    split at h
    · cases h
    · cases h
      obtain ⟨hlength, hlength'⟩ := ih hbefore
      simp [hlength, hlength']

theorem addBranches_cons_eq_ok_iff {tree tree' : S.SubTree} {p : Bytes × Bytes}
    {rest : List (Bytes × Bytes)} :
    addBranches S tree (p :: rest) = .ok tree' ↔
      ∃ middle, addBranches S tree [p] = .ok middle ∧ addBranches S middle rest = .ok tree' := by
  simp only [addBranches]
  split
  · simp
  · split
    · simp
    · simp

theorem addProofs_eq_ok_iff {tree treeRS tree' treeRS' : S.SubTree}
    {txs txRSs : List (Bytes × Bytes)} (hlength : txs.length = txRSs.length) :
    addProofs S tree treeRS (txs.zip txRSs) = .ok (tree', treeRS') ↔
      addBranches S tree txs = .ok tree' ∧ addBranches S treeRS txRSs = .ok treeRS' := by
  induction txs generalizing tree treeRS txRSs with
  | nil =>
    cases List.eq_nil_of_length_eq_zero hlength.symm
    simp [addProofs, addBranches]
  | cons tx txs ih =>
    cases txRSs with
    | nil => simp at hlength
    | cons txRS txRSs =>
      have hlength' : txs.length = txRSs.length := by simpa using hlength
      rw [addBranches_cons_eq_ok_iff, addBranches_cons_eq_ok_iff (p := txRS)]
      simp only [List.zip_cons_cons, addProofs]
      cases htx : addBranches S tree [tx] with
      | error err => simp
      | ok middle =>
        cases htxRS : addBranches S treeRS [txRS] with
        | error err => simp
        | ok middleRS => simp [ih hlength']

theorem validateExeResultResp_eq_none_iff {txRoot txRSRoot : Bytes}
    {txHashs txResultHashs : List Bytes} {resp : ExeResultValidateRespMessage} {count : Nat}
    (hproofs : resp.TxProofs.length = count) (hproofsRS : resp.TxResultProofs.length = count)
    (hhashs : txHashs.length = count) (hhashsRS : txResultHashs.length = count) :
    validateExeResultResp S txRoot txRSRoot txHashs txResultHashs resp = none ↔
      ProofsVerify S txRoot resp.TxProofs txHashs ∧
        ProofsVerify S txRSRoot resp.TxResultProofs txResultHashs := by
  have hlength : (resp.TxProofs.zip txHashs).length =
      (resp.TxResultProofs.zip txResultHashs).length := by
    simp [hproofs, hproofsRS, hhashs, hhashsRS]
  unfold validateExeResultResp ProofsVerify
  constructor
  · intro hnone
    split at hnone
    · cases hnone
    rename_i tree treeRS hadd
    obtain ⟨htx, htxRS⟩ := (addProofs_eq_ok_iff hlength).mp hadd
    split_ifs at hnone with hroot hrootRS
    push Not at hroot hrootRS
    exact ⟨⟨hproofs.trans hhashs.symm, tree, htx, hroot.symm⟩,
      ⟨hproofsRS.trans hhashsRS.symm, treeRS, htxRS, hrootRS.symm⟩⟩
  · rintro ⟨⟨-, tree, htx, hroot⟩, ⟨-, treeRS, htxRS, hrootRS⟩⟩
    rw [(addProofs_eq_ok_iff hlength).mpr ⟨htx, htxRS⟩]
    simp [hroot, hrootRS]

theorem checkPropData_eq_none_iff {entry : Bytes} {answer : Answer} :
    checkPropData S entry answer = none ↔ EntryVerified S entry answer := by
  unfold checkPropData EntryVerified
  constructor
  · intro hnone
    split at hnone
    · cases hnone
    · rename_i propData hdecoded
      split_ifs at hnone with hcounts
      push Not at hcounts
      split at hnone
      · cases hnone
      · rename_i txHashs txResultHashs hsample
        split at hnone
        · cases hnone
        · rename_i validateResp hresp
          split_ifs at hnone with hproofs
          push Not at hproofs
          obtain ⟨hlength, hlengthRS⟩ := length_sample hsample
          obtain ⟨hverify, hverifyRS⟩ := (validateExeResultResp_eq_none_iff hproofs.1 hproofs.2
            hlength hlengthRS).mp hnone
          exact ⟨propData, txHashs, txResultHashs, validateResp, hdecoded, hcounts, hsample,
            hresp, hverify, hverifyRS⟩
  · rintro ⟨propData, txHashs, txResultHashs, validateResp, hdecoded, hcounts, hsample, hresp,
      hverify, hverifyRS⟩
    obtain ⟨hlength, hlengthRS⟩ := length_sample hsample
    have hproofs := hverify.1.trans hlength
    have hproofsRS := hverifyRS.1.trans hlengthRS
    simp only [hdecoded, hcounts, hsample, hresp, hproofs, hproofsRS, ne_eq, not_true_eq_false,
      or_self, if_false]
    exact (validateExeResultResp_eq_none_iff hproofs hproofsRS hlength hlengthRS).mpr
      ⟨hverify, hverifyRS⟩

end Check

def checkAt (S : ProofService) (propMsg : ProposeMessage) (i : Nat) (answer : Answer) :
    Option ValidateError :=
  checkPropData S (propMsg.PropDatas.getD i []) answer

abbrev ValidateCall := LoopVariable.State Answer ValidateError

abbrev ValidateEvent := LoopVariable.Event Answer

namespace ValidateCall

def start (propMsg : ProposeMessage) : ValidateCall :=
  LoopVariable.new propMsg.PropDatas.length

def step (S : ProofService) (propMsg : ProposeMessage) (s : ValidateCall) (e : ValidateEvent) :
    Option ValidateCall :=
  LoopVariable.step propMsg.PropDatas.length (checkAt S propMsg) s e

/-- True is returned only if each entry was read and verified. -/
def Sound (S : ProofService) (propMsg : ProposeMessage) (s : ValidateCall) : Prop :=
  s.result = some true →
    ∀ i entry, propMsg.PropDatas[i]? = some entry →
      ∃ goroutine ∈ s.stages, ∃ answer err,
        goroutine.check? = some (i, answer, err) ∧ EntryVerified S entry answer

section Soundness

variable {S : ProofService} {propMsg : ProposeMessage}

theorem checkAt_eq_none_iff {i : Nat} {entry : Bytes} {answer : Answer}
    (hentry : propMsg.PropDatas[i]? = some entry) :
    checkAt S propMsg i answer = none ↔ EntryVerified S entry answer := by
  rw [checkAt, List.getD_eq_getElem?_getD, hentry]
  exact checkPropData_eq_none_iff

theorem sound_iff_sound {s : ValidateCall} :
    Sound S propMsg s ↔ LoopVariable.Sound propMsg.PropDatas.length (checkAt S propMsg) s := by
  constructor
  · intro hsound htrue i hi
    have hentry := List.getElem?_eq_getElem hi
    obtain ⟨goroutine, hmem, answer, err, hread, hverified⟩ := hsound htrue i _ hentry
    exact ⟨goroutine, hmem, answer, err, hread, (checkAt_eq_none_iff hentry).mpr hverified⟩
  · intro hsound htrue i entry hentry
    obtain ⟨hi, -⟩ := List.getElem?_eq_some_iff.mp hentry
    obtain ⟨goroutine, hmem, answer, err, hread, hnone⟩ := hsound htrue i hi
    exact ⟨goroutine, hmem, answer, err, hread, (checkAt_eq_none_iff hentry).mp hnone⟩

end Soundness

/-- **On every schedule `Validate` returns true only if every entry verified, exactly when there is
at most one entry or none can be verified.** -/
theorem validate_iff (S : ProofService) (propMsg : ProposeMessage) :
    (∀ (events : List ValidateEvent) (s : ValidateCall),
      events.foldlM (step S propMsg) (start propMsg) = some s → Sound S propMsg s) ↔
    propMsg.PropDatas.length ≤ 1 ∨
      ∀ entry ∈ propMsg.PropDatas, ∀ answer, ¬ EntryVerified S entry answer := by
  have hpass : (∀ k, k < propMsg.PropDatas.length → ∀ answer, checkAt S propMsg k answer ≠ none) ↔
      ∀ entry ∈ propMsg.PropDatas, ∀ answer, ¬ EntryVerified S entry answer := by
    constructor
    · intro hnone entry hentry answer hverified
      obtain ⟨k, hk, rfl⟩ := List.getElem_of_mem hentry
      exact hnone k hk answer ((checkAt_eq_none_iff (List.getElem?_eq_getElem hk)).mpr hverified)
    · intro hnot k hk answer hnone
      exact hnot _ (List.getElem_mem hk) answer
        ((checkAt_eq_none_iff (List.getElem?_eq_getElem hk)).mp hnone)
  have hsound := LoopVariable.sound_iff propMsg.PropDatas.length (checkAt S propMsg)
  rw [hpass] at hsound
  rw [← hsound]
  constructor
  · intro hall events s hrun
    exact sound_iff_sound.mp (hall events s hrun)
  · intro hall events s hrun
    exact sound_iff_sound.mpr (hall events s hrun)

section TwoEntries

/-- Trees are the lists of their hashes, proofs are right; an empty entry cannot be decoded. -/
def plainProofService : ProofService where
  unmarshalPropData entry := if entry = [] then .error [] else .ok ⟨1, entry, [], []⟩
  Tree := List Bytes
  NewSparseMerkleTree := []
  Update tree key _ := tree ++ [key]
  Root tree := tree.flatten
  Proof := Unit
  unmarshalProof _ := .ok ()
  SubTree := Bytes
  NewDeepSparseMerkleSubTree root := root
  AddBranch tree _ _ _ := .ok tree
  SubTreeRoot tree := tree

def twoEntries : ProposeMessage where
  ChainID := []
  Version := 1
  Epoch := 0
  Round := 0
  StateVersion := 0
  MaxPri := []
  Proposer := []
  PropDatas := [[], [7]]
  BlockHead := []

def noProofs : Answer where
  randInt _ := .ok 0
  resp := .ok ⟨[], [], []⟩

def lateGoroutines : List ValidateEvent :=
  [.launch, .launch, .check 0 noProofs, .mark 0, .report 0, .check 1 noProofs, .mark 1, .report 1,
    .finish]

/-- True is returned although the first entry cannot be decoded: the second is checked twice. -/
theorem validate_one_entry_twice :
    (∃ s, lateGoroutines.foldlM (step plainProofService twoEntries) (start twoEntries) = some s ∧
        s.result = some true ∧ ¬ Sound plainProofService twoEntries s) ∧
      ∀ answer, ¬ EntryVerified plainProofService [] answer := by
  have hfirst : ∀ answer, ¬ EntryVerified plainProofService [] answer := by
    rintro answer ⟨propData, -, -, -, hdecoded, -⟩
    cases hdecoded
  refine ⟨⟨_, rfl, rfl, ?_⟩, hfirst⟩
  intro hsound
  obtain ⟨_, _, answer, _, _, hverified⟩ := hsound rfl 0 [] rfl
  exact hfirst answer hverified

end TwoEntries

end ValidateCall

end Topia.Consensus
