import Topia.Transaction.GasPrice
import Topia.Transaction.Universal

/-!
# The gas estimate

`transaction/universal/gas_estimator.go` and the gas verifier of
`transaction/universal/verifier_universal.go`. The cases of a Go `switch` do not fall through, so a
transfer, whose case is empty, is estimated at zero; its execution wants the fee. Without a gas
price the estimator returns neither an amount nor an error. An invocation is executed for its
estimate.
-/

namespace Topia.Transaction

open Vm

inductive EstimateError where
  | unmarshal
  | addOverflow
  | failed (errString : Bytes)
deriving DecidableEq, Repr

namespace TransactionUniversalWithHead

variable {F : Type} [Preorder F]

section Estimator

variable (env : UniversalEnv) (gc : GasPriceComputer F) (txPoolSize : Nat) (s : AccountState)
  (txUni : TransactionUniversalWithHead)

def estimateResult (gasUsed txUniGasPrice : Nat) (txRS : TransactionResult) :
    Except EstimateError (Option Nat) :=
  match env.unmarshalRS txRS.Specification with
  | none => .error .unmarshal
  | some txUniRS =>
    if txUniRS.Status = .OK then
      match SafeAddUint64 gasUsed txUniRS.GasUsed with
      | .error _ => .error .addOverflow
      | .ok gasUsed => .ok (some (gasUsed * txUniGasPrice))
    else .error (.failed txUniRS.ErrString)

/-- `Estimate`. `none` is a panic; an amount of `none` is nil. -/
def Estimate : Option (Except EstimateError (Option Nat)) × AccountState :=
  let gasUsed := computeBasicGas env.call.gasConfig txUni.Specification.length
  match gc.ComputeGasPrice txPoolSize with
  | none => (none, s)
  | some (.error _) => (some (.ok none), s)
  | some (.ok (gasPriceC, _)) =>
    let txUniGasPrice :=
      if gasPriceC > txUni.Head.GasPrice then gasPriceC else txUni.Head.GasPrice
    if txUni.Head.Type_ = TransactionUniversalType_ContractDeploy then
      (some (.ok (some (gasUsed * txUniGasPrice))), s)
    else if txUni.Head.Type_ = TransactionUniversalType_ContractInvoke then
      match GetSpecificTransactionAction env txUni with
      | none => (none, s)
      | some action =>
        match action.Execute env s with
        | (some (some txRS), s') =>
          (some (estimateResult env gasUsed txUniGasPrice txRS), s')
        | (_, s') => (none, s')
    -- the empty cases of transfers and native invocations, and the other types
    else (some (.ok (some 0)), s)

/-- `TransactionUniversalGasVerifier`; `none` is a panic, also at nil. -/
def TransactionUniversalGasVerifier : Option VerifyResult :=
  if txUni.Head.GasPrice < env.call.gasConfig.MinGasPrice then some .reject
  else if txUni.Head.GasLimit < env.call.gasConfig.MinGasLimit then some .reject
  else
    match txUni.Estimate env gc txPoolSize s with
    | (none, _) => none
    | (some (.error _), _) => some .reject
    | (some (.ok estiGas), s') =>
      match s'.GetBalance txUni.Head.FeePayer TokenSymbol_Native with
      | none => some .reject
      | some balVal =>
        match estiGas with
        | none => none
        | some estiGas => acceptIf (estiGas ≤ balVal)

end Estimator

end TransactionUniversalWithHead

section Fee

variable {env : UniversalEnv} {s : AccountState}

def TransactionAction.charge (env : UniversalEnv) : TransactionAction → Int
  | .transfer txfer => txfer.gasVal env.transferEnv
  | _ => 0

def OutOfGas (ret : VMReturn) : Prop :=
  ∃ vmResult err, ret = .returned (some vmResult) err ∧ vmResult.Code = .insufficientGas

/-- The action fails for its fee or its gas; the limit is not read. -/
def TransactionAction.FailsForGas (env : UniversalEnv) (s : AccountState) :
    TransactionAction → Prop
  | .transfer txfer => ∃ feePayer remaining required,
      (txfer.Execute env.transferEnv s).1 = .err (.insufficientGasFee feePayer remaining required)
  | .deploy txdp => OutOfGas (txdp.call env.F env.call s).1
  | .invoke txiv => OutOfGas (txiv.call env.F env.call s).1

theorem not_failsForGas_transfer {txfer : TransactionUniversalTransfer} {balVal : Int}
    (hbalance : s.GetBalance txfer.UniHead.FeePayer TokenSymbol_Native = some balVal)
    (hcovers : txfer.gasVal env.transferEnv ≤ balVal) :
    ¬ (TransactionAction.transfer txfer).FailsForGas env s := by
  rintro ⟨feePayer, remaining, required, hfee⟩
  obtain ⟨feePayerAcc, hpayer, hnative⟩ := Option.bind_eq_some_iff.mp hbalance
  simp only [TransactionUniversalTransfer.Execute,
    TransactionUniversalTransfer.currencyTransfer, hpayer, hnative,
    if_neg (not_lt.mpr hcovers)] at hfee
  split at hfee
  · cases hfee
  split at hfee
  · cases hfee
  split at hfee
  · rename_i outcome hfind
    obtain ⟨item, _, hcheck⟩ := List.exists_of_findSome?_eq_some hfind
    exact (TransactionUniversalTransfer.checkItem_fails hcheck).2 _ _ _ hfee
  · cases hfee

section Machines

variable {τ V : Type}

/-- The environment with the two machines of the source. -/
def UniversalEnv.withMachines (env : UniversalEnv) (nvm : NativeVM τ V) : UniversalEnv :=
  { env with F := ⟨nvm.virtualMachine, TopiaVM⟩ }

variable (nvm : NativeVM τ V)

theorem not_outOfGas_native (ctx : VMContext) : ¬ OutOfGas (nvm.ExecuteContract ctx).1 := by
  rintro ⟨vmResult, err, hret, hcode⟩
  have hends := nvm.ExecuteContract_ends ctx
  rw [hret] at hends
  cases hends with
  | failed code err hne => exact hne.2 hcode
  | done _ hok => exact absurd (hok.symm.trans hcode) (by decide)

/-- The other machine panics, and so does a deployment. -/
theorem not_failsForGas_call {action : TransactionAction}
    (hcall : ∀ txfer, action ≠ .transfer txfer) :
    ¬ action.FailsForGas (env.withMachines nvm) s := by
  cases action with
  | transfer txfer => exact absurd rfl (hcall txfer)
  | deploy txdp =>
    rintro ⟨_, _, hret, _⟩
    cases hret
  | invoke txiv =>
    show ¬ OutOfGas (txiv.call (env.withMachines nvm).F env.call s).1
    unfold TransactionUniversalInvoke.call
    split_ifs
    · exact not_outOfGas_native nvm _
    · rintro ⟨_, _, hret, _⟩
      cases hret

theorem invoke_returns_iff (txiv : TransactionUniversalInvoke) :
    (∃ txRS, (txiv.Execute (env.withMachines nvm).F env.call s).1 = some (some txRS)) ↔
      IsNativeContractAddress env.call.CurrentNetworkType txiv.ContractAddr = true ∧
        ¬ nvm.Crashes (txiv.vmContext env.call s) := by
  rw [← nvm.returned_iff_not_crashes]
  unfold TransactionUniversalInvoke.Execute TransactionUniversalInvoke.uniResult
    TransactionUniversalInvoke.call
  split_ifs with hnative
  · show (∃ txRS, (callResult _ _ _ (nvm.ExecuteContract _).1).map _ = _) ↔ _
    match (nvm.ExecuteContract (txiv.vmContext env.call s)).1 with
    | .panicked => simp [callResult]
    | .returned none _ => simp [callResult]
    | .returned (some vmResult) err => simp [callResult, transactionResult, hnative,
        TransactionResultUniversal.Marshal]
  · simp [UniversalEnv.withMachines, TopiaVM, callResult, hnative]

end Machines

end Fee

namespace TransactionUniversalWithHead

section Covered

variable {F : Type} [Preorder F] {env : UniversalEnv} {gc : GasPriceComputer F}
  {txPoolSize : Nat} {s : AccountState} {txUni : TransactionUniversalWithHead}

/-- The estimate is an amount or an error and covers the fee; what is accepted does not fail for
gas. -/
structure GasCovered (env : UniversalEnv) (gc : GasPriceComputer F) (txPoolSize : Nat)
    (s : AccountState) (txUni : TransactionUniversalWithHead) : Prop where
  returns : ∃ estimate, (txUni.Estimate env gc txPoolSize s).1 = some estimate ∧ estimate ≠ .ok none
  covers : ∀ amount : Nat, (txUni.Estimate env gc txPoolSize s).1 = some (.ok (some amount)) →
    ∀ action, GetSpecificTransactionAction env txUni = some action → action.charge env ≤ amount
  accepted : txUni.TransactionUniversalGasVerifier env gc txPoolSize s = some .accept →
    ∀ action, GetSpecificTransactionAction env txUni = some action → ¬ action.FailsForGas env s

theorem transfer_of_action {txfer : TransactionUniversalTransfer}
    (haction : GetSpecificTransactionAction env txUni = some (.transfer txfer)) :
    txUni.Head.Type_ = TransactionUniversalType_Transfer ∧ txfer.UniHead = txUni.Head := by
  unfold GetSpecificTransactionAction at haction
  split_ifs at haction with htransfer hdeploy hinvoke
  · obtain ⟨⟨targetAddr, targets⟩, _, heq⟩ := Option.map_eq_some_iff.mp haction
    cases heq
    exact ⟨htransfer, rfl⟩
  · obtain ⟨_, _, heq⟩ := Option.map_eq_some_iff.mp haction
    cases heq
  · obtain ⟨_, _, heq⟩ := Option.map_eq_some_iff.mp haction
    cases heq

theorem Estimate_transfer (env : UniversalEnv) (s : AccountState) {price : Nat × Nat}
    (hprice : gc.ComputeGasPrice txPoolSize = some (.ok price))
    (htype : txUni.Head.Type_ = TransactionUniversalType_Transfer) :
    txUni.Estimate env gc txPoolSize s = (some (.ok (some 0)), s) := by
  simp [Estimate, hprice, htype, TransactionUniversalType_Transfer,
    TransactionUniversalType_ContractDeploy, TransactionUniversalType_ContractInvoke]

theorem estimateResult_ne_nil {gasUsed txUniGasPrice : Nat} {txRS : TransactionResult} :
    estimateResult env gasUsed txUniGasPrice txRS ≠ .ok none := by
  unfold estimateResult
  split
  · simp
  · split_ifs
    · split <;> simp
    · simp

theorem returns_iff :
    (∃ estimate, (txUni.Estimate env gc txPoolSize s).1 = some estimate ∧ estimate ≠ .ok none) ↔
      (∃ price, gc.ComputeGasPrice txPoolSize = some (.ok price)) ∧
        (txUni.Head.Type_ = TransactionUniversalType_ContractInvoke →
          ∃ action txRS, GetSpecificTransactionAction env txUni = some action ∧
            (action.Execute env s).1 = some (some txRS)) := by
  unfold Estimate
  cases hprice : gc.ComputeGasPrice txPoolSize with
  | none => simp
  | some price =>
    cases price with
    | error _ => simp
    | ok price =>
      by_cases hinvoke : txUni.Head.Type_ = TransactionUniversalType_ContractInvoke
      · have hdeploy : txUni.Head.Type_ ≠ TransactionUniversalType_ContractDeploy := by
          rw [hinvoke]
          decide
        simp only [if_neg hdeploy, if_pos hinvoke]
        cases haction : GetSpecificTransactionAction env txUni with
        | none => simp [hinvoke]
        | some action =>
          rcases hexecute : action.Execute env s with ⟨result, s'⟩
          match result with
          | none => simp [hinvoke, hexecute]
          | some none => simp [hinvoke, hexecute]
          | some (some txRS) => simp [hexecute, estimateResult_ne_nil]
      · split_ifs <;> simp [hinvoke]

theorem accepted_cases
    (haccept : txUni.TransactionUniversalGasVerifier env gc txPoolSize s = some .accept) :
    ∃ (amount : Nat) (s' : AccountState) (balVal : Int),
      txUni.Estimate env gc txPoolSize s = (some (.ok (some amount)), s') ∧
      s'.GetBalance txUni.Head.FeePayer TokenSymbol_Native = some balVal ∧ amount ≤ balVal := by
  unfold TransactionUniversalGasVerifier at haccept
  split_ifs at haccept
  · cases haccept
  · cases haccept
  rcases hestimate : txUni.Estimate env gc txPoolSize s with ⟨estimate, s'⟩
  match estimate with
  | none => simp [hestimate] at haccept
  | some (.error _) => simp [hestimate] at haccept
  | some (.ok estiGas) =>
    simp only [hestimate] at haccept
    cases hbalance : s'.GetBalance txUni.Head.FeePayer TokenSymbol_Native with
    | none => simp [hbalance] at haccept
    | some balVal =>
      cases estiGas with
      | none => simp [hbalance] at haccept
      | some amount =>
          refine ⟨amount, s', balVal, rfl, hbalance, ?_⟩
          simpa [hbalance, acceptIf] using haccept

theorem invoke_of_action {action : TransactionAction}
    (htype : txUni.Head.Type_ = TransactionUniversalType_ContractInvoke)
    (haction : GetSpecificTransactionAction env txUni = some action) :
    ∃ txiv, action = .invoke txiv := by
  rw [GetSpecificTransactionAction, htype] at haction
  obtain ⟨_, _, heq⟩ := Option.map_eq_some_iff.mp haction
  exact ⟨_, heq.symm⟩

end Covered

section Failure

def emptyTransfer : TransactionUniversalWithHead where
  TransactionHead := ⟨[], [], 1, 0, 0, [1], 1, []⟩
  Head := ⟨1, [1], 1, 1, TransactionUniversalType_Transfer, [], 0⟩
  Specification := []

def nothingLeft : AccountState :=
  ⟨[⟨[1], 0, [], none, fun symbol => if symbol = TokenSymbol_Native then some 0 else none⟩],
    by simp⟩

def noLatestBlock : GasPriceComputer Nat :=
  { GasPriceComputer.smallBlocks with latestBlock := none }

end Failure

end TransactionUniversalWithHead

end Topia.Transaction
