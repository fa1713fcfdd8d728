import Topia.Transaction.ContractCall

/-!
# The actions of universal transactions

`CreatTransactionAction` of `transaction/factory.go` reads a universal transaction, and
`GetSpecificTransactionAction` of `transaction/universal/universal.go` makes a transfer, a
deployment or an invocation of it. Both panic on what they cannot read, and on the types without an
action. `Execute` of an action returns nil only when its result cannot be marshaled.
-/

namespace Topia.Transaction

open Vm

def TransactionUniversalType_Transfer : Nat := 1
def TransactionUniversalType_ContractDeploy : Nat := 2
def TransactionUniversalType_ContractInvoke : Nat := 3

structure TransactionUniversalWithHead where
  TransactionHead : TransactionHead
  Head : TransactionUniversalHead
  Specification : Bytes
deriving DecidableEq, Repr

inductive TransactionAction where
  | transfer (txfer : TransactionUniversalTransfer)
  | deploy (txdp : TransactionUniversalDeploy)
  | invoke (txiv : TransactionUniversalInvoke)
deriving DecidableEq, Repr

/-- The machines, JSON, the texts of transfer errors and protocol buffers. -/
structure UniversalEnv where
  F : VMFactory
  call : CallEnv
  marshalTransfer : Bytes → List TargetItem → Bytes
  errText : TransferError → Bytes
  unmarshalTransfer : Bytes → Option (Bytes × List TargetItem)
  unmarshalDeploy : Bytes → Option (Bytes × Bytes)
  unmarshalInvoke : Bytes → Option (Bytes × Bytes × Bytes)
  unmarshalUniversal : Bytes → Option (Option TransactionUniversalHead × Option Bytes)
  unmarshalRS : Bytes → Option TransactionResultUniversal

variable (env : UniversalEnv)

def UniversalEnv.transferEnv : TransferEnv :=
  ⟨env.call.gasConfig, env.marshalTransfer⟩

def GetSpecificTransactionAction (txUni : TransactionUniversalWithHead) :
    Option TransactionAction :=
  if txUni.Head.Type_ = TransactionUniversalType_Transfer then
    (env.unmarshalTransfer txUni.Specification).map fun (targetAddr, targets) =>
      .transfer ⟨txUni.TransactionHead, txUni.Head, targetAddr, targets⟩
  else if txUni.Head.Type_ = TransactionUniversalType_ContractDeploy then
    (env.unmarshalDeploy txUni.Specification).map fun (contractAddress, code) =>
      .deploy ⟨txUni.TransactionHead, txUni.Head, contractAddress, code⟩
  else if txUni.Head.Type_ = TransactionUniversalType_ContractInvoke then
    (env.unmarshalInvoke txUni.Specification).map fun (contractAddr, method, args) =>
      .invoke ⟨txUni.TransactionHead, txUni.Head, contractAddr, method, args⟩
  else none

/-- `CreatTransactionAction`; `none` is a panic, also at nil. -/
def CreatTransactionAction (tx : Transaction) : Option TransactionAction :=
  if tx.Head.Category = TransactionCategory_Topia_Universal then
    match env.unmarshalUniversal tx.Specification with
    | some (some head, some specification) =>
      GetSpecificTransactionAction env ⟨tx.Head, head, specification⟩
    | _ => none
  else none

def TransactionUniversalTransfer.uniResult (s : AccountState)
    (txfer : TransactionUniversalTransfer) : Option TransactionResultUniversal :=
  let result (errMsg : Bytes) (status : ResultStatus) : TransactionResultUniversal :=
    { Version := txfer.Head.Version
      TxHash := uniHashBytes env.call.compute txfer.Head txfer.UniHead
        (txfer.DataBytes env.transferEnv)
      GasUsed := txfer.gasUsed env.transferEnv
      ErrString := errMsg
      Status := status
      Data := [] }
  match (txfer.Execute env.transferEnv s).1 with
  | .ok _ _ _ => some (result [] .OK)
  | .err err => some (result (env.errText err) .Err)
  | .panic => none

namespace TransactionAction

def Execute (env : UniversalEnv) (s : AccountState) :
    TransactionAction → Option (Option TransactionResult) × AccountState
  | .transfer txfer =>
    ((txfer.uniResult env s).map (transactionResult txfer.Head),
      (txfer.Execute env.transferEnv s).2)
  | .deploy txdp => txdp.Execute env.F env.call s
  | .invoke txiv => txiv.Execute env.F env.call s

theorem Execute_ne_nil (env : UniversalEnv) (s : AccountState) (action : TransactionAction) :
    (action.Execute env s).1 ≠ some none := by
  intro hnil
  cases action <;>
    · obtain ⟨rs, _, hresult⟩ := Option.map_eq_some_iff.mp hnil
      cases hresult

end TransactionAction

def transferOnly : UniversalEnv where
  F := nativeOnly
  call := rootCall
  marshalTransfer _ _ := []
  errText _ := []
  unmarshalTransfer _ := some ([1], [])
  unmarshalDeploy _ := none
  unmarshalInvoke _ := none
  unmarshalUniversal _ := none
  unmarshalRS _ := none

end Topia.Transaction
