import Topia.Transaction.TxRoot
import Topia.Vm.NativeVM

/-!
# Executing a contract call

`Execute` of `transaction/universal/invoke.go` and `transaction/universal/deploy.go` call a virtual
machine and make a result of what it returns.

The status is `OK` whatever the machine returned; an error is left in the message only. The code of
the machine's result is read with no check for nil, which the native machine returns after a panic
of the method.
-/

namespace Topia.Transaction

open Lib Vm
open Crypt (NetworkType CreateNativeContractAddress)

section Results

inductive ResultStatus where
  | OK
  | Err
deriving DecidableEq, Repr

def ResultStatus.number : ResultStatus → Nat
  | .OK => 0
  | .Err => 1

structure TransactionResultUniversal where
  Version : Nat
  TxHash : Bytes
  GasUsed : Nat
  ErrString : Bytes
  Status : ResultStatus
  Data : Bytes
deriving DecidableEq, Repr

open ProtoWire

def TransactionResultUniversal.fields (rs : TransactionResultUniversal) : List Field :=
  [⟨1, .number rs.Version⟩, ⟨2, .bytes rs.TxHash⟩, ⟨3, .number rs.GasUsed⟩,
    ⟨4, .bytes rs.ErrString⟩, ⟨5, .number rs.Status.number⟩, ⟨6, .bytes rs.Data⟩]

def TransactionResultUniversal.Marshal (rs : TransactionResultUniversal) : Except Unit Bytes :=
  .ok (encode rs.fields)

def transactionResult (head : TransactionHead) (rs : TransactionResultUniversal) :
    Option TransactionResult :=
  match rs.Marshal with
  | .error _ => none
  | .ok rsBytes => some ⟨⟨head.Category, head.ChainID, head.Version⟩, rsBytes⟩

def uniHashBytes (compute : Bytes → Bytes) (head : TransactionHead)
    (uniHead : TransactionUniversalHead) (dataBytes : Bytes) : Bytes :=
  compute (encode [⟨1, .message (some (encode head.fields))⟩,
      ⟨2, .message (some (encode [⟨1, .bytes (marshalUniversal uniHead dataBytes)⟩]))⟩])

end Results

section Calls

structure TransactionUniversalInvoke where
  Head : TransactionHead
  UniHead : TransactionUniversalHead
  (ContractAddr Method Args : Bytes)
deriving DecidableEq, Repr

structure TransactionUniversalDeploy where
  Head : TransactionHead
  UniHead : TransactionUniversalHead
  (ContractAddress Code : Bytes)
deriving DecidableEq, Repr

structure VMFactory where
  (native tvm : VirtualMachine)

structure CallEnv where
  gasConfig : GasConfiguration
  CurrentNetworkType : NetworkType
  ctxFromAddr : Option Bytes
  marshalInvoke : Bytes → Bytes → Bytes → Bytes
  marshalDeploy : Bytes → Bytes → Bytes
  compute : Bytes → Bytes

def IsNativeContractAddress (CurrentNetworkType : NetworkType) (contractAddr : Bytes) : Bool :=
  contractAddr == CreateNativeContractAddress CurrentNetworkType 1

def CallEnv.vmServant (env : CallEnv) (s : AccountState) : VMServant :=
  NewVMServant s env.gasConfig.GasEachByte env.gasConfig.MaxGasEachBlock

/-- The result of both `Execute`; `none` is a panic, also at a nil result. -/
def callResult (version : Nat) (txHash : Bytes) (gasUsed : VMResult → Nat) :
    VMReturn → Option TransactionResultUniversal
  | .panicked => none
  | .returned none _ => none
  | .returned (some vmResult) err =>
    some
      { Version := version
        TxHash := txHash
        GasUsed := gasUsed vmResult
        ErrString :=
          if vmResult.Code ≠ .ok then vmResult.Code.text ++ ascii ": " ++ vmResult.ErrMsg
          else err.getD []
        Status := .OK
        Data := vmResult.Data }

namespace TransactionUniversalInvoke

variable (F : VMFactory) (env : CallEnv) (s : AccountState) (txiv : TransactionUniversalInvoke)

def DataBytes : Bytes :=
  env.marshalInvoke txiv.ContractAddr txiv.Method txiv.Args

def HashBytes : Bytes :=
  uniHashBytes env.compute txiv.Head txiv.UniHead (txiv.DataBytes env)

def vmContext : VMContext :=
  { VMServant := env.vmServant s, FromAddr := env.ctxFromAddr, ContractAddr := txiv.ContractAddr,
    Code := [], Method := txiv.Method, Args := txiv.Args }

def call : VMReturn × VMServant :=
  (if IsNativeContractAddress env.CurrentNetworkType txiv.ContractAddr then F.native
    else F.tvm).ExecuteContract (txiv.vmContext env s)

def uniResult : Option TransactionResultUniversal :=
  callResult txiv.Head.Version (txiv.HashBytes env)
    (fun vmResult => wrap64 (computeBasicGas env.gasConfig (txiv.DataBytes env).length +
      vmResult.GasUsed))
    (txiv.call F env s).1

def Execute : Option (Option TransactionResult) × AccountState :=
  ((txiv.uniResult F env s).map (transactionResult txiv.Head), (txiv.call F env s).2.accountState)

end TransactionUniversalInvoke

namespace TransactionUniversalDeploy

variable (F : VMFactory) (env : CallEnv) (s : AccountState) (txdp : TransactionUniversalDeploy)

def DataBytes : Bytes :=
  env.marshalDeploy txdp.ContractAddress txdp.Code

def HashBytes : Bytes :=
  uniHashBytes env.compute txdp.Head txdp.UniHead (txdp.DataBytes env)

/-- What the machine returns; the context lacks address and method. -/
def call : VMReturn × VMServant :=
  F.tvm.DeployContract
    { VMServant := env.vmServant s, FromAddr := env.ctxFromAddr, ContractAddr := [],
      Code := txdp.Code, Method := [], Args := [] }

/-- The result before it is marshaled; the machine's gas is not added. -/
def uniResult : Option TransactionResultUniversal :=
  callResult txdp.Head.Version (txdp.HashBytes env)
    (fun _ => computeBasicGas env.gasConfig (txdp.DataBytes env).length) (txdp.call F env s).1

def Execute : Option (Option TransactionResult) × AccountState :=
  ((txdp.uniResult F env s).map (transactionResult txdp.Head), (txdp.call F env s).2.accountState)

end TransactionUniversalDeploy

end Calls

section Status

variable {version : Nat} {txHash : Bytes} {gasUsed : VMResult → Nat} {ret : VMReturn}
  {rs : TransactionResultUniversal}

/-- The result is built, `OK` exactly when the machine succeeded, else with a message. -/
structure StatusRight (ret : VMReturn) (result : Option TransactionResultUniversal) : Prop where
  built : result.isSome
  status : ∀ rs, result = some rs → (rs.Status = .OK ↔ ret.Succeeded)
  message : ¬ ret.Succeeded → ∀ rs, result = some rs → rs.ErrString ≠ []

theorem Status_callResult (hresult : callResult version txHash gasUsed ret = some rs) :
    rs.Status = .OK := by
  cases ret with
  | panicked => cases hresult
  | returned vmResult err =>
    cases vmResult with
    | none => cases hresult
    | some vmResult =>
      obtain rfl := Option.some.inj hresult
      rfl

theorem statusRight_iff :
    StatusRight ret (callResult version txHash gasUsed ret) ↔ ret.Succeeded := by
  constructor
  · intro hright
    obtain ⟨rs, hrs⟩ := Option.isSome_iff_exists.mp hright.built
    exact (hright.status rs hrs).mp (Status_callResult hrs)
  intro hsucceeded
  refine ⟨?_, ?_, fun hfailed => absurd hsucceeded hfailed⟩
  · obtain ⟨vmResult, rfl, -⟩ := hsucceeded
    rfl
  · intro rs hrs
    exact iff_of_true (Status_callResult hrs) hsucceeded

theorem nativeInvoke_message {τ V : Type} (nvm : NativeVM τ V) (ctx : VMContext)
    (hresult : callResult version txHash gasUsed (nvm.ExecuteContract ctx).1 = some rs) :
    rs.ErrString ≠ [] ↔ ¬ (nvm.ExecuteContract ctx).1.Succeeded := by
  have hends := nvm.ExecuteContract_ends ctx
  generalize (nvm.ExecuteContract ctx).1 = ret at hends hresult
  cases hends with
  | failed code err hcode =>
    obtain rfl := Option.some.inj hresult
    have hmessage : (if code ≠ .ok then code.text ++ ascii ": " ++ err else err) ≠ [] := by
      rw [if_pos hcode.1]
      exact List.append_ne_nil_of_left_ne_nil (List.append_ne_nil_of_right_ne_nil _ (by decide)) _
    refine iff_of_true hmessage ?_
    rintro ⟨vmResult, hret, -⟩
    cases hret
  | done vmResult hcode =>
    obtain rfl := Option.some.inj hresult
    refine iff_of_false (not_not.mpr ?_) (not_not.mpr ⟨vmResult, rfl, hcode⟩)
    exact if_neg (not_not.mpr hcode)
  | recovered => cases hresult
  | panicked => cases hresult

/-- **When the status of a contract call is right**: exactly when the machine succeeded. -/
theorem callStatus_iff (F : VMFactory) (env : CallEnv) (s : AccountState)
    (txiv : TransactionUniversalInvoke) (txdp : TransactionUniversalDeploy) :
    (StatusRight (txiv.call F env s).1 (txiv.uniResult F env s) ↔ (txiv.call F env s).1.Succeeded) ∧
      (StatusRight (txdp.call F env s).1 (txdp.uniResult F env s) ↔
        (txdp.call F env s).1.Succeeded) :=
  ⟨statusRight_iff, statusRight_iff⟩

end Status

section Failure

def panickingVM : NativeVM Unit Unit where
  state := true
  contractMethods :=
    [(CreateNativeContractAddress .testnet 1,
      [(ascii "Panic", ⟨[⟨.string, ()⟩], 0, fun vs _ => (.panics, vs)⟩)])]
  json := emptyLists
  codec := oneByteCodec
  marshalRtnVals _ := .ok []
  accountErr _ := []
  argErr _ := []

def nativeOnly : VMFactory := ⟨panickingVM.virtualMachine, TopiaVM⟩

def rootCall : CallEnv where
  gasConfig := ⟨1, 1, 0, 1⟩
  CurrentNetworkType := .testnet
  ctxFromAddr := some (ascii "root")
  marshalInvoke _ _ _ := []
  marshalDeploy _ _ := []
  compute _ := []

def rootAccount : AccountState :=
  ⟨[⟨ascii "root", 0, [], some [1], fun _ => none⟩], by simp⟩

def callNative (method : Bytes) : TransactionUniversalInvoke where
  Head := ⟨[], [], 1, 0, 0, ascii "root", 1, []⟩
  UniHead := ⟨1, ascii "root", 1, 1, 4, [], 0⟩
  ContractAddr := CreateNativeContractAddress .testnet 1
  Method := method
  Args := ascii "text"

theorem message_of_no_method :
    let ret := (panickingVM.ExecuteContract
      ((callNative (ascii "Absent")).vmContext rootCall rootAccount)).1
    ∃ rs, callResult 1 [] (fun _ => 0) ret = some rs ∧ rs.ErrString ≠ [] := by
  intro ret
  obtain ⟨rs, hrs⟩ : ∃ rs, callResult 1 [] (fun _ => 0) ret = some rs := ⟨_, rfl⟩
  refine ⟨rs, hrs, (nativeInvoke_message panickingVM _ hrs).mpr ?_⟩
  rintro ⟨vmResult, hret, -⟩
  cases hret

/-- A missing method is reported as `OK`; one that panics makes `Execute` panic. -/
theorem failed_call_is_OK :
    ((callNative (ascii "Absent")).uniResult nativeOnly rootCall rootAccount).map
        (fun rs => (rs.Status, decide (rs.ErrString = []))) = some (.OK, false) ∧
      ¬ ((callNative (ascii "Absent")).call nativeOnly rootCall rootAccount).1.Succeeded ∧
      (callNative (ascii "Panic")).Execute nativeOnly rootCall rootAccount =
        (none, rootAccount) := by
  refine ⟨by decide +kernel, ?_, ?_⟩
  · rintro ⟨vmResult, hret, -⟩
    cases hret
  · rfl

end Failure

end Topia.Transaction
