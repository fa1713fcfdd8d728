import Topia.Vm.GrantTarget
import Topia.Vm.ParseArgs

/-!
# The virtual machines

`vm/native/native.go`, `vm/tvm/tvm.go` and `vm/type/types.go`. The native machine looks a method of
a contract up, reads its arguments and calls it. A panic of the method is recovered: `doExecute`
then returns no result and no error. A panic before the call is not recovered. All methods of the
other machine panic.
-/

namespace Topia.Vm

section Types

inductive ReturnCode where
  | ok
  | notEnable
  | invalidVMCtx
  | contractNotFound
  | methodNotFound
  | invalidParam
  | invalidReturn
  | methodSignatureErr
  | executeErr
  | insufficientGas
  | callStackOverFlow
  | storageErr
  | loadErr
  | invalidAccount
  | permissionErr
  | unknownErr
deriving DecidableEq, Repr

def ReturnCode.text : ReturnCode → Bytes
  | .ok => ascii "Ok"
  | .notEnable => ascii "VM Disable"
  | .invalidVMCtx => ascii "Invalid vm context"
  | .contractNotFound => ascii "Contract not found"
  | .methodNotFound => ascii "Method not found"
  | .invalidParam => ascii "Invalid input params"
  | .invalidReturn => ascii "Invalid return values"
  | .methodSignatureErr => ascii "Method signature error"
  | .executeErr => ascii "VM execute error"
  | .insufficientGas => ascii "Insufficient Gas"
  | .callStackOverFlow => ascii "Call stack overflow"
  | .storageErr => ascii "Data storage error"
  | .loadErr => ascii "Data load error"
  | .invalidAccount => ascii "Invalid account info"
  | .permissionErr => ascii "Permission error"
  | .unknownErr => ascii "Unknown error"

structure VMResult where
  Code : ReturnCode
  ErrMsg : Bytes
  GasUsed : Nat
  Data : Bytes
deriving DecidableEq, Repr

structure VMContext where
  VMServant : VMServant
  FromAddr : Option Bytes
  (ContractAddr Code Method Args : Bytes)

inductive VMReturn where
  | returned (vmResult : Option VMResult) (err : Option Bytes)
  | panicked
deriving DecidableEq, Repr

def VMReturn.fail (code : ReturnCode) (err : Bytes) : VMReturn :=
  .returned (some ⟨code, err, 0, []⟩) (some err)

def VMReturn.Succeeded (ret : VMReturn) : Prop :=
  ∃ vmResult, ret = .returned (some vmResult) none ∧ vmResult.Code = .ok

structure VirtualMachine where
  (DeployContract ExecuteContract : VMContext → VMReturn × VMServant)

def TopiaVM : VirtualMachine where
  DeployContract ctx := (.panicked, ctx.VMServant)
  ExecuteContract ctx := (.panicked, ctx.VMServant)

end Types

section Native

variable {τ V : Type}

/-- The values before the error, as type and JSON text, and the error; or a panic. -/
inductive MethodReturn where
  | values (outs : List (Bytes × Bytes)) (err : Option Bytes)
  | panics
deriving DecidableEq, Repr

structure NativeContractMethod (τ V : Type) where
  paramTypes : List (ParamType τ)
  resultErrorOutIndex : Nat
  call : VMServant → List (ArgValue V) → MethodReturn × VMServant

structure NativeVM (τ V : Type) where
  state : Bool
  contractMethods : List (Bytes × List (Bytes × NativeContractMethod τ V))
  json : JsonTypes τ V
  codec : TextCodec
  marshalRtnVals : List (Bytes × Bytes) → Except Bytes Bytes
  accountErr : Bytes → Bytes
  argErr : ArgError → Bytes

namespace NativeVM

variable (nvm : NativeVM τ V) (vmServant : VMServant) (contractAddr methodName : Bytes)

def contractMethod (method : Bytes) : Bytes :=
  ascii "contract " ++ contractAddr ++ ascii " method " ++ method

variable (ncMethod : NativeContractMethod τ V) (resultErrorOutIndex : Nat)
  (outs : List (Bytes × Bytes)) (err : Option Bytes)

def rtnValMap : List (Bytes × Bytes) :=
  outs.mapIdx fun i out => (out.1 ++ ascii "_" ++ formatUint (i + 1), out.2)

def readReturn : VMReturn :=
  if outs.length + 1 ≠ resultErrorOutIndex + 1 then
    .fail .invalidReturn
      (ascii "Invalid return result for " ++ contractMethod contractAddr methodName ++
        ascii ": expect len " ++ formatUint (resultErrorOutIndex + 1) ++ ascii ", actual " ++
        formatUint (outs.length + 1))
  else
    match err with
    | some err => .fail .executeErr err
    | none =>
      if resultErrorOutIndex = 0 then .returned (some ⟨.ok, [], 0, []⟩) none
      else
        match nvm.marshalRtnVals (rtnValMap outs) with
        | .error err => .fail .invalidReturn err
        | .ok rtnBytes => .returned (some ⟨.ok, [], 0, rtnBytes⟩) none

def doExecute (paramIns : List (ArgValue V)) : VMReturn × VMServant :=
  match ncMethod.call vmServant paramIns with
  | (.panics, vmServant') => (.returned none none, vmServant')
  | (.values outs err, vmServant') =>
    (nvm.readReturn contractAddr methodName ncMethod.resultErrorOutIndex outs err, vmServant')

def permOK (fromAcc : Account) (contractAddr method : Bytes) : Option Bool :=
  match fromAcc.Token with
  | none => some false
  | some text =>
    (HasMethodPerm (nvm.codec.unmarshalJSON text).Permission contractAddr method).map Prod.fst

def ExecuteContract (ctx : VMContext) : VMReturn × VMServant :=
  if ¬ nvm.state then (.fail .notEnable (ascii "Native vm not enable "), ctx.VMServant)
  else if ctx.ContractAddr = [] ∨ ctx.Method = [] then
    (.fail .invalidVMCtx
      (ascii "Invalid vm ctx: " ++ contractMethod ctx.ContractAddr ctx.Method), ctx.VMServant)
  else
    match ctx.FromAddr with
    -- a key that the context does not have: the text of the error reads the type of nil
    | none => (.panicked, ctx.VMServant)
    | some fromAddr =>
    match ctx.VMServant.accountState.GetAccount fromAddr with
    | none =>
      (.fail .invalidVMCtx
        (ascii "Invalid vm ctx: " ++ contractMethod ctx.ContractAddr ctx.Method ++
          ascii ", err " ++ nvm.accountErr fromAddr), ctx.VMServant)
    | some fromAcc =>
    match nvm.permOK fromAcc ctx.ContractAddr ctx.Method with
    | none => (.panicked, ctx.VMServant)
    | some false =>
      (.fail .permissionErr
        (contractMethod ctx.ContractAddr ctx.Method ++ ascii " inaccessible by addr " ++
          fromAcc.Addr), ctx.VMServant)
    | some true =>
    match nvm.contractMethods.lookup ctx.ContractAddr with
    | none =>
      (.fail .contractNotFound (ascii "Can't find contract " ++ ctx.ContractAddr), ctx.VMServant)
    | some contractMap =>
    match contractMap.lookup ctx.Method with
    | none =>
      (.fail .methodNotFound
        (ascii "Can't find " ++ contractMethod ctx.ContractAddr ctx.Method), ctx.VMServant)
    | some ncMethod =>
    match ParseArgs nvm.json ctx.Args ncMethod.paramTypes with
    | none => (.panicked, ctx.VMServant)
    | some (.error err) =>
      (.fail .methodSignatureErr
        (ascii "Invalid parameters for " ++ contractMethod ctx.ContractAddr ctx.Method ++
          ascii ": " ++ nvm.argErr err), ctx.VMServant)
    | some (.ok paramValues) =>
      if paramValues.length ≠ ncMethod.paramTypes.length then
        (.fail .invalidParam
          (ascii "Invalid parameters for " ++ contractMethod ctx.ContractAddr ctx.Method ++
            ascii ": expect len " ++ formatUint ncMethod.paramTypes.length ++
            ascii ", actual " ++ formatUint paramValues.length), ctx.VMServant)
      else nvm.doExecute ctx.VMServant ctx.ContractAddr ctx.Method ncMethod paramValues

def virtualMachine : VirtualMachine where
  DeployContract ctx := (.panicked, ctx.VMServant)
  ExecuteContract := nvm.ExecuteContract

inductive Ends : VMReturn → Prop
  | failed (code : ReturnCode) (err : Bytes) (hcode : code ≠ .ok ∧ code ≠ .insufficientGas) :
      Ends (.fail code err)
  | done (vmResult : VMResult) (hcode : vmResult.Code = .ok) : Ends (.returned (some vmResult) none)
  | recovered : Ends (.returned none none)
  | panicked : Ends .panicked

variable {nvm : NativeVM τ V}

theorem readReturn_ends :
    Ends (nvm.readReturn contractAddr methodName resultErrorOutIndex outs err) := by
  unfold readReturn
  split_ifs with hlength hnone
  · exact .failed _ _ (by decide)
  · cases err with
    | some err => exact .failed _ _ (by decide)
    | none => exact .done _ rfl
  cases err with
  | some err => exact .failed _ _ (by decide)
  | none =>
    dsimp only
    split
    · exact .failed _ _ (by decide)
    · exact .done _ rfl

theorem doExecute_ends (paramIns : List (ArgValue V)) :
    Ends (nvm.doExecute vmServant contractAddr methodName ncMethod paramIns).1 := by
  unfold doExecute
  split
  · exact .recovered
  · exact readReturn_ends _ _ _ _ _

theorem ExecuteContract_ends (nvm : NativeVM τ V) (ctx : VMContext) :
    Ends (nvm.ExecuteContract ctx).1 := by
  unfold ExecuteContract
  split
  · exact .failed _ _ (by decide)
  split
  · exact .failed _ _ (by decide)
  split
  · exact .panicked
  split
  · exact .failed _ _ (by decide)
  split
  · exact .panicked
  · exact .failed _ _ (by decide)
  split
  · exact .failed _ _ (by decide)
  split
  · exact .failed _ _ (by decide)
  split
  · exact .panicked
  · exact .failed _ _ (by decide)
  split
  · exact .failed _ _ (by decide)
  · exact doExecute_ends _ _ _ _ _

/-- The call gives no result: the sender is not in the context, the check of the permission or the
reading of the arguments panics, or the method does. -/
def Crashes (nvm : NativeVM τ V) (ctx : VMContext) : Prop :=
  nvm.state = true ∧ ctx.ContractAddr ≠ [] ∧ ctx.Method ≠ [] ∧
    ∀ fromAddr, ctx.FromAddr = some fromAddr →
      ∃ fromAcc, ctx.VMServant.accountState.GetAccount fromAddr = some fromAcc ∧
        (nvm.permOK fromAcc ctx.ContractAddr ctx.Method = none ∨
          nvm.permOK fromAcc ctx.ContractAddr ctx.Method = some true ∧
          ∃ contractMap ncMethod, nvm.contractMethods.lookup ctx.ContractAddr = some contractMap ∧
            contractMap.lookup ctx.Method = some ncMethod ∧
            ∀ args, ParseArgs nvm.json ctx.Args ncMethod.paramTypes = some args →
              ∃ paramValues, args = .ok paramValues ∧
                paramValues.length = ncMethod.paramTypes.length ∧
                (ncMethod.call ctx.VMServant paramValues).1 = .panics)

theorem readReturn_returned : ∃ vmResult err',
      nvm.readReturn contractAddr methodName resultErrorOutIndex outs err =
        .returned (some vmResult) err' := by
  unfold readReturn VMReturn.fail
  split_ifs <;> cases err <;> simp
  split <;> simp

theorem returned_iff_not_crashes (nvm : NativeVM τ V) (ctx : VMContext) :
    (∃ vmResult err, (nvm.ExecuteContract ctx).1 = .returned (some vmResult) err) ↔
      ¬ nvm.Crashes ctx := by
  unfold ExecuteContract Crashes VMReturn.fail
  by_cases hstate : nvm.state = true
  case neg => simp [hstate]
  by_cases hctx : ctx.ContractAddr = [] ∨ ctx.Method = []
  · rcases hctx with hctx | hctx <;> simp [hstate, hctx]
  obtain ⟨haddr, hmethod⟩ := not_or.mp hctx
  cases hfrom : ctx.FromAddr with
  | none => simp [hstate, haddr, hmethod]
  | some fromAddr =>
  cases hacc : ctx.VMServant.accountState.GetAccount fromAddr with
  | none => simp [hstate, haddr, hmethod, hacc]
  | some fromAcc =>
  match hperm : nvm.permOK fromAcc ctx.ContractAddr ctx.Method with
  | none | some false => simp [hstate, haddr, hmethod, hacc, hperm]
  | some true =>
  cases nvm.contractMethods.lookup ctx.ContractAddr with
  | none => simp [hstate, haddr, hmethod, hacc, hperm]
  | some contractMap =>
  cases hlookup : contractMap.lookup ctx.Method with
  | none => simp [hstate, haddr, hmethod, hacc, hperm, hlookup]
  | some ncMethod =>
  match hargs : ParseArgs nvm.json ctx.Args ncMethod.paramTypes with
  | none => simp [hstate, haddr, hmethod, hacc, hperm, hlookup, hargs]
  | some (.error err) => simp [hstate, haddr, hmethod, hacc, hperm, hlookup, hargs]
  | some (.ok paramValues) =>
    by_cases hlength : paramValues.length = ncMethod.paramTypes.length
    case neg => simp [hstate, haddr, hmethod, hacc, hperm, hlookup, hargs, hlength]
    rcases hcall : ncMethod.call ctx.VMServant paramValues with ⟨ret, vmServant'⟩
    cases ret with
    | panics =>
      simp [hstate, haddr, hmethod, hacc, hperm, hlookup, hargs, hlength, doExecute, hcall]
    | values outs err =>
      simp [hstate, haddr, hmethod, hacc, hperm, hlookup, hargs, hlength, doExecute, hcall,
        readReturn_returned]

end NativeVM

end Native

end Topia.Vm
