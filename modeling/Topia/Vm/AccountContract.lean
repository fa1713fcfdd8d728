import Topia.Lib.Run
import Topia.Lib.WeightedDraw
import Topia.Account
import Topia.Crypt.Address

/-!
# The account contract and its gas

The methods of the native contract `vm/native/contract/account.go` bind names and grant and revoke
access. Each has an amount of gas accepted by `GasUsedAccumulate` of `vm/service/servant.go` before
it changes the account state. `GasUsedAccumulate` compares the sum of `gasUsed` and the amount with
the limit, but does not store the sum. A token is stored as its JSON text.
-/

namespace Topia.Vm

open Lib
open Crypt (HexString)

section Permission

/-- `PermissionRoot` and `PermissionContractMethod`; a map is its entries. -/
inductive Permission where
  | root
  | contractMethod (GasLimit : Nat) (MethodsMap : List (Bytes × List Bytes))
deriving DecidableEq, Repr

structure AccountToken where
  Nonce : Nat
  Permission : Permission
deriving DecidableEq, Repr

variable (perm : Permission) (contractAddr : Bytes)

def NewAccountToken : AccountToken where
  Nonce := 0
  Permission := perm

structure TokenCodec where
  marshalJSON : AccountToken → Bytes
  unmarshalJSON : Bytes → AccountToken

def sortStrings (strs : List Bytes) : List Bytes :=
  sortBy compare strs

/-- `AddMethod`; `none` is a panic. The methods are sorted in place; the new list is dropped. -/
def AddMethod (method : Bytes) : Option Permission :=
  match perm with
  | .root => some .root
  | .contractMethod gasLimit methodsMap =>
    if method = [] then some (.contractMethod gasLimit methodsMap)
    else
      (HexString contractAddr).map fun addrStr =>
        .contractMethod gasLimit
          (methodsMap.map fun entry =>
            if entry.1 = addrStr then (entry.1, sortStrings entry.2) else entry)

/-- `RemoveMethod`; `none` is a panic. The new list is dropped. -/
def RemoveMethod : Option Permission :=
  match perm with
  | .root => some .root
  | .contractMethod gasLimit methodsMap =>
    (HexString contractAddr).map fun _ => .contractMethod gasLimit methodsMap

end Permission

section Servant

structure VMServant where
  accountState : AccountState
  (GasEachByte maxGasLimit gasUsed : Nat)

def NewVMServant (accountState : AccountState) (GasEachByte maxGasLimit : Nat) : VMServant where
  accountState := accountState
  GasEachByte := GasEachByte
  maxGasLimit := maxGasLimit
  gasUsed := 0

inductive GasError where
  | addOverflow (a b : Nat)
  | insufficientGas
deriving DecidableEq, Repr

def SafeAddUint64 (a b : Nat) : Except GasError Nat :=
  let s := wrap64 (a + b)
  if a ≤ s ∧ b ≤ s then .ok s else .error (.addOverflow a b)

def VMServant.GasUsedAccumulate (vs : VMServant) (gasAdd : Nat) :
    Except GasError Unit × VMServant :=
  match SafeAddUint64 vs.gasUsed gasAdd with
  | .error err => (.error err, vs)
  | .ok gasAdded =>
    if vs.maxGasLimit < gasAdded then (.error .insufficientGas, vs) else (.ok (), vs)

theorem servant_accumulate (vs : VMServant) (gasAdd : Nat) :
    (vs.GasUsedAccumulate gasAdd).2 = vs := by
  unfold VMServant.GasUsedAccumulate
  split
  · rfl
  · split_ifs <;> rfl

theorem accumulate_isOk_iff {vs : VMServant} {gasAdd : Nat}
    (hused : vs.gasUsed = 0) (hlt : gasAdd < 2 ^ 64) :
    (vs.GasUsedAccumulate gasAdd).1.isOk = true ↔ gasAdd ≤ vs.maxGasLimit := by
  have hadd : SafeAddUint64 vs.gasUsed gasAdd = .ok gasAdd := by
    have hwrap : wrap64 gasAdd = gasAdd := Nat.mod_eq_of_lt hlt
    simp [SafeAddUint64, hused, hwrap]
  rw [VMServant.GasUsedAccumulate, hadd]
  by_cases habove : vs.maxGasLimit < gasAdd
  · simp [habove, Except.isOk, Except.toBool]
  · simpa [habove, Except.isOk, Except.toBool] using Nat.not_lt.mp habove

end Servant

section Contract

def Account_BindName : Nat := 100
def Account_GrantAccessMethods : Nat := 100
def Account_GrantAccessRoot : Nat := 100
def Account_RevokeGrantAccess : Nat := 100
def Account_RevokeGrantAccessMethods : Nat := 100

def IsChild (name other : Bytes) : Bool :=
  name.isSuffixOf other

inductive OpError where
  | parentAccount (parentAddr : Bytes)
  | account (addr : Bytes)
  | notChild (addr name parentAddr parentName : Bytes)
  | gas (err : GasError)
  | updateName (addr : Bytes)
  | exception
deriving DecidableEq, Repr

structure OpResult where
  result : Except OpError Unit
  call : Option (Nat × Except GasError Unit)
  servant : VMServant

variable (vs : VMServant)

def OpResult.fail (err : OpError) : OpResult where
  result := .error err
  call := none
  servant := vs

def VMServant.charge (gasUsed : Nat) (update : AccountState → Except OpError AccountState) :
    OpResult :=
  match vs.GasUsedAccumulate gasUsed with
  | (.error err, vs') =>
    { result := .error (.gas err), call := some (gasUsed, .error err), servant := vs' }
  | (.ok (), vs') =>
    match update vs'.accountState with
    | .error err => { result := .error err, call := some (gasUsed, .ok ()), servant := vs' }
    | .ok accountState =>
      { result := .ok ()
        call := some (gasUsed, .ok ())
        servant := { vs' with accountState := accountState } }

def BindName (parentAddr addr accountName : Bytes) : OpResult :=
  match vs.accountState.GetAccount parentAddr with
  | none => .fail vs (.parentAccount parentAddr)
  | some parentAcc =>
    if IsChild accountName parentAcc.Name then
      let gasUsed := wrap64 (Account_BindName + vs.GasEachByte * accountName.length)
      vs.charge gasUsed fun accountState =>
        match accountState.UpdateName addr accountName with
        | none => .error (.updateName addr)
        | some accountState' => .ok accountState'
    else .fail vs (.notChild addr accountName parentAddr parentAcc.Name)

/-- Both accounts are read at the parent's address. -/
def grantAccessOperation (parentAddr addr : Bytes) (operaGas : Nat)
    (operation : Account → Except OpError (Nat × Account)) : OpResult :=
  match vs.accountState.GetAccount parentAddr with
  | none => .fail vs (.parentAccount parentAddr)
  | some parentAcc =>
    match vs.accountState.GetAccount parentAddr with
    | none => .fail vs (.account addr)
    | some acc =>
      if IsChild acc.Name parentAcc.Name then
        match operation acc with
        | .error err => .fail vs err
        | .ok (usedSize, acc') =>
          let gasUsed := wrap64 (operaGas + vs.GasEachByte * usedSize)
          vs.charge gasUsed fun accountState => .ok (accountState.UpdateAccount acc')
      else .fail vs (.notChild addr acc.Name parentAddr parentAcc.Name)

def orException {α : Type} : Option α → Except OpError α
  | none => .error .exception
  | some a => .ok a

variable (codec : TokenCodec)

variable (vs : VMServant) (parentAddr addr contractAddr : Bytes)

def GrantAccessMethods (methods : List Bytes) (gasLimit : Nat) : OpResult :=
  grantAccessOperation vs parentAddr addr Account_GrantAccessMethods fun acc => do
    let (accToken, usedSize) := match acc.Token with
      | none => (NewAccountToken (.contractMethod gasLimit []), 2)
      | some text => (codec.unmarshalJSON text, 0)
    let perm ← orException
      (methods.foldlM (fun perm method => AddMethod perm contractAddr method) accToken.Permission)
    let token := codec.marshalJSON { accToken with Permission := perm }
    return (usedSize + contractAddr.length + (methods.map List.length).sum,
      { acc with Token := some token })

def GrantAccessRoot : OpResult :=
  grantAccessOperation vs parentAddr addr Account_GrantAccessRoot fun acc =>
    match acc.Token with
    | none => .ok (2, { acc with Token := some (codec.marshalJSON (NewAccountToken .root)) })
    | some _ => .ok (0, acc)

def RevokeGrantAccess : OpResult :=
  grantAccessOperation vs parentAddr addr Account_RevokeGrantAccess fun acc =>
    .ok (0, { acc with Token := none })

def RevokeGrantAccessMethods (methods : List Bytes) : OpResult :=
  grantAccessOperation vs parentAddr addr Account_RevokeGrantAccessMethods fun acc =>
    match acc.Token with
    | none => .ok (0, acc)
    | some text => do
        let accToken := codec.unmarshalJSON text
        let perm ← orException
          (methods.foldlM (fun perm _ => RemoveMethod perm contractAddr) accToken.Permission)
        let token := codec.marshalJSON { accToken with Permission := perm }
        return (0, { acc with Token := some token })

inductive ContractOp where
  | bindName (parentAddr addr accountName : Bytes)
  | grantAccessMethods (parentAddr addr contractAddr : Bytes) (methods : List Bytes)
      (gasLimit : Nat)
  | grantAccessRoot (parentAddr addr : Bytes)
  | revokeGrantAccess (parentAddr addr : Bytes)
  | revokeGrantAccessMethods (parentAddr addr contractAddr : Bytes) (methods : List Bytes)
deriving DecidableEq, Repr

def exec : ContractOp → OpResult
  | .bindName parentAddr addr accountName => BindName vs parentAddr addr accountName
  | .grantAccessMethods parentAddr addr contractAddr methods gasLimit =>
    GrantAccessMethods codec vs parentAddr addr contractAddr methods gasLimit
  | .grantAccessRoot parentAddr addr => GrantAccessRoot codec vs parentAddr addr
  | .revokeGrantAccess parentAddr addr => RevokeGrantAccess vs parentAddr addr
  | .revokeGrantAccessMethods parentAddr addr contractAddr methods =>
    RevokeGrantAccessMethods codec vs parentAddr addr contractAddr methods

/-- An operation asks for nothing, or is refused, and nothing changes; or it is accepted. -/
inductive ExecEffect (r : OpResult) : Prop where
  | free (hcall : r.call = none) (hservant : r.servant = vs)
  | refused (gas : Nat) (err : GasError) (hlt : gas < 2 ^ 64)
      (hanswer : (vs.GasUsedAccumulate gas).1 = .error err)
      (hcall : r.call = some (gas, .error err)) (hservant : r.servant = vs)
  | accepted (gas : Nat) (accountState : AccountState) (hlt : gas < 2 ^ 64)
      (hanswer : (vs.GasUsedAccumulate gas).1 = .ok ())
      (hcall : r.call = some (gas, .ok ()))
      (hservant : r.servant = { vs with accountState := accountState })

theorem chargeEffect (n : Nat) (update : AccountState → Except OpError AccountState) :
    ExecEffect vs (vs.charge (wrap64 n) update) := by
  have hlt : wrap64 n < 2 ^ 64 := Nat.mod_lt _ (by decide)
  have hservant := servant_accumulate vs (wrap64 n)
  cases hanswer : vs.GasUsedAccumulate (wrap64 n) with
  | mk answer vs' =>
    obtain rfl : vs = vs' := by rw [← hservant, hanswer]
    cases answer with
    | error err =>
      refine .refused (wrap64 n) err hlt (by rw [hanswer]) ?_ ?_
      · simp only [VMServant.charge, hanswer]
      · simp only [VMServant.charge, hanswer]
    | ok _ =>
      cases hupdate : update vs.accountState with
      | error err =>
        refine .accepted (wrap64 n) vs.accountState hlt (by rw [hanswer]) ?_ ?_
        · simp only [VMServant.charge, hanswer, hupdate]
        · simp only [VMServant.charge, hanswer, hupdate]
      | ok accountState =>
        refine .accepted (wrap64 n) accountState hlt (by rw [hanswer]) ?_ ?_
        · simp only [VMServant.charge, hanswer, hupdate]
        · simp only [VMServant.charge, hanswer, hupdate]

theorem bindNameEffect (accountName : Bytes) :
    ExecEffect vs (BindName vs parentAddr addr accountName) := by
  unfold BindName
  split
  · exact .free rfl rfl
  · split_ifs
    · exact chargeEffect vs _ _
    · exact .free rfl rfl

theorem grantAccessEffect (operaGas : Nat) (operation : Account → Except OpError (Nat × Account)) :
    ExecEffect vs (grantAccessOperation vs parentAddr addr operaGas operation) := by
  unfold grantAccessOperation
  split
  · exact .free rfl rfl
  split
  · exact .free rfl rfl
  · split_ifs
    · split
      · exact .free rfl rfl
      · exact chargeEffect vs _ _
    · exact .free rfl rfl

theorem execEffect (op : ContractOp) : ExecEffect vs (exec codec vs op) := by
  cases op with
  | bindName => exact bindNameEffect vs _ _ _
  | grantAccessMethods parentAddr addr =>
    exact grantAccessEffect vs parentAddr addr Account_GrantAccessMethods _
  | grantAccessRoot parentAddr addr =>
    exact grantAccessEffect vs parentAddr addr Account_GrantAccessRoot _
  | revokeGrantAccess parentAddr addr =>
    show ExecEffect vs (RevokeGrantAccess vs parentAddr addr)
    exact grantAccessEffect vs parentAddr addr Account_RevokeGrantAccess _
  | revokeGrantAccessMethods parentAddr addr =>
    exact grantAccessEffect vs parentAddr addr Account_RevokeGrantAccessMethods _

end Contract

structure GasRun where
  servant : VMServant
  calls : List (Nat × Except GasError Unit)

namespace GasRun

variable (codec : TokenCodec)

def new (accountState : AccountState) (GasEachByte maxGasLimit : Nat) : GasRun where
  servant := NewVMServant accountState GasEachByte maxGasLimit
  calls := []

variable (s : GasRun) (op : ContractOp)

def perform : GasRun :=
  let r := exec codec s.servant op
  { servant := r.servant, calls := s.calls ++ r.call.toList }

def step : Option GasRun :=
  some (s.perform codec op)

def asked : List Nat :=
  s.calls.map Prod.fst

def accepted : List Nat :=
  (s.calls.filter fun call => call.2.isOk).map Prod.fst

def Within : Prop :=
  s.accepted.sum ≤ s.servant.maxGasLimit

/-- Nothing counts as used, and an amount was accepted exactly when within the limit. -/
structure Unmetered (maxGasLimit : Nat) (s : GasRun) : Prop where
  limit : s.servant.maxGasLimit = maxGasLimit
  used : s.servant.gasUsed = 0
  answers : ∀ call ∈ s.calls, call.2.isOk = true ↔ call.1 ≤ maxGasLimit

section Run

variable {codec} {s : GasRun} {maxGasLimit : Nat}

theorem unmetered_new (accountState : AccountState) (GasEachByte maxGasLimit : Nat) :
    Unmetered maxGasLimit (new accountState GasEachByte maxGasLimit) where
  limit := rfl
  used := rfl
  answers := by simp [new]

theorem unmetered_call (h : Unmetered maxGasLimit s) {op : ContractOp} {gas : Nat}
    {answer : Except GasError Unit} (hlt : gas < 2 ^ 64)
    (hanswer : (s.servant.GasUsedAccumulate gas).1 = answer)
    (hcall : (exec codec s.servant op).call = some (gas, answer))
    (hlimit : (exec codec s.servant op).servant.maxGasLimit = s.servant.maxGasLimit)
    (hused : (exec codec s.servant op).servant.gasUsed = s.servant.gasUsed) :
    Unmetered maxGasLimit (s.perform codec op) := by
  refine ⟨hlimit.trans h.limit, hused.trans h.used, ?_⟩
  intro call hmem
  simp only [perform, hcall, Option.toList_some, List.mem_append] at hmem
  rcases hmem with hold | hnew
  · exact h.answers call hold
  · rw [List.mem_singleton.mp hnew, ← hanswer, accumulate_isOk_iff h.used hlt, h.limit]

theorem unmetered_perform (h : Unmetered maxGasLimit s) (op : ContractOp) :
    Unmetered maxGasLimit (s.perform codec op) := by
  cases execEffect codec s.servant op with
  | free hcall hservant =>
    refine ⟨?_, ?_, ?_⟩
    · simpa [perform, hservant] using h.limit
    · simpa [perform, hservant] using h.used
    · simpa [perform, hcall] using h.answers
  | refused gas err hlt hrefused hcall hservant =>
    exact unmetered_call h hlt hrefused hcall (by rw [hservant]) (by rw [hservant])
  | accepted gas accountState hlt haccepted hcall hservant =>
    exact unmetered_call h hlt haccepted hcall (by rw [hservant]) (by rw [hservant])

theorem accepted_eq (h : Unmetered maxGasLimit s) :
    s.accepted = s.asked.filter (· ≤ maxGasLimit) := by
  unfold accepted asked
  rw [List.filter_map]
  congr 1
  refine List.filter_congr ?_
  intro call hmem
  rw [Bool.eq_iff_iff, h.answers call hmem]
  simp

theorem asked_isPrefix (ops : List ContractOp) :
    s.asked <+: (ops.foldl (perform codec) s).asked := by
  induction ops generalizing s with
  | nil => exact List.prefix_refl _
  | cons op ops ih =>
    refine List.IsPrefix.trans ?_ ih
    exact ⟨_, (List.map_append).symm⟩

theorem foldlM_step (ops : List ContractOp) :
    ops.foldlM (step codec) s = some (ops.foldl (perform codec) s) := by
  induction ops generalizing s with
  | nil => rfl
  | cons op ops ih => exact ih

theorem unmetered_foldl (codec : TokenCodec) (h : Unmetered maxGasLimit s) (ops : List ContractOp) :
    Unmetered maxGasLimit (ops.foldl (perform codec) s) := by
  induction ops generalizing s with
  | nil => exact h
  | cons op ops ih => exact ih (unmetered_perform h op)

theorem within_iff (h : Unmetered maxGasLimit s) :
    s.Within ↔ (s.asked.filter (· ≤ maxGasLimit)).sum ≤ maxGasLimit := by
  rw [Within, accepted_eq h, h.limit]

end Run

/-- **A refused amount leaves the accounts unchanged; the accepted ones sum up to at most the limit
exactly when those within it one by one do.** -/
theorem gasLimit_iff (accountState : AccountState) (GasEachByte maxGasLimit : Nat)
    (ops : List ContractOp) :
    (∀ (vs : VMServant) (op : ContractOp) (gas : Nat) (err : GasError),
      (exec codec vs op).call = some (gas, .error err) →
        (exec codec vs op).servant.accountState = vs.accountState) ∧
    (Throughout (step codec) Within (new accountState GasEachByte maxGasLimit) ops ↔
      (((ops.foldl (perform codec) (new accountState GasEachByte maxGasLimit)).asked).filter
        (· ≤ maxGasLimit)).sum ≤ maxGasLimit) := by
  constructor
  · intro vs op gas err hcall
    cases execEffect codec vs op with
    | free hnone _ =>
      rw [hcall] at hnone
      cases hnone
    | refused _ _ _ _ _ hservant => rw [hservant]
    | accepted _ _ _ _ hsome _ =>
      rw [hcall] at hsome
      cases hsome
  · have hnew := unmetered_new accountState GasEachByte maxGasLimit
    have hend := within_iff (unmetered_foldl codec hnew ops)
    constructor
    · intro hall
      exact hend.mp (hall ops _ (List.prefix_refl ops) (foldlM_step ops))
    rintro hsum before t ⟨rest, rfl⟩ hrun
    rw [foldlM_step] at hrun
    cases hrun
    rw [within_iff (unmetered_foldl codec hnew before)]
    refine Nat.le_trans (List.Sublist.sum_le_sum ?_ (fun _ _ => Nat.zero_le _)) hsum
    rw [List.foldl_append]
    exact ((asked_isPrefix rest).sublist).filter _

section TwoNames

def namedAccounts : AccountState where
  accounts := [⟨ascii "p", 0, ascii "n", none, fun _ => none⟩]
  nodup := by simp

def plainCodec : TokenCodec where
  marshalJSON _ := []
  unmarshalJSON _ := NewAccountToken .root

def twoNames : List ContractOp :=
  [.bindName (ascii "p") (ascii "p") (ascii "n"), .bindName (ascii "p") (ascii "p") (ascii "n")]

/-- With the default price of a byte and a limit of 2000, 1600 is accepted twice. -/
theorem gasLimit_fails :
    ¬ Throughout (step plainCodec) Within (new namedAccounts 1500 2000) twoNames ∧
      (twoNames.foldl (perform plainCodec) (new namedAccounts 1500 2000)).accepted =
        [1600, 1600] := by
  have haccepted : (twoNames.foldl (perform plainCodec) (new namedAccounts 1500 2000)).accepted =
      [1600, 1600] := by
    decide +kernel
  refine ⟨?_, haccepted⟩
  intro hall
  have hwithin := hall twoNames _ (List.prefix_refl _) (foldlM_step twoNames)
  have hlimit := (unmetered_foldl plainCodec (unmetered_new namedAccounts 1500 2000) twoNames).limit
  rw [Within, haccepted, hlimit] at hwithin
  simp at hwithin

end TwoNames

end GasRun

end Topia.Vm
