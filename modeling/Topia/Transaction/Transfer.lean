import Topia.Account

/-!
# Executing a transfer

`transaction/universal/transfer.go`. `currencyTransfer` decodes the accounts of the sender, the
target and the fee payer, checks the fee and the balances, and moves the values between the decoded
copies. Nothing is written back: neither it nor `Execute` calls `UpdateAccount` or `UpdateBalance`.
-/

namespace Topia.Transaction

structure GasConfiguration where
  (MinGasPrice MinGasLimit GasEachByte MaxGasEachBlock : Nat)
deriving DecidableEq, Repr

structure TransactionHead where
  (Category ChainID : Bytes)
  (Version TimeStamp Index : Nat)
  FromAddr : Bytes
  Nonce : Nat
  Signature : Bytes
deriving DecidableEq, Repr

structure TransactionUniversalHead where
  Version : Nat
  FeePayer : Bytes
  (GasPrice GasLimit Type_ : Nat)
  FeePayerSignature : Bytes
  Options : Nat
deriving DecidableEq, Repr

structure TargetItem where
  Symbol : TokenSymbol
  Value : Option Int
deriving DecidableEq, Repr

structure TransactionUniversalTransfer where
  Head : TransactionHead
  UniHead : TransactionUniversalHead
  TargetAddr : Bytes
  Targets : List TargetItem
deriving DecidableEq, Repr

def computeBasicGas (gasConfig : GasConfiguration) (txUniDataLen : Nat) : Nat :=
  wrap64 (gasConfig.MinGasLimit + txUniDataLen * gasConfig.GasEachByte)

structure TransferEnv where
  gasConfig : GasConfiguration
  marshalTransfer : Bytes → List TargetItem → Bytes

namespace TransactionUniversalTransfer

variable (env : TransferEnv) (txfer : TransactionUniversalTransfer)

def DataBytes : Bytes :=
  env.marshalTransfer txfer.TargetAddr txfer.Targets

def gasUsed : Nat :=
  computeBasicGas env.gasConfig (txfer.DataBytes env).length

def gasVal : Int :=
  (txfer.gasUsed env * txfer.UniHead.GasPrice : Nat)

end TransactionUniversalTransfer

inductive TransferError where
  | noAccount (addr : Bytes)
  | insufficientGasFee (feePayer : Bytes) (remaining required : Int)
  | noCurrency (fromAddr : Bytes) (symbol : TokenSymbol) (required : Option Int)
  | insufficientCurrency (fromAddr : Bytes) (symbol : TokenSymbol) (remaining required : Int)
deriving DecidableEq, Repr

/-- `currencyTransfer` ends with OK and the changed copies, with an error, or at a nil number. -/
inductive TransferOutcome where
  | ok (fromAcc targetAcc : Account) (feePayerBal : Int)
  | err (e : TransferError)
  | panic

def checkItem (fromAddr : Bytes) (fromAcc : Account) (targetItem : TargetItem) :
    Option TransferOutcome :=
  match fromAcc.Balances targetItem.Symbol with
  | none => some (.err (.noCurrency fromAddr targetItem.Symbol targetItem.Value))
  | some fromCurrency =>
    match targetItem.Value with
    | none => some .panic
    | some value =>
      if fromCurrency < value then
        some (.err (.insufficientCurrency fromAddr targetItem.Symbol fromCurrency value))
      else none

def moveItems : List TargetItem → Account × Account → Account × Account
  | [], accs => accs
  | targetItem :: items, (fromAcc, targetAcc) =>
    let value := targetItem.Value.getD 0
    moveItems items
      ((fromAcc.BalanceDecrease targetItem.Symbol value).getD fromAcc,
        targetAcc.BalanceIncrease targetItem.Symbol value)

namespace TransactionUniversalTransfer

variable (env : TransferEnv) (s : AccountState) (txfer : TransactionUniversalTransfer)

def currencyTransfer : TransferOutcome :=
  match s.GetAccount txfer.Head.FromAddr with
  | none => .err (.noAccount txfer.Head.FromAddr)
  | some fromAcc =>
  match s.GetAccount txfer.TargetAddr with
  | none => .err (.noAccount txfer.TargetAddr)
  | some targetAcc =>
  match s.GetAccount txfer.UniHead.FeePayer with
  | none => .err (.noAccount txfer.UniHead.FeePayer)
  | some feePayerAcc =>
  match feePayerAcc.Balances TokenSymbol_Native with
  | none => .panic
  | some feePayerBal =>
    if feePayerBal < txfer.gasVal env then
      .err (.insufficientGasFee txfer.UniHead.FeePayer feePayerBal (txfer.gasVal env))
    else
      -- the first item that does not pass decides
      match txfer.Targets.findSome? (checkItem txfer.Head.FromAddr fromAcc) with
      | some outcome => outcome
      | none =>
        let accs := moveItems txfer.Targets (fromAcc, targetAcc)
        .ok accs.1 accs.2 (feePayerBal - txfer.gasVal env)

/-- The outcome and the account state. The changed copies are dropped. -/
def Execute : TransferOutcome × AccountState :=
  (txfer.currencyTransfer env s, s)

def Sufficient : Prop :=
  ∃ fromAcc targetAcc feePayerAcc feePayerBal,
    s.GetAccount txfer.Head.FromAddr = some fromAcc ∧
    s.GetAccount txfer.TargetAddr = some targetAcc ∧
    s.GetAccount txfer.UniHead.FeePayer = some feePayerAcc ∧
    feePayerAcc.Balances TokenSymbol_Native = some feePayerBal ∧
    txfer.gasVal env ≤ feePayerBal ∧
    ∀ item ∈ txfer.Targets, ∃ value balance,
      item.Value = some value ∧ fromAcc.Balances item.Symbol = some balance ∧ value ≤ balance

def itemTotal (symbol : TokenSymbol) : Int :=
  (txfer.Targets.map (fun item => if item.Symbol = symbol then item.Value.getD 0 else 0)).sum

theorem checkItem_eq_none_iff (fromAddr : Bytes) (fromAcc : Account) (item : TargetItem) :
    checkItem fromAddr fromAcc item = none ↔
      ∃ value balance,
        item.Value = some value ∧
        fromAcc.Balances item.Symbol = some balance ∧ value ≤ balance := by
  cases hbal : fromAcc.Balances item.Symbol with
  | none => simp [checkItem, hbal]
  | some balance =>
    cases hval : item.Value with
    | none | some value => simp [checkItem, hbal, hval]

theorem checkItem_fails {fromAddr : Bytes} {acc : Account} {item : TargetItem}
    {outcome : TransferOutcome} (hcheck : checkItem fromAddr acc item = some outcome) :
    (∀ f t b, outcome ≠ .ok f t b) ∧ ∀ p b r, outcome ≠ .err (.insufficientGasFee p b r) := by
  unfold checkItem at hcheck
  split at hcheck
  · cases hcheck
    simp
  split at hcheck
  · cases hcheck
    simp
  · split_ifs at hcheck
    cases hcheck
    simp

theorem currencyTransfer_ok_iff :
    (∃ fromAcc targetAcc feePayerBal,
      txfer.currencyTransfer env s = .ok fromAcc targetAcc feePayerBal) ↔
      txfer.Sufficient env s := by
  unfold currencyTransfer Sufficient
  cases s.GetAccount txfer.Head.FromAddr with
  | none => simp
  | some fromAcc =>
  cases s.GetAccount txfer.TargetAddr with
  | none => simp
  | some targetAcc =>
  cases s.GetAccount txfer.UniHead.FeePayer with
  | none => simp
  | some feePayerAcc =>
  cases hbal : feePayerAcc.Balances TokenSymbol_Native with
  | none => simp [hbal]
  | some feePayerBal =>
    by_cases hgas : feePayerBal < txfer.gasVal env
    · constructor
      · rintro ⟨f, t, b, hout⟩
        simp [hbal, hgas] at hout
      · rintro ⟨f, t, p, b, _, _, hp, hb, hle, _⟩
        cases hp
        rw [hbal] at hb
        cases hb
        omega
    · have hle : txfer.gasVal env ≤ feePayerBal := by omega
      cases hfind : txfer.Targets.findSome? (checkItem txfer.Head.FromAddr fromAcc) with
      | none =>
        have hitems := List.findSome?_eq_none_iff.mp hfind
        simp only [checkItem_eq_none_iff] at hitems
        constructor
        · intro _
          exact ⟨fromAcc, targetAcc, feePayerAcc, feePayerBal, rfl, rfl, rfl, hbal, hle, hitems⟩
        · intro _
          exact ⟨_, _, _, by simp only [hbal, hgas, if_false, hfind]; rfl⟩
      | some outcome =>
        obtain ⟨item, hitem, hcheck⟩ := List.exists_of_findSome?_eq_some hfind
        constructor
        · rintro ⟨f, t, b, hout⟩
          simp only [hbal, hgas, if_false, hfind] at hout
          exact absurd hout ((checkItem_fails hcheck).1 f t b)
        rintro ⟨f, t, p, b, hf, _, _, _, _, hitems⟩
        cases hf
        have hpass := (checkItem_eq_none_iff txfer.Head.FromAddr fromAcc item).mpr
          (hitems item hitem)
        rw [hpass] at hcheck
        cases hcheck

/-- What a report of OK, or of an error, says about the state `s'` after `s`. -/
structure ReportHolds (s : AccountState) (outcome : TransferOutcome) (s' : AccountState) :
    Prop where
  ok_total :
    ∀ f t b, outcome = .ok f t b → ∀ symbol,
      s'.totalBalance symbol =
        s.totalBalance symbol - (if symbol = TokenSymbol_Native then txfer.gasVal env else 0)
  ok_balances :
    ∀ f t b, outcome = .ok f t b → ∀ addr symbol,
      s'.storedBalance addr symbol =
        s.storedBalance addr symbol
          - (if addr = txfer.Head.FromAddr then txfer.itemTotal symbol else 0)
          + (if addr = txfer.TargetAddr then txfer.itemTotal symbol else 0)
          - (if addr = txfer.UniHead.FeePayer ∧ symbol = TokenSymbol_Native
              then txfer.gasVal env else 0)
  ok_nonNegative :
    ∀ f t b, outcome = .ok f t b → s'.NonNegative
  err_unchanged :
    ∀ e, outcome = .err e → s' = s

def TransferConserves : Prop :=
  ReportHolds env txfer s (txfer.Execute env s).1 (txfer.Execute env s).2

/-- **Execution keeps its report exactly when the report asks for nothing**: the checks fail, or
there is no fee, nothing moves between two accounts, and no balance was negative. -/
theorem transferConserves_iff :
    TransferConserves env s txfer ↔
      (txfer.Sufficient env s → txfer.gasVal env = 0 ∧
        (txfer.Head.FromAddr = txfer.TargetAddr ∨ ∀ symbol, txfer.itemTotal symbol = 0) ∧
        s.NonNegative) := by
  constructor
  · intro hcons hsuff
    obtain ⟨f, t, b, hout⟩ := (currencyTransfer_ok_iff env s txfer).mpr hsuff
    have hgas : txfer.gasVal env = 0 := by
      have htotal := hcons.ok_total f t b hout TokenSymbol_Native
      simp only [Execute, if_true] at htotal
      omega
    refine ⟨hgas, ?_, hcons.ok_nonNegative f t b hout⟩
    by_cases hsame : txfer.Head.FromAddr = txfer.TargetAddr
    · exact .inl hsame
    · refine .inr ?_
      intro symbol
      have hbal := hcons.ok_balances f t b hout txfer.Head.FromAddr symbol
      simp only [Execute, if_true, if_neg hsame, hgas, ite_self] at hbal
      omega
  · intro hcond
    have hok :
        ∀ f t b, txfer.currencyTransfer env s = .ok f t b →
          txfer.gasVal env = 0 ∧
          (txfer.Head.FromAddr = txfer.TargetAddr ∨ ∀ symbol, txfer.itemTotal symbol = 0) ∧
          s.NonNegative := by
      intro f t b hout
      exact hcond ((currencyTransfer_ok_iff env s txfer).mp ⟨f, t, b, hout⟩)
    refine ⟨?_, ?_, ?_, ?_⟩
    · intro f t b hout symbol
      obtain ⟨hgas, _, _⟩ := hok f t b hout
      simp [Execute, hgas]
    · intro f t b hout addr symbol
      obtain ⟨hgas, hmove, _⟩ := hok f t b hout
      rcases hmove with hsame | hzero
      · simp [Execute, hgas, hsame]
      · simp [Execute, hgas, hzero symbol]
    · intro f t b hout
      exact (hok f t b hout).2.2
    · intro e _
      rfl

def twoAccounts : AccountState where
  accounts :=
    [{ Addr := [1], Nonce := 0, Name := [], Token := none,
       Balances := fun symbol => if symbol = TokenSymbol_Native then some 10 else none },
     { Addr := [2], Nonce := 0, Name := [], Token := none, Balances := fun _ => none }]
  nodup := by decide

def sendThree : TransactionUniversalTransfer where
  Head :=
    { Category := ascii "topia_universal", ChainID := [], Version := 1, TimeStamp := 0,
      Index := 0, FromAddr := [1], Nonce := 1, Signature := [] }
  UniHead :=
    { Version := 1, FeePayer := [1], GasPrice := 1, GasLimit := 1, Type_ := 1,
      FeePayerSignature := [], Options := 0 }
  TargetAddr := [2]
  Targets := [{ Symbol := TokenSymbol_Native, Value := some 3 }]

def unitGas : TransferEnv where
  gasConfig := { MinGasPrice := 1, MinGasLimit := 1, GasEachByte := 0, MaxGasEachBlock := 1 }
  marshalTransfer := fun _ _ => []

theorem transferConserves_fails_native :
    ¬ TransferConserves unitGas twoAccounts sendThree := by
  intro hcons
  have hrise := hcons.ok_balances _ _ _ rfl [2] TokenSymbol_Native
  exact absurd hrise (by decide)

end TransactionUniversalTransfer

end Topia.Transaction
