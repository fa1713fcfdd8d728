import Topia.Execution.Scheduler
import Topia.Transaction.Universal

/-!
# Executing a batch

`ExecutePackedTx` of `execution/scheduler.go` with the transactions of the batch:
`executionPackedTxs.Execute` of `execution/execution_packedtx.go` runs their actions one after the
other on one composition state, and gives up at the first one that returns nil.

No action returns nil, so a batch has its results or panics, and errors come before the execution.
-/

namespace Topia.Execution

open Lib State Transaction

structure PackedTxs where
  StateVersion : Nat
  TxRoot : Bytes
  TxList : List Transaction
deriving DecidableEq, Repr

structure PackedTxsResult where
  StateVersion : Nat
  TxRSRoot : Bytes
  TxsResult : List TransactionResult
deriving DecidableEq, Repr

/-- The accounts, and whether the state is `CompSState_Executed`. -/
structure CompositionState where
  accounts : AccountState
  executed : Bool

structure PackedEnv where
  universal : UniversalEnv
  M : AuthMap 32
  C : RootCodec

inductive PackedError where
  | executing
  | version (err : ExecuteError)
  | txFailed (tx : Transaction)
deriving DecidableEq, Repr

structure PackedScheduler where
  scheduler : ExecutionScheduler
  packedTxsRS : CompState → Option PackedTxsResult

section Batch

variable {env : PackedEnv}

def executeLoop (env : PackedEnv) : List Transaction → List TransactionResult → AccountState →
    Option (Except PackedError (List TransactionResult)) × AccountState
  | [], txsResult, s => (some (.ok txsResult), s)
  | txItem :: rest, txsResult, s =>
    match CreatTransactionAction env.universal txItem with
    | none => (none, s)
    | some action =>
      match action.Execute env.universal s with
      | (none, s') => (none, s')
      | (some none, s') => (some (.error (.txFailed txItem)), s')
      | (some (some txRS), s') => executeLoop env rest (txsResult ++ [txRS]) s'

def Execute (env : PackedEnv) (packedTxs : PackedTxs) (s : AccountState) :
    Option (Except PackedError PackedTxsResult) × AccountState :=
  if packedTxs.TxList = [] then (some (.ok ⟨packedTxs.StateVersion, [], []⟩), s)
  else
    match executeLoop env packedTxs.TxList [] s with
    | (none, s') => (none, s')
    | (some (.error err), s') => (some (.error err), s')
    | (some (.ok txsResult), s') =>
      (some (.ok ⟨packedTxs.StateVersion, TxResultRoot env.M env.C txsResult packedTxs.TxList,
        txsResult⟩), s')

/-- `ExecutePackedTx`; `locked`: the lock was free; `none` is a panic. -/
def ExecutePackedTx (env : PackedEnv) (locked : Bool) (p : PackedScheduler)
    (compState : CompositionState) (txPacked : PackedTxs) :
    Option (Except PackedError (Option PackedTxsResult)) × PackedScheduler × CompositionState :=
  if locked = false then (some (.error .executing), p, compState)
  else
    match p.scheduler.checkVersion txPacked.StateVersion with
    | .error .nilItem => (none, p, compState)
    | .error err => (some (.error (.version err)), p, compState)
    | .ok (some existed) => (some (.ok (p.packedTxsRS existed.compState)), p, compState)
    | .ok none =>
      match Execute env txPacked compState.accounts with
      | (none, accounts) => (none, p, { compState with accounts := accounts })
      | (some (.error err), accounts) =>
        (some (.error err), p, { compState with accounts := accounts })
      | (some (.ok packedTxsRS), accounts) =>
        (some (.ok (some packedTxsRS)),
          { scheduler := p.scheduler.push txPacked.StateVersion
            packedTxsRS := Function.update p.packedTxsRS
              (p.scheduler.nextBatch txPacked.StateVersion).compState (some packedTxsRS) },
          ⟨accounts, true⟩)

theorem executeLoop_ne_error (env : PackedEnv) (txs : List Transaction)
    (txsResult : List TransactionResult) (s : AccountState) (err : PackedError) :
    (executeLoop env txs txsResult s).1 ≠ some (.error err) := by
  induction txs generalizing txsResult s with
  | nil => simp [executeLoop]
  | cons txItem rest ih =>
    unfold executeLoop
    cases CreatTransactionAction env.universal txItem with
    | none => simp
    | some action =>
      have hnil := action.Execute_ne_nil env.universal s
      dsimp only
      generalize action.Execute env.universal s = outcome at hnil ⊢
      obtain ⟨result, s'⟩ := outcome
      match result with
      | none => simp
      | some none => exact (hnil rfl).elim
      | some (some txRS) => exact ih (txsResult ++ [txRS]) s'

theorem Execute_ne_error (env : PackedEnv) (packedTxs : PackedTxs) (s : AccountState)
    (err : PackedError) : (Execute env packedTxs s).1 ≠ some (.error err) := by
  unfold Execute
  split_ifs
  · simp
  have hloop := executeLoop_ne_error env packedTxs.TxList [] s
  generalize executeLoop env packedTxs.TxList [] s = outcome at hloop ⊢
  obtain ⟨result, s'⟩ := outcome
  match result with
  | none => simp
  | some (.error err) => exact (hloop err rfl).elim
  | some (.ok txsResult) => simp

/-- **A failed batch leaves nothing behind**: scheduler and state are those before the call, and a
further call does what it would have done at first. -/
theorem failedBatch_atomic (env : PackedEnv) (locked : Bool) (p p' : PackedScheduler)
    (compState compState' : CompositionState) (txPacked : PackedTxs) (err : PackedError)
    (hfailed : ExecutePackedTx env locked p compState txPacked =
      (some (.error err), p', compState')) :
    p' = p ∧ compState' = compState ∧
      ∀ locked', ExecutePackedTx env locked' p' compState' txPacked =
        ExecutePackedTx env locked' p compState txPacked := by
  have hsame : p' = p ∧ compState' = compState := by
    unfold ExecutePackedTx at hfailed
    split_ifs at hfailed
    · cases hfailed
      exact ⟨rfl, rfl⟩
    split at hfailed
    · cases hfailed
    · cases hfailed
      exact ⟨rfl, rfl⟩
    · cases hfailed
    -- behind the checks the only error is that of a transaction
    have hexecute := Execute_ne_error env txPacked compState.accounts
    generalize Execute env txPacked compState.accounts = outcome at hexecute hfailed
    obtain ⟨result, accounts⟩ := outcome
    match result with
    | none => cases hfailed
    | some (.error err) => exact (hexecute err rfl).elim
    | some (.ok packedTxsRS) => cases hfailed
  obtain ⟨rfl, rfl⟩ := hsame
  exact ⟨rfl, rfl, fun _ => rfl⟩

noncomputable def plainPacked : PackedEnv := ⟨transferOnly, finsuppAuthMap 32, plainRootCodec⟩

def afterFive : PackedScheduler × CompositionState :=
  (⟨⟨10, 5, 0, [], 1⟩, fun _ => none⟩, ⟨⟨[], by simp⟩, false⟩)

theorem failedBatch_of_old_version :
    (ExecutePackedTx plainPacked true afterFive.1 afterFive.2 ⟨3, [], [plainTx 1 0 1]⟩).1 =
        some (.error (.version (.notBiggerThan 5 3))) ∧
      (ExecutePackedTx plainPacked true afterFive.1 afterFive.2 ⟨3, [], [plainTx 1 0 1]⟩).2 =
        afterFive := by
  obtain ⟨hscheduler, hcompState, _⟩ :=
    failedBatch_atomic plainPacked true afterFive.1 _ afterFive.2 _ ⟨3, [], [plainTx 1 0 1]⟩ _ rfl
  exact ⟨rfl, Prod.ext hscheduler hcompState⟩

end Batch

end Topia.Execution
