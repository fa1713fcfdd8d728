import Topia.Common
import Topia.State.Builder

/-!
# The execution scheduler

`execution/scheduler.go`: batches of packed transactions are executed under consecutive state
versions and kept in a list, from which they are committed. `exePackedCount` is a 32-bit counter
that `ExecutePackedTx` raises and `CommitPackedTx` lowers, and that `MaxStateVersion` compares with
a limit. `ExecutePackedTx` runs under `executeMutex`.
-/

namespace Topia.Execution

open State

def MaxAvail_Count : Nat := 5

structure ExecutionPackedTxs where
  StateVersion : Nat
  compState : CompState
deriving DecidableEq, Repr

/-- Errors of `ExecutePackedTx`.  `nilItem` is a walk past the end of the list. -/
inductive ExecuteError where
  | invalidVersion (expected actual : Nat)
  | notBiggerThan (lastStateVersion actual : Nat)
  | executeFailed
  | nilItem
deriving DecidableEq, Repr

structure ExecutionScheduler where
  (MaxPrepareMsgCache lastStateVersion exePackedCount : Nat)
  exePackedTxsList : List ExecutionPackedTxs
  executed : Nat
deriving DecidableEq, Repr

namespace ExecutionScheduler

def NewExecutionScheduler (MaxPrepareMsgCache : Nat) : ExecutionScheduler where
  MaxPrepareMsgCache := MaxPrepareMsgCache
  lastStateVersion := 0
  exePackedCount := 0
  exePackedTxsList := []
  executed := 0

def find (s : ExecutionScheduler) (stateVersion : Nat) : Option ExecutionPackedTxs :=
  s.exePackedTxsList.find? (fun e => e.StateVersion = stateVersion)

variable (s : ExecutionScheduler) (stateVersion : Nat) (executes : Bool)

def CompositionStateOfExePackedTxs : Option CompState :=
  (s.find stateVersion).map ExecutionPackedTxs.compState

def checkVersion : Except ExecuteError (Option ExecutionPackedTxs) :=
  match s.exePackedTxsList.head?, s.exePackedTxsList.getLast? with
  | some exeTxsF, some exeTxsL =>
    if exeTxsF.StateVersion ≤ stateVersion ∧ stateVersion ≤ exeTxsL.StateVersion then
      match s.find stateVersion with
      | some e => .ok (some e)
      | none => .error .nilItem
    else if stateVersion ≠ wrap64 (exeTxsL.StateVersion + 1) then
      .error (.invalidVersion (wrap64 (exeTxsL.StateVersion + 1)) stateVersion)
    else .ok none
  | _, _ =>
    if s.lastStateVersion ≠ 0 ∧ stateVersion ≤ s.lastStateVersion then
      .error (.notBiggerThan s.lastStateVersion stateVersion)
    else .ok none

/-- A fifth of a full list is dropped; `n / 5` is `int(float32(n) * 0.2)` below a million. -/
def shorten (list : List ExecutionPackedTxs) : List ExecutionPackedTxs :=
  if list.length ≥ s.MaxPrepareMsgCache then list.drop (s.MaxPrepareMsgCache / 5) else list

def nextBatch : ExecutionPackedTxs where
  StateVersion := stateVersion
  compState := .full s.executed

def push : ExecutionScheduler :=
  { s with
    lastStateVersion := stateVersion
    exePackedCount := (s.exePackedCount + 1) % 2 ^ 32
    exePackedTxsList := s.shorten (s.exePackedTxsList ++ [s.nextBatch stateVersion])
    executed := s.executed + 1 }

def ExecutePackedTx : Except ExecuteError ExecutionPackedTxs × ExecutionScheduler :=
  match s.checkVersion stateVersion with
  | .error err => (.error err, s)
  | .ok (some existed) => (.ok existed, s)
  | .ok none =>
    if executes then (.ok (s.nextBatch stateVersion), s.push stateVersion)
    else (.error .executeFailed, s)

def MaxStateVersion (latestHeight : Nat) : Except Nat Nat :=
  if s.exePackedCount ≥ MaxAvail_Count then .error s.exePackedCount
  else if latestHeight > s.lastStateVersion then .ok latestHeight
  else .ok s.lastStateVersion

def subCount : ExecutionScheduler :=
  { s with exePackedCount := (((s.exePackedCount : Int) - 1) % 2 ^ 32).toNat }

@[simp] theorem subCount_exePackedTxsList : s.subCount.exePackedTxsList = s.exePackedTxsList := rfl

@[simp] theorem subCount_executed : s.subCount.executed = s.executed := rfl

def Executes : Prop :=
  s.checkVersion stateVersion = .ok none ∧ executes = true

theorem ExecutePackedTx_cases :
    (s.Executes stateVersion executes ∧
      (s.ExecutePackedTx stateVersion executes).2 = s.push stateVersion) ∨
    (¬ s.Executes stateVersion executes ∧ (s.ExecutePackedTx stateVersion executes).2 = s) := by
  unfold Executes ExecutePackedTx
  cases hcheck : s.checkVersion stateVersion with
  | error err => exact .inr ⟨by simp, rfl⟩
  | ok found =>
    cases found with
    | some existed => exact .inr ⟨by simp, rfl⟩
    | none =>
      cases executes with
      | false => exact .inr ⟨by simp, rfl⟩
      | true => exact .inl ⟨⟨rfl, rfl⟩, rfl⟩

theorem mem_of_mem_push {s : ExecutionScheduler} {stateVersion : Nat} {e : ExecutionPackedTxs}
    (he : e ∈ (s.push stateVersion).exePackedTxsList) :
    e ∈ s.exePackedTxsList ∨ e = s.nextBatch stateVersion := by
  have hlist : e ∈ s.exePackedTxsList ++ [s.nextBatch stateVersion] := by
    simp only [push, shorten] at he
    split_ifs at he
    · exact List.mem_of_mem_drop he
    · exact he
  simpa using hlist

theorem mem_of_CompositionStateOfExePackedTxs {s : ExecutionScheduler} {stateVersion : Nat}
    {c : CompState} (hfind : s.CompositionStateOfExePackedTxs stateVersion = some c) :
    ∃ e ∈ s.exePackedTxsList, e.compState = c := by
  obtain ⟨e, he, hc⟩ := Option.map_eq_some_iff.mp hfind
  exact ⟨e, List.mem_of_find?_eq_some he, hc⟩

end ExecutionScheduler

end Topia.Execution
