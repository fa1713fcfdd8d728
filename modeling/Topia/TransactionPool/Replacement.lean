import Topia.TransactionPool.Pool
import Topia.TransactionPool.Removal

/-!
# The replacement of a transaction

`UpdateTx` of the pool: a transaction that `CanReplace` another one goes through `addTx`, which
refuses the nonce of a transaction that is pending or waits.  The old transaction is taken out of
the store, and out of nothing else.
-/

namespace Topia.TransactionPool

open Lib Transaction AccountTxManager

namespace Pool

variable {T : TxCodec} {p p' : Pool T} {tx : Transaction} {oldTxID : TxID}
  {curHeight curHeight' : Option Nat} {now now' : Int}

/-- The transaction, wrapped as `wTx`, can replace the one with the identifier. -/
def Replaces (p : Pool T) (tx : Transaction) (oldTxID : TxID) (curHeight : Option Nat) (now : Int)
    (wTx : TxWrapper T) : Prop :=
  ∃ wTxOld, p.txsCollect.GetTx oldTxID = some wTxOld ∧
    (∃ h, curHeight = some h ∧ TxWrapper.GenerateTxWrapper T tx h now = .ok wTx) ∧
    wTxOld.CanReplace wTx = true

structure ReplacesRight (p : Pool T) (tx : Transaction) (oldTxID : TxID)
    (curHeight curHeight' : Option Nat) (now now' : Int) : Prop where
  replaced : ∀ wTx, p.Replaces tx oldTxID curHeight now wTx →
    ∃ p', p.UpdateTx tx oldTxID curHeight curHeight' now now' = some (.ok (), p') ∧
      p'.txsCollect.Absent oldTxID ∧ p'.store.lookup oldTxID = none ∧
      p'.txCount = p.txCount ∧ (p'.txsCollect.GetTx wTx.TxID).isSome ∧
      ∃ w, ((p'.txsCollect.account wTx.FromAddr).pendingTxs.lookup wTx.Nonce = some w ∨
        (p'.txsCollect.account wTx.FromAddr).gapTxs.lookup wTx.Nonce = some w) ∧
        w.TxID = wTx.TxID
  unchanged : ∀ result p', p.UpdateTx tx oldTxID curHeight curHeight' now now' = some (result, p') →
    (∃ err, result = .error err) ∨ (∀ wTx, ¬ p.Replaces tx oldTxID curHeight now wTx) → p' = p

theorem getTx_UpdateTx {result : Except PoolError Unit} {txID : TxID}
    (hupdate : p.UpdateTx tx oldTxID curHeight curHeight' now now' = some (result, p'))
    (hheld : (p.txsCollect.GetTx txID).isSome) : (p'.txsCollect.GetTx txID).isSome := by
  rcases UpdateTx_cases hupdate with ⟨rfl, _⟩ | ⟨_, wTx, added, q, _, _, _, hadd, hcase⟩
  · exact hheld
  have hq : (q.txsCollect.GetTx txID).isSome := by
    rcases addTx_cases hadd with ⟨rfl, _⟩ | ⟨w, _, hfull, _⟩
    · exact hheld
    · rw [CollectTxs.GetTx, hfull, AList.lookup_isSome, AList.mem_insert]
      exact .inr (AList.lookup_isSome.mp hheld)
  rcases hcase with ⟨_, rfl⟩ | ⟨_, rfl⟩
  · exact hq
  · exact hq

/-- **When a replacement is right.** `UpdateTx` does what is expected exactly when the transaction
cannot replace the old one. -/
theorem replacesRight_iff (p : Pool T) (tx : Transaction) (oldTxID : TxID)
    (curHeight curHeight' : Option Nat) (now now' : Int) :
    p.ReplacesRight tx oldTxID curHeight curHeight' now now' ↔
      ∀ wTx, ¬ p.Replaces tx oldTxID curHeight now wTx := by
  constructor
  · rintro h wTx hreplaces
    obtain ⟨p', hupdate, habsent, -⟩ := h.replaced wTx hreplaces
    obtain ⟨wTxOld, hold, -⟩ := hreplaces
    have hstays : (p'.txsCollect.GetTx oldTxID).isSome :=
      getTx_UpdateTx hupdate (Option.isSome_of_eq_some hold)
    rw [CollectTxs.GetTx, habsent.full] at hstays
    cases hstays
  · intro hnone
    refine ⟨fun wTx hreplaces => absurd hreplaces (hnone wTx), fun result p' hupdate _ => ?_⟩
    rcases UpdateTx_cases hupdate with ⟨rfl, _⟩ | ⟨wTxOld, wTx, _, _, hold, hwrap, hcan, _⟩
    · rfl
    · exact absurd ⟨wTxOld, hold, hwrap, hcan⟩ (hnone wTx)

/-- One pending transaction, and one of its nonce with twice the price: the call fails, and both are
held. -/
theorem update_keeps_old :
    ∃ p p' err, [PoolEvent.addTx (plainTx 1 1 1) true (some 100) 0].foldlM step
        (empty plainCodec DefaultTransactionPoolConfig) = some p ∧
      p.UpdateTx (plainTx 1 1 2) ((plainTx 1 1 1).TxID plainCodec) (some 100) (some 100) 1 1 =
        some (.error err, p') ∧
      (p.txsCollect.GetTx ((plainTx 1 1 2).TxID plainCodec)).isSome = false ∧
      (p'.txsCollect.GetTx ((plainTx 1 1 2).TxID plainCodec)).isSome = true ∧
      (p'.txsCollect.GetTx ((plainTx 1 1 1).TxID plainCodec)).isSome = true :=
  ⟨_, _, _, rfl, rfl, rfl, rfl, rfl⟩

end Pool

end Topia.TransactionPool
