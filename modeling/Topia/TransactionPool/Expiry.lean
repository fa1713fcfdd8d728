import Topia.TransactionPool.Collect

/-!
# The purge of expired transactions

`PurgeExpiredTxs` holds the lock of the pending list and calls `removeTx` of the list, which takes
the same lock.  A `sync.RWMutex` is not reentrant, so that the first transaction to be removed stops
the purge for good.  By height only those are removed whose lifecycle ends at the current height.
-/

namespace Topia.TransactionPool

open Lib Transaction AccountTxManager

namespace CollectTxs

variable {T : TxCodec} {c c' : CollectTxs T}

/-- `removeTx` of `pendingTxList`; `none` when the caller holds the lock. -/
def removePending (locked : Bool) (c : CollectTxs T) (txID : TxID) : Option (CollectTxs T) :=
  if locked then none
  else some { c with
    sortedTxs := c.sortedTxs.removeTx txID
    heightTxs := c.heightTxs.removeTx txID
    timeTxs := c.timeTxs.removeTx txID }

def purgeLoop (due : TxWrapper T → Bool) : List (TxWrapper T) → CollectTxs T →
    Option (CollectTxs T)
  | [], c => some c
  | wTx :: rest, c =>
    if due wTx then (removePending true c wTx.TxID).bind (purgeLoop due rest)
    else purgeLoop due rest c

def dueByHeight (height heightOfTxLifecycle : Nat) (wTx : TxWrapper T) : Bool :=
  decide (height = wrap64 (wTx.height + heightOfTxLifecycle))

def dueByTime (now timeOfTxLifecycle : Int) (wTx : TxWrapper T) : Bool :=
  decide (timeOfTxLifecycle < now - wTx.timeStamp)

def PurgeExpiredTxs (c : CollectTxs T) (height : Nat) (timeOfTxLifecycle : Int)
    (heightOfTxLifecycle : Nat) (now : Int) : Option (CollectTxs T) :=
  (purgeLoop (dueByHeight height heightOfTxLifecycle) c.heightTxs.txList c).bind fun c' =>
    purgeLoop (dueByTime now timeOfTxLifecycle) c'.timeTxs.txList c'

def Pending (c : CollectTxs T) (w : TxWrapper T) : Prop :=
  w ∈ c.sortedTxs.txList ∨ w ∈ c.heightTxs.txList ∨ w ∈ c.timeTxs.txList ∨
    ∃ addr n, (c.account addr).pendingTxs.lookup n = some w

def Expired (c : CollectTxs T) (height : Nat) (timeOfTxLifecycle : Int)
    (heightOfTxLifecycle : Nat) (now : Int) (w : TxWrapper T) : Prop :=
  c.Pending w ∧ (w.height + heightOfTxLifecycle ≤ height ∨ timeOfTxLifecycle < now - w.timeStamp)

def Purges (c : CollectTxs T) (result : Option (CollectTxs T)) (gone : TxWrapper T → Prop) : Prop :=
  ∃ c', result = some c' ∧
    (∀ w, w ∈ c'.sortedTxs.txList ↔ w ∈ c.sortedTxs.txList ∧ ¬ gone w) ∧
    (∀ w, w ∈ c'.heightTxs.txList ↔ w ∈ c.heightTxs.txList ∧ ¬ gone w) ∧
    (∀ w, w ∈ c'.timeTxs.txList ↔ w ∈ c.timeTxs.txList ∧ ¬ gone w) ∧
    (∀ addr n w, (c'.account addr).pendingTxs.lookup n = some w ↔
      (c.account addr).pendingTxs.lookup n = some w ∧ ¬ gone w) ∧
    ∀ txID w, c'.fullTxs.lookup txID = some w ↔ c.fullTxs.lookup txID = some w ∧ ¬ gone w

theorem purgeLoop_eq {due : TxWrapper T → Bool} {l : List (TxWrapper T)} :
    purgeLoop due l c = some c' ↔ (∀ w ∈ l, due w = false) ∧ c' = c := by
  induction l with
  | nil =>
    rw [purgeLoop, Option.some.injEq, eq_comm]
    simp
  | cons wTx rest ih =>
    rw [purgeLoop, List.forall_mem_cons]
    split_ifs with hdue
    · simp [removePending, hdue]
    · rw [ih]
      simp [hdue]

theorem purgeExpiredTxs_eq {height heightOfTxLifecycle : Nat} {timeOfTxLifecycle now : Int} :
    c.PurgeExpiredTxs height timeOfTxLifecycle heightOfTxLifecycle now = some c' ↔
      (∀ w ∈ c.heightTxs.txList, dueByHeight height heightOfTxLifecycle w = false) ∧
      (∀ w ∈ c.timeTxs.txList, dueByTime now timeOfTxLifecycle w = false) ∧ c' = c := by
  rw [PurgeExpiredTxs, Option.bind_eq_some_iff]
  constructor
  · rintro ⟨d, hheight, htime⟩
    obtain ⟨hheight, rfl⟩ := purgeLoop_eq.mp hheight
    exact ⟨hheight, purgeLoop_eq.mp htime⟩
  · rintro ⟨hheight, htime, rfl⟩
    exact ⟨c', purgeLoop_eq.mpr ⟨hheight, rfl⟩, purgeLoop_eq.mpr ⟨htime, rfl⟩⟩

/-- **When a purge is right.** The purge returns and has removed the expired transactions exactly
when none is expired and none has, in `uint64` arithmetic, its last height now. -/
theorem purgeRight_iff (c : CollectTxs T) (height : Nat) (timeOfTxLifecycle : Int)
    (heightOfTxLifecycle : Nat) (now : Int) :
    c.Purges (c.PurgeExpiredTxs height timeOfTxLifecycle heightOfTxLifecycle now)
        (c.Expired height timeOfTxLifecycle heightOfTxLifecycle now) ↔
      (∀ w, ¬ c.Expired height timeOfTxLifecycle heightOfTxLifecycle now w) ∧
      ∀ w ∈ c.heightTxs.txList, dueByHeight height heightOfTxLifecycle w = false := by
  constructor
  · rintro ⟨c', hpurge, hsorted, hheights, htimes, haccounts, -⟩
    obtain ⟨hheight, -, rfl⟩ := purgeExpiredTxs_eq.mp hpurge
    refine ⟨fun w hexpired => ?_, hheight⟩
    rcases hexpired.1 with hw | hw | hw | ⟨addr, n, hw⟩
    · exact ((hsorted w).mp hw).2 hexpired
    · exact ((hheights w).mp hw).2 hexpired
    · exact ((htimes w).mp hw).2 hexpired
    · exact ((haccounts addr n w).mp hw).2 hexpired
  · rintro ⟨hnone, hheight⟩
    have htime : ∀ w ∈ c.timeTxs.txList, dueByTime now timeOfTxLifecycle w = false := by
      intro w hw
      rw [dueByTime, decide_eq_false_iff_not]
      exact fun hlate => hnone w ⟨.inr (.inr (.inl hw)), .inr hlate⟩
    refine ⟨c, purgeExpiredTxs_eq.mpr ⟨hheight, htime, rfl⟩, ?_⟩
    simp [hnone]

/-- Height 1 with a lifecycle of one: at height 2 the purge does not return, at height 3 it leaves
the transaction. -/
theorem purge_stops :
    PurgeExpiredTxs ((NewCollectTxs plainCodec).enlist (.plain 1 1 1 0 1)) 2 10 1 0 = none ∧
      (PurgeExpiredTxs ((NewCollectTxs plainCodec).enlist (.plain 1 1 1 0 1)) 3 10 1 0).map
        (fun c => c.sortedTxs.txList) = some [.plain 1 1 1 0 1] :=
  ⟨rfl, rfl⟩

end CollectTxs

end Topia.TransactionPool
