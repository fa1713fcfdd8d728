import Topia.Lib.Search
import Topia.Transaction.Basic

/-!
# Wrapped transactions and sorted lists

`tx_wrapper.go`, `tx_wrapper_uni.go` and `tx_sort.go` of the transaction pool: a transaction with
what the pool knows about it, the three orders, and the lists that `sort.Search` keeps. `addTx` puts
a transaction in front of the first one that is less than it, so the list runs from the last to the
first of its order.
-/

namespace Topia.TransactionPool

open Lib Transaction

abbrev Address := Bytes
abbrev TxID := Bytes

inductive SortWay where
  | misc
  | height
  | time
deriving DecidableEq, Repr

inductive TxState where
  | unknown
  | added
  | packed
  | published
  | republished
  | droppedForTxPoolFull
  | removed
deriving DecidableEq, Repr

/-- `TxWrapperUni`. Identifier, size, sender and nonce are the transaction's. -/
structure TxWrapper (T : TxCodec) where
  orginTx : Transaction
  txState : TxState
  timeStamp : Int
  (height gasPrice : Nat)
deriving DecidableEq, Repr

/-- The universal part is unreadable, or a panic, for another category or a missing head. -/
inductive GenerateError where
  | unmarshal
  | panics
deriving DecidableEq, Repr

namespace TxWrapper

variable {T : TxCodec}

def TxID (wTx : TxWrapper T) : TransactionPool.TxID := wTx.orginTx.TxID T

def Size (wTx : TxWrapper T) : Nat := wTx.orginTx.Size

def FromAddr (wTx : TxWrapper T) : Address := wTx.orginTx.Head.FromAddr

def Nonce (wTx : TxWrapper T) : Nat := wTx.orginTx.Head.Nonce

theorem Nonce_lt (wTx : TxWrapper T) : wTx.Nonce < 2 ^ 64 := wTx.orginTx.nonce_lt

def GenerateTxWrapper (T : TxCodec) (tx : Transaction) (height : Nat) (now : Int) :
    Except GenerateError (TxWrapper T) :=
  if tx.Head.Category = TransactionCategory_Topia_Universal then
    match T.unmarshalUni tx.Specification with
    | none => .error .unmarshal
    | some none => .error .panics
    | some (some head) => .ok ⟨tx, .unknown, now, height, head.GasPrice⟩
  else .error .panics

/-- The order `SortWay_Misc`. Its last condition does not ask for equal prices. -/
def lessMisc (tw target : TxWrapper T) : Bool :=
  if tw.gasPrice > target.gasPrice then true
  else if tw.gasPrice = target.gasPrice ∧ tw.height < target.height then true
  else if tw.height = target.height ∧ tw.timeStamp < target.timeStamp then true
  else false

def Less (tw : TxWrapper T) (sWay : SortWay) (target : TxWrapper T) : Bool :=
  match sWay with
  | .misc => tw.lessMisc target
  | .height => decide (tw.height < target.height)
  | .time => decide (tw.timeStamp < target.timeStamp)

def CanReplace (tw other : TxWrapper T) : Bool :=
  decide (tw.txState ≠ .packed ∧ other.FromAddr = tw.FromAddr ∧ other.Nonce = tw.Nonce ∧
    other.gasPrice > tw.gasPrice)

theorem GenerateTxWrapper_orginTx {tx : Transaction} {height : Nat} {now : Int}
    {wTx : TxWrapper T} (hok : GenerateTxWrapper T tx height now = .ok wTx) :
    wTx.orginTx = tx ∧ wTx.height = height := by
  unfold GenerateTxWrapper at hok
  split at hok
  · split at hok <;> cases hok
    exact ⟨rfl, rfl⟩
  · cases hok

theorem orginTx_eq_of_TxID_eq {w w' : TxWrapper T} (hid : w.TxID = w'.TxID) :
    w.orginTx = w'.orginTx :=
  TxID_inj hid

def plain (fromAddr : UInt8) (nonce : Fin 64) (gasPrice : Nat) (timeStamp : Int) (height : Nat) :
    TxWrapper plainCodec :=
  ⟨plainTx fromAddr nonce gasPrice, .unknown, timeStamp, height, gasPrice⟩

end TxWrapper

structure SortedTxList (T : TxCodec) where
  sWay : SortWay
  txList : List (TxWrapper T)
deriving DecidableEq, Repr

namespace SortedTxList

variable {T : TxCodec} {st : SortedTxList T} {w wTx : TxWrapper T} {txID : TxID}

def newSortedTxList (T : TxCodec) (sWay : SortWay) : SortedTxList T := ⟨sWay, []⟩

def index (st : SortedTxList T) (wTx : TxWrapper T) : Nat :=
  search st.txList.length (fun i => (st.txList[i]?).any (fun tw => tw.Less st.sWay wTx))

def addTx (st : SortedTxList T) (wTx : TxWrapper T) : SortedTxList T :=
  { st with txList := st.txList.insertIdx (st.index wTx) wTx }

def getTx (st : SortedTxList T) (txID : TxID) : Option (TxWrapper T) :=
  st.txList.find? (fun wTx => decide (wTx.TxID = txID))

def removeTx (st : SortedTxList T) (txID : TxID) : SortedTxList T :=
  { st with txList := st.txList.eraseP (fun wTx => decide (wTx.TxID = txID)) }

def pickLoop (blockMaxBytes : Int) : Nat → List (TxWrapper T) → List Transaction
  | _, [] => []
  | totalSize, wTx :: rest =>
    if blockMaxBytes < totalSize + wTx.Size then []
    else wTx.orginTx :: pickLoop blockMaxBytes (totalSize + wTx.Size) rest

def pickTxs (st : SortedTxList T) (blockMaxBytes _blockMaxGas : Int) : List Transaction :=
  pickLoop blockMaxBytes 0 st.txList

open List

theorem addTx_perm (st : SortedTxList T) (wTx : TxWrapper T) :
    (st.addTx wTx).txList.Perm (wTx :: st.txList) :=
  perm_insertIdx _ _ search_le

@[simp] theorem mem_addTx : w ∈ (st.addTx wTx).txList ↔ w = wTx ∨ w ∈ st.txList := by
  rw [(addTx_perm st wTx).mem_iff, mem_cons]

theorem addTx_txList (st : SortedTxList T) (wTx : TxWrapper T) : (st.addTx wTx).txList =
    st.txList.take (st.index wTx) ++ wTx :: st.txList.drop (st.index wTx) := by
  have hinsert : ∀ (l : List (TxWrapper T)) (i : Nat), i ≤ l.length →
      l.insertIdx i wTx = l.take i ++ wTx :: l.drop i := by
    intro l
    induction l with
    | nil =>
      intro i hi
      cases Nat.le_zero.mp hi
      rfl
    | cons x l ih =>
      intro i hi
      cases i with
      | zero => rfl
      | succ i => simp [ih i (Nat.le_of_succ_le_succ hi)]
  exact hinsert _ _ search_le

theorem filter_addTx_of_not {p : TxWrapper T → Bool} (hp : p wTx = false) :
    (st.addTx wTx).txList.filter p = st.txList.filter p := by
  rw [addTx_txList, filter_append, filter_cons_of_neg (by simp [hp]), ← filter_append,
    take_append_drop]

theorem TxID_of_getTx (hget : st.getTx txID = some wTx) : wTx.TxID = txID := by
  have hfound := find?_some hget
  simpa using hfound

theorem mem_of_getTx (hget : st.getTx txID = some wTx) : wTx ∈ st.txList :=
  mem_of_find?_eq_some hget

theorem getTx_eq_none_iff : st.getTx txID = none ↔ ∀ w ∈ st.txList, w.TxID ≠ txID := by
  simp [getTx, find?_eq_none]

theorem removeTx_perm (hget : st.getTx txID = some wTx) :
    st.txList.Perm (wTx :: (st.removeTx txID).txList) := by
  obtain ⟨_, as, bs, hsplit, hbefore⟩ := find?_eq_some_iff_append.mp hget
  have hnone : ∀ w ∈ as, ¬ (decide (w.TxID = txID)) = true := by
    intro w hw
    simpa using hbefore w hw
  have hleft : (st.removeTx txID).txList = as ++ bs := by
    simp only [removeTx, hsplit]
    rw [eraseP_append_right _ hnone, eraseP_cons]
    simp [TxID_of_getTx hget]
  rw [hsplit, hleft]
  exact perm_middle

theorem removeTx_of_getTx_none (hget : st.getTx txID = none) : st.removeTx txID = st := by
  have hnone : ∀ w ∈ st.txList, ¬ (decide (w.TxID = txID)) = true := by
    simpa using getTx_eq_none_iff.mp hget
  simp [removeTx, eraseP_of_forall_not hnone]

theorem pickLoop_prefix (blockMaxBytes : Int) (totalSize : Nat) (l : List (TxWrapper T)) :
    pickLoop blockMaxBytes totalSize l <+: l.map TxWrapper.orginTx := by
  induction l generalizing totalSize with
  | nil => exact nil_prefix
  | cons x l ih =>
    unfold pickLoop
    split_ifs with hfull
    · exact nil_prefix
    · exact cons_prefix_cons.mpr ⟨rfl, ih _⟩

theorem pickTxs_prefix (st : SortedTxList T) (blockMaxBytes blockMaxGas : Int) :
    st.pickTxs blockMaxBytes blockMaxGas <+: st.txList.map TxWrapper.orginTx :=
  pickLoop_prefix blockMaxBytes 0 st.txList

theorem pickLoop_all {blockMaxBytes : Int} {totalSize : Nat} {l : List (TxWrapper T)}
    (hlimit : (totalSize + (l.map TxWrapper.Size).sum : Nat) ≤ blockMaxBytes) :
    pickLoop blockMaxBytes totalSize l = l.map TxWrapper.orginTx := by
  induction l generalizing totalSize with
  | nil => rfl
  | cons x l ih =>
    simp only [map_cons, sum_cons] at hlimit
    unfold pickLoop
    rw [if_neg (by omega), ih (by omega)]
    rfl

theorem pickTxs_all {blockMaxBytes : Int} (blockMaxGas : Int)
    (hlimit : ((st.txList.map TxWrapper.Size).sum : Nat) ≤ blockMaxBytes) :
    st.pickTxs blockMaxBytes blockMaxGas = st.txList.map TxWrapper.orginTx :=
  pickLoop_all (by simpa using hlimit)

end SortedTxList

end Topia.TransactionPool
