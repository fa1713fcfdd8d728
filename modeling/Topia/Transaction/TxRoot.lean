import Topia.Lib.AuthMap
import Topia.Lib.Run
import Topia.Transaction.Basic

/-!
# Roots of transactions and of their results

`TxRoot`, `TxRootByBytes` and `TxResultRoot` of `transaction/basic` write the hash of every
transaction or result to a new sparse Merkle tree, as its own key and value. An executor of
`consensus/executor.go` compares the root of the transactions in a packed message with the root that
it names, and executes them in their order.

The Blake2b hash is taken to have no collisions, and to be never empty.
-/

namespace Topia.Transaction

open Lib

structure TransactionResultHead where
  (Category ChainID : Bytes)
  Version : Nat
deriving DecidableEq, Repr

structure TransactionResult where
  Head : TransactionResultHead
  Specification : Bytes
deriving DecidableEq, Repr

open Function

structure RootCodec where
  compute : Bytes → Bytes
  compute_injective : Injective compute
  compute_ne_nil : ∀ b, compute b ≠ []
  unmarshalTx : Bytes → Option Transaction
  unmarshalTx_bytes : ∀ tx : Transaction, unmarshalTx tx.TxBytes = some tx

section Results

variable {r r' : TransactionResult}

open ProtoWire

def TransactionResultHead.fields (h : TransactionResultHead) : List Field :=
  [⟨1, .bytes h.Category⟩, ⟨2, .bytes h.ChainID⟩, ⟨3, .number h.Version⟩]

def TransactionResult.fields (r : TransactionResult) : List Field :=
  [⟨1, .message (some (encode r.Head.fields))⟩,
    ⟨2, .message (some (encode [⟨1, .bytes r.Specification⟩]))⟩]

def MarshalResult (r : TransactionResult) : Bytes :=
  encode r.fields

theorem MarshalResult_inj (heq : MarshalResult r = MarshalResult r') : r = r' := by
  obtain ⟨hhead, hspec⟩ := head_and_data_inj
    (by simp [SameShape, TransactionResultHead.fields, Value.SameKind])
    (by simp [TransactionResultHead.fields]) heq
  obtain ⟨⟨c, ci, v⟩, spec⟩ := r
  obtain ⟨⟨c', ci', v'⟩, spec'⟩ := r'
  obtain ⟨rfl, rfl, rfl⟩ := hhead
  obtain rfl : spec = spec' := hspec
  rfl

end Results

variable (M : AuthMap 32) (C : RootCodec)

def HashBytes (tx : Transaction) : Bytes :=
  C.compute tx.TxBytes

def ResultHashBytes (r : TransactionResult) : Bytes :=
  C.compute (MarshalResult r)

def TxRoot (txs : List Transaction) : Bytes :=
  keyRoot M (txs.map (HashBytes C))

def TxRootByBytes (txsBytes : List Bytes) : Bytes :=
  keyRoot M (txsBytes.map C.compute)

def TxResultRoot (txResults : List TransactionResult) (_txs : List Transaction) : Bytes :=
  keyRoot M (txResults.map (ResultHashBytes C))

/-- `receivePreparePackedMessageExeStart`; `none` when one cannot be decoded or the roots differ. -/
def receivePreparePackedMessageExe (txRoot : Bytes) (txs : List Bytes) :
    Option (List Transaction) :=
  (txs.mapM C.unmarshalTx).bind fun receivedTxList =>
    if TxRootByBytes M C txs = txRoot then some receivedTxList else none

def TxRootBinds (txs txs' : List Transaction) : Prop :=
  TxRoot M C txs = TxRoot M C txs' → txs = txs'

def TxResultRootBinds (rs rs' : List TransactionResult) (txs txs' : List Transaction) : Prop :=
  TxResultRoot M C rs txs = TxResultRoot M C rs' txs' → rs = rs'

/-- An executor that accepts bytes under the launcher's root executes the launcher's
transactions. -/
def ExecutesSame (txs : List Transaction) (received : List Bytes) : Prop :=
  ∀ executed,
    receivePreparePackedMessageExe M C (TxRoot M C txs) received = some executed → executed = txs

def Rearranged {α : Type} (as bs : List α) : Prop :=
  (∀ a, a ∈ as ↔ a ∈ bs) ∧ as ≠ bs

section Binding

variable {M C} {α : Type} {f : α → Bytes}

theorem keyRoot_map_eq_iff (hf : Injective f) (hne : ∀ a, f a ≠ []) (as bs : List α) :
    keyRoot M (as.map f) = keyRoot M (bs.map f) ↔ ∀ a, a ∈ as ↔ a ∈ bs := by
  rw [keyRoot_eq_iff]
  constructor
  · intro hkeys a
    have hkey := hkeys (f a) (hne a)
    rwa [List.mem_map_of_injective hf, List.mem_map_of_injective hf] at hkey
  · intro hmem key _
    simp [hmem]

theorem keyRoot_binds_iff (hf : Injective f) (hne : ∀ a, f a ≠ []) (as bs : List α) :
    (keyRoot M (as.map f) = keyRoot M (bs.map f) → as = bs) ↔ ¬ Rearranged as bs := by
  rw [keyRoot_map_eq_iff hf hne, Rearranged, not_and_not_right]

theorem HashBytes_injective : Injective (HashBytes C) := by
  intro tx tx' heq
  exact TxBytes_inj (C.compute_injective heq)

theorem ResultHashBytes_injective : Injective (ResultHashBytes C) := by
  intro r r' heq
  exact MarshalResult_inj (C.compute_injective heq)

variable (txs : List Transaction)

theorem TxRootByBytes_bytes : TxRootByBytes M C (txs.map TxBytes) = TxRoot M C txs := by
  rw [TxRootByBytes, TxRoot, List.map_map]
  rfl

theorem mapM_unmarshalTx : (txs.map TxBytes).mapM C.unmarshalTx = some txs := by
  rw [mapM_eq_some_iff, List.map_map]
  exact List.map_congr_left fun tx _ => C.unmarshalTx_bytes tx

theorem exists_txs_of_root_eq {txs : List Transaction} {received : List Bytes}
    (hmem : ∀ b, b ∈ received ↔ b ∈ txs.map TxBytes) :
    ∃ sent : List Transaction, sent.map TxBytes = received := by
  have hrange : received ∈ Set.range (List.map TxBytes) := by
    rw [Set.range_list_map]
    intro b hb
    obtain ⟨tx, _, htx⟩ := List.mem_map.mp ((hmem b).mp hb)
    exact ⟨tx, htx⟩
  exact hrange

theorem executesSame_iff (received : List Bytes) :
    ExecutesSame M C txs received ↔ ¬ Rearranged received (txs.map TxBytes) := by
  have hroot :
      TxRootByBytes M C received = TxRoot M C txs ↔ ∀ b, b ∈ received ↔ b ∈ txs.map TxBytes := by
    rw [← TxRootByBytes_bytes]
    exact keyRoot_map_eq_iff C.compute_injective C.compute_ne_nil _ _
  rw [Rearranged, not_and_not_right]
  constructor
  · intro hexecutes hmem
    obtain ⟨sent, rfl⟩ := exists_txs_of_root_eq hmem
    have hsame : sent = txs := by
      refine hexecutes sent ?_
      simp only [receivePreparePackedMessageExe, mapM_unmarshalTx, Option.bind_some]
      rw [if_pos (hroot.mpr hmem)]
    rw [hsame]
  · intro hequal executed hreceive
    obtain ⟨decoded, hdecoded, hcheck⟩ := Option.bind_eq_some_iff.mp hreceive
    split_ifs at hcheck with heq
    cases hcheck
    have hbytes := hequal (hroot.mp heq)
    rw [hbytes, mapM_unmarshalTx] at hdecoded
    exact (Option.some.inj hdecoded).symm

end Binding

/-- **Roots bind lists up to order and repetitions**: of transactions, of results, and of what is
executed. -/
theorem txRoot_binds_iff
    (txs txs' : List Transaction) (rs rs' : List TransactionResult) (received : List Bytes) :
    TxRootBinds M C txs txs' ∧ TxResultRootBinds M C rs rs' txs txs' ∧
        ExecutesSame M C txs received ↔
      ¬ Rearranged txs txs' ∧ ¬ Rearranged rs rs' ∧ ¬ Rearranged received (txs.map TxBytes) := by
  have htxs : TxRootBinds M C txs txs' ↔ ¬ Rearranged txs txs' :=
    keyRoot_binds_iff HashBytes_injective (fun tx => C.compute_ne_nil _) txs txs'
  have hresults : TxResultRootBinds M C rs rs' txs txs' ↔ ¬ Rearranged rs rs' :=
    keyRoot_binds_iff ResultHashBytes_injective (fun r => C.compute_ne_nil _) rs rs'
  rw [htxs, hresults, executesSame_iff]

noncomputable def plainRootCodec : RootCodec where
  compute b := 0 :: b
  compute_injective := List.cons_injective
  compute_ne_nil := List.cons_ne_nil 0
  unmarshalTx := partialInv TxBytes
  unmarshalTx_bytes := partialInv_left fun _ _ => TxBytes_inj

/-- Two transactions have one root in either order, so have their results, and are executed as
sent. -/
theorem txRoot_fails_on_exchanged_txs :
    ¬ TxRootBinds (finsuppAuthMap 32) plainRootCodec
        [plainTx 1 0 1, plainTx 1 1 1] [plainTx 1 1 1, plainTx 1 0 1] ∧
      ¬ TxResultRootBinds (finsuppAuthMap 32) plainRootCodec
        [⟨⟨[], [], 1⟩, [1]⟩, ⟨⟨[], [], 1⟩, [2]⟩] [⟨⟨[], [], 1⟩, [2]⟩, ⟨⟨[], [], 1⟩, [1]⟩]
        [plainTx 1 0 1, plainTx 1 1 1] [plainTx 1 1 1, plainTx 1 0 1] ∧
      receivePreparePackedMessageExe (finsuppAuthMap 32) plainRootCodec
        (TxRoot (finsuppAuthMap 32) plainRootCodec [plainTx 1 0 1, plainTx 1 1 1])
        ([plainTx 1 1 1, plainTx 1 0 1].map TxBytes) =
        some [plainTx 1 1 1, plainTx 1 0 1] := by
  have htxs : Rearranged [plainTx 1 0 1, plainTx 1 1 1] [plainTx 1 1 1, plainTx 1 0 1] :=
    ⟨fun tx => by simp [or_comm], by decide⟩
  have hresults :
      Rearranged [(⟨⟨[], [], 1⟩, [1]⟩ : TransactionResult), ⟨⟨[], [], 1⟩, [2]⟩]
        [⟨⟨[], [], 1⟩, [2]⟩, ⟨⟨[], [], 1⟩, [1]⟩] :=
    ⟨fun r => by simp [or_comm], by decide⟩
  refine ⟨?_, ?_, ?_⟩
  · intro hbinds
    exact (keyRoot_binds_iff HashBytes_injective
      (fun tx => plainRootCodec.compute_ne_nil _) _ _).mp hbinds htxs
  · intro hbinds
    exact (keyRoot_binds_iff ResultHashBytes_injective
      (fun r => plainRootCodec.compute_ne_nil _) _ _).mp hbinds hresults
  · simp only [receivePreparePackedMessageExe, mapM_unmarshalTx, Option.bind_some]
    refine if_pos ?_
    exact (keyRoot_map_eq_iff HashBytes_injective
      (fun tx => plainRootCodec.compute_ne_nil _) _ _).mpr fun tx => (htxs.1 tx).symm

end Topia.Transaction
