import Topia.Chain.BlockCollector
import Topia.Transaction.TxRoot

/-!
# Block information from the network

`Validate` of `chain/blockinfo_sub.go` on the bytes of a message. The head and the data of a block,
and the data of its result, may be missing, and are not checked. A data chunk names its head chunk
by an index, and its result by its position; the lengths are not compared with anything. Errors of
decoding a chunk are ignored.
-/

namespace Topia.Chain

open Lib Transaction

inductive ValidationResult where
  | accept
  | reject
  | ignore
deriving DecidableEq, Repr

structure BlockDataChunk where
  (Version RefIndex : Nat)
  Txs : List Bytes
deriving DecidableEq, Repr

structure BlockResultDataChunk where
  Version : Nat
  TxResults : List Bytes
deriving DecidableEq, Repr

structure BlockInfo where
  Head : Option BlockHead
  Data : Option BlockData
  RSData : Option BlockResultData

structure InfoCodec where
  unmarshalChainMessage : Bytes → Option Bytes
  unmarshalBlockInfo : Bytes → Option (Bytes × Bytes)
  unmarshalBlock : Bytes → Option (Option BlockHead × Option BlockData)
  unmarshalBlockResult : Bytes → Option (Option BlockResultData)
  headChunk : Bytes → BlockHeadChunk
  dataChunk : Bytes → BlockDataChunk
  resultDataChunk : Bytes → BlockResultDataChunk

structure BlockInfoSubProcessor where
  codec : InfoCodec
  M : AuthMap 32
  C : RootCodec
  MaxTxCountOfEachBlock : Nat

namespace BlockInfoSubProcessor

variable (bsp : BlockInfoSubProcessor)

/-- The unmarshaling in `Validate`; nil data is refused, too. -/
def parse (data : Option Bytes) : Option BlockInfo := do
  let chainMsg ← bsp.codec.unmarshalChainMessage (← data)
  let (blockBytes, resultBytes) ← bsp.codec.unmarshalBlockInfo chainMsg
  let (head, blockData) ← bsp.codec.unmarshalBlock blockBytes
  let rsData ← bsp.codec.unmarshalBlockResult resultBytes
  return ⟨head, blockData, rsData⟩

variable (head : BlockHead) (rsData : Option BlockResultData) (i : Nat) (chunk : Bytes)

/-- One round of `validateRemoteBlockInfo`; `none` is an index out of range or no result. -/
def checkChunk (dataChunkBytes : Bytes) : Option Bool :=
  let dataChunk := bsp.codec.dataChunk dataChunkBytes
  match head.HeadChunks[dataChunk.RefIndex]? with
  | none => none
  | some headChunkBytes =>
    if bsp.MaxTxCountOfEachBlock < dataChunk.Txs.length then some false
    else if TxRootByBytes bsp.M bsp.C dataChunk.Txs ≠
        (bsp.codec.headChunk headChunkBytes).TxRoot then some false
    else
      (rsData.bind fun rs => rs.ResultDataChunks[i]?).map fun resultBytes =>
        decide (dataChunk.Txs.length = (bsp.codec.resultDataChunk resultBytes).TxResults.length)

def validateLoop (head : BlockHead) (rsData : Option BlockResultData) :
    Nat → List Bytes → Option ValidationResult
  | _, [] => some .accept
  | i, dataChunkBytes :: rest =>
    match bsp.checkChunk head rsData i dataChunkBytes with
    | none => none
    | some false => some .reject
    | some true => validateLoop head rsData (i + 1) rest

def Validate (isLocal : Bool) (data : Option Bytes) : Option ValidationResult :=
  match bsp.parse data with
  | none => some .reject
  | some blockInfo =>
    -- the height is logged before anything is checked
    match blockInfo.Head with
    | none => none
    | some head =>
      if isLocal then some .accept
      else
        match blockInfo.Data with
        | none => none
        | some blockData => bsp.validateLoop head blockInfo.RSData 0 blockData.DataChunks

/-- What one round checks of a chunk, its head chunk and its result. -/
def Passes : Prop :=
  ∃ headChunkBytes rs resultBytes,
    head.HeadChunks[(bsp.codec.dataChunk chunk).RefIndex]? = some headChunkBytes ∧
    rsData = some rs ∧ rs.ResultDataChunks[i]? = some resultBytes ∧
    (bsp.codec.dataChunk chunk).Txs.length ≤ bsp.MaxTxCountOfEachBlock ∧
    TxRootByBytes bsp.M bsp.C (bsp.codec.dataChunk chunk).Txs =
      (bsp.codec.headChunk headChunkBytes).TxRoot ∧
    (bsp.codec.dataChunk chunk).Txs.length =
      (bsp.codec.resultDataChunk resultBytes).TxResults.length

/-- The chunk has a head chunk, and too many transactions, another root, or a result with another
number of transactions. -/
def Refused : Prop :=
  ∃ headChunkBytes, head.HeadChunks[(bsp.codec.dataChunk chunk).RefIndex]? = some headChunkBytes ∧
    (bsp.MaxTxCountOfEachBlock < (bsp.codec.dataChunk chunk).Txs.length ∨
      TxRootByBytes bsp.M bsp.C (bsp.codec.dataChunk chunk).Txs ≠
        (bsp.codec.headChunk headChunkBytes).TxRoot ∨
      ∃ rs resultBytes, rsData = some rs ∧ rs.ResultDataChunks[i]? = some resultBytes ∧
        (bsp.codec.dataChunk chunk).Txs.length ≠
          (bsp.codec.resultDataChunk resultBytes).TxResults.length)

section Loop

variable {bsp} {head : BlockHead} {rsData : Option BlockResultData} {i : Nat} {chunk : Bytes}
  {chunks : List Bytes}

theorem validateLoop_accept_iff :
    bsp.validateLoop head rsData i chunks = some .accept ↔
      ∀ k chunk, chunks[k]? = some chunk →
        bsp.checkChunk head rsData (i + k) chunk = some true := by
  induction chunks generalizing i with
  | nil => simp [validateLoop]
  | cons first rest ih =>
    rw [validateLoop]
    constructor
    · intro haccept k chunk hk
      split at haccept
      · cases haccept
      · cases haccept
      rename_i hfirst
      cases k with
      | zero =>
        cases hk
        exact hfirst
      | succ k =>
        rw [Nat.add_comm k 1, ← Nat.add_assoc]
        exact ih.mp haccept k chunk hk
    · intro hall
      have hfirst : bsp.checkChunk head rsData i first = some true := hall 0 first rfl
      rw [hfirst]
      refine ih.mpr fun k chunk hk => ?_
      rw [Nat.add_assoc, Nat.add_comm 1 k]
      exact hall (k + 1) chunk hk

theorem validateLoop_ne_ignore : bsp.validateLoop head rsData i chunks ≠ some .ignore := by
  induction chunks generalizing i with
  | nil => simp [validateLoop]
  | cons first rest ih =>
    rw [validateLoop]
    split
    · simp
    · simp
    · exact ih

theorem validateLoop_reject_iff :
    bsp.validateLoop head rsData i chunks = some .reject ↔
      ∃ k chunk, chunks[k]? = some chunk ∧
        bsp.checkChunk head rsData (i + k) chunk = some false ∧
        ∀ j < k, ∀ c, chunks[j]? = some c → bsp.checkChunk head rsData (i + j) c = some true := by
  induction chunks generalizing i with
  | nil => simp [validateLoop]
  | cons first rest ih =>
    rw [validateLoop]
    match hfirst : bsp.checkChunk head rsData i first with
    | none =>
      simp only [reduceCtorEq, false_iff]
      rintro ⟨k, chunk, hk, hfalse, hbefore⟩
      cases k with
      | zero => simp_all
      | succ k => simpa [hfirst] using hbefore 0 (Nat.succ_pos k) first rfl
    | some false =>
      simp only [true_iff]
      exact ⟨0, first, rfl, hfirst, fun j hj => absurd hj (Nat.not_lt_zero j)⟩
    | some true =>
      simp only [ih]
      constructor
      · rintro ⟨k, chunk, hk, hfalse, hbefore⟩
        refine ⟨k + 1, chunk, hk, by rwa [Nat.add_comm k, ← Nat.add_assoc], ?_⟩
        intro j hj c hc
        cases j with
        | zero =>
          cases hc
          exact hfirst
        | succ j =>
          rw [Nat.add_comm j, ← Nat.add_assoc]
          exact hbefore j (Nat.lt_of_succ_lt_succ hj) c hc
      · rintro ⟨k, chunk, hk, hfalse, hbefore⟩
        cases k with
        | zero => simp_all
        | succ k =>
          refine ⟨k, chunk, hk, by rwa [Nat.add_assoc, Nat.add_comm 1], ?_⟩
          intro j hj c hc
          rw [Nat.add_assoc, Nat.add_comm 1]
          exact hbefore (j + 1) (Nat.succ_lt_succ hj) c hc

theorem checkChunk_iff :
    (bsp.checkChunk head rsData i chunk = some true ↔ bsp.Passes head rsData i chunk) ∧
      (bsp.checkChunk head rsData i chunk = some false ↔ bsp.Refused head rsData i chunk) := by
  unfold checkChunk Passes Refused
  dsimp only
  cases head.HeadChunks[(bsp.codec.dataChunk chunk).RefIndex]? with
  | none => simp
  | some headChunkBytes =>
    cases rsData with
    | none => grind
    | some rs =>
      cases hresult : rs.ResultDataChunks[i]? with
      | none => grind
      | some resultBytes => grind

end Loop

section Right

variable (head : BlockHead) (blockData : BlockData) (rs : BlockResultData) (data : Option Bytes)

/-- What is not checked: distinct head chunks, the roots of the results, and a result for each
chunk. -/
structure Unchecked : Prop where
  distinct : (blockData.DataChunks.map fun chunk => (bsp.codec.dataChunk chunk).RefIndex).Nodup
  resultRoots : ∀ (i : Nat) chunk headChunkBytes resultBytes,
    blockData.DataChunks[i]? = some chunk →
      head.HeadChunks[(bsp.codec.dataChunk chunk).RefIndex]? = some headChunkBytes →
      rs.ResultDataChunks[i]? = some resultBytes →
      keyRoot bsp.M (bsp.codec.resultDataChunk resultBytes).TxResults =
        (bsp.codec.headChunk headChunkBytes).TxResultRoot
  counts : blockData.DataChunks.length = rs.ResultDataChunks.length

def TxRootsRight : Prop :=
  ∀ chunk ∈ blockData.DataChunks, ∃ headChunkBytes,
    head.HeadChunks[(bsp.codec.dataChunk chunk).RefIndex]? = some headChunkBytes ∧
      TxRootByBytes bsp.M bsp.C (bsp.codec.dataChunk chunk).Txs =
        (bsp.codec.headChunk headChunkBytes).TxRoot

structure WellFormed : Prop extends bsp.Unchecked head blockData rs where
  txRoots : bsp.TxRootsRight head blockData

/-- The validation returns, and what it accepts is complete and well formed. -/
def RemoteRight : Prop :=
  bsp.Validate false data ≠ none ∧
    (bsp.Validate false data = some .accept →
      ∃ head blockData rs, bsp.parse data = some ⟨some head, some blockData, some rs⟩ ∧
        bsp.WellFormed head blockData rs)

theorem txRoots_of_accept {head : BlockHead} {blockData : BlockData}
    {rsData : Option BlockResultData}
    (haccept : bsp.validateLoop head rsData 0 blockData.DataChunks = some .accept) :
    bsp.TxRootsRight head blockData := by
  intro chunk hmem
  obtain ⟨k, hk⟩ := List.mem_iff_getElem?.mp hmem
  obtain ⟨headChunkBytes, _, _, hhead, _, _, _, hroot, _⟩ :=
    checkChunk_iff.1.mp (validateLoop_accept_iff.mp haccept k chunk hk)
  exact ⟨headChunkBytes, hhead, hroot⟩

/-- **When the validation is right**: the message does not decode, or it has a head and data and a
chunk is refused behind chunks that pass, or all pass and have what is not checked. -/
theorem blockInfo_iff :
    bsp.RemoteRight data ↔
      bsp.parse data = none ∨
      ∃ head blockData rsData, bsp.parse data = some ⟨some head, some blockData, rsData⟩ ∧
        ((∃ k chunk, blockData.DataChunks[k]? = some chunk ∧ bsp.Refused head rsData k chunk ∧
            ∀ j < k, ∀ c, blockData.DataChunks[j]? = some c → bsp.Passes head rsData j c) ∨
          (∀ k chunk, blockData.DataChunks[k]? = some chunk → bsp.Passes head rsData k chunk) ∧
            ∃ rs, rsData = some rs ∧ bsp.Unchecked head blockData rs) := by
  have hreject : ∀ head rsData chunks, bsp.validateLoop head rsData 0 chunks = some .reject ↔ _ :=
    fun _ _ _ => validateLoop_reject_iff
  have haccept : ∀ head rsData chunks, bsp.validateLoop head rsData 0 chunks = some .accept ↔ _ :=
    fun _ _ _ => validateLoop_accept_iff
  simp only [Nat.zero_add, checkChunk_iff.1, checkChunk_iff.2] at hreject haccept
  simp only [← hreject, ← haccept]
  unfold RemoteRight Validate
  cases hparse : bsp.parse data with
  | none => simp
  | some blockInfo =>
    obtain ⟨head, blockData, rsData⟩ := blockInfo
    match head, blockData with
    | none, _ => simp
    | some head, none => simp
    | some head, some blockData =>
      simp only [Bool.false_eq_true, if_false, reduceCtorEq, false_or, Option.some.injEq,
        BlockInfo.mk.injEq]
      constructor
      · rintro ⟨hreturns, hwell⟩
        refine ⟨head, blockData, rsData, ⟨rfl, rfl, rfl⟩, ?_⟩
        match hloop : bsp.validateLoop head rsData 0 blockData.DataChunks with
        | none => exact absurd hloop hreturns
        | some .reject => exact .inl rfl
        | some .ignore => exact absurd hloop validateLoop_ne_ignore
        | some .accept =>
          obtain ⟨_, _, rs, ⟨rfl, rfl, hrs⟩, hwell⟩ := hwell hloop
          exact .inr ⟨rfl, rs, hrs, hwell.toUnchecked⟩
      · rintro ⟨_, _, _, ⟨rfl, rfl, rfl⟩, hloop | ⟨hloop, rs, rfl, hunchecked⟩⟩
        · simp [hloop]
        · refine ⟨by simp [hloop], fun _ => ⟨head, blockData, rs, ⟨rfl, rfl, rfl⟩, ?_⟩⟩
          exact ⟨hunchecked, txRoots_of_accept bsp hloop⟩

end Right

section Failure

def oneHeadChunk : BlockHead :=
  { emptyHead 1 with ChunkCount := 1, HeadChunks := [[]] }

/-- By its first byte a block has nothing, a head, or a head and two chunks with one head chunk. -/
noncomputable def byFirstByte : BlockInfoSubProcessor where
  codec :=
    { unmarshalChainMessage := some
      unmarshalBlockInfo := fun bytes => some (bytes, bytes)
      unmarshalBlock := fun
        | 1 :: _ => some (some oneHeadChunk, some ⟨1, []⟩)
        | 2 :: _ => some (some oneHeadChunk, some ⟨1, [[], []]⟩)
        | _ => some (none, none)
      unmarshalBlockResult := fun
        | 2 :: _ => some (some ⟨1, [[], []]⟩)
        | _ => some none
      headChunk := fun _ =>
        ⟨1, [], [], 0, TxRootByBytes (finsuppAuthMap 32) plainRootCodec [], []⟩
      dataChunk := fun _ => ⟨1, 0, []⟩
      resultDataChunk := fun _ => ⟨1, []⟩ }
  M := finsuppAuthMap 32
  C := plainRootCodec
  MaxTxCountOfEachBlock := 10

/-- No head panics; no result is accepted, and so are two chunks with one head chunk. -/
theorem blockInfo_panics :
    byFirstByte.Validate false (some []) = none ∧
      byFirstByte.Validate false (some [1]) = some .accept ∧
      byFirstByte.parse (some [1]) = some ⟨some oneHeadChunk, some ⟨1, []⟩, none⟩ ∧
      byFirstByte.Validate false (some [2]) = some .accept ∧
      ¬ byFirstByte.RemoteRight (some [2]) := by
  have htwice : byFirstByte.Validate false (some [2]) = some .accept := by
    simp [Validate, parse, byFirstByte, validateLoop, checkChunk, oneHeadChunk]
  refine ⟨rfl, rfl, rfl, htwice, ?_⟩
  rintro ⟨_, hwell⟩
  obtain ⟨head, blockData, rs, hparse, hwell⟩ := hwell htwice
  obtain rfl : ⟨1, [[], []]⟩ = blockData := by
    cases hparse
    rfl
  exact absurd hwell.distinct (by simp [byFirstByte])

end Failure

end BlockInfoSubProcessor

end Topia.Chain
