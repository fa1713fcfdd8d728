import Topia.Common
import Topia.Lib.Run

/-!
# The cells of the chain state

The getters and setters of `state/chain/chain.go` over the named store of the chain.
`SetNetworkType` asks for the network type under its own key, and writes it under that of the chain
id.
-/

namespace Topia.State.ChainCells

open Lib

def ChainID_Key : Bytes := ascii "chainid"
def NetworkType_Key : Bytes := ascii "networktype"
def LatestBlock_Key : Bytes := ascii "latestblock"
def LatestBlockResult_Key : Bytes := ascii "latestblockresult"

variable (β ρ : Type)

structure Codec where
  Marshal : β → Bytes
  Unmarshal : Bytes → Option β
  unmarshal_marshal : ∀ b, Unmarshal (Marshal b) = some b

structure Given where
  chainID : Option Bytes := none
  networkType : Option UInt8 := none
  block : Option β := none
  blockResult : Option ρ := none

structure Cells where
  data : Bytes → Option Bytes
  given : Given β ρ

inductive Setter where
  | setChainID (chainID : Bytes)
  | setNetworkType (netType : UInt8)
  | setLatestBlock (block : Option β)
  | setLatestBlockResult (blockResult : Option ρ)

namespace Cells

variable {β ρ : Type} (blocks : Codec β) (results : Codec ρ) (s : Cells β ρ)

def ChainID : Bytes := (s.data ChainID_Key).getD []

def NetworkType : UInt8 := ((s.data NetworkType_Key).getD []).headD 0

def GetLatestBlock : Option β := blocks.Unmarshal ((s.data LatestBlock_Key).getD [])

def GetLatestBlockResult : Option ρ := results.Unmarshal ((s.data LatestBlockResult_Key).getD [])

def put (key value : Bytes) (given : Given β ρ) : Cells β ρ :=
  ⟨Function.update s.data key (some value), given⟩

def call : Setter β ρ → Cells β ρ
  | .setChainID chainID =>
    if s.ChainID ≠ [] then s else s.put ChainID_Key chainID { s.given with chainID := chainID }
  | .setNetworkType netType =>
    if s.NetworkType ≠ 0 then s
    else s.put ChainID_Key [netType] { s.given with networkType := netType }
  | .setLatestBlock block =>
    match block with
    | none => s
    | some b => s.put LatestBlock_Key (blocks.Marshal b) { s.given with block := b }
  | .setLatestBlockResult blockResult =>
    match blockResult with
    | none => s
    | some b => s.put LatestBlockResult_Key (results.Marshal b) { s.given with blockResult := b }

def Right : Prop :=
  s.ChainID = s.given.chainID.getD [] ∧ s.NetworkType = s.given.networkType.getD 0 ∧
    (∀ b, s.given.block = some b → s.GetLatestBlock blocks = some b) ∧
    ∀ b, s.given.blockResult = some b → s.GetLatestBlockResult results = some b

def Harmless : Setter β ρ → Prop
  | .setNetworkType netType => netType = 0 ∧ s.ChainID = [0]
  | _ => True

variable {blocks results s}

theorem keys_distinct : ChainID_Key ≠ NetworkType_Key ∧ ChainID_Key ≠ LatestBlock_Key ∧
    ChainID_Key ≠ LatestBlockResult_Key ∧ NetworkType_Key ≠ LatestBlock_Key ∧
    NetworkType_Key ≠ LatestBlockResult_Key ∧ LatestBlock_Key ≠ LatestBlockResult_Key := by
  decide

theorem call_networkType (hnone : s.data NetworkType_Key = none) (c : Setter β ρ) :
    (s.call blocks results c).data NetworkType_Key = none := by
  obtain ⟨hcn, -, -, hnb, hnr, -⟩ := keys_distinct
  cases c with
  | setChainID | setNetworkType =>
    simp only [call]
    split_ifs <;> simp [put, hcn.symm, hnone]
  | setLatestBlock block | setLatestBlockResult block =>
    cases block <;> simp [call, put, hnb, hnr, hnone]

theorem right_call_iff (hnone : s.data NetworkType_Key = none) (hright : s.Right blocks results)
    (c : Setter β ρ) : (s.call blocks results c).Right blocks results ↔ s.Harmless c := by
  have ⟨hid, hnet, hblock, hresult⟩ := hright
  obtain ⟨hcn, hcb, hcr, hnb, hnr, hbr⟩ := keys_distinct
  cases c with
  | setChainID chainID =>
    refine iff_of_true ?_ trivial
    simp only [call]
    split_ifs
    · exact hright
    · simpa [Right, put, ChainID, NetworkType, GetLatestBlock, GetLatestBlockResult, hcn.symm,
        hcb.symm, hcr.symm] using hright.2
  | setNetworkType netType =>
    have hzero : s.NetworkType = 0 := by simp [NetworkType, hnone]
    simp only [call, hzero, ne_eq, not_true_eq_false, if_false, Harmless]
    constructor
    · rintro ⟨hid', hnet', -⟩
      obtain rfl : netType = 0 := by
        simpa [put, NetworkType, hcn.symm, hnone, eq_comm] using hnet'
      rw [hid]
      exact ⟨rfl, by simpa [put, ChainID, eq_comm] using hid'⟩
    · rintro ⟨rfl, hid'⟩
      rw [hid] at hid'
      simpa [Right, put, ChainID, NetworkType, GetLatestBlock, GetLatestBlockResult, hcn.symm,
        hcb.symm, hcr.symm, hnone, hid'] using And.intro hblock hresult
  | setLatestBlock block =>
    refine iff_of_true ?_ trivial
    cases block with
    | none => exact hright
    | some b =>
      simpa [Right, call, put, ChainID, NetworkType, GetLatestBlock, GetLatestBlockResult, hcb,
        hnb, hbr.symm, blocks.unmarshal_marshal] using And.intro hid (And.intro hnet hresult)
  | setLatestBlockResult blockResult =>
    refine iff_of_true ?_ trivial
    cases blockResult with
    | none => exact hright
    | some b =>
      simpa [Right, call, put, ChainID, NetworkType, GetLatestBlock, GetLatestBlockResult, hcr,
        hnr, hbr, results.unmarshal_marshal] using And.intro hid (And.intro hnet hblock)

def new : Cells β ρ := ⟨fun _ => none, {}⟩

/-- **When the cells are independent**: all along exactly when every network type set is the default
one, over a chain id of just its byte. -/
theorem cellsRight_iff (blocks : Codec β) (results : Codec ρ) (setters : List (Setter β ρ)) :
    Throughout (fun s c => some (call blocks results s c)) (Right blocks results) new setters ↔
      Along (fun s c => some (call blocks results s c)) Harmless new setters := by
  have hkeep : ∀ (s : Cells β ρ) c s', s.data NetworkType_Key = none →
      some (s.call blocks results c) = some s' → s'.data NetworkType_Key = none := by
    rintro s c _ hnone ⟨⟩
    exact call_networkType hnone c
  refine throughout_iff_along hkeep ?_ ?_ rfl ⟨rfl, rfl, ?_, ?_⟩
  · rintro s c _ hnone hright ⟨⟩
    exact right_call_iff hnone hright c
  · rintro s c - - ⟨⟩
  · rintro b ⟨⟩
  · rintro b ⟨⟩

def byteCodec : Codec UInt8 := ⟨fun b => [b], List.head?, fun _ => rfl⟩

theorem genesis_cells :
    let s := ([.setChainID (ascii "1"), .setNetworkType 2] : List (Setter UInt8 UInt8)).foldl
      (call byteCodec byteCodec) new
    s.given.chainID = some (ascii "1") ∧ s.given.networkType = some 2 ∧
      s.ChainID = [2] ∧ s.NetworkType = 0 := by
  decide

end Cells
end Topia.State.ChainCells
