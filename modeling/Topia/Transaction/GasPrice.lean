import Mathlib.Order.Monotone.Basic
import Topia.Transaction.Transfer

/-!
# The gas price for a backlog

`ComputeGasPrice` of `transaction/universal/gasprice.go`. The lowest gas price of the latest block
is raised once for every block, from the second on, that the pool fills. At a multiple of the size
of a block the number of these blocks stays zero, as for an idle pool.

The floating point numbers are a parameter: ordered, with a step that does not lower them and a
monotone conversion.
-/

namespace Topia.Transaction

section Arith

/-- Floating point: the conversions, and adding a power of the price. -/
structure PriceArith (F : Type) [Preorder F] where
  ofUint64 : Nat → F
  raise : F → F
  toUint64 : F → Nat
  le_raise : ∀ f, f ≤ raise f
  toUint64_mono : Monotone toUint64

variable {F : Type} [Preorder F] {A : PriceArith F}

def raiseLoop (A : PriceArith F) : Nat → F → F
  | 0, tempGasPriceF => tempGasPriceF
  | n + 1, tempGasPriceF => raiseLoop A n (A.raise tempGasPriceF)

theorem le_raiseLoop (n : Nat) (f : F) : f ≤ raiseLoop A n f := by
  induction n generalizing f with
  | zero => exact le_refl f
  | succ n ih => exact (A.le_raise f).trans (ih (A.raise f))

theorem raiseLoop_mono {m n : Nat} (hmn : m ≤ n) (f : F) : raiseLoop A m f ≤ raiseLoop A n f := by
  induction m generalizing n f with
  | zero => exact le_raiseLoop n f
  | succ m ih =>
    obtain ⟨k, rfl⟩ : ∃ k, n = k + 1 := ⟨n - 1, by omega⟩
    exact ih (by omega) (A.raise f)

end Arith

section Computer

structure LatestBlockData where
  ChunkCount : Nat
  DataChunks : List Bytes
deriving DecidableEq, Repr

/-- Decoding: the transactions of a chunk, errors ignored; category and specification of one, and
the gas price of a universal one, each perhaps missing. -/
structure PriceCodec where
  unmarshalChunk : Bytes → List Bytes
  unmarshalTx : Bytes → Option (Option Bytes × Option Bytes)
  unmarshalUni : Bytes → Option (Option Nat)

/-- `gasPriceComputer`; `latestBlock` is `none` if unreadable. -/
structure GasPriceComputer (F : Type) [Preorder F] where
  arith : PriceArith F
  codec : PriceCodec
  latestBlock : Option LatestBlockData
  gasConfig : GasConfiguration
  MaxTxSizeOfEachBlock : Nat
  maxTxSize_pos : 0 < MaxTxSizeOfEachBlock

variable {F : Type} [Preorder F]

def PriceCodec.minOfTx (codec : PriceCodec) (txMinGasPrice : Nat) (txBytes : Bytes) : Option Nat :=
  match codec.unmarshalTx txBytes with
  | none => none
  | some (category, specification) =>
    match category with
    | none => none
    | some category =>
      if category = ascii "topia_universal" then
        match specification.bind codec.unmarshalUni with
        | none => none
        | some none => none
        | some (some gasPrice) =>
          if txMinGasPrice = 0 ∨ gasPrice < txMinGasPrice then some gasPrice
          else some txMinGasPrice
      else some txMinGasPrice

namespace GasPriceComputer

variable (gc : GasPriceComputer F) (txPoolSize : Nat)

def getMinGasPriceOfLatestBlock : Option (Except Unit Nat) :=
  match gc.latestBlock with
  | none => some (.error ())
  | some latestBlock =>
    if latestBlock.ChunkCount = 0 then some (.ok gc.gasConfig.MinGasPrice)
    else
      ((latestBlock.DataChunks.flatMap gc.codec.unmarshalChunk).foldlM gc.codec.minOfTx 0).map
        fun txMinGasPrice =>
          .ok (if txMinGasPrice = 0 then gc.gasConfig.MinGasPrice else txMinGasPrice)

def pendingBlock : Nat :=
  if txPoolSize % gc.MaxTxSizeOfEachBlock > 0 then txPoolSize / gc.MaxTxSizeOfEachBlock + 1 else 0

def finalPrice (tempGasPriceF : F) : Nat :=
  let tempGasPriceUInt64 := gc.arith.toUint64 tempGasPriceF
  if tempGasPriceUInt64 ≥ wrap64 (gc.gasConfig.MinGasPrice * 5) then
    wrap64 (gc.gasConfig.MinGasPrice * 5)
  else tempGasPriceUInt64

/-- The price, and the rounds of the loop. `none` is a panic. -/
def ComputeGasPrice : Option (Except Unit (Nat × Nat)) :=
  let pendingBlock := gc.pendingBlock txPoolSize
  if pendingBlock ≤ 1 then some (.ok (gc.gasConfig.MinGasPrice, 0))
  else
    gc.getMinGasPriceOfLatestBlock.map fun read => read.map fun txMinGasPrice =>
      (gc.finalPrice (raiseLoop gc.arith (pendingBlock - 1) (gc.arith.ofUint64 txMinGasPrice)),
        pendingBlock - 1)

variable {gc : GasPriceComputer F} {txMinGasPrice s s' : Nat}

theorem finalPrice_mono {f g : F} (hfg : f ≤ g) : gc.finalPrice f ≤ gc.finalPrice g := by
  have hle := gc.arith.toUint64_mono hfg
  simp only [finalPrice]
  split_ifs <;> omega

theorem ComputeGasPrice_eq
    (hblock : gc.getMinGasPriceOfLatestBlock = some (.ok txMinGasPrice)) (s : Nat) :
    gc.ComputeGasPrice s = some (.ok (
      if gc.MaxTxSizeOfEachBlock ∣ s ∨ s < gc.MaxTxSizeOfEachBlock then
        (gc.gasConfig.MinGasPrice, 0) else
        (gc.finalPrice (raiseLoop gc.arith (s / gc.MaxTxSizeOfEachBlock)
          (gc.arith.ofUint64 txMinGasPrice)), s / gc.MaxTxSizeOfEachBlock))) := by
  have hpos := gc.maxTxSize_pos
  unfold ComputeGasPrice
  by_cases hdvd : gc.MaxTxSizeOfEachBlock ∣ s
  · have hpending : gc.pendingBlock s = 0 := by
      rw [pendingBlock, Nat.mod_eq_zero_of_dvd hdvd]
      rfl
    simp [hpending, hdvd]
  have hmod : s % gc.MaxTxSizeOfEachBlock > 0 :=
    Nat.pos_of_ne_zero fun hzero => hdvd (Nat.dvd_of_mod_eq_zero hzero)
  have hpending : gc.pendingBlock s = s / gc.MaxTxSizeOfEachBlock + 1 := if_pos hmod
  by_cases hlt : s < gc.MaxTxSizeOfEachBlock
  · simp [hpending, Nat.div_eq_of_lt hlt, hlt]
  · have hfull : 0 < s / gc.MaxTxSizeOfEachBlock := Nat.div_pos (Nat.not_lt.mp hlt) hpos
    have hmany : ¬ s / gc.MaxTxSizeOfEachBlock + 1 ≤ 1 := by omega
    simp only [hpending, hmany, hdvd, hlt, or_self, if_false, hblock, Option.map_some,
      Except.map, Nat.add_sub_cancel]

variable {b price rounds price' rounds' : Nat}

theorem ceil_sub_one (hpos : 0 < b) (hdvd : ¬ b ∣ s) : (s + b - 1) / b - 1 = s / b := by
  have hsum : s + b - 1 = (s % b - 1) + b * (s / b + 1) := by
    have hdiv := Nat.mod_add_div s b
    rw [Nat.mul_add, Nat.mul_one]
    omega
  have hlt : s % b - 1 < b := by
    have := Nat.mod_lt s hpos
    omega
  rw [hsum, Nat.add_mul_div_left _ _ hpos, Nat.div_eq_of_lt hlt, Nat.zero_add, Nat.add_sub_cancel]

theorem ceil_of_dvd (hpos : 0 < b) (hdvd : b ∣ s) : (s + b - 1) / b = s / b := by
  obtain ⟨k, rfl⟩ := hdvd
  have hsum : b * k + b - 1 = (b - 1) + b * k := by omega
  rw [hsum, Nat.add_mul_div_left _ _ hpos, Nat.div_eq_of_lt (by omega), Nat.zero_add,
    Nat.mul_div_cancel_left _ hpos]

section MinGasPriceOfLatestBlock

variable (hblock : gc.getMinGasPriceOfLatestBlock = some (.ok txMinGasPrice))
include hblock

variable (hprice : gc.ComputeGasPrice s = some (.ok (price, rounds)))
include hprice

theorem rounds_iff :
    rounds = (s + gc.MaxTxSizeOfEachBlock - 1) / gc.MaxTxSizeOfEachBlock - 1 ↔
      ¬ (gc.MaxTxSizeOfEachBlock ∣ s ∧ 2 * gc.MaxTxSizeOfEachBlock ≤ s) := by
  have hpos := gc.maxTxSize_pos
  rw [ComputeGasPrice_eq hblock] at hprice
  by_cases hdvd : gc.MaxTxSizeOfEachBlock ∣ s
  · simp only [hdvd, true_or, if_true, Option.some.injEq, Except.ok.injEq, Prod.mk.injEq] at hprice
    rw [← hprice.2, ceil_of_dvd hpos hdvd]
    simp only [hdvd, true_and, Nat.not_le]
    rw [← Nat.div_lt_iff_lt_mul hpos]
    omega
  · by_cases hlt : s < gc.MaxTxSizeOfEachBlock
    · simp only [hlt, or_true, if_true, Option.some.injEq, Except.ok.injEq, Prod.mk.injEq] at hprice
      rw [← hprice.2, ceil_sub_one hpos hdvd, Nat.div_eq_of_lt hlt]
      exact iff_of_true rfl fun hboth => hdvd hboth.1
    · simp only [hdvd, hlt, or_self, if_false, Option.some.injEq, Except.ok.injEq,
        Prod.mk.injEq] at hprice
      rw [← hprice.2, ceil_sub_one hpos hdvd]
      exact iff_of_true rfl fun hboth => hdvd hboth.1

theorem price_of_dvd (hdvd : gc.MaxTxSizeOfEachBlock ∣ s) : price = gc.gasConfig.MinGasPrice := by
  rw [ComputeGasPrice_eq hblock] at hprice
  simp only [hdvd, true_or, if_true, Option.some.injEq, Except.ok.injEq, Prod.mk.injEq] at hprice
  exact hprice.1.symm

theorem price_mono (hprice' : gc.ComputeGasPrice s' = some (.ok (price', rounds')))
    (hbacklog : gc.MaxTxSizeOfEachBlock < s) (hle : s ≤ s') (hdvd : ¬ gc.MaxTxSizeOfEachBlock ∣ s)
    (hdvd' : ¬ gc.MaxTxSizeOfEachBlock ∣ s') : price ≤ price' := by
  rw [ComputeGasPrice_eq hblock] at hprice hprice'
  have hge : ¬ s < gc.MaxTxSizeOfEachBlock := by omega
  have hge' : ¬ s' < gc.MaxTxSizeOfEachBlock := by omega
  simp only [hdvd, hge, or_self, if_false, Option.some.injEq, Except.ok.injEq,
    Prod.mk.injEq] at hprice
  simp only [hdvd', hge', or_self, if_false, Option.some.injEq, Except.ok.injEq,
    Prod.mk.injEq] at hprice'
  rw [← hprice.1, ← hprice'.1]
  exact finalPrice_mono (raiseLoop_mono (Nat.div_le_div_right hle) _)

end MinGasPriceOfLatestBlock

/-- **The gas price for a backlog.** The loop runs once for every block after the first exactly when
the pool does not fill two or more whole blocks; a larger backlog has no smaller price when both
sizes or neither are multiples of a block, and else only with a price on the right side of the
lowest. -/
theorem gasPrice_iff (gc : GasPriceComputer F) (txMinGasPrice : Nat)
    (hblock : gc.getMinGasPriceOfLatestBlock = some (.ok txMinGasPrice)) (s : Nat) :
    ∃ price rounds, gc.ComputeGasPrice s = some (.ok (price, rounds)) ∧
      (rounds = (s + gc.MaxTxSizeOfEachBlock - 1) / gc.MaxTxSizeOfEachBlock - 1 ↔
        ¬ (gc.MaxTxSizeOfEachBlock ∣ s ∧ 2 * gc.MaxTxSizeOfEachBlock ≤ s)) ∧
      ∀ s' price' rounds', gc.ComputeGasPrice s' = some (.ok (price', rounds')) →
        gc.MaxTxSizeOfEachBlock < s → s ≤ s' →
        (price ≤ price' ↔ (gc.MaxTxSizeOfEachBlock ∣ s ↔ gc.MaxTxSizeOfEachBlock ∣ s') ∨
          (gc.MaxTxSizeOfEachBlock ∣ s' ∧ price ≤ gc.gasConfig.MinGasPrice) ∨
          (gc.MaxTxSizeOfEachBlock ∣ s ∧ gc.gasConfig.MinGasPrice ≤ price')) := by
  obtain ⟨⟨price, rounds⟩, hprice⟩ : ∃ pair, gc.ComputeGasPrice s = some (.ok pair) :=
    ⟨_, ComputeGasPrice_eq hblock s⟩
  refine ⟨price, rounds, hprice, rounds_iff hblock hprice, ?_⟩
  intro s' price' rounds' hprice' hbacklog hle
  by_cases hdvd : gc.MaxTxSizeOfEachBlock ∣ s
  · have hlowest := price_of_dvd hblock hprice hdvd
    by_cases hdvd' : gc.MaxTxSizeOfEachBlock ∣ s'
    · have hlowest' := price_of_dvd hblock hprice' hdvd'
      simp [hdvd, hdvd', hlowest, hlowest']
    · simp [hdvd, hdvd', hlowest]
  · by_cases hdvd' : gc.MaxTxSizeOfEachBlock ∣ s'
    · have hlowest' := price_of_dvd hblock hprice' hdvd'
      simp [hdvd, hdvd', hlowest']
    · simp only [hdvd, hdvd', true_or, iff_true]
      exact price_mono hblock hprice hprice' hbacklog hle hdvd hdvd'

def smallBlocks : GasPriceComputer Nat where
  arith := ⟨id, (· + 10), id, fun f => Nat.le_add_right f 10, monotone_id⟩
  codec := ⟨fun _ => [], fun _ => none, fun _ => none⟩
  latestBlock := some ⟨0, []⟩
  gasConfig := ⟨100, 0, 0, 0⟩
  MaxTxSizeOfEachBlock := 2
  maxTxSize_pos := Nat.two_pos

theorem gasPrice_of_three :
    ∃ price rounds, smallBlocks.ComputeGasPrice 3 = some (.ok (price, rounds)) ∧ rounds = 1 := by
  obtain ⟨price, rounds, hprice, hrounds, _⟩ := gasPrice_iff smallBlocks 100 rfl 3
  exact ⟨price, rounds, hprice, hrounds.mpr (by decide)⟩

/-- The fourth transaction lowers the price: no round. -/
theorem price_falls_at_multiple :
    smallBlocks.ComputeGasPrice 3 = some (.ok (110, 1)) ∧
      smallBlocks.ComputeGasPrice 4 = some (.ok (100, 0)) := by
  decide

end GasPriceComputer

end Computer

end Topia.Transaction
