import Mathlib.Data.Nat.Digits.Lemmas
import Topia.Crypt.Service

/-!
# The signatures of Ethereum transactions

`api/web3/handlers`: a raw transaction becomes one of Topia with `r`, `s` and one byte of `v` in 65
bytes, from which `RawSignatureValues` reads them back. The sizes of `r` and `s` are not checked,
nor is the byte, at which the library panics above three; the chain ID is not used to make `v`
again, and the transaction that is sent has another signature.
-/

namespace Topia.Web3

open List Crypt

def bigBytes (x : Nat) : Bytes := ((Nat.digits 256 x).map UInt8.ofNat).reverse

inductive TxType where
  | legacy | accessList | dynamicFee
deriving DecidableEq

/-- A decoded transaction; `chainID` is the field of the types that have one. -/
structure EthTx where
  (raw hash : Bytes)
  length_hash : hash.length = MsgBytes
  txType : TxType
  (chainID V R S : Nat)
  hasTo : Bool

variable (v : Nat) (tx : EthTx)

def deriveChainId : Nat :=
  if v < 2 ^ 64 then if v = 27 ∨ v = 28 then 0 else (v + 2 ^ 64 - 35) % 2 ^ 64 / 2
  else (v - 35) / 2

def EthTx.ChainId : Nat :=
  if tx.txType = .legacy then deriveChainId tx.V else tx.chainID

def ComputeV (txType : TxType) (chainId : Nat) : Int :=
  if txType = .legacy then if chainId = 0 then v - 27 else v - 35 - 2 * chainId else v

/-- The recovery id, the first byte of `v`. -/
def EthTx.recID : UInt8 :=
  (bigBytes (ComputeV tx.V tx.txType tx.ChainId).natAbs).headD 0

/-- The 65 bytes; `none` is a slice that starts before the array. Long bytes of `s` stand in the
place of `r`. -/
def signature : Option Bytes :=
  let r := bigBytes tx.R
  let s := bigBytes tx.S
  if 32 < r.length ∨ 64 < s.length then none
  else some ((replicate (32 - r.length) 0 ++ r ++ replicate 32 0).take (64 - s.length) ++ s ++
    [tx.recID])

structure TxHead where
  (ChainID Signature : Bytes)

variable (ecdsaRecover : Bytes → Bytes → Option Bytes)

variable (tx : EthTx)

/-- The signature of a transaction with a key; `none` is a panic, `some none` an error. -/
def recovered : Option (Option Bytes) := do
  let sig ← signature tx
  let pubKey ← RecoverPublicKey ecdsaRecover tx.hash sig
  return pubKey.map fun _ => sig

/-- Decoded data are not nil, and so the kind is known. -/
def ConvertEthTransactionToTopiaTransaction : Option (Option TxHead) :=
  (recovered ecdsaRecover tx).map (Option.map fun sig => ⟨bigBytes tx.ChainId, sig⟩)

/-- Only a contract creation has a signature, the raw transaction. -/
def ConstructTopiaTransaction : Option (Option TxHead) :=
  (recovered ecdsaRecover tx).map
    (Option.map fun _ => ⟨ascii "null", if tx.hasTo then [] else tx.raw⟩)

def RawSignatureValues (t : TxHead) : Option (Nat × Nat × Nat) :=
  let v := t.Signature.getD 64 0
  if t.Signature.length ≠ 65 then none
  else some (if setBytes t.ChainID ≠ 0 then (v + 35).toNat + 2 else (v + 27).toNat,
    setBytes (t.Signature.take 32), setBytes ((t.Signature.drop 32).take 32))

def secp256k1N : Nat := 0xfffffffffffffffffffffffffffffffebaaedce6af48a03bbfd25e8cd0364141

structure ValidLegacy : Prop where
  legacy : tx.txType = .legacy
  r : 0 < tx.R ∧ tx.R < secp256k1N
  s : 0 < tx.S ∧ tx.S < secp256k1N
  v : tx.V = 27 ∨ tx.V = 28 ∨ 35 ≤ tx.V

/-- **The bridge**: no panic, and the values of a legacy transaction are read back. -/
structure BridgeRight : Prop where
  convert : ConvertEthTransactionToTopiaTransaction ecdsaRecover tx ≠ none
  construct : ConstructTopiaTransaction ecdsaRecover tx ≠ none
  readBack : ValidLegacy tx → ∀ head,
    ConvertEthTransactionToTopiaTransaction ecdsaRecover tx = some (some head) ∨
      ConstructTopiaTransaction ecdsaRecover tx = some (some head) →
    RawSignatureValues head = some (tx.V, tx.R, tx.S)

/-- The raw bytes are themselves read as the values. -/
def EthTx.RawSigns : Prop :=
  tx.raw.length = 65 ∧ (tx.raw.getD 64 0 + 35).toNat + 2 = tx.V ∧
    setBytes (tx.raw.take 32) = tx.R ∧ setBytes ((tx.raw.drop 32).take 32) = tx.S

section Bytes

variable {x k : Nat} {b : Bytes}

theorem length_bigBytes_le : (bigBytes x).length ≤ k ↔ x < 256 ^ k := by
  rw [bigBytes, length_reverse, length_map, Nat.digits_length_le_iff (by decide)]

theorem setBytes_eq (b : Bytes) : setBytes b = Nat.ofDigits 256 (b.reverse.map UInt8.toNat) := by
  rw [Nat.ofDigits_eq_foldr, foldr_map, foldr_reverse]
  simp only [Nat.cast_id, setBytes]
  congr 1
  funext acc x
  omega

theorem setBytes_bigBytes (x : Nat) : setBytes (bigBytes x) = x := by
  have hdigits : ((Nat.digits 256 x).map UInt8.ofNat).map UInt8.toNat = Nat.digits 256 x := by
    rw [map_map]
    refine (map_congr_left fun d hd => ?_).trans (map_id _)
    exact UInt8.toNat_ofNat_of_lt (Nat.digits_lt_base (by decide) hd)
  rw [setBytes_eq, bigBytes, reverse_reverse, hdigits, Nat.ofDigits_digits]

theorem setBytes_zeros (k : Nat) (b : Bytes) : setBytes (replicate k 0 ++ b) = setBytes b := by
  induction k with
  | zero => rfl
  | succ k ih => exact ih

def pad (x : Nat) : Bytes := replicate (32 - (bigBytes x).length) 0 ++ bigBytes x

theorem length_pad (hx : x < 256 ^ 32) : (pad x).length = 32 := by
  have hlen : (bigBytes x).length ≤ 32 := length_bigBytes_le.mpr hx
  rw [pad, length_append, length_replicate]
  omega

theorem setBytes_pad (x : Nat) : setBytes (pad x) = x := by
  rw [pad, setBytes_zeros, setBytes_bigBytes]

end Bytes

section Bridge

variable {ecdsaRecover} {tx : EthTx}

theorem signature_of_small (hR : tx.R < 256 ^ 32) (hS : tx.S < 256 ^ 32) :
    signature tx = some (pad tx.R ++ pad tx.S ++ [tx.recID]) := by
  have hr : (bigBytes tx.R).length ≤ 32 := length_bigBytes_le.mpr hR
  have hs : (bigBytes tx.S).length ≤ 32 := length_bigBytes_le.mpr hS
  have hzeros : 64 - (bigBytes tx.S).length - 32 = 32 - (bigBytes tx.S).length := by omega
  rw [signature, if_neg (by omega), ← pad, take_append, length_pad hR,
    take_of_length_le (by rw [length_pad hR]; omega), take_replicate, hzeros,
    Nat.min_eq_left (by omega), append_assoc (pad tx.R), ← pad]

theorem recover_of_recID {b : Bytes} (hb : b.length = 64) :
    RecoverPublicKey ecdsaRecover tx.hash (b ++ [tx.recID]) =
      if 3 < tx.recID then none else some (ecdsaRecover tx.hash (b ++ [tx.recID])) := by
  have hlen : (b ++ [tx.recID]).length = SignatureRecoverableBytes := by
    rw [length_append, hb]
    rfl
  have hid : (b ++ [tx.recID]).getD 64 0 = tx.recID := by
    simp [getD_eq_getElem?_getD, hb]
  rw [RecoverPublicKey, if_neg (by simp [tx.length_hash, hlen]), hid]

theorem recovered_eq_none_iff : recovered ecdsaRecover tx = none ↔
    ¬ (tx.R < 256 ^ 32 ∧ tx.S < 256 ^ 64 ∧ tx.recID ≤ 3) := by
  have hr : (bigBytes tx.R).length ≤ 32 ↔ tx.R < 256 ^ 32 := length_bigBytes_le
  have hs : (bigBytes tx.S).length ≤ 64 ↔ tx.S < 256 ^ 64 := length_bigBytes_le
  rw [← hr, ← hs, recovered, signature]
  by_cases hlong : 32 < (bigBytes tx.R).length ∨ 64 < (bigBytes tx.S).length
  · rw [if_pos hlong]
    refine iff_of_true rfl ?_
    omega
  · rw [if_neg hlong, Option.bind_eq_bind, Option.bind_some, recover_of_recID (by simp; omega)]
    have hshort : (bigBytes tx.R).length ≤ 32 ∧ (bigBytes tx.S).length ≤ 64 := by omega
    by_cases hid : 3 < tx.recID
    · simp [hid, UInt8.not_le.mpr hid]
    · simp [hid, UInt8.not_lt.mp hid, hshort]

theorem recovered_of_valid (hvalid : ValidLegacy tx) (hid : tx.recID ≤ 3) :
    recovered ecdsaRecover tx =
      some ((ecdsaRecover tx.hash (pad tx.R ++ pad tx.S ++ [tx.recID])).map
        fun _ => pad tx.R ++ pad tx.S ++ [tx.recID]) := by
  have hR : tx.R < 256 ^ 32 := Nat.lt_trans hvalid.r.2 (by decide)
  have hS : tx.S < 256 ^ 32 := Nat.lt_trans hvalid.s.2 (by decide)
  rw [recovered, signature_of_small hR hS, Option.bind_eq_bind, Option.bind_some,
    recover_of_recID (by simp [length_pad hR, length_pad hS]), if_neg (UInt8.not_lt.mpr hid)]
  rfl

theorem rawSignatureValues_of_small (chainID : Bytes) {x y : Nat} {v : UInt8} (hx : x < 256 ^ 32)
    (hy : y < 256 ^ 32) : RawSignatureValues ⟨chainID, pad x ++ pad y ++ [v]⟩ =
      some (if setBytes chainID ≠ 0 then (v + 35).toNat + 2 else (v + 27).toNat, x, y) := by
  have hdrop : (pad x ++ pad y ++ [v]).drop 32 = pad y ++ [v] := by
    rw [append_assoc, drop_left' (length_pad hx)]
  have htake : (pad x ++ pad y ++ [v]).take 32 = pad x := by
    rw [append_assoc, take_left' (length_pad hx)]
  have hv : (pad x ++ pad y ++ [v]).getD 64 0 = v := by
    simp [getD_eq_getElem?_getD, length_pad hx, length_pad hy]
  simp only [RawSignatureValues, length_append, length_pad hx, length_pad hy, length_singleton,
    htake, hdrop, hv, take_left' (length_pad hy), setBytes_pad, ne_eq, not_true_eq_false, if_false]

theorem deriveChainId_of_le {v : Nat} (hv : 35 ≤ v) : deriveChainId v = (v - 35) / 2 := by
  rw [deriveChainId]
  split_ifs <;> omega

theorem readBack_iff (hvalid : ValidLegacy tx) :
    RawSignatureValues ⟨bigBytes tx.ChainId, pad tx.R ++ pad tx.S ++ [tx.recID]⟩ =
      some (tx.V, tx.R, tx.S) ↔ tx.ChainId ≤ 1 := by
  obtain ⟨hlegacy, ⟨-, hR⟩, ⟨-, hS⟩, hV⟩ := hvalid
  rw [rawSignatureValues_of_small _ (Nat.lt_trans hR (by decide)) (Nat.lt_trans hS (by decide)),
    setBytes_bigBytes, EthTx.recID]
  simp only [ComputeV, hlegacy, if_true, Option.some.injEq, Prod.mk.injEq, and_true]
  have hchain : tx.ChainId = deriveChainId tx.V := if_pos hlegacy
  rcases hV with hV | hV | hV
  · simp [hchain, hV, deriveChainId, bigBytes]
  · simp [hchain, hV, deriveChainId, bigBytes]
  · rw [deriveChainId_of_le hV] at hchain
    by_cases hzero : tx.ChainId = 0
    · have hcases : tx.V = 35 ∨ tx.V = 36 := by omega
      rcases hcases with h | h <;> simp [hzero, h, bigBytes]
    · have hbit : (tx.V - 35 - 2 * tx.ChainId : Int) = 0 ∨
          (tx.V - 35 - 2 * tx.ChainId : Int) = 1 := by
        omega
      rcases hbit with h | h <;> simp [hzero, h, bigBytes] <;> omega

theorem readBack_raw_iff :
    RawSignatureValues ⟨ascii "null", if tx.hasTo then [] else tx.raw⟩ =
      some (tx.V, tx.R, tx.S) ↔ tx.hasTo = false ∧ tx.RawSigns := by
  have hnull : setBytes (ascii "null") ≠ 0 := by decide
  cases tx.hasTo <;> simp [RawSignatureValues, EthTx.RawSigns, hnull]

end Bridge

end Topia.Web3
