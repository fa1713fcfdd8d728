import Topia.Crypt.Address
import Topia.Transaction.Basic

/-!
# Addresses from the network

`TransactionFromAddressVerifier` of `transaction/basic/verifier_basic.go` calls the methods of
`crypt/types/address.go` with the sender of a transaction, unchecked bytes.

`decode` looks at the second character behind a check of the first one only, `HexString` at the
first two characters with no check at all.
-/

namespace Topia.Transaction

open Crypt (Checksum NetworkType IsEth IsValid HexString)

section FromAddress

variable {H : Checksum} {CurrentNetworkType : NetworkType} {FromAddr Category : Bytes}

def TransactionFromAddressVerifier (H : Checksum) (CurrentNetworkType : NetworkType)
    (FromAddr Category : Bytes) : Option VerifyResult :=
  let fEth := IsEth FromAddr
  if fEth && decide (Category = ascii "eth") then some .accept
  else if ¬ fEth then
    match IsValid H FromAddr CurrentNetworkType with
    | none => none
    | some isValid => acceptIf isValid
  else some .reject

open Crypt

theorem TransactionFromAddressVerifier_eq_none_iff :
    TransactionFromAddressVerifier H CurrentNetworkType FromAddr Category = none ↔
      FromAddr = ascii "m" ∨ FromAddr = ascii "t" := by
  rw [← IsValid_eq_none_iff (H := H) CurrentNetworkType]
  unfold TransactionFromAddressVerifier
  constructor
  · intro hnone
    dsimp only at hnone
    split_ifs at hnone with heth hother
    cases hvalid : IsValid H FromAddr CurrentNetworkType with
    | none => rfl
    | some isValid =>
      rw [hvalid] at hnone
      cases hnone
  · intro hpanic
    have heth : IsEth FromAddr = false := by
      rcases (IsValid_eq_none_iff _).mp hpanic with rfl | rfl <;> decide
    simp [heth, hpanic]

/-- **Addresses from the network.** `decode`, what is built on it and the verifier return exactly
when the text is not the character of a network alone; `HexString`, when it has two characters. -/
theorem addressMethods_total_iff (H : Checksum) (network : NetworkType) (a Category : Bytes) :
    (decode H a ≠ .error .indexOutOfRange ↔ a ≠ ascii "m" ∧ a ≠ ascii "t") ∧
    (Address.NetworkType H a ≠ none ↔ a ≠ ascii "m" ∧ a ≠ ascii "t") ∧
    (Address.CryptType H a ≠ none ↔ a ≠ ascii "m" ∧ a ≠ ascii "t") ∧
    (Address.Payload H a ≠ none ↔ a ≠ ascii "m" ∧ a ≠ ascii "t") ∧
    (IsValid H a network ≠ none ↔ a ≠ ascii "m" ∧ a ≠ ascii "t") ∧
    (HexString a ≠ none ↔ 2 ≤ a.length) ∧
    (TransactionFromAddressVerifier H network a Category ≠ none ↔
      a ≠ ascii "m" ∧ a ≠ ascii "t") := by
  simp only [ne_eq, ← not_or]
  refine ⟨not_congr decode_panics_iff, not_congr fromNonempty_eq_none_iff,
    not_congr fromNonempty_eq_none_iff,
    not_congr fromNonempty_eq_none_iff, not_congr (IsValid_eq_none_iff _), ?_,
    not_congr TransactionFromAddressVerifier_eq_none_iff⟩
  rw [HexString_panics_iff, not_lt]

/-- One character crashes the verifier, an empty text `HexString`. -/
theorem oneCharacter_panics :
    decode zeroChecksum (ascii "t") = .error .indexOutOfRange ∧
      Address.Payload zeroChecksum (ascii "t") = none ∧
      TransactionFromAddressVerifier zeroChecksum .testnet (ascii "t")
        (ascii "topia_universal") = none ∧
      HexString [] = none := by
  decide +kernel

end FromAddress

end Topia.Transaction
