import Topia.Crypt.Service
import Topia.Transaction.FromAddress
import Topia.Transaction.GasEstimate

/-!
# Verifying a transfer

The verifiers of `transaction/basic/verifier_basic.go`,
`transaction/universal/verifier_universal.go` and `verifier_transfer.go`, in the order in which
`Verify` of a transfer applies them.

The sender signs the marshaled `TransactionUniversal`, the fee payer the JSON text of the transfer
only. The nonce and the chain identifier are in neither and are compared with the state.
-/

namespace Topia.Transaction

open Crypt (CryptLib NetworkType IsValid CreateNativeContractAddress)

def applyVerifiers : List (Option VerifyResult) → VerifyResult → Option VerifyResult
  | [], vrResult => some vrResult
  | none :: _, _ => none
  | some .reject :: _, _ => some .reject
  | some .ignore :: rest, _ => applyVerifiers rest .ignore
  | some .accept :: rest, vrResult => applyVerifiers rest vrResult

theorem applyVerifiers_ignore_ne_accept (results : List (Option VerifyResult)) :
    applyVerifiers results .ignore ≠ some .accept := by
  induction results with
  | nil => simp [applyVerifiers]
  | cons r rest ih =>
    rcases r with _ | _ | _ | _ <;> simp [applyVerifiers, ih]

theorem applyVerifiers_accept {results : List (Option VerifyResult)}
    (haccept : applyVerifiers results .accept = some .accept) :
    ∀ r ∈ results, r = some .accept := by
  induction results with
  | nil => simp
  | cons r rest ih =>
    rcases r with _ | _ | _ | _
    · simp [applyVerifiers] at haccept
    · simpa using ih haccept
    · simp [applyVerifiers] at haccept
    · exact absurd haccept (applyVerifiers_ignore_ne_accept rest)

theorem applyVerifiers_ignore {results : List (Option VerifyResult)}
    (hignore : applyVerifiers results .accept = some .ignore) : some .ignore ∈ results := by
  induction results with
  | nil => simp [applyVerifiers] at hignore
  | cons r rest ih =>
    rcases r with _ | _ | _ | _
    · simp [applyVerifiers] at hignore
    · exact List.mem_cons_of_mem _ (ih hignore)
    · simp [applyVerifiers] at hignore
    · exact List.mem_cons_self

/-- `signData` reads the signature of a `SignatureInfo`, which can be nil. -/
structure VerifyEnv where
  uni : UniversalEnv
  lib : CryptLib
  signData : Bytes → Option (Option Bytes)
  codec : Vm.TokenCodec
  maxTargetItem : Nat

def VerifyEnv.network (env : VerifyEnv) : NetworkType :=
  env.uni.call.CurrentNetworkType

structure ChainView where
  ChainID : Bytes
  accounts : AccountState

section Verifiers

variable (env : VerifyEnv)

def addressVerifier (addr : Bytes) : Option VerifyResult :=
  (IsValid env.lib.hasher addr env.network).bind acceptIf

/-- Both signature verifiers; an address without a service panics. -/
def signatureVerifier (addr msg signature : Bytes) : Option VerifyResult :=
  match Crypt.Address.CryptType env.lib.hasher addr with
  | none => none
  | some (.error _) => some .reject
  | some (.ok cryptType) =>
    match env.signData signature with
    | none => some .reject
    | some signData => (env.lib.Verify env.network cryptType addr msg signData).bind acceptIf

variable {env} {addr msg msg' signature : Bytes}

theorem bind_acceptIf_ne_ignore (answer : Option Bool) : answer.bind acceptIf ≠ some .ignore := by
  cases answer <;> simp

theorem signatureVerifier_ne_ignore : signatureVerifier env addr msg signature ≠ some .ignore := by
  unfold signatureVerifier
  split
  · simp
  · simp
  · split
    · simp
    · exact bind_acceptIf_ne_ignore _

theorem signatureVerifier_accept
    (haccept : signatureVerifier env addr msg signature = some .accept) :
    ∃ cryptType signData,
      Crypt.Address.CryptType env.lib.hasher addr = some (.ok cryptType) ∧
      env.signData signature = some signData ∧
      env.lib.Verify env.network cryptType addr msg signData = some true := by
  unfold signatureVerifier at haccept
  split at haccept
  · cases haccept
  · cases haccept
  · rename_i cryptType htype
    split at haccept
    · cases haccept
    · rename_i signData hdata
      obtain ⟨ok, hverify, haccept⟩ := Option.bind_eq_some_iff.mp haccept
      exact ⟨cryptType, signData, htype, hdata, acceptIf_accept haccept ▸ hverify⟩

/-- One signature is not accepted for two messages that the libraries separate. -/
theorem signatureVerifier_one_message (hseparates : env.lib.Separates msg msg')
    (hkey : env.lib.CreateAddress env.network [] ≠ .ok addr)
    (haccept : signatureVerifier env addr msg signature = some .accept)
    (haccept' : signatureVerifier env addr msg' signature = some .accept) : msg = msg' := by
  obtain ⟨cryptType, signData, htype, hdata, hverify⟩ := signatureVerifier_accept haccept
  obtain ⟨cryptType', signData', htype', hdata', hverify'⟩ := signatureVerifier_accept haccept'
  rw [htype] at htype'
  cases htype'
  rw [hdata] at hdata'
  cases hdata'
  exact CryptLib.Verify_one_message hseparates hkey hverify hverify'

end Verifiers

namespace TransactionUniversalWithHead

variable {F : Type} [Preorder F] (env : VerifyEnv) (gc : GasPriceComputer F) (txPoolSize : Nat)
  (view : ChainView) (txUni : TransactionUniversalWithHead)

def txUniBytes : Bytes :=
  marshalUniversal txUni.Head txUni.Specification

def TransactionChainIDVerifier : Option VerifyResult :=
  acceptIf (txUni.TransactionHead.ChainID = view.ChainID)

def TransactionSignatureVerifier : Option VerifyResult :=
  signatureVerifier env txUni.TransactionHead.FromAddr txUni.txUniBytes
    txUni.TransactionHead.Signature

def BasicVerify : Option VerifyResult :=
  applyVerifiers
    [txUni.TransactionChainIDVerifier view,
      TransactionFromAddressVerifier env.lib.hasher env.network txUni.TransactionHead.FromAddr
        txUni.TransactionHead.Category,
      txUni.TransactionSignatureVerifier env] .accept

def TransactionUniversalPayerAddressVerifier : Option VerifyResult :=
  addressVerifier env txUni.Head.FeePayer

def TransactionUniversalNonceVerifier : Option VerifyResult :=
  match view.accounts.GetNonce txUni.TransactionHead.FromAddr with
  | none => some .reject
  | some latestNonce => acceptIf (txUni.TransactionHead.Nonce = wrap64 (latestNonce + 1))

def TransactionUniversalPayerSignatureVerifier : Option VerifyResult :=
  signatureVerifier env txUni.Head.FeePayer txUni.Specification txUni.Head.FeePayerSignature

/-- `TxUniVerify`; a basic result of ignore is accepted. -/
def TxUniVerify : Option VerifyResult :=
  match txUni.BasicVerify env view with
  | none => none
  | some .reject => some .reject
  | some .ignore => some .accept
  | some .accept =>
    applyVerifiers
      [txUni.TransactionUniversalPayerAddressVerifier env,
        txUni.TransactionUniversalGasVerifier env.uni gc txPoolSize view.accounts,
        txUni.TransactionUniversalNonceVerifier view,
        txUni.TransactionUniversalPayerSignatureVerifier env] .accept

variable {env gc txPoolSize view txUni}

theorem BasicVerify_ne_ignore : txUni.BasicVerify env view ≠ some .ignore := by
  intro hignore
  have hmem := applyVerifiers_ignore hignore
  simp only [List.mem_cons, List.not_mem_nil, or_false] at hmem
  rcases hmem with hchain | haddr | hsig
  · exact acceptIf_ne_ignore _ hchain.symm
  · revert haddr
    simp only [TransactionFromAddressVerifier]
    split_ifs
    · simp
    · simp
    · split <;> simp [Ne.symm (acceptIf_ne_ignore _)]
  · exact signatureVerifier_ne_ignore hsig.symm

theorem TransactionUniversalGasVerifier_ne_ignore {s : AccountState} :
    txUni.TransactionUniversalGasVerifier env.uni gc txPoolSize s ≠ some .ignore := by
  unfold TransactionUniversalGasVerifier
  split_ifs
  · simp
  · simp
  split
  · simp
  · simp
  split
  · simp
  · split <;> simp

theorem TransactionUniversalNonceVerifier_ne_ignore :
    txUni.TransactionUniversalNonceVerifier view ≠ some .ignore := by
  unfold TransactionUniversalNonceVerifier
  split <;> simp

theorem TxUniVerify_ne_ignore : txUni.TxUniVerify env gc txPoolSize view ≠ some .ignore := by
  intro hignore
  unfold TxUniVerify at hignore
  split at hignore
  · cases hignore
  · cases hignore
  · cases hignore
  have hmem := applyVerifiers_ignore hignore
  simp only [List.mem_cons, List.not_mem_nil, or_false] at hmem
  rcases hmem with hpayer | hgas | hnonce | hsig
  · exact bind_acceptIf_ne_ignore _ hpayer.symm
  · exact TransactionUniversalGasVerifier_ne_ignore hgas.symm
  · exact TransactionUniversalNonceVerifier_ne_ignore hnonce.symm
  · exact signatureVerifier_ne_ignore hsig.symm

end TransactionUniversalWithHead

namespace TransactionUniversalTransfer

open TransactionUniversalWithHead

variable {F : Type} [Preorder F] (env : VerifyEnv) (gc : GasPriceComputer F) (txPoolSize : Nat)
  (view : ChainView) (txfer : TransactionUniversalTransfer)

def withHead : TransactionUniversalWithHead where
  TransactionHead := txfer.Head
  Head := txfer.UniHead
  Specification := txfer.DataBytes env.uni.transferEnv

def TransactionUniversalTransferTargetAddressVerifier : Option VerifyResult :=
  match IsValid env.lib.hasher txfer.TargetAddr env.network with
  | none => none
  | some isValid =>
    acceptIf (isValid && decide (txfer.TargetAddr ≠ CreateNativeContractAddress env.network 1))

def TransactionUniversalTransferTargetItemsVerifier : Option VerifyResult :=
  acceptIf (txfer.Targets.length ≤ env.maxTargetItem)

def Verify : Option VerifyResult :=
  match (txfer.withHead env).TxUniVerify env gc txPoolSize view with
  | none => none
  | some .reject => some .reject
  | some .ignore => some .accept
  | some .accept =>
    applyVerifiers
      [txfer.TransactionUniversalTransferTargetAddressVerifier env,
        txfer.TransactionUniversalTransferTargetItemsVerifier env] .accept

variable {env gc txPoolSize view txfer}

structure Accepted (env : VerifyEnv) (view : ChainView)
    (txfer : TransactionUniversalTransfer) : Prop where
  chainID : txfer.Head.ChainID = view.ChainID
  nonce :
    ∃ latestNonce, view.accounts.GetNonce txfer.Head.FromAddr = some latestNonce ∧
      txfer.Head.Nonce = wrap64 (latestNonce + 1)
  signature : (txfer.withHead env).TransactionSignatureVerifier env = some .accept

theorem Verify_accept (haccept : txfer.Verify env gc txPoolSize view = some .accept) :
    Accepted env view txfer := by
  have huni : (txfer.withHead env).TxUniVerify env gc txPoolSize view = some .accept := by
    unfold Verify at haccept
    split at haccept
    · cases haccept
    · cases haccept
    · next hr => exact absurd hr TxUniVerify_ne_ignore
    · assumption
  have hbasic : (txfer.withHead env).BasicVerify env view = some .accept := by
    unfold TxUniVerify at huni
    split at huni
    · cases huni
    · cases huni
    · next hr => exact absurd hr BasicVerify_ne_ignore
    · assumption
  have hfirst := applyVerifiers_accept hbasic
  rw [TxUniVerify, hbasic] at huni
  have hsecond := applyVerifiers_accept huni
  refine ⟨?_, ?_, hfirst _ (by simp)⟩
  · exact of_decide_eq_true (acceptIf_accept (hfirst _ List.mem_cons_self))
  · have hnonce : (txfer.withHead env).TransactionUniversalNonceVerifier view = some .accept :=
      hsecond _ (by simp)
    unfold TransactionUniversalNonceVerifier at hnonce
    split at hnonce
    · cases hnonce
    · next latestNonce hget =>
        exact ⟨latestNonce, hget, of_decide_eq_true (acceptIf_accept hnonce)⟩

end TransactionUniversalTransfer

end Topia.Transaction
