import Topia.Crypt.Address

/-!
# The crypt services

`crypt/secp256/secp256.go`, with the call of the library in `secp256k1_cgo.go`, and `Verify` of
`crypt/ed25519/ed25519.go`. The library panics, through its callback, at a recovery id above three.
`Verify` overwrites the error of `RecoverPublicKey` with that of `CreateAddress`: a signature that
gives no key is one of the address of the empty key, whatever the message.
-/

namespace Topia.Crypt

def MsgBytes : Nat := 32
def SignatureRecoverableBytes : Nat := 65

/-- `RecoverPublicKey`; `none` is the panic of the library, `some none` an error. -/
def RecoverPublicKey (ecdsaRecover : Bytes → Bytes → Option Bytes) (msg signData : Bytes) :
    Option (Option Bytes) :=
  if msg.length ≠ MsgBytes ∨ signData.length ≠ SignatureRecoverableBytes then some none
  else if 3 < signData.getD 64 0 then none
  else some (ecdsaRecover msg signData)

/-- Blake2b of a size, the recovery of a key from a hash and a compact signature, and the check of a
detached signature. -/
structure CryptLib where
  blake2b : Nat → Bytes → Bytes
  length_blake2b : ∀ size data, 0 < size → size ≤ 64 → (blake2b size data).length = size
  ecdsaRecover : Bytes → Bytes → Option Bytes
  verifyDetached : Bytes → Bytes → Bytes → Bool

namespace CryptLib

variable (L : CryptLib) (network : NetworkType)

def hasher : Checksum where
  checksum := L.blake2b checksumHashLength
  length_checksum data := L.length_blake2b _ data (by decide) (by decide)

/-- `CreateAddress` of the service for secp256k1, with no check of the key. -/
def CreateAddress (pubKey : Bytes) : Except AddressError Address :=
  encode L.hasher network .secp256 (L.blake2b AddressLen_Secp256 pubKey)

variable (addr msg : Bytes) (signData : Option Bytes)

def secp256Verify : Option Bool :=
  match signData with
  | none => some false
  | some sig =>
    match RecoverPublicKey L.ecdsaRecover (L.blake2b MsgBytes msg) sig with
    | none => none
    | some pubKey =>
      -- without a key this is the address of no bytes
      match L.CreateAddress network (pubKey.getD []) with
      | .error _ => some false
      | .ok addrGen => some (addrGen == addr)

def ed25519Verify : Option Bool :=
  if msg.length = 0 ∨ (signData.getD []).length ≠ 64 then some false
  else
    match Address.Payload L.hasher addr with
    | none => none
    | some (.error _) => some false
    | some (.ok pubKey) =>
      some (pubKey.length == 32 && L.verifyDetached pubKey msg (signData.getD []))

/-- `CreateCryptService` for the kind of the key, then its `Verify`; `none` is a panic. -/
def Verify (cryptType : CryptType) (addr msg : Bytes) (signData : Option Bytes) : Option Bool :=
  match cryptType with
  | .secp256 => L.secp256Verify network addr msg signData
  | .ed25519 => L.ed25519Verify addr msg signData
  | _ => none

/-- No signature is good for both messages and one key, or one address of keys. -/
structure Separates (msg' : Bytes) : Prop where
  recovered : ∀ sig pubKey pubKey', L.ecdsaRecover (L.blake2b MsgBytes msg) sig = some pubKey →
    L.ecdsaRecover (L.blake2b MsgBytes msg') sig = some pubKey' →
    L.blake2b AddressLen_Secp256 pubKey = L.blake2b AddressLen_Secp256 pubKey' → msg = msg'
  detached : ∀ sig pubKey, L.verifyDetached pubKey msg sig = true →
    L.verifyDetached pubKey msg' sig = true → msg = msg'

variable {L network} {addr msg msg' : Bytes} {signData : Option Bytes}

theorem CreateAddress_inj {pubKey pubKey' : Bytes}
    (haddr : L.CreateAddress network pubKey = .ok addr)
    (haddr' : L.CreateAddress network pubKey' = .ok addr) :
    L.blake2b AddressLen_Secp256 pubKey = L.blake2b AddressLen_Secp256 pubKey' := by
  have hnetwork : network ≠ .unknown := by
    rintro rfl
    unfold CreateAddress encode at haddr
    split_ifs at haddr
    all_goals cases haddr
  have hdecode : ∀ pubKey, L.CreateAddress network pubKey = .ok addr →
      decode L.hasher addr = .ok (network, .secp256, L.blake2b AddressLen_Secp256 pubKey) := by
    intro pubKey hcreate
    obtain ⟨a, hencode, hdecode⟩ := decode_encode (H := L.hasher) hnetwork
      (by decide : CryptType.secp256 ≠ .unknown)
      (L.length_blake2b AddressLen_Secp256 pubKey (by decide) (by decide))
    rw [← Except.ok.inj (hencode.symm.trans hcreate)]
    exact hdecode
  have hsame := (hdecode pubKey haddr).symm.trans (hdecode pubKey' haddr')
  injection hsame with hsame
  injection hsame with _ hsame
  injection hsame

theorem secp256Verify_true (hverify : L.secp256Verify network addr msg signData = some true)
    (hkey : L.CreateAddress network [] ≠ .ok addr) :
    ∃ sig pubKey, signData = some sig ∧
      L.ecdsaRecover (L.blake2b MsgBytes msg) sig = some pubKey ∧
      L.CreateAddress network pubKey = .ok addr := by
  unfold secp256Verify at hverify
  cases signData with
  | none => simp at hverify
  | some sig =>
    simp only at hverify
    cases hrecover : RecoverPublicKey L.ecdsaRecover (L.blake2b MsgBytes msg) sig with
    | none => simp [hrecover] at hverify
    | some pubKey =>
      simp only [hrecover] at hverify
      cases hcreate : L.CreateAddress network (pubKey.getD []) with
      | error err => simp [hcreate] at hverify
      | ok addrGen =>
        obtain rfl : addrGen = addr := by simpa [hcreate] using hverify
        cases pubKey with
        | none => exact absurd hcreate hkey
        | some pubKey =>
          refine ⟨sig, pubKey, rfl, ?_, hcreate⟩
          unfold RecoverPublicKey at hrecover
          split_ifs at hrecover <;> simp_all

theorem ed25519Verify_true (hverify : L.ed25519Verify addr msg signData = some true) :
    ∃ pubKey, Address.Payload L.hasher addr = some (.ok pubKey) ∧
      L.verifyDetached pubKey msg (signData.getD []) = true := by
  unfold ed25519Verify at hverify
  split_ifs at hverify
  · cases hverify
  cases hpayload : Address.Payload L.hasher addr with
  | none => simp [hpayload] at hverify
  | some payload =>
    cases payload with
    | error err => simp [hpayload] at hverify
    | ok pubKey => exact ⟨pubKey, rfl, by simp_all⟩

theorem Verify_one_message {cryptType : CryptType} (hseparates : L.Separates msg msg')
    (hkey : L.CreateAddress network [] ≠ .ok addr)
    (hverify : L.Verify network cryptType addr msg signData = some true)
    (hverify' : L.Verify network cryptType addr msg' signData = some true) : msg = msg' := by
  cases cryptType with
  | secp256 =>
    obtain ⟨sig, pubKey, hsig, hrecover, hcreate⟩ := secp256Verify_true hverify hkey
    obtain ⟨sig', pubKey', hsig', hrecover', hcreate'⟩ := secp256Verify_true hverify' hkey
    obtain rfl : sig = sig' := Option.some.inj (hsig.symm.trans hsig')
    exact hseparates.recovered sig pubKey pubKey' hrecover hrecover'
      (CreateAddress_inj hcreate hcreate')
  | ed25519 =>
    obtain ⟨pubKey, hpayload, hdetached⟩ := ed25519Verify_true hverify
    obtain ⟨pubKey', hpayload', hdetached'⟩ := ed25519Verify_true hverify'
    rw [hpayload] at hpayload'
    cases hpayload'
    exact hseparates.detached _ pubKey hdetached hdetached'
  | _ => cases hverify

/-- Every message verifies for the address of the empty key with a signature of another length. -/
theorem Verify_of_empty_key {sig : Bytes} (hlength : sig.length ≠ SignatureRecoverableBytes)
    (haddr : L.CreateAddress network [] = .ok addr) :
    L.Verify network .secp256 addr msg (some sig) = some true := by
  simp [Verify, secp256Verify, RecoverPublicKey, hlength, haddr]

end CryptLib

end Topia.Crypt
